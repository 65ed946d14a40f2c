import Packaging.Proofs.Changelog.Summary

/-!
# Entries made ready for a change

Before a change is added, blank lines and author markers are put in or taken out. With a marker in
front of lines that had none, the sections of these lines are others than before, but their changes
are credited to the same person as long as that is the person in the trailer.

## What is proved

* `prepareLines_spec` — making lines ready changes nothing about who is credited with their changes.
  What is added next is credited to the new author, except where all lines are blank: there it goes to
  the owner of the entry.
* `creditsOf_addSummary` — a summary behind lines adds one change to those that are credited.
-/

namespace Packaging.Changelog

open Text

/-- Who is credited with a change: the author whom the marker of its section names, or else the owner
of the entry. -/
def credit (owner : Option Text) (a : Attributed) : Attributed := (a.1.or owner, a.2)

/-- The changes in lines with those who are credited with them. -/
def creditsOf (owner : Option Text) (lines : List Text) : List Attributed :=
  (Ledger.ofLines lines).changes.map (credit owner)

namespace Ledger

/-! ### Blank lines -/

theorem close_eq_self {g : Ledger} (h : g.current = none) : g.close = g := by
  obtain ⟨closed, author, current⟩ := g
  cases h
  simp [close]

theorem run_of_blank {g : Ledger} (hg : g.current = none) {lines : List Text}
    (h : ∀ l ∈ lines, isBlankLine l = true) : g.run lines = g := by
  induction lines with
  | nil => rfl
  | cons line lines ih =>
    obtain ⟨hline, hlines⟩ := List.forall_mem_cons.mp h
    rw [run_cons, feed_of_isBlankLine hline, close_eq_self hg, ih hlines]

theorem ofLines_of_blank {lines : List Text} (h : ∀ l ∈ lines, isBlankLine l = true) :
    ofLines lines = {} := run_of_blank rfl h

theorem ofLines_append (ls ms : List Text) : ofLines (ls ++ ms) = (ofLines ls).run ms :=
  run_append {} ls ms

theorem ofLines_concat_blank {lines : List Text} {blank : Text} (h : isBlankLine blank = true) :
    ofLines (lines ++ [blank]) = (ofLines lines).close := by
  rw [ofLines_append, run_cons, run_nil, feed_of_isBlankLine h]

/-- Two ledgers say the same about finished and unfinished changes; in one of them the last change
may be finished and in the other not. -/
structure Alike (g g' : Ledger) : Prop where
  changes : g.changes = g'.changes
  author : g.author = g'.author

theorem alike_ensureTrailingBlank (lines : List Text) :
    Alike (ofLines (ensureTrailingBlank lines)) (ofLines lines) := by
  unfold ensureTrailingBlank
  split
  · rw [ofLines_concat_blank (by rfl)]
    exact ⟨changes_close _, author_close _⟩
  · exact ⟨rfl, rfl⟩

theorem alike_dropTrailingBlank (lines : List Text) :
    Alike (ofLines (dropTrailingBlank lines)) (ofLines lines) := by
  unfold dropTrailingBlank
  split
  · rename_i hblank
    rw [Bool.and_eq_true] at hblank
    cases hlast : lines.getLast? with
    | none => simp [hlast] at hblank
    | some blank =>
      have hisBlank : isBlankLine blank = true := by simpa [hlast] using hblank.2
      obtain ⟨init, rfl⟩ := List.getLast?_eq_some_iff.mp hlast
      rw [List.dropLast_concat, ofLines_concat_blank hisBlank]
      exact ⟨(changes_close _).symm, (author_close _).symm⟩
  · exact ⟨rfl, rfl⟩

theorem Alike.creditsOf_eq {ls ms : List Text} (h : Alike (ofLines ls) (ofLines ms))
    (owner : Option Text) : creditsOf owner ls = creditsOf owner ms := by
  rw [creditsOf, h.changes, creditsOf]

/-! ### Markers -/

/-- A marker at the end finishes a change and begins a section without changes. -/
theorem ofLines_addMarker (lines : List Text) {name : Text} (h : '\n' ∉ name) :
    (ofLines (addMarker lines name)).changes = (ofLines lines).changes ∧
      (ofLines (addMarker lines name)).author = some name := by
  have halike := alike_ensureTrailingBlank lines
  rw [addMarker, ofLines_append, run_cons, run_nil, feed_renderMarker h]
  refine ⟨?_, rfl⟩
  rw [← halike.changes]
  exact changes_close _

/-- `g` says of its changes what `g'` says of them if those without a marker are the owner's. -/
structure Owned (owner : Text) (g g' : Ledger) : Prop where
  closed : g.closed.map (credit owner) = g'.closed.map (credit owner)
  author : g.author = some owner
  noAuthor : g'.author = none
  current : g.current = g'.current

variable {owner : Text} {g g' : Ledger}

theorem Owned.close (h : Owned owner g g') : Owned owner g.close g'.close := by
  refine ⟨?_, h.author, h.noAuthor, rfl⟩
  simp only [Ledger.close, List.map_append, h.closed, h.author, h.noAuthor, h.current]
  cases g'.current <;> simp [credit]

theorem Owned.feed (h : Owned owner g g') {line : Text} (hmarker : marker? line = none) :
    Owned owner (g.feed line) (g'.feed line) := by
  by_cases hblank : isBlankLine line = true
  · rw [feed_of_isBlankLine hblank, feed_of_isBlankLine hblank]
    exact h.close
  · have hblank : isBlankLine line = false := by simpa using hblank
    rw [feed_of_text hblank hmarker, feed_of_text hblank hmarker]
    split
    · exact ⟨h.close.closed, h.author, h.noAuthor, rfl⟩
    · exact ⟨h.closed, h.author, h.noAuthor, by rw [h.current]⟩

theorem Owned.run (h : Owned owner g g') {lines : List Text}
    (hmarkers : ∀ l ∈ lines, marker? l = none) : Owned owner (g.run lines) (g'.run lines) := by
  induction lines generalizing g g' with
  | nil => exact h
  | cons line lines ih =>
    obtain ⟨hline, hlines⟩ := List.forall_mem_cons.mp hmarkers
    exact ih (h.feed hline) hlines

theorem insertIdx_length_append (before after : List Text) (line : Text) :
    (before ++ after).insertIdx before.length line = before ++ line :: after := by
  induction before with
  | nil => rfl
  | cons l before ih => simp [ih]

/-- A marker for the owner in front of lines without markers changes nothing about who is credited. -/
theorem owned_insertIdx {lines : List Text} {start : Nat} (howner : '\n' ∉ owner)
    (hmarkers : ∀ l ∈ lines, marker? l = none)
    (hstart : lines.findIdx? (!isBlankLine ·) = some start) :
    Owned owner (ofLines (lines.insertIdx start (renderMarker owner))) (ofLines lines) := by
  obtain ⟨hlt, -, hbefore⟩ := List.findIdx?_eq_some_iff_getElem.mp hstart
  have hblank : ∀ l ∈ lines.take start, isBlankLine l = true := by
    intro l hl
    obtain ⟨i, hi, rfl⟩ := List.mem_take_iff_getElem.mp hl
    simpa using hbefore i (by omega)
  have hcut : lines = lines.take start ++ lines.drop start := (List.take_append_drop start lines).symm
  have hlength : (lines.take start).length = start := List.length_take_of_le hlt.le
  have hinsert : lines.insertIdx start (renderMarker owner) =
      lines.take start ++ renderMarker owner :: lines.drop start := by
    have h := insertIdx_length_append (lines.take start) (lines.drop start) (renderMarker owner)
    rwa [← hcut, hlength] at h
  have hlines : ofLines lines = ({} : Ledger).run (lines.drop start) := by
    conv_lhs => rw [hcut]
    rw [ofLines_append, ofLines_of_blank hblank]
  rw [hinsert, ofLines_append, ofLines_of_blank hblank, run_cons, feed_renderMarker howner, hlines]
  have hempty : Owned owner { ({} : Ledger).close with author := some owner } {} :=
    ⟨rfl, rfl, rfl, rfl⟩
  exact hempty.run fun l hl => hmarkers l (List.mem_of_mem_drop hl)

/-- Without an author in the ledger there is no marker in the lines. -/
theorem marker?_eq_none_of_author {lines : List Text} (h : (ofLines lines).author = none) :
    ∀ l ∈ lines, marker? l = none := by
  have hlast : (lines.filterMap marker?).getLast? = none := by
    have hrun := author_run {} lines
    rw [ofLines] at h
    rw [h] at hrun
    simpa using hrun.symm
  rw [List.getLast?_eq_none_iff, List.filterMap_eq_nil_iff] at hlast
  exact hlast

end Ledger

open Ledger

/-! ### Lines made ready -/

/-- The lines that a new entry has. -/
theorem isBlankLine_of_mem_singleton_nil : ∀ l ∈ ([[]] : List Text), isBlankLine l = true := by
  simp [isBlankLine]

theorem creditsOf_of_blank (owner : Option Text) {lines : List Text}
    (h : ∀ l ∈ lines, isBlankLine l = true) : creditsOf owner lines = [] := by
  rw [creditsOf, ofLines_of_blank h]
  rfl

theorem prepareLines_of_blank (owner : Option (Text × Text)) {lines : List Text}
    (h : lines.findIdx? (!isBlankLine ·) = none) (name : Text) : prepareLines owner lines name = [[]] := by
  simp [prepareLines, h]

/-- Lines made ready for a change by `name` in an entry of `owner`: what they are credited with is as
before, and what comes next is credited to `name`, unless all lines are blank. -/
theorem prepareLines_spec {owner name : Text} (howner : '\n' ∉ owner) (hname : '\n' ∉ name)
    (address : Text) (lines : List Text) :
    creditsOf (some owner) (prepareLines (some (owner, address)) lines name) =
        creditsOf (some owner) lines ∧
      (ofLines (prepareLines (some (owner, address)) lines name)).author.or (some owner) =
        some (if lines.all isBlankLine then owner else name) := by
  cases hstart : lines.findIdx? (!isBlankLine ·) with
  | none =>
    have hblank : ∀ l ∈ lines, isBlankLine l = true := by simpa using hstart
    have hall : lines.all isBlankLine = true := List.all_eq_true.mpr hblank
    rw [prepareLines_of_blank _ hstart, creditsOf_of_blank _ isBlankLine_of_mem_singleton_nil,
      creditsOf_of_blank _ hblank, ofLines_of_blank isBlankLine_of_mem_singleton_nil, hall]
    exact ⟨rfl, rfl⟩
  | some start =>
    have hall : lines.all isBlankLine = false := by
      obtain ⟨hlt, htext, -⟩ := List.findIdx?_eq_some_iff_getElem.mp hstart
      rw [List.all_eq_false]
      exact ⟨lines[start], List.getElem_mem hlt, by simpa using htext⟩
    obtain ⟨hnone, hlast⟩ := author_sections lines
    simp only [prepareLines, hstart, hall, hnone]
    cases hauthor : (ofLines lines).author with
    | none =>
      have hmarkers := marker?_eq_none_of_author hauthor
      simp only [Option.isNone_none, if_true, Bool.false_eq_true, if_false]
      split
      · -- somebody else joins in
        have howned := owned_insertIdx howner hmarkers hstart
        obtain ⟨hchanges, hmarked⟩ :=
          ofLines_addMarker (lines.insertIdx start (renderMarker owner)) hname
        rw [hmarked, creditsOf, hchanges]
        exact ⟨howned.close.closed, rfl⟩
      · -- the owner goes on
        rename_i hsame
        have halike := alike_dropTrailingBlank lines
        refine ⟨halike.creditsOf_eq _, ?_⟩
        rw [halike.author, hauthor, Option.none_or, not_not.mp hsame]
    | some last =>
      rw [hlast last hauthor]
      simp only [Option.isNone_some, Bool.false_eq_true, if_false]
      split
      · rename_i hsame
        have halike := alike_dropTrailingBlank lines
        refine ⟨halike.creditsOf_eq _, ?_⟩
        rw [halike.author, hauthor, ← hsame]
        rfl
      · obtain ⟨hchanges, hmarked⟩ := ofLines_addMarker lines hname
        rw [hmarked, creditsOf, hchanges]
        exact ⟨rfl, rfl⟩

/-- A summary behind lines is one change more, credited to the author of the last marker or the
owner. -/
theorem creditsOf_addSummary {first : Text} (hfirst : isBlankLine first = false) (further : List Text)
    (owner : Option Text) (lines : List Text) :
    creditsOf owner (lines ++ formatSummary (first :: further) ++ [[]]) =
      creditsOf owner lines ++ [((ofLines lines).author.or owner, formatSummary (first :: further))] := by
  obtain ⟨line, more, hsummary, hbullet, hfurther⟩ := formatSummary_eq hfirst further
  rw [creditsOf, ofLines_concat_blank (by rfl), changes_close, ofLines_append, hsummary,
    changes_run_change _ hbullet hfurther, List.map_append]
  rfl

end Packaging.Changelog
