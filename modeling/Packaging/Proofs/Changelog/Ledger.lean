import Packaging.Changelog.Section
import Packaging.Proofs.Text.Split

/-!
# Whose changes the lines of an entry are

Dividing lines into sections also numbers the lines and groups the changes. What matters for the
question who made a change is less: the changes so far with the names in the markers of their
sections, the name in the last marker, and the lines of the change being made. `Ledger` keeps just
that.

## What is proved

* `ofDivider_feed` — a line does to the ledger of a divider what it does to the divider.
* `changesByAuthor_eq` — so the changes of an entry, without their line numbers, are those that the
  ledger of its lines has.
* `author_sections` — the name in the last marker is the author of the last section.
-/

namespace Packaging.Changelog

open Text

/-! ### Markers -/

theorem marker?_eq_some_iff {line name : Text} :
    marker? line = some name ↔ line = renderMarker name ∧ '\n' ∉ name := by
  have hmarker : renderMarker name = [' ', ' ', '[', ' '] ++ (name ++ [' ', ']']) := rfl
  unfold marker?
  simp only [Option.bind_eq_bind, Option.bind_eq_some_iff, dropStart?_eq_some_iff,
    dropEnd?_eq_some_iff, List.contains_eq_mem, decide_eq_true_eq]
  constructor
  · rintro ⟨_, rfl, name', rfl, hname⟩
    split at hname
    · cases hname
    · rename_i hnew
      cases hname
      exact ⟨rfl, hnew⟩
  · rintro ⟨rfl, hnew⟩
    exact ⟨_, hmarker, name, rfl, by rw [if_neg hnew]⟩

theorem isBlankLine_renderMarker (name : Text) : isBlankLine (renderMarker name) = false := by
  rfl

theorem marker?_of_isBlankLine {line : Text} (h : isBlankLine line = true) : marker? line = none := by
  cases hmarker : marker? line with
  | none => rfl
  | some name =>
    rw [(marker?_eq_some_iff.mp hmarker).1, isBlankLine_renderMarker] at h
    cases h

/-- A section is left out if it has no author and no changes. -/
theorem Section.isPresent_eq_false_iff {s : Section} :
    s.isPresent = false ↔ s.author = none ∧ s.changes = [] := by
  simp [Section.isPresent]

/-! ### The ledger -/

/-- The lines of a change, with the name in the marker of its section if there is one. -/
abbrev Attributed := Option Text × List Text

/-- The changes so far, the name in the last marker, and the lines of the change being made. -/
structure Ledger where
  closed : List Attributed := []
  author : Option Text := none
  current : Option (List Text) := none

namespace Ledger

/-- Finishes the change being made. -/
def close (g : Ledger) : Ledger :=
  { g with closed := g.closed ++ (g.current.map (g.author, ·)).toList, current := none }

/-- Takes a line. -/
def feed (g : Ledger) (line : Text) : Ledger :=
  if isBlankLine line then g.close
  else
    match marker? line with
    | some name => { g.close with author := some name }
    | none =>
      if startsWith bulletStart line then { g.close with current := some [line] }
      else { g with current := some (g.current.getD [] ++ [line]) }

/-- Takes lines. -/
def run (g : Ledger) (lines : List Text) : Ledger := lines.foldl feed g

/-- All changes, the one being made included. -/
def changes (g : Ledger) : List Attributed := g.close.closed

variable {g : Ledger} {line : Text}

@[simp] theorem run_nil (g : Ledger) : g.run [] = g := rfl

@[simp] theorem run_cons (g : Ledger) (line : Text) (lines : List Text) :
    g.run (line :: lines) = (g.feed line).run lines := rfl

theorem run_append (g : Ledger) (ls ms : List Text) : g.run (ls ++ ms) = (g.run ls).run ms :=
  List.foldl_append

@[simp] theorem close_close (g : Ledger) : g.close.close = g.close := by simp [close]

@[simp] theorem author_close (g : Ledger) : g.close.author = g.author := rfl

@[simp] theorem changes_close (g : Ledger) : g.close.changes = g.changes := by simp [changes]

theorem feed_of_isBlankLine (h : isBlankLine line = true) : g.feed line = g.close := by
  simp [feed, h]

theorem feed_renderMarker {name : Text} (h : '\n' ∉ name) :
    g.feed (renderMarker name) = { g.close with author := some name } := by
  have hmarker : marker? (renderMarker name) = some name := marker?_eq_some_iff.mpr ⟨rfl, h⟩
  simp [feed, isBlankLine_renderMarker, hmarker]

/-- A line that is neither blank nor a marker belongs to a change: a new one if it is a bullet. -/
theorem feed_of_text (hblank : isBlankLine line = false) (hmarker : marker? line = none) :
    g.feed line =
      if startsWith bulletStart line then { g.close with current := some [line] }
      else { g with current := some (g.current.getD [] ++ [line]) } := by
  simp [feed, hblank, hmarker]

theorem author_feed (g : Ledger) (line : Text) :
    (g.feed line).author = (marker? line).or g.author := by
  unfold feed
  split
  · rename_i hblank
    rw [marker?_of_isBlankLine hblank]
    rfl
  · split
    · rename_i hmarker
      rw [hmarker]
      rfl
    · rename_i hmarker
      rw [hmarker]
      split <;> rfl

theorem author_run (g : Ledger) (lines : List Text) :
    (g.run lines).author = (lines.filterMap marker?).getLast?.or g.author := by
  induction lines generalizing g with
  | nil => rfl
  | cons line lines ih =>
    rw [run_cons, ih, author_feed]
    cases hmarker : marker? line with
    | none => simp [hmarker]
    | some name =>
      rw [List.filterMap_cons_some hmarker, List.getLast?_cons]
      cases (lines.filterMap marker?).getLast? <;> rfl

/-! ### The ledger of a divider -/

/-- The changes of a section with its author. -/
def ofSection (s : Section) : List Attributed := s.changes.map fun c => (s.author, c.lines)

/-- What a divider has found. -/
def ofDivider (d : Divider) : Ledger :=
  { closed := (d.done ++ [d.current]).flatMap ofSection
    author := d.current.author
    current := d.change.map Change.lines }

/-- A change is being made only after a line that is not blank, and sections are finished only after
a marker. -/
structure Sound (d : Divider) : Prop where
  change : d.started = false → d.change = none
  done : d.current.author = none → d.done = []

variable {d : Divider}

theorem ofDivider_endChange (d : Divider) : ofDivider d.endChange = (ofDivider d).close := by
  cases hchange : d.change <;> simp [ofDivider, close, Divider.endChange, ofSection, hchange]

theorem ofDivider_addNumber (d : Divider) (n : Nat) : ofDivider (d.addNumber n) = ofDivider d := by
  simp [ofDivider, Divider.addNumber, ofSection]

/-- A section that is left out has no changes. -/
theorem ofSection_of_not_isPresent {s : Section} (h : s.isPresent = false) : ofSection s = [] := by
  simp [ofSection, (Section.isPresent_eq_false_iff.mp h).2]

theorem flatMap_endSection (d : Divider) :
    d.endSection.done.flatMap ofSection = (ofDivider d).changes := by
  have hclose : (ofDivider d).changes = (d.done ++ [d.endChange.current]).flatMap ofSection := by
    rw [changes, ← ofDivider_endChange]
    rfl
  rw [hclose]
  unfold Divider.endSection
  dsimp only
  split
  · rfl
  · rename_i hpresent
    have habsent : d.endChange.current.isPresent = false := by simpa using hpresent
    have hdone : d.endChange.done = d.done := rfl
    simp [hdone, ofSection_of_not_isPresent habsent]

/-- A marker finishes the section being made, and a section begins that has no changes yet. -/
theorem ofDivider_marker (d : Divider) (n : Nat) (name : Text) :
    ofDivider { d.endSection with current := { author := name, lineNumbers := [n] } } =
      { (ofDivider d).close with author := some name } := by
  have hdone : d.endSection.done.flatMap ofSection = (ofDivider d).close.closed :=
    flatMap_endSection d
  have hchange : d.endSection.change = none := rfl
  simp only [ofDivider, List.flatMap_append, hdone, hchange]
  simp [close, ofSection]

/-- Any other line that is not blank becomes a line of the change being made. -/
theorem ofDivider_add (d : Divider) (n : Nat) (line : Text) :
    ofDivider { d.addNumber n with change := some ((d.change.getD {}).add n line) } =
      { ofDivider d with current := some ((ofDivider d).current.getD [] ++ [line]) } := by
  have hnumber := ofDivider_addNumber d n
  simp only [ofDivider, Ledger.mk.injEq] at hnumber ⊢
  obtain ⟨hclosed, hauthor, -⟩ := hnumber
  refine ⟨hclosed, hauthor, ?_⟩
  cases d.change <;> simp [Change.add]

/-- A line does to the ledger of a divider what it does to the divider. -/
theorem ofDivider_feed (hd : Sound d) (n : Nat) (line : Text) :
    ofDivider (d.feed n line) = (ofDivider d).feed line := by
  unfold Divider.feed Ledger.feed
  split
  · -- a blank line finishes a change, and there is none before the first other line
    split
    · rw [ofDivider_addNumber, ofDivider_endChange]
    · rename_i hstarted
      have hchange : d.change = none := hd.change (by simpa using hstarted)
      simp [ofDivider, close, hchange]
  · have hstarted : ofDivider { d with started := true } = ofDivider d := rfl
    cases hmarker : marker? line with
    | some name => exact ofDivider_marker { d with started := true } n name
    | none =>
      dsimp only
      split
      · have hadd := ofDivider_add { d with started := true }.endChange n line
        rw [ofDivider_endChange, hstarted] at hadd
        exact hadd
      · exact ofDivider_add { d with started := true } n line

theorem Sound.feed (hd : Sound d) (n : Nat) (line : Text) : Sound (d.feed n line) := by
  unfold Divider.feed
  split
  · split
    · exact ⟨fun _ => rfl, hd.done⟩
    · exact hd
  cases marker? line with
  | some name => exact ⟨nofun, nofun⟩
  | none =>
    dsimp only
    split
    · exact ⟨nofun, hd.done⟩
    · exact ⟨nofun, hd.done⟩

theorem sound_run (hd : Sound d) (n : Nat) (lines : List Text) :
    Sound (d.run n lines) ∧ ofDivider (d.run n lines) = (ofDivider d).run lines := by
  induction lines generalizing d n with
  | nil => exact ⟨hd, rfl⟩
  | cons line lines ih =>
    obtain ⟨hsound, hrun⟩ := ih (hd.feed n line) (n + 1)
    refine ⟨hsound, ?_⟩
    rw [run_cons, ← ofDivider_feed hd n line]
    exact hrun

/-! ### The ledger of lines -/

/-- The ledger of the lines of an entry. -/
def ofLines (lines : List Text) : Ledger := run {} lines

theorem sound_empty : Sound {} := ⟨fun _ => rfl, fun _ => rfl⟩

/-- The changes of an entry, without their line numbers, are those in the ledger of its lines. -/
theorem changesByAuthor_eq (lines : List Text) :
    (changesByAuthor lines).map (fun p => (p.1, p.2.lines)) = (ofLines lines).changes := by
  obtain ⟨-, hrun⟩ := sound_run sound_empty 0 lines
  have hempty : ofDivider {} = {} := rfl
  rw [hempty] at hrun
  have hchanges := flatMap_endSection (Divider.run {} 0 lines)
  rw [hrun] at hchanges
  calc (changesByAuthor lines).map (fun p => (p.1, p.2.lines))
      = (sections lines).flatMap ofSection := by
        rw [changesByAuthor, List.map_flatMap]
        exact List.flatMap_congr fun s _ => by simp [ofSection]
    _ = (ofLines lines).changes := hchanges

/-- Either no line is a marker, and no section has an author; or the last section has the author whom
the last marker names. -/
theorem author_sections (lines : List Text) :
    (sections lines).all (·.author.isNone) = (ofLines lines).author.isNone ∧
      ∀ name, (ofLines lines).author = some name →
        (sections lines).getLast?.bind Section.author = some name := by
  obtain ⟨hsound, hrun⟩ := sound_run sound_empty 0 lines
  have hauthor : (Divider.run {} 0 lines).current.author = (ofLines lines).author :=
    congrArg Ledger.author hrun
  generalize hd : Divider.run {} 0 lines = d at hsound hauthor
  have hsections : sections lines = d.endSection.done := by rw [sections, hd]
  have hcurrent : d.endChange.current.author = d.current.author := rfl
  have hdone : d.endChange.done = d.done := rfl
  cases ha : d.current.author with
  | none =>
    rw [ha] at hauthor
    rw [← hauthor, hsections]
    refine ⟨?_, fun name hname => by cases hname⟩
    unfold Divider.endSection
    dsimp only
    rw [hdone, hsound.done ha]
    split <;> simp [hcurrent, ha]
  | some name =>
    rw [ha] at hauthor
    have hpresent : d.endChange.current.isPresent = true := by simp [Section.isPresent, hcurrent, ha]
    have hlast : d.endSection.done = d.done ++ [d.endChange.current] := by
      simp [Divider.endSection, hpresent, hdone]
    rw [← hauthor, hsections, hlast]
    refine ⟨by simp [hcurrent, ha], fun name' hname => ?_⟩
    cases hname
    simp [hcurrent, ha]

end Ledger

end Packaging.Changelog
