import Packaging.Proofs.Changelog.Reading

/-!
# Changelogs are read as they are written

A changelog is not written as it was read: headers and trailers are spaced in one way, and blank lines
before the first header are gone. What is written is read into the same entries all the same. While
lines are taken, `Reader.Rereads` holds of the reader and the lines that would be written for it: each
line that is taken adds one line, and this line does to a second reader what the first line did to the
first one.

## What is proved

* `Rereads.takes` — taking a line keeps this up.
* `parse_render_of_parse` — so a changelog that was read can be written, and reading what is written
  gives the same changelog.
-/

namespace Packaging.Changelog

open Text

/-! ### The lines that are written -/

theorem entryLines_cons_iff {e : Entry} {es : List Entry} {ls : List Text} :
    entryLines (e :: es) = .ok ls ↔
      ∃ first rest, e.renderLines = .ok first ∧ entryLines es = .ok rest ∧ ls = first ++ rest := by
  rw [entryLines]
  cases e.renderLines with
  | error err => simp
  | ok first => cases entryLines es <;> simp [eq_comm]

theorem entryLines_concat_iff {es : List Entry} {e : Entry} {ls : List Text} :
    entryLines (es ++ [e]) = .ok ls ↔
      ∃ rest last, entryLines es = .ok rest ∧ e.renderLines = .ok last ∧ ls = rest ++ last := by
  induction es generalizing ls with
  | nil =>
    rw [List.nil_append, entryLines_cons_iff]
    simp [entryLines]
  | cons e' es ih =>
    rw [List.cons_append, entryLines_cons_iff]
    simp only [ih, entryLines_cons_iff]
    constructor
    · rintro ⟨first, _, hfirst, ⟨rest, last, hrest, hlast, rfl⟩, rfl⟩
      exact ⟨first ++ rest, last, ⟨first, rest, hfirst, hrest, rfl⟩, hlast, by simp⟩
    · rintro ⟨_, last, ⟨first, rest, hfirst, hrest, rfl⟩, hlast, rfl⟩
      exact ⟨first, rest ++ last, hfirst, ⟨rest, last, hrest, hlast, rfl⟩, by simp⟩

namespace Entry

/-- The lines that are written for an entry whose trailer has not come. -/
def OpensWith (e : Entry) (ls : List Text) : Prop :=
  ∃ package version, e.package = some package ∧ e.version = some version ∧ e.trailing = [] ∧
    ls = headerLine package version e :: e.changes

/-- The trailer completes the lines of an entry. -/
theorem OpensWith.close {e : Entry} {ls : List Text} (h : e.OpensWith ls) (t : Trailer) :
    (e.close t).renderLines = .ok (ls ++ [trailerLine t.author t.date]) := by
  obtain ⟨package, version, hpackage, hversion, htrailing, rfl⟩ := h
  have hheader : headerLine package version (e.close t) = headerLine package version e := rfl
  simp [renderLines, Entry.close, hpackage, hversion, htrailing, ← hheader]

theorem OpensWith.addChange {e : Entry} {ls : List Text} (h : e.OpensWith ls) (line : Text) :
    (e.addChange line).OpensWith (ls ++ [line]) := by
  obtain ⟨package, version, hpackage, hversion, htrailing, rfl⟩ := h
  exact ⟨package, version, hpackage, hversion, htrailing, rfl⟩

theorem renderLines_addTrailing {e : Entry} {ls : List Text} (h : e.renderLines = .ok ls)
    (line : Text) : (e.addTrailing line).renderLines = .ok (ls ++ [line]) := by
  unfold renderLines at h
  split at h
  · cases h
  · cases h
  · cases h
  · rename_i package version author hpackage hversion hauthor
    cases h
    have hheader : headerLine package version (e.addTrailing line) = headerLine package version e := rfl
    simp [renderLines, addTrailing, hpackage, hversion, hauthor, ← hheader]

end Entry

/-! ### Reading again -/

namespace Reader

/-- Two readers hold the same entries; their lines may have other numbers. -/
structure Alike (r r' : Reader) : Prop where
  entries : r.entries = r'.entries
  current : r.current.map Prod.snd = r'.current.map Prod.snd

theorem Alike.of_open {es : List Entry} {start : Nat} {e : Entry} {r' : Reader}
    (h : Alike ⟨es, some (start, e)⟩ r') : ∃ start', r' = ⟨es, some (start', e)⟩ := by
  obtain ⟨entries', current'⟩ := r'
  obtain ⟨rfl, hcurrent⟩ := h
  obtain ⟨⟨start', e'⟩, rfl, he⟩ := Option.map_eq_some_iff.mp hcurrent.symm
  cases he
  exact ⟨start', rfl⟩

theorem Alike.of_closed {es : List Entry} {r' : Reader} (h : Alike ⟨es, none⟩ r') :
    r' = ⟨es, none⟩ := by
  obtain ⟨entries', current'⟩ := r'
  obtain ⟨rfl, hcurrent⟩ := h
  obtain rfl : current' = none := Option.map_eq_none_iff.mp hcurrent.symm
  rfl

/-- `ls` are the lines that are written for what the reader holds. -/
def Writes (r : Reader) (ls : List Text) : Prop :=
  ∃ closed opened, ls = closed ++ opened ∧ entryLines r.entries = .ok closed ∧
    match r.current with
    | some (_, e) => e.OpensWith opened
    | none => opened = []

/-- Reading the lines that are written for a reader gives what it holds. -/
structure Rereads (r : Reader) (ls : List Text) : Prop where
  writes : r.Writes ls
  isLine : ∀ l ∈ ls, IsLine l
  again : ∃ r', run {} 1 ls = .ok r' ∧ Alike r r'

theorem rereads_empty : Rereads {} [] :=
  ⟨⟨[], [], rfl, rfl, rfl⟩, by simp, {}, rfl, rfl, rfl⟩

variable {r r₂ : Reader} {es : List Entry} {e : Entry} {ls : List Text} {line : Text} {n start : Nat}

/-- A line more to write, which every reader of the lines before it takes in the same way. -/
theorem Rereads.concat (h : r.Rereads ls) (hwrites : r₂.Writes (ls ++ [line])) (hline : IsLine line)
    (htakes : ∀ r', Alike r r' → ∀ m, ∃ r₂', r'.Takes m line r₂' ∧ Alike r₂ r₂') :
    r₂.Rereads (ls ++ [line]) := by
  obtain ⟨r', hrun, halike⟩ := h.again
  obtain ⟨r₂', htakes', halike'⟩ := htakes r' halike (1 + ls.length)
  refine ⟨hwrites, List.forall_mem_append.mpr ⟨h.isLine, List.forall_mem_singleton.mpr hline⟩, r₂', ?_,
    halike'⟩
  rw [run_append hrun, htakes'.run_cons]
  rfl

/-- The trailer of an open entry closes it, and so does the line that is written for it. -/
theorem Rereads.closeEntry {t : Trailer} (h : Rereads ⟨es, some (start, e)⟩ ls) (hline : IsLine line)
    (htrailer : Trailer.parse? line = some t) : ∃ ls₂, Rereads ⟨es ++ [e.close t], none⟩ ls₂ := by
  obtain ⟨closed, opened, rfl, hclosed, hopened⟩ := h.writes
  have hwritten := entryLines_concat_iff.mpr ⟨closed, _, hclosed, Entry.OpensWith.close hopened t, rfl⟩
  refine ⟨_, h.concat ⟨_, [], by simp, hwritten, rfl⟩ (Trailer.isLine_trailerLine hline htrailer)
    fun r' hr' m => ?_⟩
  obtain ⟨start', rfl⟩ := hr'.of_open
  exact ⟨_, .trailer (Trailer.parse?_trailerLine htrailer), rfl, rfl⟩

/-- Any other line of an open entry is a change of it, as it is. -/
theorem Rereads.addChange (h : Rereads ⟨es, some (start, e)⟩ ls) (hline : IsLine line)
    (hinner : IsInner line) : Rereads ⟨es, some (start, e.addChange line)⟩ (ls ++ [line]) := by
  obtain ⟨closed, opened, rfl, hclosed, hopened⟩ := h.writes
  have hwrites : Writes ⟨es, some (start, e.addChange line)⟩ (closed ++ opened ++ [line]) :=
    ⟨closed, _, List.append_assoc .., hclosed, Entry.OpensWith.addChange hopened line⟩
  refine h.concat hwrites hline fun r' hr' m => ?_
  obtain ⟨start', rfl⟩ := hr'.of_open
  exact ⟨_, .change hinner, rfl, rfl⟩

/-- A header line opens an entry, and so does the line that is written for it. -/
theorem Rereads.openEntry {header : Header} (h : Rereads ⟨es, none⟩ ls) (hline : IsLine line)
    (hheader : Header.parse? line = some header) (he : Entry.ofHeader n line header = .ok e) :
    ∃ ls₂, Rereads ⟨es, some (n, e)⟩ ls₂ := by
  obtain ⟨closed, opened, rfl, hclosed, hopened⟩ := h.writes
  obtain rfl : opened = [] := hopened
  obtain ⟨package, version, hpackage, hversion, hchanges, htrailing, hlineHeader, header', hheader',
    hagain⟩ := Entry.reread_header hline.noNewline hheader he
  refine ⟨_, h.concat ⟨closed, [Entry.headerLine package version e], by simp, hclosed, package, version,
    hpackage, hversion, htrailing, by rw [hchanges]⟩ hlineHeader fun r' hr' m => ?_⟩
  rw [hr'.of_closed]
  exact ⟨_, .header hheader' (hagain ..), rfl, rfl⟩

/-- Any other line goes to the entry above it, as it is. -/
theorem Rereads.addTrailing (h : Rereads ⟨es ++ [e], none⟩ ls) (hline : IsLine line)
    (hheader : Header.parse? line = none) :
    Rereads ⟨es ++ [e.addTrailing line], none⟩ (ls ++ [line]) := by
  obtain ⟨closed, opened, rfl, hclosed, hopened⟩ := h.writes
  obtain rfl : opened = [] := hopened
  obtain ⟨rest, lastLines, hrest, hlastLines, rfl⟩ := entryLines_concat_iff.mp hclosed
  have hwritten : entryLines (es ++ [e.addTrailing line]) = .ok (rest ++ (lastLines ++ [line])) :=
    entryLines_concat_iff.mpr ⟨rest, _, hrest, Entry.renderLines_addTrailing hlastLines line, rfl⟩
  refine h.concat ⟨_, [], by simp, hwritten, rfl⟩ hline fun r' hr' m => ?_
  rw [hr'.of_closed]
  exact ⟨_, .trailing hheader, rfl, rfl⟩

/-- **Taking a line** keeps what a reader holds to what is written for it and read again. A blank line
before the first entry is not written. -/
theorem Rereads.takes (h : r.Rereads ls) (hline : IsLine line) (htakes : r.Takes n line r₂) :
    ∃ ls₂, r₂.Rereads ls₂ := by
  cases htakes with
  | trailer htrailer => exact h.closeEntry hline htrailer
  | change hinner => exact ⟨_, h.addChange hline hinner⟩
  | header hheader he => exact h.openEntry hline hheader he
  | trailing hheader => exact ⟨_, h.addTrailing hline hheader⟩
  | blank => exact ⟨ls, h⟩

theorem Rereads.run (h : r.Rereads ls) {input : List Text} (hinput : ∀ l ∈ input, IsLine l)
    (hrun : r.run n input = .ok r₂) : ∃ ls₂, r₂.Rereads ls₂ := by
  refine run_induction (fun r _ => ∃ ls, r.Rereads ls) IsLine ?_ [] ⟨ls, h⟩ hinput hrun
  rintro r r' - n line ⟨ls, h⟩ hline htakes
  exact h.takes hline htakes

end Reader

/-- **A changelog is read as it is written.** What is written for a changelog that was read from a
text is read as the same changelog, as long as no line of the text ends with a carriage return once
its line break is off. So it is written in the same way ever after. -/
theorem parse_render_of_parse {t : Text} {c : Changelog}
    (ht : ∀ line ∈ lines t, line.getLast? ≠ some '\r') (h : parse t = .ok c) :
    ∃ t', c.render = .ok t' ∧ parse t' = .ok c ∧ ∀ c', parse t' = .ok c' → c'.render = .ok t' := by
  unfold parse at h
  split at h
  · cases h
  rename_i r hrun
  split at h
  · cases h
  rename_i hcurrent
  cases h
  obtain ⟨ls, ⟨closed, opened, rfl, hclosed, hopened⟩, hlines, r', hagain, hentries, hcurrent'⟩ :=
    Reader.rereads_empty.run (fun l hl => ⟨newline_not_mem_of_mem_lines hl, ht l hl⟩) hrun
  rw [hcurrent] at hopened hcurrent'
  have hrender : render ⟨r.entries⟩ = .ok (unlines (closed ++ opened)) := by
    simp [render, hclosed, Except.map, show opened = [] from hopened]
  have hparse : parse (unlines (closed ++ opened)) = .ok ⟨r.entries⟩ := by
    have hnone : r'.current = none := by simpa using hcurrent'.symm
    rw [parse, lines_unlines hlines, hagain]
    simp [hnone, hentries]
  refine ⟨_, hrender, hparse, fun c' hc' => ?_⟩
  rw [hparse] at hc'
  cases hc'
  exact hrender

/-- A changelog that is not written as it was read. -/
def looseText : Text :=
  "\nhello (01:2-1)\tsid  x; Binary-Only=yes ,URGENCY=low now\n\n  * New.\n -- J <j@x> Mon\n\n".toList

/-- Its entry. -/
def looseEntry : Entry where
  package := "hello".toList
  version := some ⟨some 1, ['2'], some ['1']⟩
  distributions := "sid  x".toList
  urgency := "low".toList
  urgencyComment := " now".toList
  settings := [("Binary-Only".toList, "yes".toList)]
  changes := [[], "  * New.".toList]
  author := "J <j@x>".toList
  date := "Mon".toList
  trailing := [[]]

theorem parse_render_looseText :
    (∀ line ∈ lines looseText, line.getLast? ≠ some '\r') ∧ parse looseText = .ok ⟨[looseEntry]⟩ ∧
      ∃ t, render ⟨[looseEntry]⟩ = .ok t ∧ parse t = .ok ⟨[looseEntry]⟩ ∧ t ≠ looseText := by
  have hreturn : ∀ line ∈ lines looseText, line.getLast? ≠ some '\r' := by decide +kernel
  have hparse : parse looseText = .ok ⟨[looseEntry]⟩ := by decide +kernel
  obtain ⟨t, hrender, hagain, -⟩ := parse_render_of_parse hreturn hparse
  refine ⟨hreturn, hparse, t, hrender, hagain, fun ht => ?_⟩
  rw [ht] at hrender
  exact absurd hrender (by decide +kernel)

end Packaging.Changelog
