import Packaging.Proofs.Changelog.Acceptance
import Packaging.Proofs.Changelog.RoundTrip

/-!
# Lines that are kept

A changelog that was read is written line by line as it was read: nothing is lost, moved, doubled or
changed but the spacing of headers and trailers. A line that looks like a trailer and stands between
entries is no trailer of an entry, so it is kept as well.

## What is proved

* `Keeps.append` — lines are kept if the parts they are made of are kept.
* `Stretch.Gives.exists_written` — what is written for an entry keeps the lines that it was read from.
* `render_keeps` — every changelog that was read can be written, and this keeps the lines of the text
  from the first header on.
-/

namespace Packaging.Changelog

open Text

/-- Behind the lines `before`, the line is the header or the trailer of an entry. -/
def IsFrame (before : List Text) (line : Text) : Prop :=
  (Header.parse? line).isSome ∨ (Trailer.parse? line).isSome ∧ ∃ start, EndsInEntry before start

/-- There is a line written for each of the lines `ls`, which are behind the lines `above`. It is the
same line, unless that is a header or a trailer of an entry. -/
structure Keeps (above ls written : List Text) : Prop where
  noNewline : ∀ l ∈ written, '\n' ∉ l
  length : written.length = ls.length
  same : ∀ k line, ls[k]? = some line → ¬ IsFrame (above ++ ls.take k) line → written[k]? = some line

/-! ### Keeping the parts -/

theorem keeps_self {above ls : List Text} (h : ∀ l ∈ ls, '\n' ∉ l) : Keeps above ls ls :=
  ⟨h, rfl, fun _ _ hline _ => hline⟩

theorem keeps_frame {above : List Text} {line written : Text} (h : IsFrame above line)
    (hnew : '\n' ∉ written) : Keeps above [line] [written] := by
  refine ⟨List.forall_mem_singleton.mpr hnew, rfl, fun k l hl hnot => ?_⟩
  cases k with
  | zero =>
    cases hl
    exact absurd (by simpa using h) hnot
  | succ k => cases hl

/-- Lines are kept if both their parts are. -/
theorem Keeps.append {above ls ls' written written' : List Text} (h : Keeps above ls written)
    (h' : Keeps (above ++ ls) ls' written') : Keeps above (ls ++ ls') (written ++ written') := by
  refine ⟨List.forall_mem_append.mpr ⟨h.noNewline, h'.noNewline⟩, by simp [h.length, h'.length],
    fun k line hline hnot => ?_⟩
  by_cases hk : k < ls.length
  · rw [List.getElem?_append_left hk] at hline
    rw [List.take_append_of_le_length hk.le] at hnot
    rw [List.getElem?_append_left (h.length ▸ hk)]
    exact h.same k line hline hnot
  · have hle : ls.length ≤ k := by omega
    rw [List.getElem?_append_right hle] at hline
    rw [List.take_append, List.take_of_length_le hle, ← List.append_assoc] at hnot
    rw [List.getElem?_append_right (h.length ▸ hle), h.length]
    exact h'.same (k - ls.length) line hline hnot

/-! ### Keeping the lines of entries -/

theorem Entry.EndsWith.isFrame {e : Entry} {line : Text} (h : e.EndsWith line) {above body : List Text}
    {header : Text} (hheader : e.BeginsWith header) (hbody : ∀ l ∈ body, IsInner l) :
    IsFrame (above ++ header :: body) line := by
  obtain ⟨t, ht, -⟩ := h
  obtain ⟨head, hhead, -⟩ := hheader
  exact .inr ⟨by simp [ht], _, above, header, body, rfl, rfl, by simp [hhead], hbody⟩

/-- **What is written for an entry** keeps the lines of the stretch that gives it. -/
theorem Stretch.Gives.exists_written {s : Stretch} {e : Entry} (h : s.Gives e)
    (hnew : ∀ l ∈ s.toLines, '\n' ∉ l) (above : List Text) :
    ∃ written, e.renderLines = .ok written ∧ Keeps above s.toLines written := by
  obtain ⟨t, ht, hauthor, hdate⟩ := h.trailer
  simp only [toLines, List.mem_cons, List.mem_append] at hnew
  obtain ⟨package, version, hpackage, hversion, hheader⟩ := h.header.exists_hasHeader (hnew _ (.inl rfl))
  have hheaderFrame : IsFrame above s.header := .inl (by
    obtain ⟨header, hparse, -⟩ := h.header
    simp [hparse])
  have htrailerFrame : IsFrame (above ++ s.header :: s.body) s.trailer :=
    h.trailer.isFrame h.header h.body
  have htrailerLine : '\n' ∉ Entry.trailerLine t.author t.date := fun hmem =>
    hnew s.trailer (.inr (.inr (.inl rfl))) (Trailer.mem_of_mem_trailerLine ht hmem (by decide))
  refine ⟨Entry.headerLine package version e ::
    (s.body ++ Entry.trailerLine t.author t.date :: s.after), ?_, ?_⟩
  · rw [Entry.renderLines_eq_ok hpackage hversion hauthor, hdate, h.changes, h.trailing]
  · have hheaderKept : Keeps above [s.header] [Entry.headerLine package version e] :=
      keeps_frame hheaderFrame hheader.isLine.noNewline
    have hbodyKept : Keeps (above ++ [s.header]) s.body s.body :=
      keeps_self fun l hl => hnew l (.inr (.inl hl))
    have htrailerKept : Keeps (above ++ ([s.header] ++ s.body)) [s.trailer]
        [Entry.trailerLine t.author t.date] := keeps_frame htrailerFrame htrailerLine
    have hafterKept : Keeps (above ++ ([s.header] ++ s.body ++ [s.trailer])) s.after s.after :=
      keeps_self fun l hl => hnew l (.inr (.inr (.inr hl)))
    have hkept := ((hheaderKept.append hbodyKept).append htrailerKept).append hafterKept
    simpa [toLines] using hkept

theorem exists_written {ss : List Stretch} {es : List Entry} (h : List.Forall₂ Stretch.Gives ss es)
    (hnew : ∀ l ∈ ss.flatMap Stretch.toLines, '\n' ∉ l) (above : List Text) :
    ∃ written, entryLines es = .ok written ∧ Keeps above (ss.flatMap Stretch.toLines) written := by
  induction h generalizing above with
  | nil => exact ⟨[], rfl, keeps_self (by simp)⟩
  | @cons s e ss es hs _ ih =>
    rw [List.flatMap_cons] at hnew ⊢
    obtain ⟨hfirst, hrest⟩ := List.forall_mem_append.mp hnew
    obtain ⟨first, hfirstLines, hfirstKept⟩ := hs.exists_written hfirst above
    obtain ⟨rest, hrestLines, hrestKept⟩ := ih hrest (above ++ s.toLines)
    exact ⟨first ++ rest, entryLines_cons_iff.mpr ⟨first, rest, hfirstLines, hrestLines, rfl⟩,
      hfirstKept.append hrestKept⟩

/-- The first header is the first line that is not blank. -/
theorem dropWhile_isBlankLine {blanks : List Text} {ss : List Stretch} {es : List Entry}
    (hblanks : ∀ l ∈ blanks, isBlankLine l = true) (h : List.Forall₂ Stretch.Gives ss es) :
    (blanks ++ ss.flatMap Stretch.toLines).dropWhile isBlankLine = ss.flatMap Stretch.toLines := by
  rw [List.dropWhile_append_of_pos hblanks]
  cases h with
  | nil => rfl
  | @cons s e ss es hs _ =>
    obtain ⟨header, hheader, -⟩ := hs.header
    have hnot : ¬ isBlankLine s.header = true := fun hblank => by
      simp [parse?_header_of_blank hblank] at hheader
    rw [List.flatMap_cons, Stretch.toLines, List.cons_append, List.dropWhile_cons_of_neg hnot]

/-- **Lines are kept.** A changelog that was read can be written, line by line as its text was from the
first header on: there are as many lines, and each that is not the header or the trailer of an entry is
the same line in the same place. -/
theorem render_keeps {t : Text} {c : Changelog} (h : parse t = .ok c) :
    ∃ written, c.render = .ok (unlines written) ∧
      Keeps [] ((lines t).dropWhile isBlankLine) written := by
  obtain ⟨blanks, ss, hlines, hblanks, hss⟩ := parse_eq_ok_iff.mp h
  have hnew : ∀ l ∈ ss.flatMap Stretch.toLines, '\n' ∉ l := fun l hl =>
    newline_not_mem_of_mem_lines (t := t) (by simp [hlines, hl])
  obtain ⟨written, hwritten, hkept⟩ := exists_written hss hnew []
  refine ⟨written, by rw [render, hwritten]; rfl, ?_⟩
  rwa [hlines, dropWhile_isBlankLine hblanks hss]

/-- A text whose header and trailer are spaced in another way than they are written. The last line only
looks like a trailer. -/
def spacedText : Text :=
  "\n\nhello (1-1)  sid;urgency=low\n\n  * New. \n -- J <j@x> Mon\n\n -- J <j@x> Tue\n".toList

/-- Its entry. -/
def spacedEntry : Entry where
  package := "hello".toList
  version := some ⟨none, ['1'], some ['1']⟩
  distributions := "sid".toList
  urgency := "low".toList
  changes := [[], "  * New. ".toList]
  author := "J <j@x>".toList
  date := "Mon".toList
  trailing := [[], " -- J <j@x> Tue".toList]

theorem render_keeps_spacedText :
    parse spacedText = .ok ⟨[spacedEntry]⟩ ∧
      ∃ written, render ⟨[spacedEntry]⟩ = .ok (unlines written) ∧
        Keeps [] ((lines spacedText).dropWhile isBlankLine) written ∧ written.length = 6 := by
  have hparse : parse spacedText = .ok ⟨[spacedEntry]⟩ := by decide +kernel
  obtain ⟨written, hrender, hkept⟩ := render_keeps hparse
  have hlength : ((lines spacedText).dropWhile isBlankLine).length = 6 := by decide +kernel
  exact ⟨hparse, written, hrender, hkept, hkept.length.trans hlength⟩

end Packaging.Changelog
