import Packaging.Proofs.Changelog.Kept

/-!
# Changelogs that are read as they are written

A changelog that is put together, rather than read, may hold entries that no text says: an entry
without an author, a change that looks like a trailer, a date with a newline in it. `IsRereadable` says
of each part of an entry what it has to be.

## What is proved

* `Entry.IsRereadable.exists_stretch` — what is written for a rereadable entry is a stretch of lines that
  gives the entry.
* `exists_render_parse_iff` — the changelogs that are written and read again as the same are those with
  rereadable entries, and no others.
-/

namespace Packaging.Changelog

open Text

namespace Entry

/-- What is written for the entry is read into it again. -/
structure IsRereadable (e : Entry) : Prop where
  header : ∃ package version, e.package = some package ∧ e.version = some version ∧
    e.HasHeader package version
  trailer : ∃ author, e.author = some author ∧ IsLine (trailerLine author e.date) ∧
    Trailer.parse? (trailerLine author e.date) = some ⟨author, e.date⟩
  changes : ∀ l ∈ e.changes, IsLine l ∧ IsInner l
  trailing : ∀ l ∈ e.trailing, IsLine l ∧ Header.parse? l = none

variable {e : Entry}

/-- **What is written for a rereadable entry** is a stretch of lines that gives the entry. -/
theorem IsRereadable.exists_stretch (h : e.IsRereadable) :
    ∃ s : Stretch, e.renderLines = .ok s.toLines ∧ s.Gives e ∧ ∀ l ∈ s.toLines, IsLine l := by
  obtain ⟨package, version, hpackage, hversion, hheader⟩ := h.header
  obtain ⟨author, hauthor, htrailerLine, htrailer⟩ := h.trailer
  refine ⟨⟨headerLine package version e, e.changes, trailerLine author e.date, e.trailing⟩,
    renderLines_eq_ok hpackage hversion hauthor,
    ⟨hheader.beginsWith hpackage hversion, ⟨_, htrailer, hauthor, rfl⟩, rfl, rfl,
      fun l hl => (h.changes l hl).2, fun l hl => (h.trailing l hl).2⟩, ?_⟩
  refine List.forall_mem_cons.mpr ⟨hheader.isLine, List.forall_mem_append.mpr
    ⟨fun l hl => (h.changes l hl).1, List.forall_mem_cons.mpr ⟨htrailerLine, ?_⟩⟩⟩
  exact fun l hl => (h.trailing l hl).1

theorem isLine_of_map_dropReturn {ls : List Text} (hnew : ∀ l ∈ ls, '\n' ∉ l)
    (h : ls.map dropReturn = ls) : ∀ l ∈ ls, IsLine l := by
  have hsame : ∀ l ∈ ls, dropReturn l = id l := List.map_inj_left.mp (h.trans (List.map_id ls).symm)
  exact fun l hl => ⟨hnew l hl, dropReturn_eq_self_iff.mp (hsame l hl)⟩

/-- A trailer that loses a carriage return when it is read is not the one that was written. -/
theorem trailerLine_eq_of_dropReturn {line : Text} {t : Trailer} (h : Trailer.parse? line = some t)
    (hsame : dropReturn (trailerLine t.author t.date) = line) : trailerLine t.author t.date = line := by
  by_cases hlast : (trailerLine t.author t.date).getLast? = some '\r'
  · obtain ⟨body, hbody⟩ := List.getLast?_eq_some_iff.mp hlast
    have hline : body = line := by
      rw [← hsame, hbody]
      simp [dropReturn]
    have hcount := Trailer.count_trailerLine h (show '\r' ≠ ' ' by decide)
    rw [hbody, hline, List.count_append] at hcount
    simp at hcount
  · rw [← hsame, dropReturn_eq_self hlast]

/-- An entry is rereadable if what is written for it is, carriage returns left out, the stretch of lines
that gives it. -/
theorem isRereadable_of_gives {s : Stretch} {written : List Text} (h : s.Gives e)
    (hnew : ∀ l ∈ s.toLines, '\n' ∉ l) (hwritten : e.renderLines = .ok written)
    (hsame : written.map dropReturn = s.toLines) : e.IsRereadable := by
  obtain ⟨hnewHeader, hnewRest⟩ := List.forall_mem_cons.mp hnew
  obtain ⟨hnewBody, hnewRest⟩ := List.forall_mem_append.mp hnewRest
  obtain ⟨hnewTrailer, hnewAfter⟩ := List.forall_mem_cons.mp hnewRest
  obtain ⟨package, version, hpackage, hversion, hheader⟩ :=
    h.header.exists_hasHeader hnewHeader
  obtain ⟨t, ht, hauthor, hdate⟩ := h.trailer
  rw [renderLines_eq_ok hpackage hversion hauthor] at hwritten
  cases hwritten
  -- line by line, what is written loses its carriage returns and becomes the stretch
  rw [List.map_cons, List.map_append, List.map_cons, Stretch.toLines, ← h.changes, ← h.trailing] at hsame
  obtain ⟨hchanges, hrest⟩ := List.append_inj (List.cons.inj hsame).2 (by simp)
  obtain ⟨htrailer, htrailing⟩ := List.cons.inj hrest
  rw [hdate] at htrailer
  have hline := trailerLine_eq_of_dropReturn ht htrailer
  have hagain : Trailer.parse? (trailerLine t.author e.date) = some ⟨t.author, e.date⟩ := by
    rw [hdate, hline, ht]
  have hisLine : IsLine (trailerLine t.author e.date) := by
    rw [hdate]
    refine ⟨hline ▸ hnewTrailer, dropReturn_eq_self_iff.mp (htrailer.trans hline.symm)⟩
  refine ⟨⟨package, version, hpackage, hversion, hheader⟩, ⟨t.author, hauthor, hisLine, hagain⟩,
    fun l hl => ⟨?_, h.body l (h.changes ▸ hl)⟩, fun l hl => ⟨?_, h.after l (h.trailing ▸ hl)⟩⟩
  · exact isLine_of_map_dropReturn (h.changes ▸ hnewBody) hchanges l hl
  · exact isLine_of_map_dropReturn (h.trailing ▸ hnewAfter) htrailing l hl

end Entry

variable {es : List Entry}

theorem exists_stretches (h : ∀ e ∈ es, e.IsRereadable) :
    ∃ ss, entryLines es = .ok (ss.flatMap Stretch.toLines) ∧ List.Forall₂ Stretch.Gives ss es ∧
      ∀ l ∈ ss.flatMap Stretch.toLines, IsLine l := by
  induction es with
  | nil => exact ⟨[], rfl, .nil, by simp⟩
  | cons e es ih =>
    obtain ⟨he, hes⟩ := List.forall_mem_cons.mp h
    obtain ⟨s, hlines, hs, hsLines⟩ := he.exists_stretch
    obtain ⟨ss, hrest, hss, hssLines⟩ := ih hes
    refine ⟨s :: ss, ?_, .cons hs hss, List.forall_mem_append.mpr ⟨hsLines, hssLines⟩⟩
    exact entryLines_cons_iff.mpr ⟨_, _, hlines, hrest, rfl⟩

theorem isRereadable_of_forall₂ {ss : List Stretch} {written : List Text}
    (h : List.Forall₂ Stretch.Gives ss es) (hnew : ∀ l ∈ ss.flatMap Stretch.toLines, '\n' ∉ l)
    (hwritten : entryLines es = .ok written)
    (hsame : written.map dropReturn = ss.flatMap Stretch.toLines) : ∀ e ∈ es, e.IsRereadable := by
  induction h generalizing written with
  | nil => simp
  | @cons s e ss es hs _ ih =>
    rw [List.flatMap_cons] at hnew hsame
    obtain ⟨hnewFirst, hnewRest⟩ := List.forall_mem_append.mp hnew
    obtain ⟨first, rest, hfirst, hrest, rfl⟩ := entryLines_cons_iff.mp hwritten
    obtain ⟨_, hagain, hkept⟩ := hs.exists_written hnewFirst []
    obtain rfl : first = _ := Except.ok.inj (hfirst.symm.trans hagain)
    rw [List.map_append] at hsame
    obtain ⟨hsameFirst, hsameRest⟩ := List.append_inj hsame (by simp [hkept.length])
    exact List.forall_mem_cons.mpr
      ⟨Entry.isRereadable_of_gives hs hnewFirst hfirst hsameFirst, ih hnewRest hrest hsameRest⟩

/-- **Changelogs that are read as they are written** are those with rereadable entries. -/
theorem exists_render_parse_iff {c : Changelog} :
    (∃ t, c.render = .ok t ∧ parse t = .ok c) ↔ ∀ e ∈ c.entries, e.IsRereadable := by
  constructor
  · rintro ⟨t, hrender, hparse⟩
    obtain ⟨blanks, ss, hlines, -, hss⟩ := parse_eq_ok_iff.mp hparse
    have hnew : ∀ l ∈ ss.flatMap Stretch.toLines, '\n' ∉ l := fun l hl =>
      newline_not_mem_of_mem_lines (t := t) (by simp [hlines, hl])
    obtain ⟨written, hwritten, hkept⟩ := exists_written hss hnew []
    rw [render, hwritten] at hrender
    cases hrender
    rw [lines_unlines_eq_map hkept.noNewline] at hlines
    -- as many lines are written as the stretches have, so there are no blank lines above them
    have hblanks : blanks = [] := by
      have hlength := congrArg List.length hlines
      rw [List.length_map, List.length_append, hkept.length] at hlength
      exact List.length_eq_zero_iff.mp (by omega)
    rw [hblanks, List.nil_append] at hlines
    exact isRereadable_of_forall₂ hss hnew hwritten hlines
  · intro h
    obtain ⟨ss, hlines, hss, hssLines⟩ := exists_stretches h
    refine ⟨unlines (ss.flatMap Stretch.toLines), by rw [render, hlines]; rfl, parse_eq_ok_iff.mpr ?_⟩
    exact ⟨[], ss, by rw [lines_unlines hssLines, List.nil_append], by simp, hss⟩

end Packaging.Changelog
