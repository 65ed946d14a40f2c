import Mathlib.Data.List.InsertIdx
import Packaging.LineList
import Packaging.Proofs.Text.Split

/-!
# Editing a text by its lines

A list of lines is written as the text that it was read from, and after edits it is read again with the
lines that it was written with. There is one exception. Whether the last line gets a newline is decided by
the text that was read, once and for all, and an empty last line that gets none cannot be seen.

## What is proved

* `render_parse_eq` — what was read is written as it was.
* `lines_parse_render` — which lines are read from what was written.
* `keepsOrigin_run`, `newline_not_mem_run` — no edit changes what is known of the text that was read, and edits
  by lines put no newline into a line.
* `isReread_run` — so a list of lines stands for its text whatever was done to it, but for an empty last line
  that gets no newline.
-/

namespace Packaging.LineList

open Text

variable {l : LineList} {t : Text}

/-! ### Writing lines -/

theorem render_of_not_lacks (h : l.lacksFinalNewline = false) : l.render = unlines l.lines := by
  unfold render
  rcases List.eq_nil_or_concat' l.lines with hlines | ⟨ls, last, hlines⟩
  · rw [hlines]
    rfl
  · rw [unlines_eq_join, join_concat (by simp [hlines])]
    simp [hlines, h]

theorem render_of_lacks (h : l.lacksFinalNewline = true) : l.render = join ['\n'] l.lines := by
  simp [render, h]

/-- **What was read is written as it was.** -/
theorem render_parse_eq (t : Text) : (parse t).render = t := by
  rcases eq_unlines_or_join t with ⟨ls, rfl, hls⟩ | ⟨ls, last, rfl, hlast, hls⟩
  · have hparse : parse (unlines ls) = ⟨ls, ls, false⟩ := by rw [parse, splitLines_unlines hls]
    rw [hparse]
    exact render_of_not_lacks rfl
  · have hparse : parse (join ['\n'] (ls ++ [last])) = ⟨ls ++ [last], ls ++ [last], true⟩ := by
      rw [parse, splitLines_join hls hlast]
    rw [hparse]
    exact render_of_lacks rfl

/-- The lines that were read have no newlines, and are those that the list began with. -/
theorem lines_parse (t : Text) :
    (∀ line ∈ (parse t).lines, '\n' ∉ line) ∧ (parse t).asRead = (parse t).lines := by
  refine ⟨?_, rfl⟩
  rcases eq_unlines_or_join t with ⟨ls, rfl, hls⟩ | ⟨ls, last, rfl, hlast, hls⟩
  · rwa [parse, splitLines_unlines hls]
  · rwa [parse, splitLines_join hls hlast]

/-- The last line of a text lacks its newline. A text that is empty has no last line. -/
def LacksNewline (t : Text) : Prop := t ≠ [] ∧ t.getLast? ≠ some '\n'

instance (t : Text) : Decidable (LacksNewline t) :=
  inferInstanceAs (Decidable (t ≠ [] ∧ t.getLast? ≠ some '\n'))

theorem lacksFinalNewline_parse : (parse t).lacksFinalNewline = true ↔ LacksNewline t := by
  rcases eq_unlines_or_join t with ⟨ls, rfl, hls⟩ | ⟨ls, last, rfl, hlast, hls⟩
  · rw [parse, splitLines_unlines hls]
    refine iff_of_false Bool.false_ne_true ?_
    rintro ⟨hne, hend⟩
    refine hend (getLast?_unlines ?_)
    rintro rfl
    exact hne rfl
  · rw [parse, splitLines_join hls hlast]
    have hend : (join ['\n'] (ls ++ [last])).getLast? = last.getLast? :=
      getLast?_join List.getLast?_concat hlast
    refine iff_of_true rfl ⟨?_, ?_⟩
    · intro hnil
      rw [hnil, List.getLast?_nil, eq_comm, List.getLast?_eq_none_iff] at hend
      exact hlast hend
    · intro hnewline
      rw [hnewline] at hend
      exact hls last (by simp) (List.mem_of_getLast? hend.symm)

/-! ### Reading what was written -/

/-- The last line is empty and gets no newline, so that nothing of it is written. -/
def HidesLast (l : LineList) : Prop := l.lacksFinalNewline = true ∧ l.lines.getLast? = some []

instance (l : LineList) : Decidable l.HidesLast :=
  inferInstanceAs (Decidable (l.lacksFinalNewline = true ∧ l.lines.getLast? = some []))

/-- **What is written is read again** line by line, but for an empty last line that gets no newline. -/
theorem lines_parse_render (h : ∀ line ∈ l.lines, '\n' ∉ line) :
    (parse l.render).lines = if l.HidesLast then l.lines.dropLast else l.lines := by
  cases hlacks : l.lacksFinalNewline with
  | false =>
    have hshows : ¬ l.HidesLast := fun hhides => by simp [hhides.1] at hlacks
    rw [if_neg hshows, render_of_not_lacks hlacks, parse, splitLines_unlines h]
  | true =>
    rw [render_of_lacks hlacks]
    rcases List.eq_nil_or_concat' l.lines with hlines | ⟨ls, last, hlines⟩
    · rw [if_neg fun hhides => by simp [hlines, HidesLast] at hhides, hlines]
      rfl
    · rw [hlines] at h ⊢
      by_cases hlast : last = []
      · have hhides : l.HidesLast := ⟨hlacks, by rw [hlines, hlast, List.getLast?_concat]⟩
        have hls : ∀ line ∈ ls, '\n' ∉ line := fun line hline => h line (List.mem_append_left _ hline)
        rw [if_pos hhides, hlast, ← unlines_eq_join, parse, splitLines_unlines hls, List.dropLast_concat]
      · have hshows : ¬ l.HidesLast := fun hhides => hlast (by simpa [hlines] using hhides.2)
        rw [if_neg hshows, parse, splitLines_join h hlast]

/-! ### Edits -/

/-- Keeps lines. Whether a line is kept may depend on where it stands, and so on the lines before it. -/
def filterIdx (keeps : Nat → Text → Bool) (l : LineList) : LineList :=
  { l with lines := (l.lines.zipIdx.filter fun (line, i) => keeps i line).map Prod.fst }

/-- Changes every line. What it becomes may depend on where it stands, and so on the lines before it. -/
def mapIdx (change : Nat → Text → Text) (l : LineList) : LineList :=
  { l with lines := l.lines.mapIdx change }

/-- Keeping the lines for which a predicate holds is one of these. -/
theorem filterIdx_eq_filter (p : Text → Bool) (l : LineList) : l.filterIdx (fun _ => p) = l.filter p := by
  have hfilter : (l.lines.zipIdx.filter (p ∘ Prod.fst)).map Prod.fst = l.lines.filter p := by
    rw [← List.filter_map, List.zipIdx_map_fst]
  exact congrArg (fun lines => { l with lines }) hfilter

/-- So is changing all lines in the same way. -/
theorem mapIdx_eq_map (f : Text → Text) (l : LineList) : l.mapIdx (fun _ => f) = l.map f := by
  have hmap : l.lines.mapIdx (fun _ => f) = l.lines.map f := List.ext_getElem? fun i => by simp
  exact congrArg (fun lines => { l with lines }) hmap

/-- An edit of a list of lines. -/
inductive Edit where
  /-- A line is replaced. -/
  | set (i : Nat) (line : Text)
  /-- A line is taken away. -/
  | erase (i : Nat)
  /-- A line is put before another one, or at the end. -/
  | insert (i : Nat) (line : Text)
  /-- A line is added at the end. -/
  | push (line : Text)
  /-- Some lines are kept. -/
  | filter (keeps : Nat → Text → Bool)
  /-- Lines are changed one by one. -/
  | map (change : Nat → Text → Text)

/-- The lines after an edit. An edit at an index that is too great fails and leaves them as they are. -/
def edit (l : LineList) : Edit → LineList
  | .set i line => (l.set? i line).getD l
  | .erase i => (l.erase? i).getD l
  | .insert i line => (l.insert? i line).getD l
  | .push line => l.push line
  | .filter keeps => l.filterIdx keeps
  | .map change => l.mapIdx change

/-- The lines after edits. -/
def run (l : LineList) (es : List Edit) : LineList := es.foldl edit l

/-- The edit puts no newline into a line. -/
def Edit.IsByLines : Edit → Prop
  | .set _ line | .insert _ line | .push line => '\n' ∉ line
  | .erase _ | .filter _ => True
  | .map change => ∀ i line, '\n' ∉ line → '\n' ∉ change i line

/-- What is known of the text that was read stays. -/
structure KeepsOrigin (l l' : LineList) : Prop where
  asRead : l'.asRead = l.asRead
  lacksFinalNewline : l'.lacksFinalNewline = l.lacksFinalNewline

/-- What holds of the list before an edit and of what the edit gives holds after it, if it fails or not. -/
theorem of_edited {P : LineList → Prop} {c : Prop} [Decidable c] {l' : LineList} (hfails : P l)
    (hgives : P l') : P ((if c then some l' else none).getD l) := by
  split
  · exact hgives
  · exact hfails

theorem keepsOrigin_edit (l : LineList) (e : Edit) : KeepsOrigin l (l.edit e) := by
  cases e with
  | set i line => exact of_edited ⟨rfl, rfl⟩ ⟨rfl, rfl⟩
  | erase i => exact of_edited ⟨rfl, rfl⟩ ⟨rfl, rfl⟩
  | insert i line => exact of_edited ⟨rfl, rfl⟩ ⟨rfl, rfl⟩
  | push line => exact ⟨rfl, rfl⟩
  | filter keeps => exact ⟨rfl, rfl⟩
  | map change => exact ⟨rfl, rfl⟩

/-- **One edit** puts newlines into lines only if it is given some. -/
theorem newline_not_mem_edit {e : Edit} (hl : ∀ line ∈ l.lines, '\n' ∉ line) (he : e.IsByLines) :
    ∀ line ∈ (l.edit e).lines, '\n' ∉ line := by
  cases e with
  | set i line =>
    refine of_edited (P := fun l => ∀ line ∈ l.lines, '\n' ∉ line) hl fun line' hline' => ?_
    rcases List.mem_or_eq_of_mem_set hline' with hmem | rfl
    · exact hl line' hmem
    · exact he
  | erase i =>
    refine of_edited (P := fun l => ∀ line ∈ l.lines, '\n' ∉ line) hl fun line' hline' => ?_
    exact hl line' (List.mem_of_mem_eraseIdx hline')
  | insert i line =>
    refine of_edited (P := fun l => ∀ line ∈ l.lines, '\n' ∉ line) hl fun line' hline' => ?_
    rcases List.eq_or_mem_of_mem_insertIdx hline' with rfl | hmem
    · exact he
    · exact hl line' hmem
  | push line => exact List.forall_mem_append.mpr ⟨hl, List.forall_mem_singleton.mpr he⟩
  | filter keeps =>
    intro line hline
    obtain ⟨⟨_, i⟩, hpair, rfl⟩ := List.mem_map.mp hline
    exact hl _ (List.fst_mem_of_mem_zipIdx (List.mem_filter.mp hpair).1)
  | map change =>
    intro line hline
    obtain ⟨i, hi, rfl⟩ := List.mem_mapIdx.mp hline
    exact he i _ (hl _ (List.getElem_mem hi))

theorem keepsOrigin_run (l : LineList) (es : List Edit) : KeepsOrigin l (l.run es) := by
  induction es generalizing l with
  | nil => exact ⟨rfl, rfl⟩
  | cons e es ih =>
    have hstep := keepsOrigin_edit l e
    have hrest := ih (l.edit e)
    exact ⟨hrest.asRead.trans hstep.asRead, hrest.lacksFinalNewline.trans hstep.lacksFinalNewline⟩

theorem newline_not_mem_run {es : List Edit} (hl : ∀ line ∈ l.lines, '\n' ∉ line)
    (hes : ∀ e ∈ es, e.IsByLines) : ∀ line ∈ (l.run es).lines, '\n' ∉ line := by
  induction es generalizing l with
  | nil => exact hl
  | cons e es ih =>
    obtain ⟨he, hes⟩ := List.forall_mem_cons.mp hes
    exact ih (newline_not_mem_edit hl he) hes

/-! ### Lines and their text -/

/-- As long as the lines are those that were read, the text is the one that was read. -/
theorem render_eq_of_not_hasChanged {l' : LineList} (hsame : KeepsOrigin l l') (hread : l.asRead = l.lines)
    (h : l'.hasChanged = false) : l'.render = l.render := by
  have hlines : l'.lines = l'.asRead := by simpa [hasChanged] using h
  rw [render, render, hlines, hsame.asRead, hread, hsame.lacksFinalNewline]

/-- The lines are read again from what is written for them, but for an empty last line that lacks its newline
because the last line of the text `t` did. Just this line is lost. -/
structure IsReread (t : Text) (l : LineList) : Prop where
  lines_iff : (parse l.render).lines = l.lines ↔ ¬(LacksNewline t ∧ l.lines.getLast? = some [])
  lost : LacksNewline t → l.lines.getLast? = some [] → (parse l.render).lines = l.lines.dropLast

theorem isReread (hl : ∀ line ∈ l.lines, '\n' ∉ line)
    (hlacks : l.lacksFinalNewline = true ↔ LacksNewline t) : IsReread t l := by
  have hhides : l.HidesLast ↔ LacksNewline t ∧ l.lines.getLast? = some [] := and_congr_left' hlacks
  have hlines := lines_parse_render hl
  refine ⟨?_, fun hnewline hlast => hlines.trans (if_pos (hhides.mpr ⟨hnewline, hlast⟩))⟩
  rw [hlines, ← hhides]
  split
  · rename_i hlast
    have hne : l.lines ≠ [] := List.ne_nil_of_mem (List.mem_of_getLast? hlast.2)
    refine iff_of_false (fun hdrop => ?_) (not_not_intro hlast)
    have hlength := congrArg List.length hdrop
    have hpos := List.length_pos_iff.mpr hne
    rw [List.length_dropLast] at hlength
    omega
  · rename_i hshows
    exact iff_of_true rfl hshows

/-- **A list of lines stands for its text.** A text is written as it was read, and it is written as long as the
lines are those that were read, whatever was done to them in between. If no newline was put into a line, the
lines are read again from what is written, but for an empty last line where the text lacked its last newline. -/
theorem isReread_run (t : Text) (es : List Edit) :
    (parse t).render = t ∧
    (((parse t).run es).hasChanged = false → ((parse t).run es).render = t) ∧
    ((∀ e ∈ es, e.IsByLines) → IsReread t ((parse t).run es)) := by
  obtain ⟨hnewline, hread⟩ := lines_parse t
  have hsame := keepsOrigin_run (parse t) es
  refine ⟨render_parse_eq t, fun h => ?_, fun hes => ?_⟩
  · rw [render_eq_of_not_hasChanged hsame hread h, render_parse_eq]
  · refine isReread (newline_not_mem_run hnewline hes) ?_
    rw [hsame.lacksFinalNewline]
    exact lacksFinalNewline_parse

/-- A text whose last line lacks its newline. -/
def openText : Text := "a\nb".toList

/-- Its last line can be seen until it is empty. -/
theorem isReread_run_openText :
    (∀ e ∈ [.set 0 ['x'], .push []], Edit.IsByLines e) ∧
    IsReread openText ((parse openText).run [.set 0 ['x'], .push []]) ∧
    (parse ((parse openText).run [.set 0 ['x'], .push []]).render).lines = [['x'], ['b']] := by
  have hes : ∀ e ∈ [.set 0 ['x'], .push []], Edit.IsByLines e := by simp [Edit.IsByLines]
  have hreread := (isReread_run openText _).2.2 hes
  exact ⟨hes, hreread, hreread.lost (by decide) rfl⟩

end Packaging.LineList
