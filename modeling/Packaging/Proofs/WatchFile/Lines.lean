import Packaging.Proofs.Text.Ink
import Packaging.WatchFile.Parser

/-!
# Lines of a watch file

The reader passes over comments and joins lines that end with a backslash, and takes the backslashes
off. A line to which nothing of this happens is `IsWhole`.

## What is proved

* `Joiner.foldl_feed_of_isWhole` — whole lines are the logical lines.
* `Joiner.isWhole_of_inkAll_le` — conversely, where no ink is lost all lines are whole: a line that is
  passed over loses its ink, and one that goes on loses its backslash.
* `logicalLines_spec` — logical lines are lines, and the version is a word of 32 bits.
-/

namespace Packaging.WatchFile

open Text

namespace Joiner

/-- The line is taken as it is. -/
structure IsWhole (line : Text) : Prop where
  taken : isSkipped line = false
  ends : dropEnd? ['\\'] (trimEnd line) = none

variable {j : Joiner} {line : Text}

theorem feed_of_isWhole (hj : j.pending = none) (h : IsWhole line) : j.feed line = j.push line := by
  have hjoined : j.joined line = line := by simp [joined, hj]
  simp [feed, hj, h.taken, hjoined, h.ends]

theorem lines_push (j : Joiner) (line : Text) : (j.push line).lines = j.lines ++ [line] := rfl

theorem version_push (hj : j.lines ≠ []) (line : Text) : (j.push line).version = j.version := by
  have hne : j.lines.isEmpty = false := by simpa using hj
  simp [push, hne]

theorem foldl_feed_of_isWhole (hj : j.pending = none) (hne : j.lines ≠ []) {ls : List Text}
    (h : ∀ l ∈ ls, IsWhole l) :
    ls.foldl feed j = ⟨j.version, j.lines ++ ls, none⟩ := by
  induction ls generalizing j with
  | nil =>
    obtain ⟨version, lines, pending⟩ := j
    cases hj
    simp
  | cons l ls ih =>
    obtain ⟨hl, hls⟩ := List.forall_mem_cons.mp h
    rw [List.foldl_cons, feed_of_isWhole hj hl, ih rfl (by simp [lines_push]) hls, version_push hne,
      lines_push, List.append_assoc, List.singleton_append]

/-- Logical lines that were read stay in front. -/
theorem lines_prefix_foldl (j : Joiner) (ls : List Text) : j.lines <+: (ls.foldl feed j).lines := by
  induction ls generalizing j with
  | nil => exact List.prefix_rfl
  | cons l ls ih =>
    have hstep : j.lines <+: (j.feed l).lines := by
      unfold feed
      split
      · exact List.prefix_rfl
      · dsimp only
        split
        · exact List.prefix_rfl
        · exact List.prefix_append _ _
    exact hstep.trans (ih (j.feed l))

/-! ### Ink -/

theorem ink_joined (j : Joiner) (line : Text) :
    ink (j.joined line) = inkAll j.pending.toList + ink line := by
  unfold joined
  cases j.pending with
  | none => simp
  | some start => dsimp only; split <;> simp

/-- A reader gets no more ink than there is in the line. -/
theorem inkAll_finish_feed (j : Joiner) (line : Text) :
    inkAll (j.feed line).finish ≤ inkAll j.finish + ink line := by
  have hjoined := ink_joined j line
  unfold feed
  split
  · exact Nat.le_add_right _ _
  · dsimp only
    split
    · rename_i start hstart
      have hink : ink (j.joined line) = ink start + ink ['\\'] := by
        rw [← ink_trimEnd, dropEnd?_eq_some_iff.mp hstart, ink_append]
      simp only [finish, inkAll_append, Option.toList_some, inkAll_cons, inkAll_nil]
      omega
    · simp only [finish, push, inkAll_append, Option.toList_none, inkAll_cons, inkAll_nil]
      omega

/-- It gets less ink if the line is not whole. -/
theorem inkAll_finish_feed_lt (hj : j.pending = none) (hink : 0 < ink line) (h : ¬ IsWhole line) :
    inkAll (j.feed line).finish < inkAll j.finish + ink line := by
  have hjoined : j.joined line = line := by simp [joined, hj]
  unfold feed
  rw [hj, hjoined]
  split
  · omega
  · rename_i htaken
    dsimp only
    split
    · rename_i start hstart
      have hback : ink ['\\'] = 1 := by decide
      have hline : ink line = ink start + ink ['\\'] := by
        rw [← ink_trimEnd, dropEnd?_eq_some_iff.mp hstart, ink_append]
      simp only [finish, hj, inkAll_append, Option.toList_some, Option.toList_none, inkAll_cons,
        inkAll_nil]
      omega
    · rename_i hends
      exact absurd ⟨by simpa using htaken, hends⟩ h

theorem inkAll_finish_foldl (j : Joiner) (ls : List Text) :
    inkAll (ls.foldl feed j).finish ≤ inkAll j.finish + inkAll ls := by
  induction ls generalizing j with
  | nil => exact Nat.le_refl _
  | cons l ls ih =>
    have hstep := inkAll_finish_feed j l
    have hrest := ih (j.feed l)
    rw [List.foldl_cons, inkAll_cons]
    omega

/-- **Where no ink is lost all lines are whole.** -/
theorem isWhole_of_inkAll_le (hj : j.pending = none) {ls : List Text} (hls : ∀ l ∈ ls, 0 < ink l)
    (h : inkAll j.finish + inkAll ls ≤ inkAll (ls.foldl feed j).finish) : ∀ l ∈ ls, IsWhole l := by
  induction ls generalizing j with
  | nil => nofun
  | cons l ls ih =>
    obtain ⟨hink, hls⟩ := List.forall_mem_cons.mp hls
    rw [List.foldl_cons, inkAll_cons] at h
    have hrest := inkAll_finish_foldl (j.feed l) ls
    have hl : IsWhole l := by
      by_contra hnot
      have hlost := inkAll_finish_feed_lt hj hink hnot
      omega
    have hpush : inkAll (j.push l).finish = inkAll j.finish + ink l := by
      simp [finish, push, hj]
    rw [feed_of_isWhole hj hl] at h
    refine List.forall_mem_cons.mpr ⟨hl, ih (j := j.push l) rfl hls ?_⟩
    omega

/-! ### What is read -/

/-- There are no newlines in the logical lines, and the version is a number that a version line may
give. -/
structure IsRead (j : Joiner) : Prop where
  lines : ∀ l ∈ j.finish, '\n' ∉ l
  version : ∀ v, j.version = some v → v < 0x100000000

theorem isRead_empty : IsRead {} := ⟨nofun, nofun⟩

theorem versionNumber?_lt {v : Nat} (h : versionNumber? line = some v) : v < 0x100000000 := by
  unfold versionNumber? at h
  simp only [Option.bind_eq_bind, Option.bind_eq_some_iff] at h
  obtain ⟨rest, -, rest', -, h⟩ := h
  split at h
  · cases h
  · split at h
    · cases h
      assumption
    · cases h

theorem IsRead.push (h : j.IsRead) (hline : '\n' ∉ line) : (j.push line).IsRead := by
  refine ⟨?_, ?_⟩
  · intro l hl
    simp only [finish, Joiner.push, Option.toList_none, List.append_nil, List.mem_append,
      List.mem_singleton] at hl
    rcases hl with hl | rfl
    · exact h.lines l (List.mem_append_left _ hl)
    · exact hline
  · intro v hv
    unfold Joiner.push at hv
    dsimp only at hv
    split at hv
    · exact versionNumber?_lt hv
    · exact h.version v hv

theorem newline_not_mem_joined (h : j.IsRead) (hline : '\n' ∉ line) : '\n' ∉ j.joined line := by
  unfold joined
  cases hpending : j.pending with
  | none => exact hline
  | some start =>
    have hstart : '\n' ∉ start := h.lines start (by simp [finish, hpending])
    have hrest : '\n' ∉ trimStart line := fun hmem =>
      hline (List.dropWhile_sublist _ |>.subset hmem)
    dsimp only
    split <;> simp [hstart, hline, hrest]

theorem IsRead.feed (h : j.IsRead) (hline : '\n' ∉ line) : (j.feed line).IsRead := by
  have hjoined := newline_not_mem_joined h hline
  unfold Joiner.feed
  split
  · exact h
  · dsimp only
    split
    · rename_i start hstart
      refine ⟨fun l hl => ?_, h.version⟩
      rcases List.mem_append.mp hl with hl | hl
      · exact h.lines l (List.mem_append_left _ hl)
      · obtain rfl : l = start := by simpa using hl
        intro hmem
        have htrim : '\n' ∈ trimEnd (j.joined line) := by
          rw [dropEnd?_eq_some_iff.mp hstart]
          exact List.mem_append_left _ hmem
        obtain ⟨tail, htail, -⟩ := trimEnd_append (j.joined line)
        exact hjoined (htail ▸ List.mem_append_left tail htrim)
    · exact h.push hjoined

theorem IsRead.foldl (h : j.IsRead) {ls : List Text} (hls : ∀ l ∈ ls, '\n' ∉ l) :
    (ls.foldl Joiner.feed j).IsRead := by
  induction ls generalizing j with
  | nil => exact h
  | cons l ls ih =>
    obtain ⟨hl, hls⟩ := List.forall_mem_cons.mp hls
    exact ih (h.feed hl) hls

end Joiner

/-- The logical lines of a text have no newlines in them, and the version is a word of 32 bits. -/
theorem logicalLines_spec (t : Text) :
    (∀ l ∈ (logicalLines t).2, '\n' ∉ l) ∧ ∀ v, (logicalLines t).1 = some v → v < 0x100000000 := by
  have hlines : ∀ l ∈ lines t, '\n' ∉ l := fun l hl => newline_not_mem_of_mem_lines hl
  obtain ⟨hlines, hversion⟩ := Joiner.isRead_empty.foldl hlines
  exact ⟨hlines, hversion⟩

end Packaging.WatchFile
