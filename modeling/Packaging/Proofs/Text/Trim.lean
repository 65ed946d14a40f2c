import Mathlib.Data.List.Basic
import Mathlib.Data.List.TakeDrop
import Mathlib.Data.List.TakeWhile
import Packaging.Text.Blank

/-!
# Runs and trimmed texts

The leading run of characters of a class is what can be taken and is followed by no further one. A
text is trimmed if it has no white space at either end, and trimming is what makes it so.
-/

namespace Packaging.Text

/-! ### The leading run -/

theorem head?_dropWhile (p : Char → Bool) (t : Text) : (t.dropWhile p).head?.any p = false := by
  induction t with
  | nil => rfl
  | cons c t ih =>
    by_cases h : p c = true
    · simpa [h] using ih
    · simp [h]

theorem dropWhile_eq_self {p : Char → Bool} {t : Text} (h : t.head?.any p = false) :
    t.dropWhile p = t := by
  cases t with
  | nil => rfl
  | cons c t => simp_all

theorem takeWhile_eq_nil {p : Char → Bool} {t : Text} (h : t.head?.any p = false) :
    t.takeWhile p = [] := by
  cases t with
  | nil => rfl
  | cons c t => simp_all

theorem takeWhile_append_rest {p : Char → Bool} {run rest : Text} (hrun : ∀ c ∈ run, p c = true)
    (hrest : rest.head?.any p = false) : (run ++ rest).takeWhile p = run := by
  rw [List.takeWhile_append_of_pos hrun, takeWhile_eq_nil hrest, List.append_nil]

theorem dropWhile_append_rest {p : Char → Bool} {run rest : Text} (hrun : ∀ c ∈ run, p c = true)
    (hrest : rest.head?.any p = false) : (run ++ rest).dropWhile p = rest := by
  rw [List.dropWhile_append_of_pos hrun, dropWhile_eq_self hrest]

theorem drop_length_takeWhile (p : Char → Bool) (t : Text) :
    t.drop (t.takeWhile p).length = t.dropWhile p := by
  have ht : t.takeWhile p ++ t.dropWhile p = t := List.takeWhile_append_dropWhile
  calc t.drop (t.takeWhile p).length
      = (t.takeWhile p ++ t.dropWhile p).drop (t.takeWhile p).length := by rw [ht]
    _ = t.dropWhile p := List.drop_left

theorem span_eq_iff {p : Char → Bool} {t run rest : Text} :
    t.span p = (run, rest) ↔
      t = run ++ rest ∧ (∀ c ∈ run, p c = true) ∧ rest.head?.any p = false := by
  rw [List.span_eq_takeWhile_dropWhile, Prod.mk.injEq]
  constructor
  · rintro ⟨rfl, rfl⟩
    exact ⟨List.takeWhile_append_dropWhile.symm, fun c hc => List.mem_takeWhile_imp hc,
      head?_dropWhile p t⟩
  · rintro ⟨rfl, hrun, hrest⟩
    exact ⟨takeWhile_append_rest hrun hrest, dropWhile_append_rest hrun hrest⟩

/-! ### White space at the ends -/

theorem isBlank_of_isIndent {c : Char} (h : isIndent c = true) : isBlank c = true := by
  rcases Bool.or_eq_true _ _ ▸ h with hspace | htab
  · rw [eq_of_beq hspace]
    decide
  · rw [eq_of_beq htab]
    decide

/-- There is no white space at either end. -/
structure IsTrimmed (t : Text) : Prop where
  head : t.head?.any isBlank = false
  last : t.getLast?.any isBlank = false

theorem trimEndOf_append (p : Char → Bool) (t : Text) :
    ∃ tail, t = trimEndOf p t ++ tail ∧ ∀ c ∈ tail, p c = true := by
  refine ⟨(t.reverse.takeWhile p).reverse, ?_, ?_⟩
  · rw [trimEndOf, ← List.reverse_append, List.takeWhile_append_dropWhile, List.reverse_reverse]
  · exact fun c hc => List.mem_takeWhile_imp (List.mem_reverse.mp hc)

theorem getLast?_trimEndOf (p : Char → Bool) (t : Text) : (trimEndOf p t).getLast?.any p = false := by
  rw [trimEndOf, List.getLast?_reverse]
  exact head?_dropWhile p t.reverse

theorem trimEnd_append (t : Text) : ∃ tail, t = trimEnd t ++ tail ∧ ∀ c ∈ tail, isBlank c = true :=
  trimEndOf_append isBlank t

theorem getLast?_trimEnd (t : Text) : (trimEnd t).getLast?.any isBlank = false :=
  getLast?_trimEndOf isBlank t

theorem isTrimmed_trim (t : Text) : IsTrimmed (trim t) := by
  refine ⟨?_, getLast?_trimEnd _⟩
  obtain ⟨tail, htail, -⟩ := trimEnd_append (trimStart t)
  have hhead : (trimStart t).head?.any isBlank = false := head?_dropWhile isBlank t
  cases h : trimEnd (trimStart t) with
  | nil => simp [trim, h]
  | cons c rest =>
    rw [htail, h] at hhead
    simpa [trim, h] using hhead

theorem trimStart_eq_self {t : Text} (h : t.head?.any isBlank = false) : trimStart t = t :=
  dropWhile_eq_self h

theorem trimEnd_eq_self {t : Text} (h : t.getLast?.any isBlank = false) : trimEnd t = t := by
  rw [trimEnd, trimEndOf, dropWhile_eq_self (by rwa [List.head?_reverse]), List.reverse_reverse]

theorem IsTrimmed.trim_eq {t : Text} (h : IsTrimmed t) : trim t = t := by
  rw [trim, trimStart_eq_self h.head, trimEnd_eq_self h.last]

/-- Trimming a text that ends with no white space takes away only what is in front. -/
theorem trim_eq_trimStart {t : Text} (h : t.getLast?.any isBlank = false) : trim t = trimStart t := by
  refine trimEnd_eq_self ?_
  have ht : t = t.takeWhile isBlank ++ trimStart t := List.takeWhile_append_dropWhile.symm
  cases hstart : trimStart t with
  | nil => rfl
  | cons c rest =>
    rwa [ht, hstart, List.getLast?_append_of_ne_nil _ (List.cons_ne_nil c rest)] at h

theorem trim_cons_of_isBlank {c : Char} (h : isBlank c = true) (t : Text) :
    trim (c :: t) = trim t := by
  simp [trim, trimStart, trimStartOf, h]

theorem mem_of_mem_trim {t : Text} {c : Char} (h : c ∈ trim t) : c ∈ t := by
  obtain ⟨tail, htail, -⟩ := trimEnd_append (trimStart t)
  have hc : c ∈ trimStart t := by
    rw [htail]
    exact List.mem_append_left tail h
  exact (List.dropWhile_sublist isBlank).subset hc

/-- Trimming takes away white space only. -/
theorem mem_trim_iff {t : Text} {c : Char} (hc : isBlank c = false) : c ∈ trim t ↔ c ∈ t := by
  refine ⟨mem_of_mem_trim, fun h => ?_⟩
  obtain ⟨tail, htail, hblank⟩ := trimEnd_append (trimStart t)
  have ht : t = t.takeWhile isBlank ++ trimStart t := List.takeWhile_append_dropWhile.symm
  rw [ht, htail, List.mem_append, List.mem_append] at h
  rcases h with h | h | h
  · exact absurd (List.mem_takeWhile_imp h) (by simp [hc])
  · exact h
  · exact absurd (hblank c h) (by simp [hc])

theorem trim_eq_nil_iff {t : Text} : trim t = [] ↔ isBlankLine t = true := by
  rw [isBlankLine, List.all_eq_true]
  constructor
  · intro h c hc
    by_contra hblank
    have hmem : c ∈ trim t := (mem_trim_iff (by simpa using hblank)).mpr hc
    simp [h] at hmem
  · intro h
    cases htrim : trim t with
    | nil => rfl
    | cons c rest =>
      have hhead := (isTrimmed_trim t).head
      have hc : c ∈ trim t := by simp [htrim]
      simp [htrim, h c (mem_of_mem_trim hc)] at hhead

end Packaging.Text
