import Mathlib.Data.List.Basic
import Packaging.Text.Scan

/-!
# Scanning, step by step

A scan passes the characters at which nothing is found, and goes on behind what is found. So a text falls
into the part before the first occurrence, the occurrence, and a rest that is scanned like a text of its
own.
-/

namespace Packaging.Text

variable {α : Type} {recognise : Recogniser α} {found : α} {c : Char} {rest s t u : Text}
  {replacement : α → Text}

/-- Every occurrence has at least one character. -/
def Consumes (recognise : Recogniser α) : Prop :=
  ∀ t found rest, recognise t = some (found, rest) → rest.length < t.length

/-- Nothing is found that begins in `s`, where `t` follows. -/
def IsPassed (recognise : Recogniser α) : (s t : Text) → Prop
  | [], _ => True
  | c :: s, t => recognise (c :: s ++ t) = none ∧ IsPassed recognise s t

theorem isPassed_iff :
    IsPassed recognise s t ↔ ∀ u v, s = u ++ v → v ≠ [] → recognise (v ++ t) = none := by
  induction s with
  | nil =>
    refine ⟨fun _ u v h hv => ?_, fun _ => trivial⟩
    exact absurd (List.append_eq_nil_iff.mp h.symm).2 hv
  | cons c s ih =>
    rw [IsPassed, ih]
    constructor
    · rintro ⟨hc, hs⟩ u v h hv
      cases u with
      | nil =>
        rw [List.nil_append] at h
        exact h ▸ hc
      | cons d u => exact hs u v (List.cons.inj h).2 hv
    · intro h
      exact ⟨h [] (c :: s) rfl (List.cons_ne_nil c s), fun u v hs hv => h (c :: u) v (by rw [hs]; rfl) hv⟩

/-- Of every text a part is passed, up to the first occurrence or to the end. -/
theorem exists_passed (recognise : Recogniser α) (t : Text) :
    IsPassed recognise t [] ∨ ∃ s m found rest, t = s ++ m ∧ IsPassed recognise s m ∧
      recognise m = some (found, rest) := by
  induction t with
  | nil => exact .inl trivial
  | cons c t ih =>
    cases h : recognise (c :: t) with
    | some p => exact .inr ⟨[], c :: t, p.1, p.2, rfl, trivial, h⟩
    | none =>
      rcases ih with ih | ⟨s, m, found, rest, rfl, hs, hm⟩
      · exact .inl ⟨by rwa [List.append_nil], ih⟩
      · exact .inr ⟨c :: s, m, found, rest, rfl, ⟨h, hs⟩, hm⟩

theorem eq_nil_of_isPassed (hpassed : IsPassed recognise t []) (h : t = s ++ u)
    (hu : recognise u = some (found, rest)) : u = [] := by
  by_contra hne
  have hnone := isPassed_iff.mp hpassed s u h hne
  rw [List.append_nil, hu] at hnone
  cases hnone

/-! ### All occurrences -/

theorem scan_nil (recognise : Recogniser α) : scan recognise [] = [] := by rw [scan]

theorem scan_passed (h : IsPassed recognise s t) :
    scan recognise (s ++ t) = s.map .inl ++ scan recognise t := by
  induction s with
  | nil => rfl
  | cons c s ih =>
    rw [List.cons_append, scan]
    have hc : recognise (c :: (s ++ t)) = none := h.1
    rw [hc, ih h.2]
    rfl

theorem scan_found (hconsumes : Consumes recognise) (h : recognise t = some (found, rest)) :
    scan recognise t = .inr found :: scan recognise rest := by
  have hlt := hconsumes t found rest h
  cases t with
  | nil => exact absurd hlt (Nat.not_lt_zero _)
  | cons c t =>
    rw [List.length_cons, Nat.lt_succ_iff] at hlt
    rw [scan, h]
    exact if_pos hlt

theorem findAll_passed (h : IsPassed recognise s t) :
    findAll recognise (s ++ t) = findAll recognise t := by
  rw [findAll, scan_passed h, List.filterMap_append, findAll]
  simp

theorem findAll_eq_nil (h : IsPassed recognise t []) : findAll recognise t = [] := by
  rw [← List.append_nil t, findAll_passed h, findAll, scan_nil, List.filterMap_nil]

theorem findAll_found (hconsumes : Consumes recognise) (h : recognise t = some (found, rest)) :
    findAll recognise t = found :: findAll recognise rest := by
  rw [findAll, scan_found hconsumes h]
  rfl

theorem replaceAll_passed (h : IsPassed recognise s t) :
    replaceAll recognise replacement (s ++ t) = s ++ replaceAll recognise replacement t := by
  rw [replaceAll, scan_passed h, List.flatMap_append, replaceAll, List.flatMap_map]
  simp

theorem replaceAll_eq_self (h : IsPassed recognise t []) :
    replaceAll recognise replacement t = t := by
  have hrun : replaceAll recognise replacement (t ++ []) = t ++ replaceAll recognise replacement [] :=
    replaceAll_passed h
  rw [List.append_nil] at hrun
  rw [hrun, replaceAll, scan_nil, List.flatMap_nil, List.append_nil]

theorem replaceAll_found (hconsumes : Consumes recognise) (h : recognise t = some (found, rest)) :
    replaceAll recognise replacement t = replacement found ++ replaceAll recognise replacement rest := by
  rw [replaceAll, scan_found hconsumes h, List.flatMap_cons]
  rfl

/-- What holds of texts in which nothing is found, and of a text if it holds of the rest behind its first
occurrence, holds of all texts. -/
theorem scan_induction (hconsumes : Consumes recognise) {motive : Text → Prop}
    (passed : ∀ t, IsPassed recognise t [] → motive t)
    (found : ∀ s m found rest, IsPassed recognise s m → recognise m = some (found, rest) →
      motive rest → motive (s ++ m))
    (t : Text) : motive t := by
  induction hn : t.length using Nat.strongRecOn generalizing t with
  | ind n ih =>
    rcases exists_passed recognise t with h | ⟨s, m, a, rest, rfl, hs, hm⟩
    · exact passed t h
    · have hlt := hconsumes m a rest hm
      rw [List.length_append] at hn
      exact found s m a rest hs hm (ih rest.length (by omega) rest rfl)

/-! ### The first occurrence -/

theorem replaceFirst?_found (hconsumes : Consumes recognise) (h : recognise t = some (found, rest)) :
    replaceFirst? recognise replacement t = some (replacement found ++ rest) := by
  cases t with
  | nil => exact absurd (hconsumes _ _ _ h) (Nat.not_lt_zero _)
  | cons c t => rw [replaceFirst?, h]

theorem replaceFirst?_passed (h : IsPassed recognise s t) :
    replaceFirst? recognise replacement (s ++ t) =
      (replaceFirst? recognise replacement t).map (s ++ ·) := by
  induction s with
  | nil => simp
  | cons c s ih =>
    have hc : recognise (c :: (s ++ t)) = none := h.1
    rw [List.cons_append, replaceFirst?, hc, ih h.2, Option.map_map]
    rfl

theorem replaceFirst?_eq_none (h : IsPassed recognise t []) :
    replaceFirst? recognise replacement t = none := by
  rw [← List.append_nil t, replaceFirst?_passed h]
  rfl

end Packaging.Text
