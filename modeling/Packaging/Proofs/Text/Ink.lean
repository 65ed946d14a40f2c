import Packaging.Proofs.Text.Words

/-!
# How much stands in a text

White space takes no ink. Trimming a text or taking its words changes nothing about the ink in it, so
that ink tells what a reader has left out.
-/

namespace Packaging.Text

/-- The number of characters that are not white space. -/
def ink (t : Text) : Nat := t.countP (!isBlank ·)

/-- The ink in a list of texts. -/
def inkAll : List Text → Nat
  | [] => 0
  | t :: ts => ink t + inkAll ts

@[simp] theorem ink_nil : ink [] = 0 := rfl

@[simp] theorem ink_append (t u : Text) : ink (t ++ u) = ink t + ink u := List.countP_append

theorem ink_cons (c : Char) (t : Text) : ink (c :: t) = ink [c] + ink t := ink_append [c] t

@[simp] theorem inkAll_nil : inkAll [] = 0 := rfl

@[simp] theorem inkAll_cons (t : Text) (ts : List Text) : inkAll (t :: ts) = ink t + inkAll ts := rfl

@[simp] theorem inkAll_append (ts us : List Text) : inkAll (ts ++ us) = inkAll ts + inkAll us := by
  induction ts with
  | nil => simp
  | cons t ts ih => rw [List.cons_append, inkAll_cons, ih, inkAll_cons, Nat.add_assoc]

theorem inkAll_map {f : Text → Text} (h : ∀ t, ink (f t) = ink t) (ts : List Text) :
    inkAll (ts.map f) = inkAll ts := by
  induction ts with
  | nil => rfl
  | cons t ts ih => rw [List.map_cons, inkAll_cons, h, ih, inkAll_cons]

theorem ink_of_blank {t : Text} (h : ∀ c ∈ t, isBlank c = true) : ink t = 0 := by
  rw [ink, List.countP_eq_zero]
  intro c hc
  simp [h c hc]

theorem ink_pos {t : Text} (h : isBlankLine t = false) : 0 < ink t := by
  obtain ⟨c, hc, hblank⟩ := List.all_eq_false.mp h
  exact List.countP_pos_iff.mpr ⟨c, hc, by simpa using hblank⟩

@[simp] theorem ink_trimStart (t : Text) : ink (trimStart t) = ink t := by
  have ht : t.takeWhile isBlank ++ trimStart t = t := List.takeWhile_append_dropWhile
  have hblank : ink (t.takeWhile isBlank) = 0 := ink_of_blank fun c hc => List.mem_takeWhile_imp hc
  conv_rhs => rw [← ht, ink_append, hblank, Nat.zero_add]

@[simp] theorem ink_trimEnd (t : Text) : ink (trimEnd t) = ink t := by
  obtain ⟨tail, ht, hblank⟩ := trimEnd_append t
  conv_rhs => rw [ht, ink_append, ink_of_blank hblank, Nat.add_zero]

@[simp] theorem ink_trim (t : Text) : ink (trim t) = ink t := by
  rw [trim, ink_trimEnd, ink_trimStart]

/-- All ink is in the words. -/
theorem inkAll_words (t : Text) : inkAll (words t) = ink t := by
  generalize hws : words t = ws
  induction ws generalizing t with
  | nil =>
    have hblank : isBlankLine t = true := words_eq_nil_iff.mp hws
    rw [inkAll_nil, ink_of_blank (List.all_eq_true.mp hblank)]
  | cons w ws ih =>
    obtain ⟨blanks, rest, rfl, hblanks, -, -, hrest⟩ := words_eq_cons hws
    rw [inkAll_cons, ih rest hrest, ink_append, ink_append, ink_of_blank hblanks, Nat.zero_add]

theorem inkAll_sublist {ts us : List Text} (h : ts.Sublist us) : inkAll ts ≤ inkAll us := by
  induction h with
  | slnil => exact Nat.le_refl _
  | cons u h ih =>
    rw [inkAll_cons]
    omega
  | cons_cons t h ih =>
    rw [inkAll_cons, inkAll_cons]
    omega

theorem ink_join_blank {c : Char} (hc : isBlank c = true) (ts : List Text) :
    ink (join [c] ts) = inkAll ts := by
  have hblank : ink [c] = 0 := ink_of_blank (List.forall_mem_singleton.mpr hc)
  induction ts with
  | nil => rfl
  | cons t ts ih =>
    cases ts with
    | nil => rw [join_singleton]; rfl
    | cons u us => rw [join_cons_cons, ink_append, ink_append, ih, hblank]; rfl

theorem ink_join_space (ts : List Text) : ink (join [' '] ts) = inkAll ts :=
  ink_join_blank (by decide) ts

theorem ink_join_comma {ts : List Text} (h : ts ≠ []) :
    ink (join [','] ts) + 1 = inkAll ts + ts.length := by
  have hcomma : ink [','] = 1 := by decide
  induction ts with
  | nil => exact absurd rfl h
  | cons t ts ih =>
    cases ts with
    | nil => rw [join_singleton]; rfl
    | cons u us =>
      have hstep := ih (by simp)
      rw [join_cons_cons, ink_append, ink_append, hcomma, inkAll_cons, List.length_cons]
      omega

end Packaging.Text
