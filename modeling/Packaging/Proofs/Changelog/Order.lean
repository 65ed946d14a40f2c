import Packaging.Changelog.Version
import Packaging.Proofs.Text.Number
import Packaging.Proofs.Text.Split

/-!
# Which version comes first

The rule for the order of packages cuts a release, or a revision, into characters and numbers by turns
and compares from left to right: characters by their weights, where a tilde weighs less than the end,
and numbers by their values, where no digits are zero. The library's own order (`Version.order`) takes
no digits for less than zero, so that both are kept here.

## What is proved

* `ComesBefore.asymm`, `SortsBefore.asymm` — of two parts, or versions, at most one comes before the other.
* `leading_induction` — what ends with no digit is characters, then digits and characters by turns.
* `comesBefore_append`, `comparePart_append` — a greater number at the end makes a part come later, in
  either order.
-/

namespace Packaging.Changelog.Version

open Text

/-! ### The rule -/

/-- The characters before the first digit. -/
def leading (t : Text) : Text := t.takeWhile (!·.isDigit)

/-- What is left from the first digit on. -/
def fromDigit (t : Text) : Text := t.dropWhile (!·.isDigit)

/-- The first number of a text, as it is written. -/
def firstNumber (t : Text) : Text := (fromDigit t).takeWhile Char.isDigit

/-- What follows the first number. -/
def afterNumber (t : Text) : Text := (fromDigit t).dropWhile Char.isDigit

/-- The weight at a place. The end of a text weighs zero. -/
def weightAt (t : Text) (i : Nat) : Int := (t[i]?).elim 0 weight

/-- At the first place where the texts differ the first one weighs less. -/
def IsLighter (a b : Text) : Prop := ∃ i, a.take i = b.take i ∧ weightAt a i < weightAt b i

/-- The part `a` comes before the part `b`. -/
inductive ComesBefore : Text → Text → Prop where
  /-- The characters in front decide. -/
  | characters {a b : Text} : IsLighter (leading a) (leading b) → ComesBefore a b
  /-- The numbers after the same characters decide. -/
  | number {a b : Text} : leading a = leading b →
    digitsValue (firstNumber a) < digitsValue (firstNumber b) → ComesBefore a b
  /-- What follows the same characters and equal numbers decides. -/
  | further {a b : Text} : leading a = leading b →
    digitsValue (firstNumber a) = digitsValue (firstNumber b) →
    ComesBefore (afterNumber a) (afterNumber b) → ComesBefore a b

theorem weightAt_eq_of_take {a b : Text} {i j : Nat} (h : a.take j = b.take j) (hlt : i < j) :
    weightAt a i = weightAt b i := by
  have hsame : (a.take j)[i]? = (b.take j)[i]? := by rw [h]
  rw [List.getElem?_take_of_lt hlt, List.getElem?_take_of_lt hlt] at hsame
  rw [weightAt, weightAt, hsame]

theorem IsLighter.asymm {a b : Text} (h : IsLighter a b) : ¬IsLighter b a := by
  rintro ⟨j, hj, hlighter⟩
  obtain ⟨i, hi, hheavier⟩ := h
  rcases Nat.lt_trichotomy i j with hlt | rfl | hlt
  · have hsame := weightAt_eq_of_take hj hlt
    omega
  · omega
  · have hsame := weightAt_eq_of_take hi hlt
    omega

/-- Of two parts at most one comes before the other. -/
theorem ComesBefore.asymm {a b : Text} (h : ComesBefore a b) : ¬ComesBefore b a := by
  induction h with
  | characters hlighter =>
    intro hback
    cases hback with
    | characters hheavier => exact hlighter.asymm hheavier
    | number hsame _ => exact hlighter.asymm (hsame ▸ hlighter)
    | further hsame _ _ => exact hlighter.asymm (hsame ▸ hlighter)
  | number hsame hlt =>
    intro hback
    cases hback with
    | characters hlighter => exact hlighter.asymm (hsame ▸ hlighter)
    | number _ hgt => omega
    | further _ heq _ => omega
  | further hsame heq _ ih =>
    intro hback
    cases hback with
    | characters hlighter => exact hlighter.asymm (hsame ▸ hlighter)
    | number _ hlt => omega
    | further _ _ hafter => exact ih hafter

theorem not_comesBefore_self (a : Text) : ¬ComesBefore a a := fun h => h.asymm h

/-- The version `v` comes before the version `w`. A missing epoch is zero, and a missing revision is
empty. -/
inductive SortsBefore (v w : Version) : Prop where
  | epoch : v.epoch.getD 0 < w.epoch.getD 0 → SortsBefore v w
  | release : v.epoch.getD 0 = w.epoch.getD 0 → ComesBefore v.release w.release → SortsBefore v w
  | revision : v.epoch.getD 0 = w.epoch.getD 0 → ¬ComesBefore v.release w.release →
    ¬ComesBefore w.release v.release → ComesBefore (v.revision.getD []) (w.revision.getD []) →
    SortsBefore v w

theorem SortsBefore.asymm {v w : Version} (h : v.SortsBefore w) : ¬w.SortsBefore v := by
  intro hback
  cases h with
  | epoch hlt =>
    cases hback with
    | epoch hgt => omega
    | release heq _ => omega
    | revision heq _ _ _ => omega
  | release heq hbefore =>
    cases hback with
    | epoch hlt => omega
    | release _ hafter => exact hbefore.asymm hafter
    | revision _ _ hnot _ => exact hnot hbefore
  | revision heq _ hnot hbefore =>
    cases hback with
    | epoch hlt => omega
    | release _ hafter => exact hnot hafter
    | revision _ _ _ hafter => exact hbefore.asymm hafter

/-! ### Characters and digits by turns -/

/-- A text begins with no digit. -/
abbrev BeginsWithoutDigit (t : Text) : Prop := t.head?.any Char.isDigit = false

/-- A text ends with no digit. -/
abbrev EndsWithoutDigit (t : Text) : Prop := t.getLast?.any Char.isDigit = false

variable {chars digits digits' rest : Text}

theorem fromDigit_append (hchars : ∀ c ∈ chars, c.isDigit = false)
    (hdigits : ∀ c ∈ digits, c.isDigit = true) (hrest : digits ≠ [] ∨ rest = []) :
    leading (chars ++ (digits ++ rest)) = chars ∧
      fromDigit (chars ++ (digits ++ rest)) = digits ++ rest := by
  have hpos : ∀ c ∈ chars, (!c.isDigit) = true := fun c hc => by simp [hchars c hc]
  rw [leading, fromDigit, List.takeWhile_append_of_pos hpos, List.dropWhile_append_of_pos hpos]
  cases digits with
  | nil => simp [hrest.resolve_left (fun h => h rfl)]
  | cons d ds =>
    have hd : d.isDigit = true := hdigits d List.mem_cons_self
    simp [hd]

/-- Where a text is cut for the comparison. -/
theorem parts_append (hchars : ∀ c ∈ chars, c.isDigit = false)
    (hdigits : ∀ c ∈ digits, c.isDigit = true) (hne : digits ≠ [] ∨ rest = [])
    (hrest : BeginsWithoutDigit rest) :
    leading (chars ++ (digits ++ rest)) = chars ∧ firstNumber (chars ++ (digits ++ rest)) = digits ∧
      afterNumber (chars ++ (digits ++ rest)) = rest := by
  obtain ⟨hleading, hfrom⟩ := fromDigit_append hchars hdigits hne
  have hspan : (digits ++ rest).span Char.isDigit = (digits, rest) :=
    span_eq_iff.mpr ⟨rfl, hdigits, hrest⟩
  rw [List.span_eq_takeWhile_dropWhile, Prod.mk.injEq] at hspan
  refine ⟨hleading, ?_, ?_⟩
  · rw [firstNumber, hfrom, hspan.1]
  · rw [afterNumber, hfrom, hspan.2]

/-- A text that ends with no digit is characters only, or characters and digits before such a text. -/
theorem leading_induction {P : Text → Prop} (chars : ∀ x, (∀ c ∈ x, c.isDigit = false) → P x)
    (turn : ∀ x e t, (∀ c ∈ x, c.isDigit = false) → (∀ c ∈ e, c.isDigit = true) → e ≠ [] →
      BeginsWithoutDigit t → t ≠ [] → P t → P (x ++ (e ++ t)))
    (t : Text) (ht : EndsWithoutDigit t) : P t := by
  induction hlength : t.length using Nat.strong_induction_on generalizing t with
  | _ n ih =>
    subst hlength
    have hcut : leading t ++ (firstNumber t ++ afterNumber t) = t := by
      rw [firstNumber, afterNumber, List.takeWhile_append_dropWhile]
      exact List.takeWhile_append_dropWhile
    have hleading : ∀ c ∈ leading t, c.isDigit = false := fun c hc => by
      simpa using List.mem_takeWhile_imp hc
    have hnumber : ∀ c ∈ firstNumber t, c.isDigit = true := fun c hc => List.mem_takeWhile_imp hc
    have hplain : BeginsWithoutDigit (afterNumber t) := head?_dropWhile Char.isDigit (fromDigit t)
    by_cases hnone : firstNumber t = []
    · -- Without a number there is nothing from the first digit on.
      have hfrom : fromDigit t = [] := by
        cases hfrom : fromDigit t with
        | nil => rfl
        | cons c u =>
          have hhead := head?_dropWhile (!·.isDigit) t
          rw [← fromDigit, hfrom] at hhead
          have hc : c.isDigit = true := by simpa using hhead
          simp [firstNumber, hfrom, hc] at hnone
      have hall : leading t = t := by
        rw [hnone, afterNumber, hfrom, List.dropWhile_nil, List.append_nil, List.append_nil] at hcut
        exact hcut
      exact chars t (hall ▸ hleading)
    · have hafter : afterNumber t ≠ [] := by
        intro hnil
        rw [hnil, List.append_nil] at hcut
        rw [EndsWithoutDigit, ← hcut, List.getLast?_append_of_ne_nil _ hnone,
          List.getLast?_eq_some_getLast hnone, Option.any_some,
          hnumber _ (List.getLast_mem hnone)] at ht
        cases ht
      have hends : EndsWithoutDigit (afterNumber t) := by
        rw [EndsWithoutDigit, ← hcut, ← List.append_assoc, List.getLast?_append_of_ne_nil _ hafter] at ht
        exact ht
      have hshorter : (afterNumber t).length < t.length := by
        have hlength := congrArg List.length hcut
        have hpos := List.length_pos_iff.mpr hnone
        rw [List.length_append, List.length_append] at hlength
        omega
      rw [← hcut]
      exact turn _ _ _ hleading hnumber hnone hplain hafter (ih _ hshorter _ hends rfl)

theorem beginsWithoutDigit_append {t u : Text} (ht : BeginsWithoutDigit t) (hne : t ≠ []) :
    BeginsWithoutDigit (t ++ u) := by
  obtain ⟨c, t, rfl⟩ := List.exists_cons_of_ne_nil hne
  exact ht

/-! ### A greater number at the end -/

/-- With a greater number at its end a part comes later. -/
theorem comesBefore_append {t : Text} (ht : EndsWithoutDigit t) (hdigits : ∀ c ∈ digits, c.isDigit = true)
    (hdigits' : ∀ c ∈ digits', c.isDigit = true) (hlt : digitsValue digits < digitsValue digits') :
    ComesBefore (t ++ digits) (t ++ digits') := by
  refine leading_induction (P := fun t => ComesBefore (t ++ digits) (t ++ digits')) ?_ ?_ t ht
  · intro x hx
    have hold := @parts_append x digits [] hx hdigits (.inr rfl) rfl
    have hnew := @parts_append x digits' [] hx hdigits' (.inr rfl) rfl
    rw [List.append_nil] at hold hnew
    refine .number (hold.1.trans hnew.1.symm) ?_
    rwa [hold.2.1, hnew.2.1]
  · intro x e t hx he hne hplain htne ih
    have hold := parts_append hx he (.inl hne) (beginsWithoutDigit_append hplain htne (u := digits))
    have hnew := parts_append hx he (.inl hne) (beginsWithoutDigit_append hplain htne (u := digits'))
    rw [← List.append_assoc e, ← List.append_assoc x] at hold hnew
    refine .further (hold.1.trans hnew.1.symm) (congrArg digitsValue (hold.2.1.trans hnew.2.1.symm)) ?_
    rwa [hold.2.2, hnew.2.2]

theorem runs_of_beginsWithoutDigit {c : Char} {t : Text} (hc : c.isDigit = false) :
    ∃ others digits rs, runs (c :: t) = (c :: others, digits) :: rs := by
  rw [runs, hc]
  cases runs t with
  | nil => exact ⟨[], [], [], rfl⟩
  | cons r rs => exact ⟨r.1, r.2, rs, rfl⟩

theorem runs_digits (hdigits : ∀ c ∈ digits, c.isDigit = true) (hne : digits ≠ [])
    (hrest : BeginsWithoutDigit rest) : runs (digits ++ rest) = ([], digits) :: runs rest := by
  induction digits with
  | nil => exact absurd rfl hne
  | cons d ds ih =>
    obtain ⟨hd, hds⟩ := List.forall_mem_cons.mp hdigits
    rw [List.cons_append, runs, hd]
    cases ds with
    | nil =>
      rw [List.nil_append]
      cases rest with
      | nil => rfl
      | cons c rest =>
        have hc : c.isDigit = false := by simpa [BeginsWithoutDigit] using hrest
        obtain ⟨others, more, rs, hruns⟩ := runs_of_beginsWithoutDigit hc (t := rest)
        rw [hruns]
    | cons d' ds => rw [ih hds (List.cons_ne_nil d' ds)]

/-- The runs of a part are its characters and digits by turns. -/
theorem runs_append (hchars : ∀ c ∈ chars, c.isDigit = false)
    (hdigits : ∀ c ∈ digits, c.isDigit = true) (hne : digits ≠ []) (hrest : BeginsWithoutDigit rest) :
    runs (chars ++ (digits ++ rest)) = (chars, digits) :: runs rest := by
  induction chars with
  | nil => exact runs_digits hdigits hne hrest
  | cons c chars ih =>
    obtain ⟨hc, hchars⟩ := List.forall_mem_cons.mp hchars
    rw [List.cons_append, runs, hc, ih hchars]

theorem runs_chars (hchars : ∀ c ∈ chars, c.isDigit = false) (hne : chars ≠ []) :
    runs chars = [(chars, [])] := by
  induction chars with
  | nil => exact absurd rfl hne
  | cons c chars ih =>
    obtain ⟨hc, hchars⟩ := List.forall_mem_cons.mp hchars
    rw [runs, hc]
    cases chars with
    | nil => rfl
    | cons d chars => rw [ih hchars (List.cons_ne_nil d chars)]

theorem compareRuns_self (t : Text) : compareRuns t t = .eq := by
  induction t with
  | nil => rw [compareRuns]
  | cons c t ih =>
    have hweight : compare (weight c) (weight c) = .eq := Std.ReflCmp.compare_self
    rw [compareRuns, ih, hweight]
    rfl

theorem compareNumbers_self (t : Text) : compareNumbers t t = .eq := by
  unfold compareNumbers
  split <;> exact Std.ReflCmp.compare_self

theorem compareRun_self (r : Text × Text) : compareRun r r = .eq := by
  rw [compareRun, compareRuns_self, compareNumbers_self]
  rfl

theorem compareNumbers_of_lt (hne : digits' ≠ []) (hlt : digitsValue digits < digitsValue digits') :
    compareNumbers digits digits' = .lt := by
  unfold compareNumbers
  rw [List.isEmpty_eq_false_iff.mpr hne, Bool.or_false]
  split
  · rename_i hempty
    rw [List.isEmpty_iff.mp hempty]
    exact compare_lt_iff_lt.mpr (List.length_pos_iff.mpr hne)
  · exact compare_lt_iff_lt.mpr hlt

theorem compareAll_singleton (r s : Text × Text) : compareAll [r] [s] = compareRun r s := by
  rw [compareAll, compareAll]
  cases compareRun r s <;> rfl

theorem compareAll_nil_singleton (s : Text × Text) : compareAll [] [s] = compareRun ([], []) s := by
  rw [compareAll, compareAll]
  cases compareRun ([], []) s <;> rfl

theorem comparePart_chars (hchars : ∀ c ∈ chars, c.isDigit = false)
    (hdigits : ∀ c ∈ digits, c.isDigit = true) (hdigits' : ∀ c ∈ digits', c.isDigit = true)
    (hne : digits' ≠ []) :
    comparePart (chars ++ digits) (chars ++ digits') = compareNumbers digits digits' := by
  have hrun : compareRun (chars, digits) (chars, digits') = compareNumbers digits digits' := by
    rw [compareRun, compareRuns_self]
    rfl
  have hnew := @runs_append chars digits' [] hchars hdigits' hne rfl
  rw [List.append_nil] at hnew
  rw [comparePart, hnew, ← hrun]
  by_cases hnone : digits = []
  · subst hnone
    rw [List.append_nil]
    by_cases hempty : chars = []
    · subst hempty
      exact compareAll_nil_singleton _
    · rw [runs_chars hchars hempty]
      exact compareAll_singleton _ _
  · have hold := @runs_append chars digits [] hchars hdigits hnone rfl
    rw [List.append_nil] at hold
    rw [hold]
    exact compareAll_singleton _ _

/-- With a greater number at its end a part comes later in the order of the library as well. -/
theorem comparePart_append {t : Text} (ht : EndsWithoutDigit t) (hdigits : ∀ c ∈ digits, c.isDigit = true)
    (hdigits' : ∀ c ∈ digits', c.isDigit = true) (hne : digits' ≠ [])
    (hlt : digitsValue digits < digitsValue digits') :
    comparePart (t ++ digits) (t ++ digits') = .lt := by
  refine leading_induction (P := fun t => comparePart (t ++ digits) (t ++ digits') = .lt) ?_ ?_ t ht
  · intro x hx
    rw [comparePart_chars hx hdigits hdigits' hne]
    exact compareNumbers_of_lt hne hlt
  · intro x e t hx he hene hplain htne ih
    have hruns : ∀ u, runs (x ++ (e ++ t) ++ u) = (x, e) :: runs (t ++ u) := fun u => by
      rw [List.append_assoc, List.append_assoc]
      exact runs_append hx he hene (beginsWithoutDigit_append hplain htne)
    rw [comparePart, hruns, hruns, compareAll, compareRun_self]
    exact ih

theorem comparePart_self (t : Text) : comparePart t t = .eq := by
  rw [comparePart]
  induction runs t with
  | nil => rw [compareAll]
  | cons r rs ih =>
    rw [compareAll, compareRun_self, ih]
    rfl

end Packaging.Changelog.Version
