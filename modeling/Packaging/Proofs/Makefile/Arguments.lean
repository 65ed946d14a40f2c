import Packaging.Proofs.Makefile.Slots

/-!
# Arguments that are dropped and replaced

An argument is dropped or replaced in one pass from left to right, after the end of the command line has
been looked at. What the pass finds takes up the blanks on both sides, so that the pass does not find the
argument again behind the same blank; and where the argument is dropped from the end, it is not looked for
there again.

## What is proved

* `slots_replaceAll` — the pass, slot by slot.
* `edited_dropArgument`, `edited_replaceArgument` — only the argument is dropped or replaced, and wherever
  it is an argument some of it is.
* `mem_slots_dropArgument_iff`, `mem_slots_replaceArgument_iff` — where it is left.
* `arguments_edited` — so every place of the argument is dropped or replaced, and a second run changes
  nothing, exactly if it does not stand as `SharesBlank` and `EndsTwice` say.
-/

namespace Packaging.Makefile.Invocation

open Text

variable {x y line rest s t : Text} {b c : Char} {r ts us vs : List Text}

/-! ### Lists of slots -/

/-- The slots with `r` in the place of each `x`. -/
def every (x : Text) (r ts : List Text) : List Text := ts.flatMap fun t => if t = x then r else [t]

/-- The second list is the first one with `r` in the place of some `x`. -/
inductive Swaps (x : Text) (r : List Text) : (ts us : List Text) → Prop
  | nil : Swaps x r [] []
  | keep (t : Text) {ts us : List Text} : Swaps x r ts us → Swaps x r (t :: ts) (t :: us)
  | swap {ts us : List Text} : Swaps x r ts us → Swaps x r (x :: ts) (r ++ us)

/-- The slots after one pass: a slot that is `x`, and not the last one, is found, and the next one is
passed over. -/
def pass (x : Text) (r : List Text) : List Text → List Text
  | [] => []
  | [t] => [t]
  | t :: u :: ts => if t = x then r ++ u :: pass x r ts else t :: pass x r (u :: ts)

theorem every_cons (x : Text) (r : List Text) (t : Text) (ts : List Text) :
    every x r (t :: ts) = (if t = x then r else [t]) ++ every x r ts := List.flatMap_cons

theorem every_append (x : Text) (r ts us : List Text) :
    every x r (ts ++ us) = every x r ts ++ every x r us := List.flatMap_append

theorem every_eq_self (h : x ∉ ts) : every x r ts = ts := by
  induction ts with
  | nil => rfl
  | cons t ts ih =>
    obtain ⟨ht, hts⟩ := not_or.mp (mt List.mem_cons.mpr h)
    rw [every_cons, if_neg (Ne.symm ht), ih hts, List.singleton_append]

theorem not_mem_every (hr : x ∉ r) (ts : List Text) : x ∉ every x r ts := by
  intro h
  obtain ⟨t, -, ht⟩ := List.mem_flatMap.mp h
  by_cases heq : t = x
  · rw [if_pos heq] at ht
    exact hr ht
  · rw [if_neg heq, List.mem_singleton] at ht
    exact heq ht.symm

namespace Swaps

theorem refl (x : Text) (r ts : List Text) : Swaps x r ts ts := by
  induction ts with
  | nil => exact nil
  | cons t ts ih => exact keep t ih

theorem concat (h : Swaps x r ts us) : Swaps x r (ts ++ [x]) (us ++ r) := by
  induction h with
  | nil => simpa using swap (nil (x := x) (r := r))
  | keep t _ ih => exact keep t ih
  | swap _ ih =>
    rw [List.append_assoc]
    exact swap ih

/-- What was put there is kept. -/
theorem append_left (hr : x ∉ r) (h : Swaps x r (r ++ ts) us) : ∃ vs, us = r ++ vs ∧ Swaps x r ts vs := by
  suffices hall : ∀ p : List Text, x ∉ p → ∀ us, Swaps x r (p ++ ts) us →
      ∃ vs, us = p ++ vs ∧ Swaps x r ts vs from hall r hr us h
  intro p hp
  induction p with
  | nil => exact fun us h => ⟨us, rfl, h⟩
  | cons q p ih =>
    intro us h
    obtain ⟨hq, hp⟩ := not_or.mp (mt List.mem_cons.mpr hp)
    cases h with
    | keep _ h =>
      obtain ⟨vs, rfl, hvs⟩ := ih hp _ h
      exact ⟨vs, rfl, hvs⟩
    | swap h => exact absurd rfl hq

theorem trans (hr : x ∉ r) (h : Swaps x r ts us) (h' : Swaps x r us vs) : Swaps x r ts vs := by
  induction h generalizing vs with
  | nil => exact h'
  | keep t _ ih =>
    cases h' with
    | keep _ h' => exact keep t (ih h')
    | swap h' => exact swap (ih h')
  | swap _ ih =>
    obtain ⟨vs, rfl, hrest⟩ := append_left hr h'
    exact swap (ih hrest)

theorem every_eq (hr : x ∉ r) (h : Swaps x r ts us) : every x r us = every x r ts := by
  induction h with
  | nil => rfl
  | keep t _ ih => rw [every_cons, every_cons, ih]
  | swap _ ih => rw [every_append, every_cons, if_pos rfl, every_eq_self hr, ih]

/-- Each `x` is exchanged exactly if none is left. -/
theorem eq_every_iff (hr : x ∉ r) (h : Swaps x r ts us) : us = every x r ts ↔ x ∉ us := by
  constructor
  · rintro rfl
    exact not_mem_every hr ts
  · intro hx
    rw [← h.every_eq hr, every_eq_self hx]

theorem filled (hx : x ≠ []) (hr : [] ∉ r) (h : Swaps x r ts us) :
    Swaps x r (filled ts) (filled us) := by
  induction h with
  | nil => exact nil
  | keep t _ ih =>
    rw [filled_cons, filled_cons]
    split
    · exact ih
    · exact keep t ih
  | swap _ ih =>
    rw [filled_cons, if_neg hx, filled_append, filled_eq_self hr]
    exact swap ih

theorem count_le (hr : x ∉ r) (h : Swaps x r ts us) : us.count x ≤ ts.count x := by
  induction h with
  | nil => exact le_rfl
  | keep t _ ih => rw [List.count_cons, List.count_cons]; omega
  | swap _ ih => rw [List.count_append, List.count_eq_zero.mpr hr, List.count_cons_self]; omega

end Swaps

theorem filled_every (hx : x ≠ []) (hr : [] ∉ r) (ts : List Text) :
    filled (every x r ts) = every x r (filled ts) := by
  induction ts with
  | nil => rfl
  | cons t ts ih =>
    rw [every_cons, filled_append, ih, filled_cons]
    by_cases ht : t = x
    · rw [if_pos ht, filled_eq_self hr, if_neg (ht ▸ hx), every_cons, if_pos ht]
    · rw [if_neg ht, filled_cons]
      split
      · rfl
      · rw [every_cons, if_neg ht]
        rfl

/-! ### One pass over the slots -/

theorem pass_cons_of_ne (h : t ≠ x) (r ts : List Text) : pass x r (t :: ts) = t :: pass x r ts := by
  cases ts with
  | nil => rfl
  | cons u ts => rw [pass, if_neg h]

theorem pass_found (x : Text) (r : List Text) (u : Text) (ts : List Text) :
    pass x r (x :: u :: ts) = r ++ u :: pass x r ts := by rw [pass, if_pos rfl]

theorem pass_append (h : x ∉ ts) (r us : List Text) : pass x r (ts ++ us) = ts ++ pass x r us := by
  induction ts with
  | nil => rfl
  | cons t ts ih =>
    obtain ⟨ht, hts⟩ := not_or.mp (mt List.mem_cons.mpr h)
    rw [List.cons_append, pass_cons_of_ne (Ne.symm ht), ih hts, List.cons_append]

theorem swaps_pass (x : Text) (r ts : List Text) : Swaps x r ts (pass x r ts) := by
  induction ts using pass.induct x with
  | case1 => exact .nil
  | case2 t => exact .refl x r [t]
  | case3 u ts ih =>
    rw [pass_found]
    exact .swap (.keep u ih)
  | case4 t u ts ht ih =>
    rw [pass_cons_of_ne ht]
    exact .keep t ih

/-- Two `x` stand together, or one is the last slot. -/
def Outlasts (x : Text) (ts : List Text) : Prop := [x, x] <:+: ts ∨ ts.getLast? = some x

theorem outlasts_cons_of_ne (h : t ≠ x) (ts : List Text) : Outlasts x (t :: ts) ↔ Outlasts x ts := by
  have hpair : [x, x] <:+: t :: ts ↔ [x, x] <:+: ts := by
    rw [List.infix_cons_iff, List.cons_prefix_cons]
    simp [Ne.symm h]
  have hlast : (t :: ts).getLast? = some x ↔ ts.getLast? = some x := by
    cases ts with
    | nil => simp [h]
    | cons u ts => rw [List.getLast?_cons_cons]
  rw [Outlasts, Outlasts, hpair, hlast]

/-- An `x` is left behind another one, or as the last slot. -/
theorem mem_pass_iff (hr : x ∉ r) : x ∈ pass x r ts ↔ Outlasts x ts := by
  induction ts using pass.induct x with
  | case1 => simp [pass, Outlasts]
  | case2 t =>
    by_cases ht : t = x
    · simp [pass, Outlasts, ht]
    · rw [outlasts_cons_of_ne ht]
      simp [pass, Outlasts, Ne.symm ht]
  | case3 u ts ih =>
    rw [pass_found, List.mem_append, or_iff_right hr, List.mem_cons, ih]
    by_cases hu : u = x
    · exact iff_of_true (.inl hu.symm) (.inl ⟨[], ts, by rw [hu]; rfl⟩)
    · have hlast : Outlasts x (x :: u :: ts) ↔ Outlasts x (u :: ts) := by
        rw [Outlasts, Outlasts, List.infix_cons_iff, List.cons_prefix_cons, List.cons_prefix_cons]
        simp [Ne.symm hu]
      rw [or_iff_right (Ne.symm hu), hlast, outlasts_cons_of_ne hu]
  | case4 t u ts ht ih =>
    rw [pass_cons_of_ne ht, List.mem_cons, or_iff_right (Ne.symm ht), ih, outlasts_cons_of_ne ht]

/-- Unless the only one is the last slot, an `x` goes. -/
theorem count_pass_lt (hr : x ∉ r) (hx : x ∈ ts) (hlast : ts.getLast? ≠ some x) :
    (pass x r ts).count x < ts.count x := by
  induction ts using pass.induct x with
  | case1 => cases hx
  | case2 t => exact absurd (congrArg some (List.mem_singleton.mp hx).symm) hlast
  | case3 u ts ih =>
    rw [pass_found, List.count_append, List.count_eq_zero.mpr hr, List.count_cons, List.count_cons_self,
      List.count_cons]
    have hle := (swaps_pass x r ts).count_le hr
    omega
  | case4 t u ts ht ih =>
    rw [pass_cons_of_ne ht, List.count_cons_of_ne ht, List.count_cons_of_ne ht]
    exact ih ((List.mem_cons.mp hx).resolve_left (Ne.symm ht)) (by simpa using hlast)

theorem pass_eq_self (hx : x ∉ ts.dropLast) (r : List Text) : pass x r ts = ts := by
  rcases List.eq_nil_or_concat' ts with rfl | ⟨init, t, rfl⟩
  · rfl
  · rw [List.dropLast_concat] at hx
    exact pass_append hx r [t]

/-! ### One pass over the command line -/

theorem standalone?_eq_some_iff :
    standalone? x t = some ((b, c), rest) ↔
      isIndent b = true ∧ isIndent c = true ∧ t = b :: (x ++ c :: rest) := by
  constructor
  · intro h
    unfold standalone? at h
    split at h
    · rename_i b' t'
      split at h
      · rename_i hb
        split at h
        · rename_i c' rest' hdrop
          split at h
          · rename_i hc
            cases h
            exact ⟨hb, hc, by rw [dropStart?_eq_some_iff.mp hdrop]⟩
          · cases h
        · cases h
      · cases h
    · cases h
  · rintro ⟨hb, hc, rfl⟩
    simp [standalone?, hb, hc]

theorem consumes_standalone? (x : Text) : Consumes (standalone? x) := by
  rintro t ⟨b, c⟩ rest h
  obtain ⟨-, -, rfl⟩ := standalone?_eq_some_iff.mp h
  simp only [List.length_cons, List.length_append]
  omega

/-- Up to the first place that is found, `x` is not an argument. -/
theorem not_mem_slots_of_isPassed (hx : IsSolid x) (hpassed : IsPassed (standalone? x) s t)
    (ht : t.head?.any isIndent = true) : x ∉ slots s := by
  rw [mem_slots_iff hx]
  rintro ⟨u, b, rest, hb, hrest, rfl⟩
  have hnone := isPassed_iff.mp hpassed u (b :: (x ++ rest)) rfl (List.cons_ne_nil b _)
  obtain ⟨c, v, hc, hv⟩ : ∃ c v, isIndent c = true ∧ rest ++ t = c :: v := by
    cases rest with
    | nil =>
      cases t with
      | nil => cases ht
      | cons c t => exact ⟨c, t, by simpa using ht, rfl⟩
    | cons c rest => exact ⟨c, rest ++ t, endsWord_cons.mp hrest, rfl⟩
  have hfound : standalone? x (b :: (x ++ c :: v)) = some ((b, c), v) :=
    standalone?_eq_some_iff.mpr ⟨hb, hc, rfl⟩
  rw [List.cons_append, List.append_assoc, hv, hfound] at hnone
  cases hnone

theorem not_mem_dropLast_of_isPassed (hpassed : IsPassed (standalone? x) t []) :
    x ∉ (slots t).dropLast := by
  intro hmem
  obtain ⟨ps, qs, hslots⟩ := List.append_of_mem hmem
  obtain ⟨u, p, v, h⟩ := (infix_dropLast_iff (List.cons_ne_nil x [])).mp ⟨ps, qs, by rw [hslots]; simp⟩
  rw [List.append_assoc] at h
  obtain ⟨s, b, rest, hb, -, hends, rfl, -, hrest⟩ := slots_eq_append_cons h
  obtain ⟨c, w, hc, rfl, -, -⟩ := exists_blank_cons hends hrest
  have hfound : standalone? x (b :: (x ++ c :: w)) = some ((b, c), w) :=
    standalone?_eq_some_iff.mpr ⟨hb, hc, rfl⟩
  cases eq_nil_of_isPassed hpassed rfl hfound

/-- What is put in the place of the argument has the slots `r`, between those before and behind it. -/
def Puts (f : Char × Char → Text) (r : List Text) : Prop :=
  ∀ s b c t, isIndent b = true → isIndent c = true →
    program (s ++ (f (b, c) ++ t)) = program s ∧
      slots (s ++ (f (b, c) ++ t)) = slots s ++ (r ++ program t :: slots t)

theorem puts_nothing : Puts (fun (before, _) => [before]) [] := by
  intro s b c t hb hc
  exact ⟨program_append s hb t, slots_append s hb t⟩

theorem puts_argument (hy : IsSolid y) : Puts (fun (before, after) => before :: y ++ [after]) [y] := by
  intro s b c t hb hc
  have htext : s ++ (b :: y ++ [c] ++ t) = s ++ b :: (y ++ c :: t) := by simp
  show program (s ++ (b :: y ++ [c] ++ t)) = program s ∧ slots (s ++ (b :: y ++ [c] ++ t)) = _
  rw [htext, slots_append_solid hb hy (endsWord_cons.mpr hc), (slots_cons_blank hc t).2]
  exact ⟨program_append s hb _, rfl⟩

/-- **The pass over the command line is the one over its slots.** -/
theorem slots_replaceAll (hx : IsSolid x) {f : Char × Char → Text} (hf : Puts f r) (line : Text) :
    program (replaceAll (standalone? x) f line) = program line ∧
      slots (replaceAll (standalone? x) f line) = pass x r (slots line) := by
  induction line using scan_induction (consumes_standalone? x) with
  | passed t h =>
    rw [replaceAll_eq_self h, pass_eq_self (not_mem_dropLast_of_isPassed h)]
    exact ⟨rfl, rfl⟩
  | found s m p rest hs hm ih =>
    obtain ⟨b, c⟩ := p
    obtain ⟨hb, hc, rfl⟩ := standalone?_eq_some_iff.mp hm
    have hslots : slots (s ++ b :: (x ++ c :: rest)) = slots s ++ x :: program rest :: slots rest := by
      rw [slots_append_solid hb hx (endsWord_cons.mpr hc), (slots_cons_blank hc rest).2]
    have hnot := not_mem_slots_of_isPassed hx hs hb
    obtain ⟨hprogram, hput⟩ := hf s b c (replaceAll (standalone? x) f rest) hb hc
    rw [replaceAll_passed hs, replaceAll_found (consumes_standalone? x) hm, hprogram, hput, hslots,
      program_append s hb, pass_append hnot, pass_found, ih.1, ih.2]
    exact ⟨rfl, rfl⟩

theorem isPassed_of_not_mem (hx : IsSolid x) (h : x ∉ slots line) : IsPassed (standalone? x) line [] := by
  rcases exists_passed (standalone? x) line with hpassed | ⟨s, m, ⟨b, c⟩, rest, rfl, -, hm⟩
  · exact hpassed
  · obtain ⟨hb, hc, rfl⟩ := standalone?_eq_some_iff.mp hm
    exact absurd ((mem_slots_iff hx).mpr ⟨s, b, c :: rest, hb, endsWord_cons.mpr hc, rfl⟩) h

/-! ### The end of the command line -/

theorem beforeLast?_eq_some_iff : beforeLast? x line = some t ↔
    ∃ s b, isIndent b = true ∧ t = s ++ [b] ∧ line = s ++ b :: x := by
  unfold beforeLast?
  constructor
  · intro h
    split at h
    · rename_i before hdrop
      obtain ⟨hlast, hsome⟩ := Option.ite_none_right_eq_some.mp h
      cases hsome
      obtain ⟨b, hb, hindent⟩ := (Option.any_eq_true _ _).mp hlast
      obtain ⟨s, rfl⟩ := List.getLast?_eq_some_iff.mp hb
      exact ⟨s, b, hindent, rfl, by rw [dropEnd?_eq_some_iff.mp hdrop]; simp⟩
    · cases h
  · rintro ⟨s, b, hb, rfl, rfl⟩
    have hdrop : dropEnd? x (s ++ b :: x) = some (s ++ [b]) := dropEnd?_eq_some_iff.mpr (by simp)
    simp [hdrop, hb]

theorem beforeLast?_eq_none (hx : IsSolid x) (h : (slots line).getLast? ≠ some x) :
    beforeLast? x line = none := by
  rw [Option.eq_none_iff_forall_ne_some]
  intro t ht
  obtain ⟨s, b, hb, -, hline⟩ := beforeLast?_eq_some_iff.mp ht
  exact h ((getLast?_slots_iff hx).mpr ⟨s, b, hb, hline⟩)

theorem occursIn_of_mem_slots (hx : IsSolid x) (h : x ∈ slots line) : occursIn x line = true := by
  obtain ⟨s, b, rest, -, -, rfl⟩ := (mem_slots_iff hx).mp h
  exact occursIn_iff.mpr ⟨s ++ [b], rest, by simp⟩

theorem dropArgument_of_last_ne (hx : IsSolid x) (h : (slots line).getLast? ≠ some x) :
    dropArgument line x = replaceAll (standalone? x) (fun (before, _) => [before]) line := by
  unfold dropArgument
  split
  · rw [beforeLast?_eq_none hx h]
  · rename_i hoccurs
    exact (replaceAll_eq_self (isPassed_of_not_mem hx (mt (occursIn_of_mem_slots hx) hoccurs))).symm

theorem replaceArgument_of_last_ne (hx : IsSolid x) (h : (slots line).getLast? ≠ some x) (y : Text) :
    replaceArgument line x y =
      replaceAll (standalone? x) (fun (before, after) => before :: y ++ [after]) line := by
  unfold replaceArgument
  split
  · rw [beforeLast?_eq_none hx h]
  · rename_i hoccurs
    exact (replaceAll_eq_self (isPassed_of_not_mem hx (mt (occursIn_of_mem_slots hx) hoccurs))).symm

/-- From the end the argument is dropped with all blanks before it. -/
theorem dropArgument_of_last (hx : IsSolid x) (h : (slots line).getLast? = some x) :
    ∃ u es, program u = program line ∧ (∀ e ∈ es, e = []) ∧ (slots u).getLast? ≠ some [] ∧
      slots line = slots u ++ (es ++ [x]) ∧
      dropArgument line x = replaceAll (standalone? x) (fun (before, _) => [before]) u := by
  obtain ⟨s, b, hb, rfl⟩ := (getLast?_slots_iff hx).mp h
  have hbefore : beforeLast? x (s ++ b :: x) = some (s ++ [b]) :=
    beforeLast?_eq_some_iff.mpr ⟨s, b, hb, rfl, rfl⟩
  have hoccurs := occursIn_of_mem_slots hx (List.mem_of_getLast? h)
  obtain ⟨tail, htail, hblanks⟩ := trimEndOf_append isIndent (s ++ [b])
  have hlast := getLast?_trimEndOf isIndent (s ++ [b])
  have hdrop : dropArgument (s ++ b :: x) x = replaceAll (standalone? x) (fun (before, _) => [before])
      (trimEndOf isIndent (s ++ [b])) := by
    rw [dropArgument, if_pos hoccurs, hbefore]
  generalize trimEndOf isIndent (s ++ [b]) = u at htail hlast hdrop
  cases tail with
  | nil =>
    rw [List.append_nil] at htail
    rw [← htail, List.getLast?_concat, Option.any_some, hb] at hlast
    cases hlast
  | cons c blanks =>
    obtain ⟨hc, hblanks⟩ := List.forall_mem_cons.mp hblanks
    have hline : s ++ b :: x = u ++ c :: (blanks ++ x) := by
      rw [← List.singleton_append, ← List.append_assoc, htail]
      simp
    refine ⟨u, List.replicate blanks.length [], ?_, fun e => List.eq_of_mem_replicate, ?_, ?_, hdrop⟩
    · rw [hline, program_append u hc]
    · intro hnil
      obtain ⟨u', d, hd, rfl⟩ := (getLast?_slots_iff (by nofun)).mp hnil
      rw [List.getLast?_concat, Option.any_some, hd] at hlast
      cases hlast
    · rw [hline, slots_append u hc, ← (slots_cons_blank hc (blanks ++ x)).2,
        slots_blanks_append hc hblanks, (program_solid hx).1, (program_solid hx).2]

theorem replaceArgument_of_last (hx : IsSolid x) (hy : IsSolid y) (h : (slots line).getLast? = some x) :
    ∃ u ts, program u = program line ∧ slots u = ts ++ [y] ∧ slots line = ts ++ [x] ∧
      replaceArgument line x y =
        replaceAll (standalone? x) (fun (before, after) => before :: y ++ [after]) u := by
  obtain ⟨s, b, hb, rfl⟩ := (getLast?_slots_iff hx).mp h
  have hbefore : beforeLast? x (s ++ b :: x) = some (s ++ [b]) :=
    beforeLast?_eq_some_iff.mpr ⟨s, b, hb, rfl, rfl⟩
  have hoccurs := occursIn_of_mem_slots hx (List.mem_of_getLast? h)
  refine ⟨s ++ b :: y, slots s, ?_, ?_, ?_, ?_⟩
  · rw [program_append s hb, program_append s hb]
  · rw [slots_append s hb, (program_solid hy).1, (program_solid hy).2]
  · rw [slots_append s hb, (program_solid hx).1, (program_solid hx).2]
  · rw [replaceArgument, if_pos hoccurs, hbefore]
    simp

/-! ### What is left -/

theorem infix_dropLast_of_last_ne (h : ts.getLast? ≠ some x) : [x, x] <:+: ts.dropLast ↔ [x, x] <:+: ts := by
  rcases List.eq_nil_or_concat' ts with rfl | ⟨init, t, rfl⟩
  · rfl
  · have hsuffix : ¬ [x, x] <:+ init ++ [t] := by
      rintro ⟨u, hu⟩
      rw [← hu] at h
      simp at h
    rw [List.dropLast_concat, List.infix_concat_iff, or_iff_right hsuffix]

/-- Empty slots at the end are behind the last `x`. -/
theorem eq_append_of_empty {es : List Text} (hx : x ≠ []) (hes : ∀ e ∈ es, e = [])
    (h : ts ++ es = us ++ x :: vs) : ∃ ws, ts = us ++ x :: ws ∧ vs = ws ++ es := by
  rw [← List.singleton_append, ← List.append_assoc] at h
  rcases List.append_eq_append_iff.mp h with ⟨m, hm, rfl⟩ | ⟨m, rfl, hvs⟩
  · have hnil : m = [] := by
      rcases List.eq_nil_or_concat' m with hnil | ⟨init, e, rfl⟩
      · exact hnil
      · rw [← List.append_assoc] at hm
        obtain ⟨-, rfl⟩ := List.append_singleton_inj.mp hm
        exact absurd (hes x (by simp)) hx
    subst hnil
    exact ⟨[], by rw [hm, List.append_nil], rfl⟩
  · exact ⟨m, by simp, hvs⟩

/-- What is left of slots that do not end with an empty one, behind which empty ones and an `x` were dropped. -/
theorem outlasts_iff_of_last {es : List Text} (hx : x ≠ []) (hes : ∀ e ∈ es, e = [])
    (hend : ts.getLast? ≠ some []) :
    Outlasts x ts ↔ [x, x] <:+: (ts ++ (es ++ [x])).dropLast ∨
      ∃ ps es', (∀ e ∈ es', e = []) ∧ ts ++ (es ++ [x]) = ps ++ x :: (es' ++ [x]) := by
  rw [← List.append_assoc, List.dropLast_concat]
  refine or_congr ⟨fun h => h.trans (List.prefix_append _ es).isInfix, ?_⟩ ⟨?_, ?_⟩
  · rintro ⟨v, w, hvw⟩
    have hpair : ts ++ es = (v ++ [x]) ++ x :: w := by simp [← hvw]
    obtain ⟨ws, rfl, -⟩ := eq_append_of_empty hx hes hpair
    exact ⟨v, ws, by simp⟩
  · intro h
    obtain ⟨ps, rfl⟩ := List.getLast?_eq_some_iff.mp h
    exact ⟨ps, es, hes, by simp⟩
  · rintro ⟨ps, es', hes', h⟩
    rw [← List.cons_append, ← List.append_assoc, List.append_left_inj] at h
    obtain ⟨ws, rfl, rfl⟩ := eq_append_of_empty hx hes h
    rcases List.eq_nil_or_concat' ws with rfl | ⟨init, e, rfl⟩
    · rw [List.getLast?_concat]
    · rw [← List.cons_append, ← List.append_assoc, List.getLast?_concat] at hend
      exact absurd (congrArg some (hes' e (by simp))) hend

theorem mem_slots_dropArgument_iff (hx : IsArgument x) :
    x ∈ slots (dropArgument line x) ↔ SharesBlank x line ∨ EndsTwice x line := by
  rw [sharesBlank_iff hx.solid, endsTwice_iff hx.solid]
  by_cases hlast : (slots line).getLast? = some x
  · obtain ⟨u, es, -, hes, hend, hslots, hdrop⟩ := dropArgument_of_last hx.solid hlast
    rw [hdrop, (slots_replaceAll hx.solid puts_nothing u).2, mem_pass_iff List.not_mem_nil, hslots,
      outlasts_iff_of_last hx.ne_nil hes hend]
  · rw [dropArgument_of_last_ne hx.solid hlast, (slots_replaceAll hx.solid puts_nothing line).2,
      mem_pass_iff List.not_mem_nil, Outlasts, or_iff_left hlast, infix_dropLast_of_last_ne hlast]
    refine (or_iff_left ?_).symm
    rintro ⟨ps, es, -, h⟩
    rw [h, ← List.cons_append, ← List.append_assoc, List.getLast?_concat] at hlast
    exact hlast rfl

theorem mem_slots_replaceArgument_iff (hx : IsArgument x) (hy : IsArgument y) (hne : y ≠ x) :
    x ∈ slots (replaceArgument line x y) ↔ SharesBlank x line := by
  have hnot : x ∉ [y] := by simpa using hne.symm
  rw [sharesBlank_iff hx.solid]
  by_cases hlast : (slots line).getLast? = some x
  · obtain ⟨u, ts, -, hu, hslots, hreplace⟩ := replaceArgument_of_last hx.solid hy.solid hlast
    have hend : (ts ++ [y]).getLast? ≠ some x := by simpa using hne
    rw [hreplace, (slots_replaceAll hx.solid (puts_argument hy.solid) u).2, mem_pass_iff hnot, hu, Outlasts,
      or_iff_left hend, ← infix_dropLast_of_last_ne hend, hslots, List.dropLast_concat, List.dropLast_concat]
  · rw [replaceArgument_of_last_ne hx.solid hlast, (slots_replaceAll hx.solid (puts_argument hy.solid) line).2,
      mem_pass_iff hnot, Outlasts, or_iff_left hlast, infix_dropLast_of_last_ne hlast]

/-! ### What is dropped or replaced -/

/-- The words of a command line with `r` in the place of each argument `x`. -/
def argumentsWith (x : Text) (r : List Text) (line : Text) : List Text :=
  filled (program line :: every x r (slots line))

/-- In the result some of the arguments `x` are exchanged for `r`, at least one if there are any, and all
other words are kept, in order. -/
structure Edited (x : Text) (r : List Text) (line result : Text) : Prop where
  sameProgram : program result = program line
  exchanged : Swaps x r (filled (slots line)) (filled (slots result))
  fewer : x ∈ slots line → (slots result).count x < (slots line).count x

/-- A pass over the command line exchanges arguments, if the last slot is none. -/
theorem edited_of_pass (hx : x ≠ []) (hr : x ∉ r) (hwords : [] ∉ r) {result : Text}
    (hprogram : program result = program line) (hslots : slots result = pass x r (slots line))
    (hlast : (slots line).getLast? ≠ some x) : Edited x r line result :=
  ⟨hprogram, hslots ▸ (swaps_pass x r (slots line)).filled hx hwords,
    fun hmem => hslots ▸ count_pass_lt hr hmem hlast⟩

theorem edited_dropArgument (hx : IsArgument x) (line : Text) : Edited x [] line (dropArgument line x) := by
  by_cases hlast : (slots line).getLast? = some x
  · obtain ⟨u, es, hprogram, hes, -, hslots, hdrop⟩ := dropArgument_of_last hx.solid hlast
    obtain ⟨hsame, hpass⟩ := slots_replaceAll hx.solid puts_nothing u
    have hswaps := swaps_pass x [] (slots u)
    have hword : filled [x] = [x] := filled_eq_self (by simpa using hx.ne_nil.symm)
    rw [hdrop]
    refine ⟨hsame.trans hprogram, ?_, fun _ => ?_⟩
    · have hconcat := (hswaps.filled hx.ne_nil List.not_mem_nil).concat
      rw [List.append_nil] at hconcat
      rwa [hpass, hslots, filled_append, filled_append, filled_eq_nil hes, List.nil_append, hword]
    · have hle := hswaps.count_le List.not_mem_nil
      rw [hpass, hslots, List.count_append, List.count_append, List.count_singleton_self]
      omega
  · obtain ⟨hsame, hpass⟩ := slots_replaceAll hx.solid puts_nothing line
    rw [dropArgument_of_last_ne hx.solid hlast]
    exact edited_of_pass hx.ne_nil List.not_mem_nil List.not_mem_nil hsame hpass hlast

theorem edited_replaceArgument (hx : IsArgument x) (hy : IsArgument y) (hne : y ≠ x) (line : Text) :
    Edited x [y] line (replaceArgument line x y) := by
  have hnot : x ∉ [y] := by simpa using hne.symm
  have hword : [] ∉ [y] := by simpa using hy.ne_nil.symm
  by_cases hlast : (slots line).getLast? = some x
  · obtain ⟨u, ts, hprogram, hu, hslots, hreplace⟩ := replaceArgument_of_last hx.solid hy.solid hlast
    obtain ⟨hsame, hpass⟩ := slots_replaceAll hx.solid (puts_argument hy.solid) u
    have hswaps := swaps_pass x [y] (ts ++ [y])
    rw [hu] at hpass
    rw [hreplace]
    refine ⟨hsame.trans hprogram, ?_, fun _ => ?_⟩
    · rw [hslots, hpass]
      exact ((Swaps.refl x [y] ts).concat.trans hnot hswaps).filled hx.ne_nil hword
    · have hle := hswaps.count_le hnot
      rw [List.count_append, List.count_eq_zero.mpr hnot] at hle
      rw [hpass, hslots, List.count_append, List.count_singleton_self]
      omega
  · obtain ⟨hsame, hpass⟩ := slots_replaceAll hx.solid (puts_argument hy.solid) line
    rw [replaceArgument_of_last_ne hx.solid hlast]
    exact edited_of_pass hx.ne_nil hnot hword hsame hpass hlast

namespace Edited

variable {result : Text}

/-- Each argument is exchanged exactly if none is left. -/
theorem arguments_eq_iff (h : Edited x r line result) (hx : x ≠ []) (hr : x ∉ r) (hwords : [] ∉ r) :
    arguments result = argumentsWith x r line ↔ x ∉ slots result := by
  have hslots : (arguments result = argumentsWith x r line) ↔
      filled (slots result) = every x r (filled (slots line)) := by
    rw [arguments_eq, argumentsWith, h.sameProgram, ← filled_every hx hwords, filled_cons, filled_cons]
    split
    · rfl
    · rw [List.cons_eq_cons, and_iff_right rfl]
  rw [hslots, h.exchanged.eq_every_iff hr, mem_filled_iff, and_iff_left hx]

theorem eq_self_iff (h : Edited x r line result) (hsame : x ∉ slots line → result = line) :
    result = line ↔ x ∉ slots line := by
  refine ⟨fun heq hmem => ?_, hsame⟩
  have hlt := h.fewer hmem
  rw [heq] at hlt
  exact Nat.lt_irrefl _ hlt

end Edited

theorem dropArgument_eq_self_iff (hx : IsArgument x) : dropArgument line x = line ↔ x ∉ slots line := by
  refine (edited_dropArgument hx line).eq_self_iff fun hmem => ?_
  rw [dropArgument_of_last_ne hx.solid fun hlast => hmem (List.mem_of_getLast? hlast)]
  exact replaceAll_eq_self (isPassed_of_not_mem hx.solid hmem)

theorem replaceArgument_eq_self_iff (hx : IsArgument x) (hy : IsArgument y) (hne : y ≠ x) :
    replaceArgument line x y = line ↔ x ∉ slots line := by
  refine (edited_replaceArgument hx hy hne line).eq_self_iff fun hmem => ?_
  rw [replaceArgument_of_last_ne hx.solid fun hlast => hmem (List.mem_of_getLast? hlast)]
  exact replaceAll_eq_self (isPassed_of_not_mem hx.solid hmem)

/-- **Dropping and replacing an argument.** Whatever the command line, nothing but places of the argument
is dropped or replaced, and at least one if there are any. Each of them is replaced, and a second run changes
nothing, exactly if no two share the blank between them with a blank behind; and each of them is dropped, and
a second run changes nothing, exactly if besides the argument does not end the command line twice. -/
theorem arguments_edited (hx : IsArgument x) (line : Text) :
    (Edited x [] line (dropArgument line x) ∧
      (arguments (dropArgument line x) = argumentsWith x [] line ↔
        ¬ (SharesBlank x line ∨ EndsTwice x line)) ∧
      (dropArgument (dropArgument line x) x = dropArgument line x ↔
        ¬ (SharesBlank x line ∨ EndsTwice x line))) ∧
    ∀ y, IsArgument y → y ≠ x →
      Edited x [y] line (replaceArgument line x y) ∧
      (arguments (replaceArgument line x y) = argumentsWith x [y] line ↔ ¬ SharesBlank x line) ∧
      (replaceArgument (replaceArgument line x y) x y = replaceArgument line x y ↔
        ¬ SharesBlank x line) := by
  constructor
  · have hedited := edited_dropArgument hx line
    refine ⟨hedited, ?_, ?_⟩
    · rw [hedited.arguments_eq_iff hx.ne_nil List.not_mem_nil List.not_mem_nil,
        mem_slots_dropArgument_iff hx]
    · rw [dropArgument_eq_self_iff hx, mem_slots_dropArgument_iff hx]
  · intro y hy hne
    have hedited := edited_replaceArgument hx hy hne line
    refine ⟨hedited, ?_, ?_⟩
    · rw [hedited.arguments_eq_iff hx.ne_nil (by simpa using hne.symm) (by simpa using hy.ne_nil.symm),
        mem_slots_replaceArgument_iff hx hy hne]
    · rw [replaceArgument_eq_self_iff hx hy hne, mem_slots_replaceArgument_iff hx hy hne]

/-- A command line with an argument between a space and a tab, and at the end behind two spaces. -/
def parallelLine : Text := "dh $@ --parallel\t--with=foo  --parallel".toList

theorem arguments_edited_parallelLine :
    IsArgument "--parallel".toList ∧ IsArgument "-j1".toList ∧ "-j1".toList ≠ "--parallel".toList ∧
      ¬ (SharesBlank "--parallel".toList parallelLine ∨ EndsTwice "--parallel".toList parallelLine) ∧
      arguments (dropArgument parallelLine "--parallel".toList) = ["dh", "$@", "--with=foo"].map String.toList ∧
      dropArgument (dropArgument parallelLine "--parallel".toList) "--parallel".toList =
        dropArgument parallelLine "--parallel".toList ∧
      arguments (replaceArgument parallelLine "--parallel".toList "-j1".toList) =
        ["dh", "$@", "-j1", "--with=foo", "-j1"].map String.toList ∧
      ¬ SharesBlank "--parallel".toList parallelLine ∧
      replaceArgument (replaceArgument parallelLine "--parallel".toList "-j1".toList)
        "--parallel".toList "-j1".toList =
        replaceArgument parallelLine "--parallel".toList "-j1".toList := by
  have hx : IsArgument "--parallel".toList := ⟨by decide, by decide⟩
  have hy : IsArgument "-j1".toList := ⟨by decide, by decide⟩
  have hne : "-j1".toList ≠ "--parallel".toList := by decide
  obtain ⟨⟨-, hdropped, hidem⟩, hreplace⟩ := arguments_edited hx parallelLine
  obtain ⟨-, hreplaced, hidem'⟩ := hreplace "-j1".toList hy hne
  have hdrop := hdropped.mp (by decide +kernel)
  have hshares := hreplaced.mp (by decide +kernel)
  exact ⟨hx, hy, hne, hdrop, (hdropped.mpr hdrop).trans (by decide +kernel), hidem.mpr hdrop,
    (hreplaced.mpr hshares).trans (by decide +kernel), hshares, hidem'.mpr hshares⟩

/-- Behind the same blank the argument is not found again. -/
theorem not_dropped_twiceLine :
    IsArgument "--parallel".toList ∧
      dropArgument "dh $@ --parallel --parallel --with=foo".toList "--parallel".toList =
        "dh $@ --parallel --with=foo".toList ∧
      arguments (dropArgument "dh $@ --parallel --parallel --with=foo".toList "--parallel".toList) ≠
        argumentsWith "--parallel".toList [] "dh $@ --parallel --parallel --with=foo".toList ∧
      dropArgument (dropArgument "dh $@ --parallel --parallel --with=foo".toList "--parallel".toList)
        "--parallel".toList ≠
        dropArgument "dh $@ --parallel --parallel --with=foo".toList "--parallel".toList ∧
      arguments (replaceArgument "dh $@ --parallel --parallel --with=foo".toList "--parallel".toList
        "-j1".toList) ≠
        argumentsWith "--parallel".toList ["-j1".toList]
          "dh $@ --parallel --parallel --with=foo".toList := by
  exact ⟨⟨by decide, by decide⟩, by decide +kernel, by decide +kernel, by decide +kernel, by decide +kernel⟩

end Packaging.Makefile.Invocation
