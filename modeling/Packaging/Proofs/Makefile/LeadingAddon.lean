import Packaging.Proofs.Makefile.AddonSteps

/-!
# An addon at the start of its list

The second pass looks at the start of each list only, so it finds the addon in all lists that begin with it
and have others.

## What is proved

* `options_replaceAll_firstAddon` — the second pass drops the start of each list that is the addon.
* `count_dropAddon_le` — how many times the addon is left.
-/

namespace Packaging.Makefile.Invocation

open Text Relation

variable {a line line' rest s t : Text} {w : WithList} {items : List Text}
  {ls ls' : List (List Text)}

/-- The list without the addon at its start, if it has others. -/
def dropHead (a : Text) (items : List Text) : List Text :=
  if items.head? = some a ∧ items.tail ≠ [] then items.tail else items

theorem dropHead_cons {j : List Text} (h : j ≠ []) : dropHead a (a :: j) = j := if_pos ⟨rfl, h⟩

theorem dropHead_eq_self (h : ∀ j, items = a :: j → j = []) : dropHead a items = items := by
  refine if_neg fun ⟨hhead, htail⟩ => ?_
  cases items with
  | nil => cases hhead
  | cons b j =>
    obtain rfl : b = a := by simpa using hhead
    exact htail (h j rfl)

theorem count_dropHead_le (a : Text) (items : List Text) : (dropHead a items).count a ≤ items.count a := by
  rw [dropHead]
  split
  · exact (List.tail_sublist items).count_le a
  · exact le_rfl

theorem count_le_dropHead (a : Text) (items : List Text) : items.count a ≤ (dropHead a items).count a + 1 := by
  rw [dropHead]
  split
  · cases items with
    | nil => simp
    | cons b items =>
      rw [List.count_cons, List.tail_cons]
      split <;> omega
  · omega

/-- How many times the addon stands elsewhere than at the start of a list that has others. -/
def further (a : Text) (ls : List (List Text)) : Nat := (ls.map (dropHead a)).flatten.count a

theorem count_dropHead_erase_le (i j : List Text) :
    (dropHead a (i ++ j)).count a ≤ (dropHead a (i ++ a :: j)).count a := by
  have hleft := count_dropHead_le a (i ++ j)
  have hright := count_le_dropHead a (i ++ a :: j)
  rw [List.count_append, List.count_cons_self] at hright
  rw [List.count_append] at hleft
  omega

theorem further_cons (a : Text) (items : List Text) (ls : List (List Text)) :
    further a (items :: ls) = (dropHead a items).count a + further a ls := by
  rw [further, List.map_cons, List.flatten_cons, List.count_append, further]

theorem further_append (a : Text) (ls ls' : List (List Text)) :
    further a (ls ++ ls') = further a ls + further a ls' := by
  rw [further, List.map_append, List.flatten_append, List.count_append, further, further]

/-- Losing an addon does not bring another one forward. -/
theorem Loses.further_le (h : Loses a ls ls') : further a ls' ≤ further a ls := by
  cases h with
  | nothing => exact le_rfl
  | addon ls ls' i j hne =>
    rw [further_append, further_append, further_cons, further_cons]
    have := count_dropHead_erase_le (a := a) i j
    omega
  | list ls ls' =>
    rw [further_append, further_append, further_cons]
    omega

theorem further_le_of_reflTransGen (h : ReflTransGen (Takes a) line line') (ha : IsAddon a)
    (hline : IsRegular line) : further a (options line') ≤ further a (options line) := by
  induction h with
  | refl => exact le_rfl
  | tail hsteps hstep ih =>
    exact (hstep.loses ha (keeps_of_reflTransGen hsteps ha hline).isRegular).further_le.trans ih

/-! ### The second pass -/

theorem firstAddon_mem_passes (a : Text) : firstAddon? a ∈ passes a := by simp [passes]

theorem consumes_firstAddon (a : Text) : Consumes (firstAddon? a) :=
  consumes_of_mem_passes (firstAddon_mem_passes a)

/-- A list with others behind the addon is found. -/
theorem exists_firstAddon? (hw : w.Stands rest) {j : List Text} (hj : j ≠ []) (h : w.items = a :: j) :
    ∃ p, firstAddon? a (w.render ++ rest) = some p := by
  obtain ⟨k, j, rfl⟩ := List.exists_cons_of_ne_nil hj
  have haddons : w.addons = a ++ ',' :: join [','] (k :: j) := by
    rw [← join_splitOn ',' w.addons]
    rw [WithList.items] at h
    rw [h, join_cons_cons]
    simp
  refine ⟨(optionText w.blank w.separator, join [','] (k :: j) ++ rest),
    firstAddon?_eq_some_iff.mpr ⟨w.blank, w.separator, hw.isOption, ?_, rfl⟩⟩
  rw [WithList.render, haddons, List.append_assoc, List.append_assoc, List.cons_append]

/-- A list that the pass goes by does not begin with the addon, or has no others. -/
theorem options_of_isPassed_firstAddon (hline : IsRegular (s ++ t)) (h : IsPassed (firstAddon? a) s t) :
    ∃ ls, options (s ++ t) = ls ++ options t ∧ ls.map (dropHead a) = ls := by
  induction s with
  | nil => exact ⟨[], rfl, rfl⟩
  | cons c s ih =>
    obtain ⟨ls, hls, hkept⟩ := ih (hline.right (s := [c])) h.2
    refine ⟨(readOption? (c :: (s ++ t))).toList ++ ls, ?_, ?_⟩
    · rw [List.cons_append, options_cons, hls, List.append_assoc]
    · rw [List.map_append, hkept]
      cases hread : readOption? (c :: (s ++ t)) with
      | none => rfl
      | some items =>
        obtain ⟨w, rest, hw, hlist, rfl⟩ := exists_stands hread (hline.head hread)
        have hself : dropHead a w.items = w.items := by
          refine dropHead_eq_self fun j hj => ?_
          by_contra hne
          obtain ⟨p, hfound⟩ := exists_firstAddon? hw hne hj
          have hnone : firstAddon? a (c :: (s ++ t)) = none := h.1
          rw [hlist, hfound] at hnone
          cases hnone
        simp [hself]

/-- The pass goes by a word. -/
theorem isPassed_firstAddon_solid (hs : IsSolid s) (t : Text) : IsPassed (firstAddon? a) s t := by
  rw [isPassed_iff]
  rintro u v rfl hv
  obtain ⟨c, v, rfl⟩ := List.exists_cons_of_ne_nil hv
  rw [Option.eq_none_iff_forall_ne_some]
  rintro ⟨kept, rest⟩ hfound
  obtain ⟨b, d, hoption, htext, -⟩ := firstAddon?_eq_some_iff.mp hfound
  obtain ⟨rfl, -⟩ := List.cons.inj htext
  have hsolid := hs.right c List.mem_cons_self
  rw [hoption.blank] at hsolid
  cases hsolid

theorem head?_replaceAll_firstAddon (a t : Text) :
    (replaceAll (firstAddon? a) id t).head? = t.head? := by
  rcases exists_passed (firstAddon? a) t with hpassed | ⟨s, m, kept, rest, rfl, hs, hm⟩
  · rw [replaceAll_eq_self hpassed]
  · rw [replaceAll_passed hs, replaceAll_found (consumes_firstAddon a) hm]
    obtain ⟨b, d, -, rfl, rfl⟩ := firstAddon?_eq_some_iff.mp hm
    cases s <;> simp [optionText]

/-- **The second pass.** At the start of every list that has others the addon is dropped. -/
theorem options_replaceAll_firstAddon (ha : IsAddon a) (hline : IsRegular t) :
    options (replaceAll (firstAddon? a) id t) = (options t).map (dropHead a) := by
  induction t using scan_induction (consumes_firstAddon a) with
  | passed t hpassed =>
    obtain ⟨ls, hls, hkept⟩ := options_of_isPassed_firstAddon (t := []) (by rwa [List.append_nil]) hpassed
    rw [List.append_nil] at hls
    rw [replaceAll_eq_self hpassed, hls, List.map_append, hkept]
    rfl
  | found s m kept rest hs hm ih =>
    obtain ⟨ls, hls, hkept⟩ := options_of_isPassed_firstAddon hline hs
    rw [replaceAll_passed hs, replaceAll_found (consumes_firstAddon a) hm]
    obtain ⟨b, d, hoption, rfl, rfl⟩ := firstAddon?_eq_some_iff.mp hm
    have hrest : IsRegular rest := IsRegular.right (s := s ++ (optionText b d ++ (a ++ [',']))) (by
      simpa using hline)
    obtain ⟨part, rest, ls', items, rfl, hsolid, hends, hne, hbefore, hothers, hpart⟩ :=
      options_first ha hoption hline
    obtain rfl : ls = ls' :=
      List.append_cancel_right (hls.symm.trans (hothers _ (endsWord_option hoption _)))
    have hread := ih hrest
    rw [replaceAll_passed (isPassed_firstAddon_solid hsolid rest), options_solid hsolid,
      options_solid hsolid] at hread
    have hends' : EndsWord (replaceAll (firstAddon? a) id rest) := by
      rwa [EndsWord, head?_replaceAll_firstAddon]
    rw [hbefore, id, replaceAll_passed (isPassed_firstAddon_solid hsolid rest),
      hothers _ (endsWord_option hoption _), hpart _ hends', hread, List.map_append, hkept, List.map_cons,
      dropHead_cons hne]

/-- What is left of the addon has stood elsewhere than at the start of a list that has others. -/
theorem count_dropAddon_le (ha : IsAddon a) (hline : IsRegular line) :
    (addons (dropAddon line a)).count a ≤ further a (lists line) := by
  rw [dropAddon_eq]
  split
  · have hfirst := reflTransGen_replaceAll (a := a) (r := onlyAddon? a) (by simp [passes]) [] line
    rw [List.nil_append, List.nil_append] at hfirst
    have hline₁ := (keeps_of_reflTransGen hfirst ha hline).isRegular
    have hsecond := reflTransGen_replaceAll (firstAddon_mem_passes a) [] (replaceAll (onlyAddon? a) id line)
    rw [List.nil_append, List.nil_append] at hsecond
    have hline₂ := (keeps_of_reflTransGen hsecond ha hline₁).isRegular
    have hothers : ∀ r ∈ [middleAddon? a, lastAddon? a], r ∈ passes a := by simp [passes]
    calc ((passes a).foldl (fun line r => replaceAll r id line) line |> addons).count a
        ≤ (addons (replaceAll (firstAddon? a) id (replaceAll (onlyAddon? a) id line))).count a :=
          (keeps_of_reflTransGen (reflTransGen_foldl hothers _) ha hline₂).count_le
      _ = further a (options (replaceAll (onlyAddon? a) id line)) := by
          rw [addons_eq_options hline₂, options_replaceAll_firstAddon ha hline₁, further]
      _ ≤ further a (options line) := further_le_of_reflTransGen hfirst ha hline
      _ = further a (lists line) := by rw [lists_eq_options hline]
  · rename_i hoccurs
    have hmem : a ∉ addons line := fun h => hoccurs (occursIn_iff.mpr (infix_of_mem_addons h))
    rw [List.count_eq_zero.mpr hmem]
    exact Nat.zero_le _

end Packaging.Makefile.Invocation
