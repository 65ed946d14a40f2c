import Mathlib.Logic.Relation
import Packaging.Proofs.Makefile.AddonLists

/-!
# Places of an addon

To drop an addon from a command line, four passes are made over it. Each looks for one kind of place: the
addon alone in its list, at the start of a list, behind a comma with more to come, and behind a comma at
the end. The last two look at everything behind an option, up to the end of its line, and not at its list
alone.

## What is proved

* `onlyAddon?_eq_some_iff`, `firstAddon?_eq_some_iff`, `middleAddon?_eq_some_iff`,
  `lastAddon?_eq_some_iff` — the places that a pass stops at.
* `takes_dropAddon` — all that is dropped stands at places of these kinds.
* `dropAddon_eq_self_iff` — a command line stays as it is exactly if it has no such place.
-/

namespace Packaging.Makefile.Invocation

open Text

variable {a s t u rest kept x y : Text} {b c d : Char}

/-! ### Cuts of a line -/

theorem cuts_newline (t : Text) : cuts ('\n' :: t) = [] := if_pos rfl

theorem cuts_cons (h : c ≠ '\n') (t : Text) :
    cuts (c :: t) = (cuts t).map (fun p => (c :: p.1, p.2)) ++ [([c], t)] := if_neg h

theorem mem_cuts_iff : (x, y) ∈ cuts t ↔ t = x ++ y ∧ x ≠ [] ∧ '\n' ∉ x := by
  induction t generalizing x with
  | nil =>
    refine ⟨fun h => absurd h List.not_mem_nil, fun ⟨h, hx, _⟩ => ?_⟩
    exact absurd (List.append_eq_nil_iff.mp h.symm).1 hx
  | cons c t ih =>
    by_cases hc : c = '\n'
    · subst hc
      rw [cuts_newline]
      refine ⟨fun h => absurd h List.not_mem_nil, fun ⟨h, hx, hnew⟩ => ?_⟩
      obtain ⟨d, x, rfl⟩ := List.exists_cons_of_ne_nil hx
      exact absurd ((List.cons.inj h).1 ▸ List.mem_cons_self) hnew
    · rw [cuts_cons hc, List.mem_append, List.mem_map, List.mem_singleton]
      constructor
      · rintro (⟨⟨x, y⟩, hmem, ⟨⟩⟩ | ⟨⟨⟩⟩)
        · obtain ⟨rfl, -, hnew⟩ := ih.mp hmem
          exact ⟨rfl, List.cons_ne_nil c x, by simp [Ne.symm hc, hnew]⟩
        · exact ⟨rfl, List.cons_ne_nil c [], by simp [Ne.symm hc]⟩
      · rintro ⟨h, hx, hnew⟩
        obtain ⟨d, x, rfl⟩ := List.exists_cons_of_ne_nil hx
        obtain ⟨rfl, rfl⟩ := List.cons.inj h
        cases x with
        | nil => exact .inr rfl
        | cons d x =>
          refine .inl ⟨(d :: x, y), ih.mpr ⟨rfl, List.cons_ne_nil d x, ?_⟩, rfl⟩
          exact fun hmem => hnew (List.mem_cons_of_mem c hmem)

/-- Of several cuts that serve, the one with the longest first part is taken. -/
theorem findSome?_cuts_eq_some_iff {α : Type} {f : Text × Text → Option α} {r : α} :
    (cuts t).findSome? f = some r ↔ ∃ x y, t = x ++ y ∧ x ≠ [] ∧ '\n' ∉ x ∧ f (x, y) = some r ∧
      ∀ z y', z ≠ [] → '\n' ∉ z → y = z ++ y' → f (x ++ z, y') = none := by
  induction t generalizing f with
  | nil => simp [cuts]
  | cons c t ih =>
    by_cases hc : c = '\n'
    · subst hc
      rw [cuts_newline]
      refine ⟨fun h => (by cases h), fun ⟨x, y, h, hx, hnew, _⟩ => ?_⟩
      obtain ⟨d, x, rfl⟩ := List.exists_cons_of_ne_nil hx
      exact absurd ((List.cons.inj h).1 ▸ List.mem_cons_self) hnew
    · rw [cuts_cons hc, List.findSome?_append, List.findSome?_map, Option.or_eq_some_iff, ih,
        List.findSome?_eq_none_iff]
      constructor
      · rintro (⟨x, y, rfl, hx, hnew, hf, hlater⟩ | ⟨hlater, hf⟩)
        · exact ⟨c :: x, y, rfl, List.cons_ne_nil c x, by simp [Ne.symm hc, hnew], hf, hlater⟩
        · refine ⟨[c], t, rfl, List.cons_ne_nil c [], by simp [Ne.symm hc], by simpa using hf, ?_⟩
          exact fun z y' hz hnew ht => hlater (z, y') (mem_cuts_iff.mpr ⟨ht, hz, hnew⟩)
      · rintro ⟨x, y, h, hx, hnew, hf, hlater⟩
        obtain ⟨d, x, rfl⟩ := List.exists_cons_of_ne_nil hx
        obtain ⟨rfl, rfl⟩ := List.cons.inj h
        cases x with
        | nil =>
          refine .inr ⟨fun p hp => ?_, by simpa using hf⟩
          obtain ⟨ht, hz, hnew⟩ := mem_cuts_iff.mp hp
          exact hlater p.1 p.2 hz hnew ht
        | cons d x =>
          refine .inl ⟨d :: x, y, rfl, List.cons_ne_nil d x, ?_, hf, hlater⟩
          exact fun hmem => hnew (List.mem_cons_of_mem c hmem)

/-! ### What the passes look for -/

/-- What is kept of an option whose only addon goes: nothing, or a space and more on the same line. -/
def IsKeptBehind (rest : Text) : Prop :=
  rest = [] ∨ ∃ arguments, rest = ' ' :: arguments ∧ arguments ≠ [] ∧ '\n' ∉ arguments

/-- What stands between an option and the comma before an addon: something on the same line. -/
structure IsBetween (x : Text) : Prop where
  ne_nil : x ≠ []
  sameLine : '\n' ∉ x

theorem onlyAddon?_eq_some_iff : onlyAddon? a t = some (kept, rest) ↔
    ∃ b d, IsOption b d ∧ t = optionText b d ++ (a ++ kept) ∧ IsKeptBehind kept ∧ rest = [] := by
  rw [onlyAddon?]
  constructor
  · intro h
    split at h
    · rename_i p t' hstart
      obtain ⟨b, d⟩ := p
      obtain ⟨hoption, rfl⟩ := withStart?_eq_some_iff.mp hstart
      split at h
      · rename_i hdrop
        cases h
        exact ⟨b, d, hoption, by rw [dropStart?_eq_some_iff.mp hdrop], .inl rfl, rfl⟩
      · rename_i arguments hdrop
        split at h
        · rename_i hargs
          cases h
          rw [Bool.and_eq_true, Bool.not_eq_true', Bool.not_eq_true'] at hargs
          refine ⟨b, d, hoption, by rw [dropStart?_eq_some_iff.mp hdrop], .inr ⟨arguments, rfl, ?_, ?_⟩, rfl⟩
          · simpa using hargs.1
          · simpa using hargs.2
        · cases h
      · cases h
    · cases h
  · rintro ⟨b, d, hoption, rfl, hkept, rfl⟩
    rw [withStart?_eq_some_iff.mpr ⟨hoption, rfl⟩]
    dsimp only
    rw [dropStart?_append]
    rcases hkept with rfl | ⟨arguments, rfl, hne, hnew⟩
    · rfl
    · simp [hne, hnew]

theorem firstAddon?_eq_some_iff : firstAddon? a t = some (kept, rest) ↔
    ∃ b d, IsOption b d ∧ t = optionText b d ++ (a ++ ',' :: rest) ∧ kept = optionText b d := by
  rw [firstAddon?]
  constructor
  · intro h
    split at h
    · rename_i b d t' hstart
      obtain ⟨hoption, rfl⟩ := withStart?_eq_some_iff.mp hstart
      obtain ⟨rest', hdrop, heq⟩ := Option.map_eq_some_iff.mp h
      cases heq
      refine ⟨b, d, hoption, ?_, rfl⟩
      rw [dropStart?_eq_some_iff.mp hdrop, List.append_assoc, List.singleton_append]
    · cases h
  · rintro ⟨b, d, hoption, rfl, rfl⟩
    rw [withStart?_eq_some_iff.mpr ⟨hoption, rfl⟩]
    dsimp only
    rw [Option.map_eq_some_iff]
    exact ⟨rest, dropStart?_eq_some_iff.mpr (by simp), rfl⟩

/-- What is found behind a cut: a comma, the addon, and a space or a comma. -/
theorem middleCut_eq_some_iff (init : Text) :
    (match dropStart? (',' :: a) y with
      | some (c :: rest) => if c == ' ' || c == ',' then some (init ++ [c], rest) else none
      | _ => none) = some (kept, rest) ↔
    ∃ c, y = ',' :: (a ++ c :: rest) ∧ (c = ' ' ∨ c = ',') ∧ kept = init ++ [c] := by
  constructor
  · intro h
    split at h
    · rename_i c rest' hdrop
      split at h
      · rename_i hc
        cases h
        exact ⟨c, dropStart?_eq_some_iff.mp hdrop, by simpa using hc, rfl⟩
      · cases h
    · cases h
  · rintro ⟨c, rfl, hc, rfl⟩
    rw [dropStart?_eq_some_iff.mpr (List.cons_append ..).symm]
    rcases hc with rfl | rfl <;> rfl

theorem middleAddon?_eq_some_iff : middleAddon? a t = some (kept, rest) ↔
    ∃ b d x c, IsOption b d ∧ t = optionText b d ++ (x ++ ',' :: (a ++ c :: rest)) ∧ IsBetween x ∧
      (c = ' ' ∨ c = ',') ∧ kept = optionText b d ++ x ++ [c] ∧
      ∀ z c' rest', z ≠ [] → '\n' ∉ z → (c' = ' ' ∨ c' = ',') →
        ',' :: (a ++ c :: rest) ≠ z ++ ',' :: (a ++ c' :: rest') := by
  rw [middleAddon?]
  constructor
  · intro h
    split at h
    · rename_i b d t' hstart
      obtain ⟨hoption, rfl⟩ := withStart?_eq_some_iff.mp hstart
      obtain ⟨x, y, rfl, hx, hnew, hfound, hlater⟩ := findSome?_cuts_eq_some_iff.mp h
      obtain ⟨c, rfl, hc, rfl⟩ := (middleCut_eq_some_iff _).mp hfound
      refine ⟨b, d, x, c, hoption, rfl, ⟨hx, hnew⟩, hc, rfl, fun z c' rest' hz hznew hc' heq => ?_⟩
      have hfound := (middleCut_eq_some_iff (y := ',' :: (a ++ c' :: rest'))
        (optionText b d ++ (x ++ z))).mpr ⟨c', rfl, hc', rfl⟩
      exact Option.some_ne_none _ (hfound.symm.trans (hlater z _ hz hznew heq))
    · cases h
  · rintro ⟨b, d, x, c, hoption, rfl, hx, hc, rfl, hlast⟩
    rw [withStart?_eq_some_iff.mpr ⟨hoption, rfl⟩]
    refine findSome?_cuts_eq_some_iff.mpr ⟨x, _, rfl, hx.ne_nil, hx.sameLine,
      (middleCut_eq_some_iff _).mpr ⟨c, rfl, hc, rfl⟩, fun z y' hz hznew heq => ?_⟩
    rw [Option.eq_none_iff_forall_ne_some]
    rintro ⟨kept, rest'⟩ hsome
    obtain ⟨c', rfl, hc', -⟩ := (middleCut_eq_some_iff _).mp hsome
    exact hlast z c' rest' hz hznew hc' heq

theorem lastAddon?_eq_some_iff : lastAddon? a t = some (kept, rest) ↔
    ∃ b d x, IsOption b d ∧ t = optionText b d ++ (x ++ ',' :: a) ∧ IsBetween x ∧
      kept = optionText b d ++ x ∧ rest = [] := by
  rw [lastAddon?]
  constructor
  · intro h
    split at h
    · rename_i b d t' hstart
      obtain ⟨hoption, rfl⟩ := withStart?_eq_some_iff.mp hstart
      obtain ⟨x, y, rfl, hx, hnew, hfound, -⟩ := findSome?_cuts_eq_some_iff.mp h
      obtain ⟨hy, heq⟩ := Option.ite_none_right_eq_some.mp hfound
      cases heq
      exact ⟨b, d, x, hoption, by rw [hy], ⟨hx, hnew⟩, rfl, rfl⟩
    · cases h
  · rintro ⟨b, d, x, hoption, rfl, hx, rfl, rfl⟩
    rw [withStart?_eq_some_iff.mpr ⟨hoption, rfl⟩]
    refine findSome?_cuts_eq_some_iff.mpr ⟨x, ',' :: a, rfl, hx.ne_nil, hx.sameLine, if_pos rfl,
      fun z y' hz _ heq => if_neg ?_⟩
    -- The text is at its end behind one cut only.
    rintro rfl
    exact hz (List.self_eq_append_left.mp heq)

theorem exists_middleAddon? (h : IsOption b d) (hx : IsBetween x) (hc : c = ' ' ∨ c = ',') (rest : Text) :
    ∃ p, middleAddon? a (optionText b d ++ (x ++ ',' :: (a ++ c :: rest))) = some p := by
  rw [← Option.ne_none_iff_exists', middleAddon?, withStart?_eq_some_iff.mpr ⟨h, rfl⟩]
  intro hnone
  have hcut := List.findSome?_eq_none_iff.mp hnone _
    (mem_cuts_iff.mpr ⟨rfl, hx.ne_nil, hx.sameLine⟩)
  exact Option.some_ne_none _ (((middleCut_eq_some_iff _).mpr ⟨c, rfl, hc, rfl⟩).symm.trans hcut)

/-! ### Steps -/

/-- The second command line is the first one without the addon at one of its places. -/
inductive Takes (a : Text) : (line line' : Text) → Prop where
  | alone {s kept : Text} {b d : Char} (h : IsOption b d) (hkept : IsKeptBehind kept) :
      Takes a (s ++ (optionText b d ++ (a ++ kept))) (s ++ kept)
  | first {s rest : Text} {b d : Char} (h : IsOption b d) :
      Takes a (s ++ (optionText b d ++ (a ++ ',' :: rest))) (s ++ (optionText b d ++ rest))
  | middle {s x rest : Text} {b c d : Char} (h : IsOption b d) (hx : IsBetween x)
      (hc : c = ' ' ∨ c = ',') :
      Takes a (s ++ (optionText b d ++ (x ++ ',' :: (a ++ c :: rest))))
        (s ++ (optionText b d ++ (x ++ c :: rest)))
  | last {s x : Text} {b d : Char} (h : IsOption b d) (hx : IsBetween x) :
      Takes a (s ++ (optionText b d ++ (x ++ ',' :: a))) (s ++ (optionText b d ++ x))

/-- The places that are looked for, pass by pass. -/
def passes (a : Text) : List (Recogniser Text) :=
  [onlyAddon? a, firstAddon? a, middleAddon? a, lastAddon? a]

theorem forall_mem_passes {p : Recogniser Text → Prop} :
    (∀ r ∈ passes a, p r) ↔
      p (onlyAddon? a) ∧ p (firstAddon? a) ∧ p (middleAddon? a) ∧ p (lastAddon? a) := by
  simp [passes]

variable {r : Recogniser Text} {line line' : Text}

theorem Takes.length_lt (h : Takes a line line') : line'.length < line.length := by
  cases h <;> (simp only [optionText, List.length_append, List.length_cons]; omega)

theorem Takes.infix (h : Takes a line line') : a <:+: line := by
  cases h with
  | @alone s kept b d _ _ => exact ⟨s ++ optionText b d, kept, by simp⟩
  | @first s rest b d _ => exact ⟨s ++ optionText b d, ',' :: rest, by simp⟩
  | @middle s x rest b c d _ _ _ => exact ⟨s ++ optionText b d ++ x ++ [','], c :: rest, by simp⟩
  | @last s x b d _ _ => exact ⟨s ++ optionText b d ++ x ++ [','], [], by simp⟩

/-- What a pass finds is a place. -/
theorem takes_of_mem_passes (hr : r ∈ passes a) (h : r t = some (kept, rest)) (s : Text) :
    Takes a (s ++ t) (s ++ (kept ++ rest)) := by
  suffices hall : ∀ r ∈ passes a, r t = some (kept, rest) → Takes a (s ++ t) (s ++ (kept ++ rest)) from
    hall r hr h
  rw [forall_mem_passes]
  refine ⟨fun h => ?_, fun h => ?_, fun h => ?_, fun h => ?_⟩
  · obtain ⟨b, d, hoption, rfl, hkept, rfl⟩ := onlyAddon?_eq_some_iff.mp h
    rw [List.append_nil]
    exact .alone hoption hkept
  · obtain ⟨b, d, hoption, rfl, rfl⟩ := firstAddon?_eq_some_iff.mp h
    exact .first hoption
  · obtain ⟨b, d, x, c, hoption, rfl, hx, hc, rfl, -⟩ := middleAddon?_eq_some_iff.mp h
    rw [List.append_assoc, List.append_assoc, List.singleton_append]
    exact .middle hoption hx hc
  · obtain ⟨b, d, x, hoption, rfl, hx, rfl, rfl⟩ := lastAddon?_eq_some_iff.mp h
    rw [List.append_nil]
    exact .last hoption hx

/-- Every place is found by a pass. -/
theorem Takes.exists_pass (h : Takes a line line') :
    ∃ r ∈ passes a, ∃ s t p, line = s ++ t ∧ r t = some p := by
  cases h with
  | alone hoption hkept =>
    exact ⟨onlyAddon? a, by simp [passes], _, _, _, rfl,
      onlyAddon?_eq_some_iff.mpr ⟨_, _, hoption, rfl, hkept, rfl⟩⟩
  | first hoption =>
    exact ⟨firstAddon? a, by simp [passes], _, _, _, rfl,
      firstAddon?_eq_some_iff.mpr ⟨_, _, hoption, rfl, rfl⟩⟩
  | middle hoption hx hc =>
    obtain ⟨p, hp⟩ := exists_middleAddon? hoption hx hc _
    exact ⟨middleAddon? a, by simp [passes], _, _, p, rfl, hp⟩
  | last hoption hx =>
    exact ⟨lastAddon? a, by simp [passes], _, _, _, rfl,
      lastAddon?_eq_some_iff.mpr ⟨_, _, _, hoption, rfl, hx, rfl, rfl⟩⟩

theorem consumes_of_mem_passes (hr : r ∈ passes a) : Consumes r := by
  intro t kept rest h
  have hlt := (takes_of_mem_passes hr h []).length_lt
  simp only [List.nil_append, List.length_append] at hlt
  omega

open Relation

theorem reflTransGen_replaceAll (hr : r ∈ passes a) (s t : Text) :
    ReflTransGen (Takes a) (s ++ t) (s ++ replaceAll r id t) := by
  induction t using scan_induction (consumes_of_mem_passes hr) generalizing s with
  | passed t h => rw [replaceAll_eq_self h]
  | found u m kept rest hu hm ih =>
    rw [replaceAll_passed hu, replaceAll_found (consumes_of_mem_passes hr) hm, id]
    have hstep := takes_of_mem_passes hr hm (s ++ u)
    have hrest := ih (s ++ u ++ kept)
    simp only [List.append_assoc] at hstep hrest ⊢
    exact .head hstep hrest

theorem length_le_of_reflTransGen (h : ReflTransGen (Takes a) line line') :
    line'.length ≤ line.length := by
  induction h with
  | refl => exact le_rfl
  | tail _ hstep ih => exact hstep.length_lt.le.trans ih

theorem eq_of_reflTransGen (h : ReflTransGen (Takes a) line line') (hle : line.length ≤ line'.length) :
    line' = line := by
  rcases h.cases_head with heq | ⟨line₁, hstep, hsteps⟩
  · exact heq.symm
  · have hlt := hstep.length_lt
    have := length_le_of_reflTransGen hsteps
    omega

theorem isPassed_of_replaceAll_eq (hr : r ∈ passes a) (h : replaceAll r id line = line) :
    IsPassed r line [] := by
  rcases exists_passed r line with hpassed | ⟨s, m, kept, rest, rfl, hs, hm⟩
  · exact hpassed
  · -- What is found would make the line shorter.
    have hlt := (takes_of_mem_passes hr hm []).length_lt
    have hle := length_le_of_reflTransGen (reflTransGen_replaceAll hr [] rest)
    rw [replaceAll_passed hs, replaceAll_found (consumes_of_mem_passes hr) hm,
      List.append_cancel_left_eq] at h
    rw [← h] at hlt
    simp at hlt hle
    omega

theorem dropAddon_eq (line a : Text) : dropAddon line a =
    if occursIn a line then (passes a).foldl (fun line r => replaceAll r id line) line else line := rfl

theorem reflTransGen_foldl {rs : List (Recogniser Text)} (hrs : ∀ r ∈ rs, r ∈ passes a) (line : Text) :
    ReflTransGen (Takes a) line (rs.foldl (fun line r => replaceAll r id line) line) := by
  induction rs generalizing line with
  | nil => exact .refl
  | cons r rs ih =>
    obtain ⟨hr, hrs⟩ := List.forall_mem_cons.mp hrs
    exact (reflTransGen_replaceAll hr [] line).trans (ih hrs _)

/-- **All that is dropped is at a place of the addon.** -/
theorem takes_dropAddon (line a : Text) : ReflTransGen (Takes a) line (dropAddon line a) := by
  rw [dropAddon_eq]
  split
  · exact reflTransGen_foldl (fun r hr => hr) line
  · exact .refl

theorem foldl_eq_self_iff {rs : List (Recogniser Text)} (hrs : ∀ r ∈ rs, r ∈ passes a) :
    rs.foldl (fun line r => replaceAll r id line) line = line ↔ ∀ r ∈ rs, IsPassed r line [] := by
  induction rs with
  | nil => simp
  | cons r rs ih =>
    obtain ⟨hr, hrs⟩ := List.forall_mem_cons.mp hrs
    rw [List.foldl_cons, List.forall_mem_cons]
    constructor
    · intro h
      -- A line that has got shorter does not get longer again.
      have hfirst : replaceAll r id line = line := by
        refine eq_of_reflTransGen (reflTransGen_replaceAll hr [] line) ?_
        have hle := length_le_of_reflTransGen (reflTransGen_foldl hrs (replaceAll r id line))
        rw [h] at hle
        exact hle
      rw [hfirst] at h
      exact ⟨isPassed_of_replaceAll_eq hr hfirst, (ih hrs).mp h⟩
    · rintro ⟨hpassed, h⟩
      rw [replaceAll_eq_self hpassed]
      exact (ih hrs).mpr h

/-- **What is dropped.** A command line stays as it is exactly if the addon has no place in it. -/
theorem dropAddon_eq_self_iff : dropAddon line a = line ↔ ∀ line', ¬ Takes a line line' := by
  rw [dropAddon_eq]
  split
  · rw [foldl_eq_self_iff fun r hr => hr]
    constructor
    · intro hpassed line' htakes
      obtain ⟨r, hr, s, t, p, hline, hp⟩ := htakes.exists_pass
      have ht := eq_nil_of_isPassed (hpassed r hr) hline hp
      subst ht
      exact Nat.not_lt_zero _ (consumes_of_mem_passes hr _ _ _ hp)
    · intro hnone r hr
      refine (exists_passed r line).resolve_right ?_
      rintro ⟨s, m, kept, rest, rfl, -, hm⟩
      exact hnone _ (takes_of_mem_passes hr hm s)
  · rename_i hoccurs
    exact ⟨fun _ line' htakes => hoccurs (occursIn_iff.mpr htakes.infix), fun _ => rfl⟩

/-- The result, where there is only one way to take the addon out, and then none. -/
theorem dropAddon_eq_of_takes (h : Takes a line line') (honly : ∀ l, Takes a line l → l = line')
    (hdone : ∀ l, ¬ Takes a line' l) : dropAddon line a = line' := by
  rcases (takes_dropAddon line a).cases_head with heq | ⟨l, hstep, hsteps⟩
  · exact absurd h (dropAddon_eq_self_iff.mp heq.symm line')
  · obtain rfl := honly l hstep
    rcases hsteps.cases_head with heq | ⟨l', hstep', -⟩
    · exact heq.symm
    · exact absurd hstep' (hdone l')

end Packaging.Makefile.Invocation
