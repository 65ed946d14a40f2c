import Mathlib.Data.List.Induction
import Packaging.Proofs.Makefile.Lines
import Packaging.Proofs.Makefile.Rules

/-!
# Discarding pointless overrides

The targets of all override rules are collected first, and the rules for each are then looked at in
the makefile as it is by then: some rules are cleared already, and the lists of phony targets are
shorter. Neither matters. What a rule is in the end can be said from the rule itself and the targets of
the pointless rules that there were at the start.

## What is proved

* `Rule.isPointlessFor_iff` — what is looked for is an override rule that does nothing but run the
  command it overrides.
* `Rule.dropPhony_afterDiscarding` — what one more target does to a rule.
* `Discarding.step` and `discarding_foldl` — the step for one target and the run over a list of them.
* `discarded_parse` — what discarding all pointless overrides does to a makefile that was read.
-/

namespace Packaging.Makefile

open Text

/-! ### Pointless rules -/

namespace Rule

/-- **A pointless override**: the only target is that of the override of a command, there are no
prerequisites, and the only line that counts runs the command. -/
def IsPointless (ignoreComments : Bool) (r : Rule) : Prop :=
  ∃ command, r.targets = [overrideStart ++ command] ∧ r.prerequisites = [] ∧
    r.effectiveLines ignoreComments = ['\t' :: command]

/-- The rule is a pointless override with this target. -/
def isPointlessFor (ignoreComments : Bool) (target : Text) (r : Rule) : Bool :=
  (dropStart? overrideStart target).any fun command => r.onlyRuns ignoreComments target command

variable {ignoreComments : Bool} {target : Text} {r : Rule}

theorem isPointlessFor_iff : r.isPointlessFor ignoreComments target = true ↔
    r.IsPointless ignoreComments ∧ r.targets = [target] := by
  simp only [isPointlessFor, Option.any_eq_true, dropStart?_eq_some_iff, onlyRuns, Bool.and_eq_true,
    beq_iff_eq, List.isEmpty_iff]
  constructor
  · rintro ⟨command, rfl, ⟨htargets, hprerequisites⟩, hlines⟩
    exact ⟨⟨command, htargets, hprerequisites, hlines⟩, htargets⟩
  · rintro ⟨⟨command, htargets, hprerequisites, hlines⟩, htarget⟩
    obtain rfl : overrideStart ++ command = target := List.singleton_inj.mp (htargets.symm.trans htarget)
    exact ⟨command, rfl, ⟨htargets, hprerequisites⟩, hlines⟩

theorem IsPointless.exists_isPointlessFor (h : r.IsPointless ignoreComments) :
    ∃ u, r.isPointlessFor ignoreComments u = true ∧ r.targets = [u] := by
  have ⟨command, htargets, _⟩ := h
  exact ⟨_, isPointlessFor_iff.mpr ⟨h, htargets⟩, htargets⟩

/-- An override is not the list of phony targets. -/
theorem IsPointless.phony_not_mem (h : r.IsPointless ignoreComments) : phony ∉ r.targets := by
  obtain ⟨command, htargets, -, -⟩ := h
  rw [htargets, List.mem_singleton]
  intro heq
  cases heq

/-! ### What becomes of a rule -/

/-- What becomes of a rule when the pointless overrides with targets that are `gone` are discarded. -/
def afterDiscarding (ignoreComments : Bool) (gone : Text → Bool) (r : Rule) : Rule :=
  if r.hasTarget phony then r.dropPrerequisites gone
  else if r.targets.any fun u => gone u && r.isPointlessFor ignoreComments u then .cleared
  else r

variable {gone : Text → Bool}

theorem afterDiscarding_of_phony (h : phony ∈ r.targets) :
    r.afterDiscarding ignoreComments gone = r.dropPrerequisites gone :=
  if_pos (hasTarget_iff.mpr h)

theorem afterDiscarding_of_isPointlessFor (h : r.isPointlessFor ignoreComments target = true)
    (hgone : gone target = true) : r.afterDiscarding ignoreComments gone = .cleared := by
  obtain ⟨hpointless, htargets⟩ := isPointlessFor_iff.mp h
  rw [afterDiscarding, if_neg (mt hasTarget_iff.mp hpointless.phony_not_mem), htargets, if_pos]
  simp [hgone, h]

theorem afterDiscarding_of_not (h : phony ∉ r.targets)
    (hnone : ∀ u, r.isPointlessFor ignoreComments u = true → gone u = false) :
    r.afterDiscarding ignoreComments gone = r := by
  rw [afterDiscarding, if_neg (mt hasTarget_iff.mp h), if_neg]
  intro hany
  obtain ⟨u, -, hu⟩ := List.any_eq_true.mp hany
  rw [Bool.and_eq_true] at hu
  rw [hnone u hu.2] at hu
  cases hu.1

theorem afterDiscarding_eq_self (h : ∀ u, u ∈ r.targets ∨ u ∈ r.prerequisites → gone u = false) :
    r.afterDiscarding ignoreComments gone = r := by
  by_cases hphony : phony ∈ r.targets
  · rw [afterDiscarding_of_phony hphony]
    exact dropPrerequisites_eq_self fun u hu => h u (.inr hu)
  · refine afterDiscarding_of_not hphony fun u hu => h u (.inl ?_)
    rw [(isPointlessFor_iff.mp hu).2]
    exact List.mem_singleton_self u

/-- A rule that lists phony targets, a pointless one that is discarded, and any other. -/
theorem discarding_cases (ignoreComments : Bool) (gone : Text → Bool) (r : Rule) :
    phony ∈ r.targets ∨ (∃ u, r.isPointlessFor ignoreComments u = true ∧ gone u = true) ∨
      phony ∉ r.targets ∧ ∀ u, r.isPointlessFor ignoreComments u = true → gone u = false := by
  by_cases hphony : phony ∈ r.targets
  · exact .inl hphony
  · by_cases hgone : ∃ u, r.isPointlessFor ignoreComments u = true ∧ gone u = true
    · exact .inr (.inl hgone)
    · refine .inr (.inr ⟨hphony, fun u hu => ?_⟩)
      simpa using fun h => hgone ⟨u, hu, h⟩

theorem isPointlessFor_cleared : cleared.isPointlessFor ignoreComments target = false := by
  rw [Bool.eq_false_iff]
  intro h
  cases (isPointlessFor_iff.mp h).2

theorem isPointlessFor_of_phony (h : phony ∈ r.targets) :
    r.isPointlessFor ignoreComments target = false :=
  Bool.eq_false_iff.mpr fun hpointless => (isPointlessFor_iff.mp hpointless).1.phony_not_mem h

theorem isPointlessFor_dropPrerequisites (h : phony ∈ r.targets) :
    (r.dropPrerequisites gone).isPointlessFor ignoreComments target = false := by
  rcases r.dropPrerequisites_cases gone with hcleared | ⟨header, hkeeps⟩
  · rw [hcleared, isPointlessFor_cleared]
  · rw [hkeeps]
    exact isPointlessFor_of_phony h

/-- The pointless rules that are left are those with other targets. -/
theorem isPointlessFor_afterDiscarding_iff :
    (r.afterDiscarding ignoreComments gone).isPointlessFor ignoreComments target = true ↔
      r.isPointlessFor ignoreComments target = true ∧ gone target = false := by
  rcases discarding_cases ignoreComments gone r with hphony | ⟨u, hu, hgone⟩ | ⟨hphony, hnone⟩
  · rw [afterDiscarding_of_phony hphony, isPointlessFor_dropPrerequisites hphony,
      isPointlessFor_of_phony hphony]
    simp
  · rw [afterDiscarding_of_isPointlessFor hu hgone, isPointlessFor_cleared]
    refine ⟨nofun, fun ⟨htarget, hkept⟩ => ?_⟩
    obtain rfl : u = target := List.singleton_inj.mp
      ((isPointlessFor_iff.mp hu).2.symm.trans (isPointlessFor_iff.mp htarget).2)
    rw [hgone] at hkept
    cases hkept
  · rw [afterDiscarding_of_not hphony hnone]
    exact ⟨fun h => ⟨h, hnone target h⟩, And.left⟩

/-- To discard the overrides with one more target is one more step. -/
theorem dropPhony_afterDiscarding (target : Text) (r : Rule) :
    (if (r.afterDiscarding ignoreComments gone).isPointlessFor ignoreComments target then .cleared
      else r.afterDiscarding ignoreComments gone).dropPhony target =
      r.afterDiscarding ignoreComments fun u => gone u || u == target := by
  rcases discarding_cases ignoreComments gone r with hphony | ⟨u, hu, hgone⟩ | ⟨hphony, hnone⟩
  · rw [afterDiscarding_of_phony hphony, isPointlessFor_dropPrerequisites hphony,
      afterDiscarding_of_phony hphony, ← dropPrerequisites_dropPrerequisites, ← dropPrerequisite_eq]
    rcases r.dropPrerequisites_cases gone with hcleared | ⟨header, hkeeps⟩
    · rw [hcleared]
      rfl
    · rw [hkeeps]
      exact if_pos (hasTarget_iff.mpr hphony)
  · rw [afterDiscarding_of_isPointlessFor hu hgone, isPointlessFor_cleared,
      afterDiscarding_of_isPointlessFor hu (by rw [hgone, Bool.true_or])]
    rfl
  · rw [afterDiscarding_of_not hphony hnone]
    cases htarget : r.isPointlessFor ignoreComments target with
    | true =>
      rw [afterDiscarding_of_isPointlessFor htarget (by simp)]
      rfl
    | false =>
      rw [afterDiscarding_of_not hphony]
      · exact dropPhony_of_not_mem hphony
      · intro u hu
        have hne : u ≠ target := by
          rintro rfl
          rw [hu] at htarget
          cases htarget
        simp [hnone u hu, hne]

end Rule

/-! ### Target by target -/

variable {ignoreComments : Bool} {mk : Makefile}

theorem discardPointlessOverride_eq (mk : Makefile) (target : Text) (ignoreComments : Bool) :
    mk.discardPointlessOverride target ignoreComments =
      (if mk.rules.any (Rule.isPointlessFor ignoreComments target) then
        mk.mapRules fun r =>
          (if r.isPointlessFor ignoreComments target then .cleared else r).dropPhony target
      else mk,
      (mk.rules.filter (Rule.isPointlessFor ignoreComments target)).map fun _ => target) := by
  unfold discardPointlessOverride
  cases hstart : dropStart? overrideStart target with
  | none =>
    have hnever : ∀ r, Rule.isPointlessFor ignoreComments target r = false := fun r => by
      rw [Rule.isPointlessFor, hstart, Option.any_none]
    simp [hnever]
  | some command =>
    have hsame : Rule.onlyRuns ignoreComments target command = Rule.isPointlessFor ignoreComments target := by
      funext r
      rw [Rule.isPointlessFor, hstart, Option.any_some]
    simp only [hsame]
    cases hany : mk.rules.any (Rule.isPointlessFor ignoreComments target) with
    | true =>
      have hsome : (mk.rules.filter (Rule.isPointlessFor ignoreComments target)).isEmpty = false := by
        simpa using hany
      rw [List.isEmpty_map, hsome, dropPhony_eq_mapRules, mapRulesIf, mapRules_mapRules]
      rfl
    | false =>
      have hnone : mk.rules.filter (Rule.isPointlessFor ignoreComments target) = [] := by
        simpa using hany
      rw [hnone]
      rfl

theorem discardPointlessOverride_eq_self {target : Text}
    (h : ∀ r ∈ mk.rules, r.isPointlessFor ignoreComments target = false) :
    mk.discardPointlessOverride target ignoreComments = (mk, []) := by
  have hnone : mk.rules.filter (Rule.isPointlessFor ignoreComments target) = [] :=
    List.filter_eq_nil_iff.mpr fun r hr => by rw [h r hr]; exact Bool.false_ne_true
  rw [discardPointlessOverride_eq, hnone, if_neg]
  · rfl
  · simpa using h

theorem mem_discardPointlessOverride_iff {target u : Text} :
    u ∈ (mk.discardPointlessOverride target ignoreComments).2 ↔
      u = target ∧ ∃ r ∈ mk.rules, r.isPointlessFor ignoreComments target = true := by
  rw [discardPointlessOverride_eq, List.mem_map]
  constructor
  · rintro ⟨r, hr, rfl⟩
    exact ⟨rfl, r, (List.mem_filter.mp hr).1, (List.mem_filter.mp hr).2⟩
  · rintro ⟨rfl, r, hr, hpointless⟩
    exact ⟨r, List.mem_filter.mpr ⟨hr, hpointless⟩, rfl⟩

/-- What discarding the pointless overrides with some targets has done to a makefile. -/
structure Discarding (ignoreComments : Bool) (mk : Makefile) (targets : List Text)
    (s : Makefile × List Text) : Prop where
  makefile : s.1 = mk.mapRules (Rule.afterDiscarding ignoreComments (s.2.contains ·))
  gone : ∀ u, u ∈ s.2 ↔ u ∈ targets ∧ ∃ r ∈ mk.rules, r.isPointlessFor ignoreComments u = true

theorem discarding_nil (ignoreComments : Bool) (mk : Makefile) :
    Discarding ignoreComments mk [] (mk, []) where
  makefile := (mapRules_eq_self fun r _ => Rule.afterDiscarding_eq_self fun _ _ => rfl).symm
  gone := by simp

/-- The rules for one more target are looked at in the makefile as it is by then. -/
theorem Discarding.step {targets done : List Text} {mk' : Makefile}
    (h : Discarding ignoreComments mk targets (mk', done)) (target : Text) :
    Discarding ignoreComments mk (targets ++ [target])
      ((mk'.discardPointlessOverride target ignoreComments).1,
        done ++ (mk'.discardPointlessOverride target ignoreComments).2) := by
  have hmakefile : mk' = mk.mapRules (Rule.afterDiscarding ignoreComments (done.contains ·)) := h.makefile
  have hgone : ∀ u, u ∈ done ↔ u ∈ targets ∧ ∃ r ∈ mk.rules, r.isPointlessFor ignoreComments u = true :=
    h.gone
  have hleft : (∃ r ∈ mk'.rules, r.isPointlessFor ignoreComments target = true) ↔
      (∃ r ∈ mk.rules, r.isPointlessFor ignoreComments target = true) ∧ target ∉ done := by
    rw [hmakefile, rules_mapRules]
    simp [Rule.isPointlessFor_afterDiscarding_iff, ← and_assoc]
  constructor
  · dsimp only
    by_cases hfound : ∃ r ∈ mk'.rules, r.isPointlessFor ignoreComments target = true
    · have hcontains : ∀ u, (done ++ (mk'.discardPointlessOverride target ignoreComments).2).contains u =
          (done.contains u || u == target) := fun u => by
        rw [Bool.eq_iff_iff]
        simp [mem_discardPointlessOverride_iff, hfound]
      simp only [hcontains]
      rw [discardPointlessOverride_eq, if_pos (List.any_eq_true.mpr hfound), hmakefile, mapRules_mapRules]
      simp only [Rule.dropPhony_afterDiscarding]
    · have hnone : ∀ r ∈ mk'.rules, r.isPointlessFor ignoreComments target = false := by simpa using hfound
      rw [discardPointlessOverride_eq_self hnone, List.append_nil]
      exact hmakefile
  · intro u
    have hdone := hgone u
    rw [List.mem_append, mem_discardPointlessOverride_iff, hleft, List.mem_append, List.mem_singleton]
    by_cases hu : u = target
    · subst hu
      constructor
      · rintro (hmem | ⟨-, hthere, -⟩)
        · exact ⟨.inr rfl, (hdone.mp hmem).2⟩
        · exact ⟨.inr rfl, hthere⟩
      · rintro ⟨-, hthere⟩
        by_cases hmem : u ∈ done
        · exact .inl hmem
        · exact .inr ⟨rfl, hthere, hmem⟩
    · simp only [hu, false_and, or_false]
      exact hdone

/-- The run over a list of targets. -/
theorem discarding_foldl (ignoreComments : Bool) (mk : Makefile) (targets : List Text) :
    Discarding ignoreComments mk targets
      (targets.foldl (fun (mk, done) target =>
        let (mk, discarded) := mk.discardPointlessOverride target ignoreComments
        (mk, done ++ discarded)) (mk, [])) := by
  induction targets using List.reverseRecOn with
  | nil => exact discarding_nil ignoreComments mk
  | append_singleton targets target ih =>
    rw [List.foldl_append]
    exact ih.step target

/-! ### All at once -/

/-- A pointless rule has the target of an override. -/
theorem mem_overrideTargets {r : Rule} {u : Text} (hr : r ∈ mk.rules)
    (h : r.isPointlessFor ignoreComments u = true) : u ∈ mk.overrideTargets := by
  obtain ⟨⟨command, htargets, -, -⟩, hu⟩ := Rule.isPointlessFor_iff.mp h
  have hmem : u ∈ r.targets := hu ▸ List.mem_singleton_self u
  refine List.mem_filter.mpr ⟨List.mem_flatMap.mpr ⟨r, hr, hmem⟩, ?_⟩
  rw [htargets, List.mem_singleton] at hmem
  rw [startsWith, List.isPrefixOf_iff_prefix, hmem]
  exact List.prefix_append _ _

theorem discarding_overrideTargets (ignoreComments : Bool) (mk : Makefile) :
    Discarding ignoreComments mk mk.overrideTargets (mk.discardPointlessOverrides ignoreComments) :=
  discarding_foldl ignoreComments mk mk.overrideTargets

/-- The targets of the pointless rules are discarded. -/
theorem mem_discardPointlessOverrides_iff {u : Text} :
    u ∈ (mk.discardPointlessOverrides ignoreComments).2 ↔
      ∃ r ∈ mk.rules, r.IsPointless ignoreComments ∧ r.targets = [u] := by
  rw [(discarding_overrideTargets ignoreComments mk).gone]
  simp only [Rule.isPointlessFor_iff]
  refine ⟨And.right, fun ⟨r, hr, h⟩ => ⟨?_, r, hr, h⟩⟩
  exact mem_overrideTargets hr (Rule.isPointlessFor_iff.mpr h)

theorem discardPointlessOverrides_eq_self (h : ∀ r ∈ mk.rules, ¬r.IsPointless ignoreComments) :
    mk.discardPointlessOverrides ignoreComments = (mk, []) := by
  have hgone : (mk.discardPointlessOverrides ignoreComments).2 = [] :=
    List.eq_nil_iff_forall_not_mem.mpr fun u hu => by
      obtain ⟨r, hr, hpointless, -⟩ := mem_discardPointlessOverrides_iff.mp hu
      exact h r hr hpointless
  refine Prod.ext ?_ hgone
  rw [(discarding_overrideTargets ignoreComments mk).makefile, hgone]
  exact mapRules_eq_self fun r _ => Rule.afterDiscarding_eq_self fun _ _ => rfl

namespace Rule

/-- What should become of a list of phony targets when the targets `gone` go. -/
structure Unlists (gone : List Text) (r r' : Rule) : Prop where
  prerequisites : r'.prerequisites = r.prerequisites.filter (!gone.contains ·)
  /-- The list is cleared if there was such a target and no other. -/
  isCleared_iff : r'.isCleared = true ↔
    (∃ u ∈ r.prerequisites, u ∈ gone) ∧ ∀ u ∈ r.prerequisites, u ∈ gone
  kept : r'.isCleared = false → r'.targets = r.targets ∧ r'.body = r.body ∧ r'.precomment = r.precomment
  same : (∀ u ∈ r.prerequisites, u ∉ gone) → r' = r

/-- What should become of a rule when the pointless overrides are discarded, which have the targets
`gone`. -/
structure Discards (ignoreComments : Bool) (gone : List Text) (r r' : Rule) : Prop where
  isCleared_iff : phony ∉ r.targets → (r'.isCleared = true ↔ r.IsPointless ignoreComments)
  pointless : r.IsPointless ignoreComments → r' = .cleared
  other : phony ∉ r.targets → ¬r.IsPointless ignoreComments → r' = r
  listed : phony ∈ r.targets → Unlists gone r r'

variable {gone : List Text} {r : Rule}

theorem unlists_dropPrerequisites (hr : r.isCleared = false) :
    r.Unlists gone (r.dropPrerequisites (gone.contains ·)) where
  prerequisites := prerequisites_dropPrerequisites _ r
  isCleared_iff := by simpa using @isCleared_dropPrerequisites_iff r (gone.contains ·) hr
  kept := fun hkept => by
    rcases r.dropPrerequisites_cases (gone.contains ·) with hcleared | ⟨header, hkeeps⟩
    · rw [hcleared] at hkept
      cases hkept
    · rw [hkeeps]
      exact ⟨rfl, rfl, rfl⟩
  same := fun hnone => dropPrerequisites_eq_self fun u hu => by simpa using hnone u hu

theorem discards_cleared (h : r.IsPointless ignoreComments) : r.Discards ignoreComments gone .cleared where
  isCleared_iff := fun _ => ⟨fun _ => h, fun _ => rfl⟩
  pointless := fun _ => rfl
  other := fun _ hnot => absurd h hnot
  listed := fun hphony => absurd hphony h.phony_not_mem

theorem discards_self (hr : r.isCleared = false) (hphony : phony ∉ r.targets)
    (hnot : ¬r.IsPointless ignoreComments) : r.Discards ignoreComments gone r where
  isCleared_iff := fun _ => by simp [hr, hnot]
  pointless := fun h => absurd h hnot
  other := fun _ _ => rfl
  listed := fun h => absurd h hphony

theorem discards_afterDiscarding (hr : r.isCleared = false)
    (hgone : ∀ u, r.isPointlessFor ignoreComments u = true → u ∈ gone) :
    r.Discards ignoreComments gone (r.afterDiscarding ignoreComments (gone.contains ·)) := by
  by_cases hpointless : r.IsPointless ignoreComments
  · obtain ⟨u, hu, -⟩ := hpointless.exists_isPointlessFor
    rw [afterDiscarding_of_isPointlessFor hu (List.contains_iff_mem.mpr (hgone u hu))]
    exact discards_cleared hpointless
  · by_cases hphony : phony ∈ r.targets
    · rw [afterDiscarding_of_phony hphony]
      exact ⟨absurd hphony, fun h => absurd h hpointless, absurd hphony,
        fun _ => unlists_dropPrerequisites hr⟩
    · rw [afterDiscarding_of_not hphony fun u hu => absurd (isPointlessFor_iff.mp hu).1 hpointless]
      exact discards_self hr hphony hpointless

end Rule

/-- What has been done when all pointless overrides are discarded, which have the targets `gone`. -/
structure Discarded (ignoreComments : Bool) (mk mk' : Makefile) (gone : List Text) : Prop where
  /-- A target is discarded if and only if there is a pointless rule. -/
  found : gone ≠ [] ↔ ∃ r ∈ mk.rules, r.IsPointless ignoreComments
  mem_gone : ∀ u, u ∈ gone ↔ ∃ r ∈ mk.rules, r.IsPointless ignoreComments ∧ r.targets = [u]
  noneLeft : ∀ r ∈ mk'.rules, ¬r.IsPointless ignoreComments
  /-- To do it again discards nothing and changes nothing. -/
  again : mk'.discardPointlessOverrides ignoreComments = (mk', [])
  ruleByRule : RuleByRule (Rule.Discards ignoreComments gone) mk mk'

/-- **Pointless overrides are discarded**, all of them and nothing else, in every makefile that was
read. -/
theorem discarded_parse (t : Text) (ignoreComments : Bool) :
    Discarded ignoreComments (parse t) ((parse t).discardPointlessOverrides ignoreComments).1
      ((parse t).discardPointlessOverrides ignoreComments).2 := by
  have hmakefile := (discarding_overrideTargets ignoreComments (parse t)).makefile
  have hgone : ∀ r ∈ (parse t).rules, ∀ u, r.isPointlessFor ignoreComments u = true →
      u ∈ ((parse t).discardPointlessOverrides ignoreComments).2 := fun r hr u hu =>
    mem_discardPointlessOverrides_iff.mpr ⟨r, hr, Rule.isPointlessFor_iff.mp hu⟩
  have hnone : ∀ r' ∈ ((parse t).discardPointlessOverrides ignoreComments).1.rules,
      ¬r'.IsPointless ignoreComments := by
    rw [hmakefile, rules_mapRules]
    intro r' hr' hpointless
    obtain ⟨r, hr, rfl⟩ := List.mem_map.mp hr'
    obtain ⟨u, hu, -⟩ := hpointless.exists_isPointlessFor
    obtain ⟨hu, hkept⟩ := Rule.isPointlessFor_afterDiscarding_iff.mp hu
    rw [List.contains_iff_mem.mpr (hgone r hr u hu)] at hkept
    cases hkept
  refine ⟨?_, fun u => mem_discardPointlessOverrides_iff, hnone, discardPointlessOverrides_eq_self hnone, ?_⟩
  · rw [Ne, List.eq_nil_iff_forall_not_mem, not_forall_not]
    constructor
    · rintro ⟨u, hu⟩
      obtain ⟨r, hr, hpointless, -⟩ := mem_discardPointlessOverrides_iff.mp hu
      exact ⟨r, hr, hpointless⟩
    · rintro ⟨r, hr, hpointless⟩
      obtain ⟨u, hu, -⟩ := hpointless.exists_isPointlessFor
      exact ⟨u, hgone r hr u hu⟩
  · rw [hmakefile, ruleByRule_mapRules_iff]
    intro r hr
    exact Rule.discards_afterDiscarding (intact_parse t r (mem_rules_iff.mp hr)) (hgone r hr)

example : ((parse "override_a:\n\ta\n\n.PHONY: override_a b\n".toList).discardPointlessOverrides
    false).1.render = ".PHONY: b\n".toList := by decide

end Packaging.Makefile
