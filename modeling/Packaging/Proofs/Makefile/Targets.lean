import Packaging.Makefile.Parser
import Packaging.Makefile.Printer
import Packaging.Proofs.Makefile.Rules

/-!
# Dropping the rules for a target

A rule for several targets merely loses one that is dropped, and a rule for this target alone is
cleared. Which of the two a rule is, is seen by the number of its targets. So a rule that has one
target twice is taken for a rule with several targets; it loses both and stays without any.

## What is proved

* `dropRuleNoting_eq` — dropping the rules for a target notes whether a rule had the target.
* `Rule.loses_afterDrop_iff` — what becomes of a rule is right unless the rule repeats the target and has no
  other.
* `ruleByRule_dropRuleNoting` — the whole makefile, rule by rule.
-/

namespace Packaging.Makefile

open Text

/-! ### Noting what is found -/

/-- A list is changed one by one, and what `p` holds for is noted. -/
theorem run_mapM_noting {α β : Type} {f : α → StateM Bool β} {g : α → β} {p : α → Bool}
    (h : ∀ a found, (f a).run found = pure (g a, found || p a)) (as : List α) (found : Bool) :
    (as.mapM f).run found = pure (as.map g, found || as.any p) := by
  induction as generalizing found with
  | nil => simp
  | cons a as ih =>
    rw [List.mapM_cons, StateT.run_bind, h, pure_bind, StateT.run_bind, ih, List.any_cons,
      Bool.or_assoc]
    rfl

theorem run_mapRulesM {f : Rule → StateM Bool Rule} {g : Rule → Rule} {p : Rule → Bool}
    (h : ∀ r found, (f r).run found = pure (g r, found || p r)) (mk : Makefile) (found : Bool) :
    (mk.mapRulesM f).run found = pure (mk.mapRules g, found || mk.rules.any p) := by
  have hany : mk.rules.any p = mk.entries.any fun e => e.rule?.any p := by
    rw [rules, List.any_filterMap]
    rfl
  rw [mapRulesM, StateT.run_bind,
    run_mapM_noting (g := Entry.mapRule g) (p := fun e => e.rule?.any p) ?_, hany]
  · rfl
  · intro e found
    cases e with
    | line l =>
      dsimp only
      rw [StateT.run_pure, Entry.rule?, Option.any_none, Bool.or_false]
      rfl
    | rule r =>
      dsimp only
      rw [StateT.run_bind, h]
      rfl

theorem dropRuleNoting_eq (mk : Makefile) (target : Text) :
    mk.dropRuleNoting target = (mk.dropRule target, mk.rules.any (·.hasTarget target)) := by
  have hstep : ∀ r found, (Rule.dropTargetNoting target r).run found =
      pure (if r.hasTarget target then r.dropTarget target else r, found || r.hasTarget target) := by
    intro r found
    unfold Rule.dropTargetNoting
    split
    · rename_i h
      simp [h]
    · rename_i h
      simp [h]
  have hrun : (mk.mapRulesM (Rule.dropTargetNoting target)).run false =
      (mk.mapRulesIf (·.hasTarget target) (Rule.dropTarget target),
        mk.rules.any (·.hasTarget target)) :=
    run_mapRulesM hstep mk false
  rw [dropRuleNoting, hrun, dropRule]
  dsimp only
  split
  · rfl
  · rename_i hnone
    rw [mapRulesIf, mapRules_eq_self]
    intro r hr
    rw [if_neg fun h => hnone (List.any_eq_true.mpr ⟨r, hr, h⟩)]

/-! ### What becomes of a rule -/

namespace Rule

/-- The rule names this target more than once, and no other. -/
def RepeatsOnly (target : Text) (r : Rule) : Prop :=
  1 < r.targets.length ∧ ∀ u ∈ r.targets, u = target

/-- What should become of a rule when the rules for a target are dropped. -/
structure Loses (target : Text) (r r' : Rule) : Prop where
  /-- The rule is none for the target any more. -/
  not_target : target ∉ r'.targets
  /-- The rule does not list the target as phony any more. -/
  not_phony : phony ∈ r'.targets → target ∉ r'.prerequisites
  /-- A rule that is for other targets as well keeps them, and all else, in order. -/
  shared : phony ∉ r.targets → target ∈ r.targets → (∃ u ∈ r.targets, u ≠ target) →
    r' = withHeader { r with targets := r.targets.filter (· != target) }
  /-- A rule that is for no other target is cleared. -/
  own : target ∈ r.targets → (∀ u ∈ r.targets, u = target) → r' = .cleared
  /-- No rule that is not cleared is left without any target. -/
  cleared_of_targets : r.targets ≠ [] → r'.targets = [] → r' = .cleared
  /-- All other rules stay as they are, but for those that list phony targets. -/
  other : target ∉ r.targets → phony ∉ r.targets → r' = r

variable {target : Text} {r : Rule}

theorem loses_dropPhony (h : target ∉ r.targets) : r.Loses target (r.dropPhony target) where
  not_target := fun hmem => h (targets_dropPhony_subset target r hmem)
  not_phony := not_mem_prerequisites_dropPhony
  shared := fun _ hmem => absurd hmem h
  own := fun hmem => absurd hmem h
  cleared_of_targets := dropPhony_eq_cleared
  other := fun _ => dropPhony_of_not_mem

theorem loses_cleared (h : target ∈ r.targets) (hall : ∀ u ∈ r.targets, u = target) :
    r.Loses target .cleared where
  not_target := List.not_mem_nil
  not_phony := fun _ => List.not_mem_nil
  shared := fun _ _ ⟨u, hu, hne⟩ => absurd (hall u hu) hne
  own := fun _ _ => rfl
  cleared_of_targets := fun _ _ => rfl
  other := fun hmem => absurd h hmem

/-- A rule loses the target and keeps another one. -/
theorem loses_removeTarget (h : target ∈ r.targets) (hother : ∃ u ∈ r.targets, u ≠ target) :
    r.Loses target ((r.removeTarget target).dropPhony target) := by
  obtain ⟨v, hv, hne⟩ := hother
  have hremove : r.removeTarget target = withHeader { r with targets := r.targets.filter (· != target) } :=
    if_pos (hasTarget_iff.mpr h)
  have hmem : ∀ u, u ∈ (r.removeTarget target).targets ↔ u ∈ r.targets ∧ u ≠ target := fun u => by
    rw [hremove]
    simp [withHeader]
  have hleft : (r.removeTarget target).targets ≠ [] := List.ne_nil_of_mem ((hmem v).mpr ⟨hv, hne⟩)
  refine ⟨fun htarget => ?_, not_mem_prerequisites_dropPhony, fun hphony _ _ => ?_, fun _ hall => ?_,
    fun _ => dropPhony_eq_cleared hleft, fun hnot => absurd h hnot⟩
  · exact ((hmem target).mp (targets_dropPhony_subset target _ htarget)).2 rfl
  · rw [← hremove]
    exact dropPhony_of_not_mem fun hlisted => hphony ((hmem phony).mp hlisted).1
  · exact absurd (hall v hv) hne

theorem RepeatsOnly.mem_targets (h : r.RepeatsOnly target) : target ∈ r.targets := by
  obtain ⟨u, hu⟩ := List.exists_mem_of_length_pos (Nat.lt_of_succ_lt h.1)
  exact h.2 u hu ▸ hu

/-- A rule that names the target repeatedly and no other is left without targets. -/
theorem afterDrop_of_repeatsOnly (h : r.RepeatsOnly target) :
    r.afterDrop target = withHeader { r with targets := [] } := by
  have hmem : r.hasTarget target = true := hasTarget_iff.mpr h.mem_targets
  have hfilter : r.targets.filter (· != target) = [] :=
    List.filter_eq_nil_iff.mpr fun u hu => by simp [h.2 u hu]
  rw [afterDrop, if_pos hmem, dropTarget, if_pos h.1, removeTarget, if_pos hmem, hfilter]
  exact dropPhony_of_not_mem List.not_mem_nil

theorem one_lt_length_targets {u : Text} (h : target ∈ r.targets) (hu : u ∈ r.targets) (hne : u ≠ target) :
    1 < r.targets.length := by
  by_contra hshort
  have hpos := List.length_pos_of_mem h
  obtain ⟨v, hv⟩ := List.length_eq_one_iff.mp (show r.targets.length = 1 by omega)
  rw [hv, List.mem_singleton] at hu h
  exact hne (hu.trans h.symm)

/-- What becomes of a rule is right unless the rule names the target repeatedly and no other. -/
theorem loses_afterDrop_iff : r.Loses target (r.afterDrop target) ↔ ¬r.RepeatsOnly target := by
  constructor
  · intro h hrepeats
    rw [afterDrop_of_repeatsOnly hrepeats] at h
    have hcleared := congrArg isCleared (h.own hrepeats.mem_targets hrepeats.2)
    rw [isCleared_withHeader] at hcleared
    cases hcleared
  · intro h
    by_cases hmem : target ∈ r.targets
    · rw [afterDrop, if_pos (hasTarget_iff.mpr hmem), dropTarget]
      by_cases hother : ∃ u ∈ r.targets, u ≠ target
      · obtain ⟨u, hu, hne⟩ := hother
        rw [if_pos (one_lt_length_targets hmem hu hne)]
        exact loses_removeTarget hmem ⟨u, hu, hne⟩
      · have hall : ∀ u ∈ r.targets, u = target := by simpa using hother
        rw [if_neg fun hlength => h ⟨hlength, hall⟩]
        exact loses_cleared hmem hall
    · rw [afterDrop, if_neg (mt hasTarget_iff.mp hmem)]
      exact loses_dropPhony hmem

end Rule

/-! ### The whole makefile -/

theorem ruleByRule_dropRule_iff {mk : Makefile} {target : Text} {R : Rule → Rule → Prop}
    (h : ∃ r ∈ mk.rules, target ∈ r.targets) :
    RuleByRule R mk (mk.dropRule target) ↔ ∀ r ∈ mk.rules, R r (r.afterDrop target) := by
  have hany : mk.rules.any (·.hasTarget target) = true := by simpa using h
  rw [dropRule_eq_mapRules, if_pos hany, ruleByRule_mapRules_iff]

/-- Dropping the rules for a target notes whether a rule had the target, and without one it changes
nothing. With one, every rule becomes what it should, but for those that name the target repeatedly and
no other: these are left without targets. -/
theorem ruleByRule_dropRuleNoting (mk : Makefile) (target : Text) :
    ((mk.dropRuleNoting target).2 = true ↔ ∃ r ∈ mk.rules, target ∈ r.targets) ∧
      ((mk.dropRuleNoting target).2 = false → (mk.dropRuleNoting target).1 = mk) ∧
      ((mk.dropRuleNoting target).2 = true →
        RuleByRule (fun r r' => (¬r.RepeatsOnly target → r.Loses target r') ∧
            (r.RepeatsOnly target → r' = Rule.withHeader { r with targets := [] }))
          mk (mk.dropRuleNoting target).1 ∧
        (RuleByRule (Rule.Loses target) mk (mk.dropRuleNoting target).1 ↔
          ∀ r ∈ mk.rules, ¬r.RepeatsOnly target)) := by
  have hfound : mk.rules.any (·.hasTarget target) = true ↔ ∃ r ∈ mk.rules, target ∈ r.targets := by simp
  rw [dropRuleNoting_eq]
  dsimp only
  refine ⟨hfound, fun h => ?_, fun h => ?_⟩
  · rw [dropRule, h]
    rfl
  · have hmem := hfound.mp h
    constructor
    · exact (ruleByRule_dropRule_iff hmem).mpr fun r _ =>
        ⟨Rule.loses_afterDrop_iff.mpr, Rule.afterDrop_of_repeatsOnly⟩
    · rw [ruleByRule_dropRule_iff hmem]
      exact forall₂_congr fun r _ => Rule.loses_afterDrop_iff

/-- The header names its only target twice. -/
def doubledTarget : Text := "a a:\n\tx\n".toList

/-- The rule is not cleared. What is left of it is a recipe for no target, which no makefile can have. -/
theorem not_loses_doubledTarget :
    ((parse doubledTarget).dropRuleNoting ['a']).2 = true ∧
      ((parse doubledTarget).dropRuleNoting ['a']).1.render = ":\n\tx\n".toList ∧
      ¬RuleByRule (Rule.Loses ['a']) (parse doubledTarget)
        ((parse doubledTarget).dropRuleNoting ['a']).1 := by
  refine ⟨by decide, by decide, fun h => ?_⟩
  have hrules : (parse doubledTarget).rules = [Rule.addCommand (Rule.ofHeader "a a:".toList) ['x']] := by
    decide
  rw [dropRuleNoting_eq, ruleByRule_dropRule_iff ⟨_, hrules ▸ List.mem_singleton_self _, by decide⟩,
    hrules, List.forall_mem_singleton, Rule.loses_afterDrop_iff] at h
  exact h ⟨by decide, by decide⟩

end Packaging.Makefile
