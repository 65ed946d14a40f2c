import Mathlib.Data.List.Forall2
import Packaging.Makefile.Edit

/-!
# Rules among the entries of a makefile

Edits go over the rules of a makefile and change each one by itself. So what an edit does is said by
a relation between a rule and what becomes of it.

## What is proved

* `Rule.dropPrerequisites_dropPrerequisites` — targets are taken off the lists of phony targets one by
  one or all at once, and a list is cleared in the end if it has lost some and none are left
  (`Rule.isCleared_dropPrerequisites_iff`).
* `ruleByRule_mapRules_iff` — a change of every rule relates two makefiles rule by rule if it relates
  each rule to what it becomes.
-/

namespace Packaging.Makefile

open Text

/-! ### Changing every rule -/

theorem mem_rules_iff {mk : Makefile} {r : Rule} : r ∈ mk.rules ↔ .rule r ∈ mk.entries := by
  rw [rules, List.mem_filterMap]
  constructor
  · rintro ⟨e, he, hr⟩
    cases e with
    | line l => cases hr
    | rule r' =>
      cases hr
      exact he
  · intro h
    exact ⟨.rule r, h, rfl⟩

theorem rules_mapRules (mk : Makefile) (f : Rule → Rule) : (mk.mapRules f).rules = mk.rules.map f := by
  rw [rules, rules, mapRules, List.filterMap_map, List.map_filterMap]
  congr 1
  funext e
  cases e <;> rfl

theorem mapRules_mapRules (mk : Makefile) (f g : Rule → Rule) :
    (mk.mapRules f).mapRules g = mk.mapRules fun r => g (f r) := by
  unfold mapRules
  dsimp only
  rw [List.map_map]
  congr 2
  funext e
  cases e <;> rfl

/-- Only what becomes of the rules that are there matters. -/
theorem mapRules_congr {mk : Makefile} {f g : Rule → Rule} (h : ∀ r ∈ mk.rules, f r = g r) :
    mk.mapRules f = mk.mapRules g := by
  unfold mapRules
  congr 1
  refine List.map_congr_left fun e he => ?_
  cases e with
  | line l => rfl
  | rule r => rw [Entry.mapRule, Entry.mapRule, h r (mem_rules_iff.mpr he)]

theorem mapRules_eq_self {mk : Makefile} {f : Rule → Rule} (h : ∀ r ∈ mk.rules, f r = r) :
    mk.mapRules f = mk := by
  have hid : Entry.mapRule id = id := by
    funext e
    cases e <;> rfl
  rw [mapRules_congr h]
  change mk.mapRules id = mk
  rw [mapRules, hid, List.map_id]

/-- A rule that lists phony targets, without this one. -/
def Rule.dropPhony (target : Text) (r : Rule) : Rule :=
  if r.hasTarget phony then r.dropPrerequisite target else r

theorem dropPhony_eq_mapRules (mk : Makefile) (target : Text) :
    mk.dropPhony target = mk.mapRules (Rule.dropPhony target) := rfl

/-- What becomes of a rule when the rules for a target are dropped and there are some. -/
def Rule.afterDrop (target : Text) (r : Rule) : Rule :=
  (if r.hasTarget target then r.dropTarget target else r).dropPhony target

theorem dropRule_eq_mapRules (mk : Makefile) (target : Text) :
    mk.dropRule target =
      if mk.rules.any (·.hasTarget target) then mk.mapRules (Rule.afterDrop target) else mk := by
  rw [dropRule, dropPhony_eq_mapRules, mapRulesIf, mapRules_mapRules]
  rfl

@[simp]
theorem Rule.hasTarget_iff {r : Rule} {target : Text} : r.hasTarget target = true ↔ target ∈ r.targets :=
  List.contains_iff_mem

/-! ### Taking off prerequisites -/

namespace Rule

/-- A header that is made has a colon. -/
@[simp]
theorem isCleared_withHeader (r : Rule) : r.withHeader.isCleared = false := by
  have hheader : headerText r.targets r.prerequisites ≠ [] := by
    unfold headerText
    split <;> simp
  simp [isCleared, withHeader, hheader]

/-- A rule without the prerequisites that are `gone`, cleared if that leaves it without any. -/
def dropPrerequisites (gone : Text → Bool) (r : Rule) : Rule :=
  if r.prerequisites.any gone then
    if r.prerequisites.all gone then .cleared
    else withHeader { r with prerequisites := r.prerequisites.filter (!gone ·) }
  else r

variable {r : Rule} {gone : Text → Bool}

theorem dropPrerequisite_eq (target : Text) (r : Rule) :
    r.dropPrerequisite target = r.dropPrerequisites (· == target) := by
  have hany : r.hasPrerequisite target = r.prerequisites.any (· == target) := by
    rw [hasPrerequisite, List.contains_eq_any_beq]
    simp only [Bool.beq_comm]
  have hall : (r.prerequisites.filter (· != target)).isEmpty = r.prerequisites.all (· == target) := by
    rw [Bool.eq_iff_iff, List.isEmpty_iff, List.filter_eq_nil_iff, List.all_eq_true]
    simp
  rw [dropPrerequisite, dropPrerequisites, removePrerequisite, hany]
  split
  · rw [← hall]
    rfl
  · rfl

theorem dropPrerequisites_eq_self (h : ∀ u ∈ r.prerequisites, gone u = false) :
    r.dropPrerequisites gone = r := by
  have hany : r.prerequisites.any gone = false := by simpa using h
  rw [dropPrerequisites, hany]
  rfl

/-- The rule is cleared, or its prerequisites and with them the header are all that has changed. -/
theorem dropPrerequisites_cases (gone : Text → Bool) (r : Rule) :
    r.dropPrerequisites gone = .cleared ∨ ∃ header,
      r.dropPrerequisites gone = { r with header, prerequisites := r.prerequisites.filter (!gone ·) } := by
  unfold dropPrerequisites
  split
  · split
    · exact .inl rfl
    · exact .inr ⟨_, rfl⟩
  · rename_i hnone
    right
    refine ⟨r.header, ?_⟩
    rw [List.filter_eq_self.mpr]
    simpa using hnone

theorem prerequisites_dropPrerequisites (gone : Text → Bool) (r : Rule) :
    (r.dropPrerequisites gone).prerequisites = r.prerequisites.filter (!gone ·) := by
  unfold dropPrerequisites
  split
  · split
    · rename_i hall
      symm
      rw [List.all_eq_true] at hall
      simpa [cleared, List.filter_eq_nil_iff] using hall
    · rfl
  · rename_i hnone
    symm
    rw [List.filter_eq_self]
    simpa using hnone

theorem isCleared_dropPrerequisites_iff (h : r.isCleared = false) :
    (r.dropPrerequisites gone).isCleared = true ↔
      (∃ u ∈ r.prerequisites, gone u = true) ∧ ∀ u ∈ r.prerequisites, gone u = true := by
  rw [← List.any_eq_true, ← List.all_eq_true, dropPrerequisites]
  split
  · rename_i hany
    split
    · rename_i hall
      exact ⟨fun _ => ⟨hany, hall⟩, fun _ => rfl⟩
    · rename_i hall
      simp [hall]
  · rename_i hany
    simp [h, hany]

theorem dropPrerequisites_congr {gone' : Text → Bool} (h : ∀ u ∈ r.prerequisites, gone u = gone' u) :
    r.dropPrerequisites gone = r.dropPrerequisites gone' := by
  have hany : r.prerequisites.any gone = r.prerequisites.any gone' := by
    rw [Bool.eq_iff_iff, List.any_eq_true, List.any_eq_true]
    exact exists_congr fun u => and_congr_right fun hu => by rw [h u hu]
  have hall : r.prerequisites.all gone = r.prerequisites.all gone' := by
    rw [Bool.eq_iff_iff, List.all_eq_true, List.all_eq_true]
    exact forall₂_congr fun u hu => by rw [h u hu]
  have hfilter : r.prerequisites.filter (!gone ·) = r.prerequisites.filter (!gone' ·) :=
    List.filter_congr fun u hu => by rw [h u hu]
  rw [dropPrerequisites, dropPrerequisites, hany, hall, hfilter]

/-- Prerequisites can be taken off one after the other. -/
theorem dropPrerequisites_dropPrerequisites (gone gone' : Text → Bool) (r : Rule) :
    (r.dropPrerequisites gone).dropPrerequisites gone' =
      r.dropPrerequisites fun u => gone u || gone' u := by
  by_cases hany : r.prerequisites.any gone = true
  · obtain ⟨u, hu, hgone⟩ := List.any_eq_true.mp hany
    have hanyBoth : r.prerequisites.any (fun u => gone u || gone' u) = true :=
      List.any_eq_true.mpr ⟨u, hu, by rw [hgone, Bool.true_or]⟩
    have hallBoth : r.prerequisites.all (fun u => gone u || gone' u) =
        (r.prerequisites.filter (!gone ·)).all gone' := by simp [List.all_filter]
    rw [dropPrerequisites.eq_def gone r, dropPrerequisites.eq_def _ r, if_pos hany, if_pos hanyBoth,
      hallBoth]
    split
    · rename_i hall
      rw [List.filter_eq_nil_iff.mpr (by simpa using hall)]
      rfl
    · rename_i hall
      have hfilter : r.prerequisites.filter (fun u => !(gone u || gone' u)) =
          (r.prerequisites.filter (!gone ·)).filter (!gone' ·) := by
        simp [List.filter_filter, Bool.and_comm]
      rw [hfilter]
      by_cases hmore : (r.prerequisites.filter (!gone ·)).any gone' = true
      · rw [dropPrerequisites.eq_def _ (withHeader _)]
        exact if_pos hmore
      -- The second step takes nothing off, and it finds a prerequisite that the first one left.
      · have hnone : ∀ u ∈ r.prerequisites.filter (!gone ·), gone' u = false := by simpa using hmore
        obtain ⟨kept, hkept⟩ : ∃ u, u ∈ r.prerequisites.filter (!gone ·) := by simpa using hall
        have hsome : ¬(r.prerequisites.filter (!gone ·)).all gone' = true := fun h => by
          rw [List.all_eq_true] at h
          simpa [hnone kept hkept] using h kept hkept
        have hkeeps : (r.prerequisites.filter (!gone ·)).filter (!gone' ·) =
            r.prerequisites.filter (!gone ·) :=
          List.filter_eq_self.mpr fun u hu => by rw [hnone u hu, Bool.not_false]
        rw [dropPrerequisites_eq_self hnone, if_neg hsome, hkeeps]
  · have hnone : ∀ u ∈ r.prerequisites, gone u = false := by simpa using hany
    rw [dropPrerequisites_eq_self hnone]
    exact dropPrerequisites_congr fun u hu => by rw [hnone u hu, Bool.false_or]

theorem dropPhony_of_not_mem {target : Text} (h : phony ∉ r.targets) : r.dropPhony target = r :=
  if_neg (mt hasTarget_iff.mp h)

theorem dropPhony_cases (target : Text) (r : Rule) :
    r.dropPhony target = .cleared ∨ (r.dropPhony target).targets = r.targets := by
  unfold dropPhony
  split
  · rw [dropPrerequisite_eq]
    rcases r.dropPrerequisites_cases (· == target) with h | ⟨header, h⟩
    · exact .inl h
    · rw [h]
      exact .inr rfl
  · exact .inr rfl

theorem targets_dropPhony_subset (target : Text) (r : Rule) : (r.dropPhony target).targets ⊆ r.targets := by
  rcases r.dropPhony_cases target with hcleared | htargets
  · rw [hcleared]
    exact List.nil_subset _
  · rw [htargets]
    exact List.Subset.refl _

/-- A rule that is left without targets is cleared. -/
theorem dropPhony_eq_cleared {target : Text} (hne : r.targets ≠ [])
    (hnil : (r.dropPhony target).targets = []) : r.dropPhony target = .cleared :=
  (r.dropPhony_cases target).resolve_right fun htargets => hne (htargets ▸ hnil)

theorem not_mem_prerequisites_dropPhony {target : Text} (h : phony ∈ (r.dropPhony target).targets) :
    target ∉ (r.dropPhony target).prerequisites := by
  unfold dropPhony at h ⊢
  split at h
  · rename_i hphony
    rw [if_pos hphony, dropPrerequisite_eq, prerequisites_dropPrerequisites, List.mem_filter]
    simp
  · rename_i hphony
    exact absurd (hasTarget_iff.mpr h) hphony

end Rule

/-! ### Rule by rule -/

/-- An entry and what becomes of it: a line stays, and a rule is related to what it becomes. -/
inductive Entry.Related (R : Rule → Rule → Prop) : Entry → Entry → Prop
  | line (l : Text) : Related R (.line l) (.line l)
  | rule {r r' : Rule} (h : R r r') : Related R (.rule r) (.rule r')

/-- A makefile and what becomes of it: lines outside of rules stay as they are and where they are, and
every rule is related to what is in its place. -/
structure RuleByRule (R : Rule → Rule → Prop) (mk mk' : Makefile) : Prop where
  entries : List.Forall₂ (Entry.Related R) mk.entries mk'.entries
  lacksFinalNewline : mk'.lacksFinalNewline = mk.lacksFinalNewline

theorem ruleByRule_mapRules_iff {R : Rule → Rule → Prop} {mk : Makefile} {f : Rule → Rule} :
    RuleByRule R mk (mk.mapRules f) ↔ ∀ r ∈ mk.rules, R r (f r) := by
  have hentry : ∀ e, Entry.Related R e (e.mapRule f) ↔ ∀ r, e = .rule r → R r (f r) := by
    intro e
    cases e with
    | line l => exact ⟨fun _ => nofun, fun _ => .line l⟩
    | rule r =>
      constructor
      · rintro ⟨⟩ r ⟨⟩
        assumption
      · exact fun h => .rule (h r rfl)
  have hentries : List.Forall₂ (Entry.Related R) mk.entries (mk.mapRules f).entries ↔
      ∀ e ∈ mk.entries, Entry.Related R e (e.mapRule f) := by
    rw [mapRules, List.forall₂_map_right_iff, List.forall₂_same]
  constructor
  · intro h r hr
    exact (hentry _).mp (hentries.mp h.entries _ (mem_rules_iff.mp hr)) r rfl
  · intro h
    refine ⟨hentries.mpr fun e he => (hentry e).mpr ?_, rfl⟩
    rintro r rfl
    exact h r (mem_rules_iff.mpr he)

end Packaging.Makefile
