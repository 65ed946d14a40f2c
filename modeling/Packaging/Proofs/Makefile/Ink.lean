import Mathlib.Algebra.Order.BigOperators.Group.List
import Mathlib.Algebra.Order.Group.Nat
import Packaging.Proofs.Makefile.DropRule
import Packaging.Proofs.Makefile.Overrides
import Packaging.Proofs.Text.Ink

/-!
# How much stands in a makefile

A makefile is written without the rules that are cleared and without some blank lines, and a header that is
made anew has its words with other white space between them. The ink in what is written tells these apart:
it is that of the rules and lines that are kept, and a header has no more of it than the one it was made
from. So it shows in the text if a rule is discarded.

## What is proved

* `ink_render` — blank lines that are left out make no difference.
* `Rule.IsRead.ink_dropPrerequisites_le` — a header with fewer words has no more ink.
* `ink_discardPointlessOverrides_lt` — a text from which a pointless override is discarded has less of it.
-/

namespace Packaging.Makefile

open Text

theorem inkAll_filled (ls : List Text) : inkAll (filled ls) = inkAll ls := by
  induction ls with
  | nil => rfl
  | cons l ls ih =>
    rw [← List.singleton_append, filled_append, inkAll_append, inkAll_append, ih]
    cases hblank : isBlankLine l with
    | true =>
      rw [filled_of_blank hblank, inkAll_cons, ink_of_blank (List.all_eq_true.mp hblank), Nat.zero_add]
    | false => simp [filled, hblank]

/-- The ink in a makefile is that in the lines that are kept. -/
theorem ink_render (mk : Makefile) : ink mk.render = inkAll (linesKept mk.entries) := by
  have hnewline : isBlank '\n' = true := by decide
  have hend : ink (if mk.lines.isEmpty || mk.lacksFinalNewline then [] else ['\n']) = 0 := by
    split <;> decide
  rw [render, ink_append, hend, Nat.add_zero, ink_join_blank hnewline, ← inkAll_filled,
    (lines_filled mk).2, inkAll_filled]

/-! ### Rules -/

namespace Rule

/-- The ink in a rule, as far as it is kept. -/
def ink (r : Rule) : Nat := inkAll (linesKept [.rule r])

variable {r : Rule}

theorem ink_cleared : cleared.ink = 0 := rfl

theorem ink_of_header (h : r.header ≠ []) :
    r.ink = inkAll r.precomment + (Text.ink r.header + inkAll r.body) := by
  simp [ink, linesKept, isCleared, h, allLines, lines]

theorem inkAll_headerWords_le (side : Text) : inkAll (headerWords side) ≤ Text.ink side := by
  rw [← inkAll_words]
  exact inkAll_sublist List.filter_sublist

theorem ink_headerText (targets prerequisites : List Text) :
    Text.ink (headerText targets prerequisites) = inkAll targets + (1 + inkAll prerequisites) := by
  have hcolon : Text.ink [':'] = 1 := by decide
  have hspace : Text.ink [' '] = 0 := by decide
  rw [headerText_eq, Text.ink_append, ink_join_space, ink_cons, hcolon]
  split
  · rename_i h
    rw [List.isEmpty_iff.mp h]
    rfl
  · rw [ink_cons, hspace, Nat.zero_add, ink_join_space]

/-- All words of a rule that was read are in its header, and a colon. -/
theorem IsRead.inkAll_words_le (hr : r.IsRead) :
    inkAll r.targets + (1 + inkAll r.prerequisites) ≤ Text.ink r.header := by
  have hheader := hr.header
  unfold isRuleHeader at hheader
  cases hcut : cut? ':' r.header with
  | none => simp [hcut] at hheader
  | some parts =>
    obtain ⟨left, right⟩ := parts
    have htargets : r.targets = headerWords left := by rw [hr.targets, ofHeader, hcut]; rfl
    have hprerequisites : r.prerequisites = headerWords ((dropStart? [':'] right).getD right) := by
      rw [hr.prerequisites, ofHeader, hcut]
      rfl
    have hright : Text.ink ((dropStart? [':'] right).getD right) ≤ Text.ink right := by
      cases hdrop : dropStart? [':'] right with
      | none => exact Nat.le_refl _
      | some rest =>
        rw [dropStart?_eq_some_iff.mp hdrop, Text.ink_append, Option.getD_some]
        exact Nat.le_add_left _ _
    have hcolon : Text.ink [':'] = 1 := by decide
    have hleft := inkAll_headerWords_le left
    have hwords := inkAll_headerWords_le ((dropStart? [':'] right).getD right)
    rw [htargets, hprerequisites, (cut?_eq_some_iff.mp hcut).2, Text.ink_append, ink_cons, hcolon]
    omega

theorem IsRead.ink_pos (hr : r.IsRead) : 0 < r.ink := by
  have hheader := hr.inkAll_words_le
  rw [ink_of_header hr.header_ne_nil]
  omega

/-- **A header with fewer words** has no more ink. -/
theorem IsRead.ink_dropPrerequisites_le (hr : r.IsRead) (gone : Text → Bool) :
    (r.dropPrerequisites gone).ink ≤ r.ink := by
  unfold dropPrerequisites
  split
  · split
    · rw [ink_cleared]
      exact Nat.zero_le _
    · have hwords := hr.inkAll_words_le
      have hfewer : inkAll (r.prerequisites.filter (!gone ·)) ≤ inkAll r.prerequisites :=
        inkAll_sublist List.filter_sublist
      have hheader : (withHeader { r with prerequisites := r.prerequisites.filter (!gone ·) }).header ≠ [] := by
        simp [withHeader, headerText_eq]
      rw [ink_of_header hheader, ink_of_header hr.header_ne_nil]
      change inkAll r.precomment + (Text.ink (headerText r.targets (r.prerequisites.filter (!gone ·))) +
        inkAll r.body) ≤ _
      rw [ink_headerText]
      omega
  · exact Nat.le_refl _

theorem IsRead.ink_afterDiscarding_le (hr : r.IsRead) (ignoreComments : Bool) (gone : Text → Bool) :
    (r.afterDiscarding ignoreComments gone).ink ≤ r.ink := by
  unfold afterDiscarding
  split
  · exact hr.ink_dropPrerequisites_le gone
  split
  · rw [ink_cleared]
    exact Nat.zero_le _
  · exact Nat.le_refl _

end Rule

/-! ### Makefiles -/

/-- If every rule has no more ink than before and one has less, then so has the text. -/
theorem ink_render_mapRules_lt {mk : Makefile} {f : Rule → Rule}
    (hle : ∀ r ∈ mk.rules, (f r).ink ≤ r.ink) (hlt : ∃ r ∈ mk.rules, (f r).ink < r.ink) :
    ink (mk.mapRules f).render < ink mk.render := by
  have hsum : ∀ es : List Entry, inkAll (linesKept es) = (es.map fun e => inkAll (linesKept [e])).sum := by
    intro es
    induction es with
    | nil => rfl
    | cons e es ih => rw [linesKept_cons, inkAll_append, ih, List.map_cons, List.sum_cons]
  rw [ink_render, ink_render, mapRules, hsum, hsum, List.map_map]
  obtain ⟨r, hr, hless⟩ := hlt
  refine List.sum_lt_sum _ _ (fun e he => ?_) ⟨.rule r, mem_rules_iff.mp hr, hless⟩
  cases e with
  | line l => exact Nat.le_refl _
  | rule r => exact hle r (mem_rules_iff.mpr he)

/-- **Discarding shows**: there is less in a text from which a pointless override is discarded. -/
theorem ink_discardPointlessOverrides_lt {t : Text} {ignoreComments : Bool}
    (h : ∃ r ∈ (parse t).rules, r.IsPointless ignoreComments) :
    ink ((parse t).discardPointlessOverrides ignoreComments).1.render < ink t := by
  have hread : ∀ r ∈ (parse t).rules, r.IsRead := fun r hr => isRead_of_parse t r (mem_rules_iff.mp hr)
  have hmakefile := (discarding_overrideTargets ignoreComments (parse t)).makefile
  have hless : ink ((parse t).discardPointlessOverrides ignoreComments).1.render < ink (parse t).render := by
    rw [hmakefile]
    refine ink_render_mapRules_lt (fun r hr => (hread r hr).ink_afterDiscarding_le ignoreComments _) ?_
    obtain ⟨r, hr, hpointless⟩ := h
    obtain ⟨u, hu, htargets⟩ := hpointless.exists_isPointlessFor
    have hgone := mem_discardPointlessOverrides_iff.mpr ⟨r, hr, hpointless, htargets⟩
    refine ⟨r, hr, ?_⟩
    rw [Rule.afterDiscarding_of_isPointlessFor hu (List.contains_iff_mem.mpr hgone), Rule.ink_cleared]
    exact (hread r hr).ink_pos
  rwa [render_parse] at hless

end Packaging.Makefile
