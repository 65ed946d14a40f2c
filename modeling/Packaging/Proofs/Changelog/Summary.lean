import Packaging.Changelog.Addition
import Packaging.Proofs.Changelog.Filling
import Packaging.Proofs.Changelog.Ledger

/-!
# The lines of a summary

A summary becomes a bullet and lines that go on with it. None of these lines is blank or a marker,
and only the first one is a bullet, so that in the ledger of an entry they are one change.

## What is proved

* `formatSummary_eq` — a summary whose first paragraph is not blank is a bullet and what goes on with it.
* `Ledger.changes_run_change` — such lines add one change to a ledger, for the author of its last marker.
-/

namespace Packaging.Changelog

open Text

/-! ### The lines of a change -/

/-- A line that begins a change. -/
structure IsBullet (line : Text) : Prop where
  notBlank : isBlankLine line = false
  noMarker : marker? line = none
  bullet : startsWith bulletStart line = true

/-- A line that goes on with the change before it. -/
structure IsFurther (line : Text) : Prop where
  notBlank : isBlankLine line = false
  noMarker : marker? line = none
  noBullet : startsWith bulletStart line = false

/-- In a marker a bracket stands behind the first two spaces. -/
theorem marker?_eq_none {c : Char} (h : c ≠ '[') (rest : Text) :
    marker? (' ' :: ' ' :: c :: rest) = none := by
  cases hmarker : marker? (' ' :: ' ' :: c :: rest) with
  | none => rfl
  | some name =>
    have hline : ' ' :: ' ' :: c :: rest = [' ', ' ', '[', ' '] ++ (name ++ [' ', ']']) :=
      (marker?_eq_some_iff.mp hmarker).1
    simp only [List.cons_append, List.nil_append, List.cons.injEq, true_and] at hline
    exact absurd hline.1 h

theorem isBullet_bulletStart (rest : Text) : IsBullet (bulletStart ++ rest) := by
  refine ⟨by rfl, marker?_eq_none (by decide) _, ?_⟩
  rw [startsWith, List.isPrefixOf_iff_prefix]
  exact List.prefix_append _ _

theorem isFurther_bodyIndent {rest : Text} (h : isBlankLine rest = false) :
    IsFurther (bodyIndent ++ rest) := by
  refine ⟨?_, marker?_eq_none (by decide) _, rfl⟩
  rw [isBlankLine_append, h, Bool.and_false]

/-- A chunk behind at least the indent of the body goes on with a change. -/
theorem isFurther_of_chunk {indent c t : Text} (more : Text) (hc : c ∈ chunks t) :
    IsFurther (bodyIndent ++ indent ++ (c ++ more)) := by
  rw [List.append_assoc]
  refine isFurther_bodyIndent ?_
  rw [isBlankLine_append, isBlankLine_append c, isBlankLine_of_mem_chunks hc, Bool.false_and,
    Bool.and_false]

/-- What is filled behind at least the indent of the body goes on with a change. -/
theorem isFurther_of_mem_fill {indent line t : Text}
    (h : line ∈ (Filler.hanging (bodyIndent ++ indent)).fill t) : IsFurther line := by
  have hspaces : (Filler.hanging (bodyIndent ++ indent)).further =
      bodyIndent ++ List.replicate indent.length ' ' := by
    rw [Filler.hanging, List.length_append, List.replicate_add]
    rfl
  obtain ⟨start, c, cs, hstart, hchunks, rfl, -⟩ := Filler.exists_of_mem_fill h
  obtain ⟨more, hmore⟩ := prefix_join_cons [' '] c cs
  rw [← hmore]
  have hc : c ∈ chunks t := hchunks c List.mem_cons_self
  rcases hstart with rfl | rfl
  · exact isFurther_of_chunk more hc
  · rw [hspaces]
    exact isFurther_of_chunk more hc

theorem isFurther_of_mem_formatFurther {line paragraph : Text} (h : line ∈ formatFurther paragraph) :
    IsFurther line := by
  unfold formatFurther at h
  split at h
  · rename_i before c text _
    rw [List.append_assoc] at h
    exact isFurther_of_mem_fill h
  · exact @isFurther_of_mem_fill [] line paragraph h

/-- A summary is a bullet, if its first paragraph is not blank, and lines that go on with it. -/
theorem formatSummary_eq {first : Text} (h : isBlankLine first = false) (further : List Text) :
    ∃ line lines, formatSummary (first :: further) = line :: lines ∧ IsBullet line ∧
      ∀ l ∈ lines, IsFurther l := by
  obtain ⟨c, hc, more, ls, hfill, hls⟩ := Filler.exists_fill_eq_cons (f := Filler.hanging bulletStart) h
  refine ⟨bulletStart ++ (c ++ more), ls ++ further.flatMap formatFurther,
    by rw [formatSummary, hfill]; rfl, isBullet_bulletStart _, fun l hl => ?_⟩
  rcases List.mem_append.mp hl with hl | hl
  · obtain ⟨d, hd, rest, rfl⟩ := hls l hl
    exact @isFurther_of_chunk [] d first rest hd
  · obtain ⟨paragraph, -, hl⟩ := List.mem_flatMap.mp hl
    exact isFurther_of_mem_formatFurther hl

namespace Ledger

variable {g : Ledger} {line : Text} {lines : List Text}

theorem feed_of_isBullet (h : IsBullet line) :
    g.feed line = { g.close with current := some [line] } := by
  rw [feed_of_text h.notBlank h.noMarker, if_pos h.bullet]

theorem run_of_isFurther {current : List Text} (hcurrent : g.current = some current)
    (h : ∀ l ∈ lines, IsFurther l) : g.run lines = { g with current := some (current ++ lines) } := by
  induction lines generalizing g current with
  | nil => simp [← hcurrent]
  | cons line lines ih =>
    obtain ⟨hline, hlines⟩ := List.forall_mem_cons.mp h
    have hfeed : g.feed line = { g with current := some (current ++ [line]) } := by
      rw [feed_of_text hline.notBlank hline.noMarker, hline.noBullet, hcurrent]
      rfl
    rw [run_cons, hfeed, ih rfl hlines]
    simp

/-- A bullet and lines that go on with it are one change more. -/
theorem changes_run_change (g : Ledger) (hline : IsBullet line) (hlines : ∀ l ∈ lines, IsFurther l) :
    (g.run (line :: lines)).changes = g.changes ++ [(g.author, line :: lines)] := by
  rw [run_cons, feed_of_isBullet hline, run_of_isFurther rfl hlines]
  rfl

end Ledger

end Packaging.Changelog
