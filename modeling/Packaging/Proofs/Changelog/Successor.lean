import Packaging.Proofs.Changelog.Increment
import Packaging.Proofs.Changelog.Order

/-!
# The next version comes next

The next version is the version with another number at the end of its revision or release. It comes
after the version, and it is read as it is written, unless its new digits make an epoch of what was
none.

## What is proved

* `isFollowedBy_increment` — what the next version is.
* `IsFollowedBy.sortsBefore`, `IsFollowedBy.order` — it comes after the version, as the order is described
  and as it is computed.
* `parse?_render_increment_iff` — when it is read as it is written.
* `isFollowedBy_increment_of_parse` — all of this for a version that was read.
-/

namespace Packaging.Changelog.Version

open Text

variable {v : Version}

/-- The text `next` is `t` but for the digits at its end, and these write the number after the one in
`t`. Where there were none there is a one. -/
def CountsOn (t next : Text) : Prop :=
  ∃ before digits digits', t = before ++ digits ∧ next = before ++ digits' ∧
    EndsWithoutDigit before ∧ (∀ c ∈ digits, c.isDigit = true) ∧ (∀ c ∈ digits', c.isDigit = true) ∧
    digitsValue digits' = digitsValue digits + 1 ∧ (digits = [] → digits' = ['1'])

/-- The version `w` counts on in the revision of `v` if there is one, and otherwise in its release. -/
inductive IsFollowedBy (v w : Version) : Prop where
  | revision (r r' : Text) : v.revision = some r → CountsOn r r' → w = { v with revision := some r' } →
    IsFollowedBy v w
  | release (t : Text) : v.revision = none → CountsOn v.release t → w = { v with release := t } →
    IsFollowedBy v w

theorem countsOn_incrementNumber (t : Text) : CountsOn t (incrementNumber t) := by
  obtain ⟨before, digits, digits', ht, hnext, hdigits, hdigits', -, hbefore, hvalue, hnone⟩ :=
    incrementNumber_eq t
  exact ⟨before, digits, digits', ht, hnext, hbefore, hdigits, hdigits', hvalue, hnone⟩

theorem isFollowedBy_increment (v : Version) : v.IsFollowedBy v.increment := by
  cases hr : v.revision with
  | some r => exact .revision r _ hr (countsOn_incrementNumber r) (by rw [increment, hr])
  | none => exact .release _ hr (countsOn_incrementNumber v.release) (by rw [increment, hr])

/-! ### The order -/

theorem CountsOn.comesBefore {t next : Text} (h : CountsOn t next) : ComesBefore t next := by
  obtain ⟨before, digits, digits', rfl, rfl, hbefore, hdigits, hdigits', hvalue, -⟩ := h
  exact comesBefore_append hbefore hdigits hdigits' (by omega)

theorem CountsOn.comparePart {t next : Text} (h : CountsOn t next) : comparePart t next = .lt := by
  obtain ⟨before, digits, digits', rfl, rfl, hbefore, hdigits, hdigits', hvalue, -⟩ := h
  have hne : digits' ≠ [] := by
    rintro rfl
    rw [show digitsValue [] = 0 from rfl] at hvalue
    omega
  exact comparePart_append hbefore hdigits hdigits' hne (by omega)

theorem IsFollowedBy.sortsBefore {w : Version} (h : v.IsFollowedBy w) : v.SortsBefore w := by
  cases h with
  | revision r r' hr hcounts hw =>
    subst hw
    refine .revision rfl (not_comesBefore_self _) (not_comesBefore_self _) ?_
    rw [hr]
    exact hcounts.comesBefore
  | release t _ hcounts hw =>
    subst hw
    exact .release rfl hcounts.comesBefore

theorem IsFollowedBy.order {w : Version} (h : v.IsFollowedBy w) : order v w = .lt := by
  have hepoch : compare (v.epoch.getD 0) (v.epoch.getD 0) = .eq := Std.ReflCmp.compare_self
  cases h with
  | revision r r' hr hcounts hw =>
    subst hw
    have hrevision : comparePart (v.revision.getD ['0']) r' = .lt := by
      rw [hr]
      exact hcounts.comparePart
    rw [Version.order, hepoch, comparePart_self]
    exact hrevision
  | release t _ hcounts hw =>
    subst hw
    rw [Version.order, hepoch, hcounts.comparePart]
    rfl

/-! ### Reading -/

/-- Digits behind this version would be the release after an epoch. -/
def IsNearlyEpoch (v : Version) : Prop :=
  v.epoch = none ∧ v.revision = none ∧
    ∃ digits, digits ≠ [] ∧ (∀ c ∈ digits, c.isDigit = true) ∧ v.release = digits ++ [':']

theorem IsNearlyEpoch.not_parse?_render_increment (h : v.IsNearlyEpoch) :
    parse? v.increment.render ≠ some v.increment := by
  obtain ⟨hepoch, hrevision, run, hne, hrun, hrelease⟩ := h
  have hnext : incrementNumber v.release = run ++ ':' :: ['1'] := by
    simp [incrementNumber, succDigits, hrelease]
  have hincrement : v.increment = { v with release := run ++ ':' :: ['1'] } := by
    rw [increment, hrevision, ← hnext]
  have hafter : v.increment.afterEpoch = run ++ ':' :: ['1'] := by
    rw [hincrement]
    exact afterEpoch_of_no_revision hrevision
  intro hparse
  obtain ⟨-, -, hno⟩ := parse?_render_iff.mp hparse
  have hnone := hno ((epoch_increment v).trans hepoch)
  rw [hafter, splitEpoch?_append hrun hne (by decide)] at hnone
  cases hnone

/-- When the next version is read as it is written. -/
theorem parse?_render_increment_iff (h : parse? v.render = some v)
    (hnext : v.revision.isSome ∨ v.release.getLast? ≠ some '-') :
    parse? v.increment.render = some v.increment ↔ ¬v.IsNearlyEpoch := by
  refine ⟨fun hparse hnearly => hnearly.not_parse?_render_increment hparse, fun hnot => ?_⟩
  cases hrevision : v.revision with
  | some r => exact parse?_render_increment h (.inl (by rw [hrevision]; rfl))
  | none =>
    have hhyphen : v.release.getLast? ≠ some '-' := hnext.resolve_left (by simp [hrevision])
    refine parse?_render_increment h (.inr ⟨hhyphen, fun hepoch digits hne hdigits hrelease => ?_⟩)
    exact hnot ⟨hepoch, hrevision, digits, hne, hdigits, hrelease⟩

/-- **The next version.** Only the number at the end of the revision, or of the release if there is no
revision, becomes greater by one. So the next version comes after the version, and it is read as it is
written if there is a revision or the release does not end in a hyphen, but for a version such as `1:`
that digits make one with an epoch. -/
theorem isFollowedBy_increment_of_parse {t : Text} (h : parse? t = some v) :
    v.IsFollowedBy v.increment ∧ (v.SortsBefore v.increment ∧ ¬v.increment.SortsBefore v) ∧
      order v v.increment = .lt ∧
      (v.revision.isSome ∨ v.release.getLast? ≠ some '-' →
        (parse? v.increment.render = some v.increment ↔ ¬v.IsNearlyEpoch)) := by
  have hnext := isFollowedBy_increment v
  exact ⟨hnext, ⟨hnext.sortsBefore, hnext.sortsBefore.asymm⟩, hnext.order,
    parse?_render_increment_iff (parse?_render h)⟩

/-- The nines at the end of a revision become zeros behind a one. -/
theorem isFollowedBy_increment_nines :
    parse? "1:2.0~rc-0ubuntu0.0999".toList =
        some ⟨some 1, "2.0~rc".toList, some "0ubuntu0.0999".toList⟩ ∧
      Version.IsFollowedBy ⟨some 1, "2.0~rc".toList, some "0ubuntu0.0999".toList⟩
        ⟨some 1, "2.0~rc".toList, some "0ubuntu0.1000".toList⟩ ∧
      Version.SortsBefore ⟨some 1, "2.0~rc".toList, some "0ubuntu0.0999".toList⟩
        ⟨some 1, "2.0~rc".toList, some "0ubuntu0.1000".toList⟩ ∧
      parse? "1:2.0~rc-0ubuntu0.1000".toList =
        some ⟨some 1, "2.0~rc".toList, some "0ubuntu0.1000".toList⟩ := by
  have hparse : parse? "1:2.0~rc-0ubuntu0.0999".toList =
      some ⟨some 1, "2.0~rc".toList, some "0ubuntu0.0999".toList⟩ := by decide +kernel
  obtain ⟨hnext, ⟨hbefore, -⟩, -, hread⟩ := isFollowedBy_increment_of_parse hparse
  exact ⟨hparse, hnext, hbefore, (hread (.inl rfl)).mpr fun hnearly => by cases hnearly.1⟩

/-- The version after `1:`, which is a release without an epoch, is read as one with an epoch. -/
theorem not_parse_render_increment_colon :
    parse? "1:".toList = some ⟨none, "1:".toList, none⟩ ∧ "1:".toList.getLast? ≠ some '-' ∧
      Version.increment ⟨none, "1:".toList, none⟩ = ⟨none, "1:1".toList, none⟩ ∧
      parse? (Version.increment ⟨none, "1:".toList, none⟩).render = some ⟨some 1, ['1'], none⟩ ∧
      parse? (Version.increment ⟨none, "1:".toList, none⟩).render ≠
        some (Version.increment ⟨none, "1:".toList, none⟩) := by
  decide +kernel

end Packaging.Changelog.Version
