import Packaging.Changelog.Line
import Packaging.Changelog.Version
import Packaging.Proofs.Text.Number
import Packaging.Proofs.Text.Split

/-!
# Versions are read as they are written

A version keeps its release and its revision as they are written, but its epoch as a number, so the
zeros in front of an epoch are lost when it is written again.

## What is proved

* `parse?_render` — the text of a version that was read is read as the same version.
* `isReleaseChar_render` — it has only characters that may stand between the parentheses of a header.
-/

namespace Packaging.Changelog.Version

open Text

/-- What follows the epoch. -/
def afterEpoch (v : Version) : Text :=
  v.release ++
  match v.revision with
  | some r => '-' :: r
  | none => []

/-- The release and the revision are what follows the epoch, cut in two. -/
theorem ofParts_eq_some {epoch : Option Nat} {t : Text} {v : Version}
    (h : ofParts epoch t = some v) :
    v.epoch = epoch ∧ v.afterEpoch = t ∧ t ≠ [] ∧ ∀ c ∈ t, isReleaseChar c = true := by
  unfold ofParts at h
  split at h
  · cases h
  rename_i hchars
  have ht : t ≠ [] ∧ ∀ c ∈ t, isReleaseChar c = true := by simpa using hchars
  split at h
  · rename_i release revision hcut
    split at h
    · cases h
      exact ⟨rfl, (cutLast?_eq_some_iff.mp hcut).2.symm, ht⟩
    · cases h
      exact ⟨rfl, by simp [afterEpoch], ht⟩
  · cases h
    exact ⟨rfl, by simp [afterEpoch], ht⟩

/-- The digits of an epoch end at its colon. -/
theorem splitEpoch?_append {digits rest : Text} (hdigits : ∀ c ∈ digits, c.isDigit = true)
    (hne : digits ≠ []) (hrest : rest ≠ []) :
    splitEpoch? (digits ++ ':' :: rest) = some (digits, rest) := by
  have hspan : (digits ++ ':' :: rest).span Char.isDigit = (digits, ':' :: rest) :=
    span_eq_iff.mpr ⟨rfl, hdigits, rfl⟩
  unfold splitEpoch?
  rw [hspan]
  obtain ⟨d, ds, rfl⟩ := List.exists_cons_of_ne_nil hne
  obtain ⟨r, rs, rfl⟩ := List.exists_cons_of_ne_nil hrest
  rfl

theorem render_of_epoch {v : Version} {n : Nat} (h : v.epoch = some n) :
    v.render = ofNat n ++ ':' :: v.afterEpoch := by
  cases hr : v.revision <;> simp [render, afterEpoch, h, hr]

theorem render_of_no_epoch {v : Version} (h : v.epoch = none) : v.render = v.afterEpoch := by
  cases hr : v.revision <;> simp [render, afterEpoch, h, hr]

variable {t : Text} {v : Version}

/-- **A version is read as it is written.** -/
theorem parse?_render (hparse : parse? t = some v) : parse? v.render = some v := by
  have h := hparse
  unfold parse? at h
  split at h
  · rename_i digits rest hsplit
    dsimp only at h
    split at h
    · rename_i hlt
      obtain ⟨hepoch, hrest, hne, -⟩ := ofParts_eq_some h
      have hagain := splitEpoch?_append (fun c => isDigit_ofNat) (ofNat_ne_nil (digitsValue digits)) hne
      rw [render_of_epoch hepoch, hrest, parse?, hagain]
      simp only [digitsValue_ofNat, hlt, if_true]
      exact h
    · cases h
  · obtain ⟨hepoch, hrest, -⟩ := ofParts_eq_some h
    rwa [render_of_no_epoch hepoch, hrest]

theorem isVersionText_of_isReleaseChar {c : Char} (h : isReleaseChar c = true) :
    isVersionText c = true := by
  have hnot : ∀ d : Char, isReleaseChar d = false → c ≠ d := fun d hd e => by simp [← e, h] at hd
  simp [isVersionText, hnot '(' (by decide), hnot ')' (by decide), hnot ' ' (by decide),
    hnot '\t' (by decide)]

theorem isReleaseChar_of_isDigit {c : Char} (h : c.isDigit = true) : isReleaseChar c = true := by
  simp [isReleaseChar, isRevisionChar, Char.isAlphanum, h]

theorem isReleaseChar_render (h : parse? t = some v) : ∀ c ∈ v.render, isReleaseChar c = true := by
  unfold parse? at h
  split at h
  · dsimp only at h
    split at h
    · obtain ⟨hepoch, hrest, -, hchars⟩ := ofParts_eq_some h
      intro c hc
      rw [render_of_epoch hepoch, hrest, List.mem_append, List.mem_cons] at hc
      rcases hc with hc | rfl | hc
      · exact isReleaseChar_of_isDigit (isDigit_ofNat hc)
      · decide
      · exact hchars c hc
    · cases h
  · obtain ⟨hepoch, hrest, -, hchars⟩ := ofParts_eq_some h
    rwa [render_of_no_epoch hepoch, hrest]

theorem render_ne_nil (h : parse? t = some v) : v.render ≠ [] := by
  intro hnil
  have hagain := parse?_render h
  rw [hnil] at hagain
  exact absurd hagain (by simp [parse?, splitEpoch?, ofParts])

end Packaging.Changelog.Version
