import Packaging.Proofs.Changelog.Version

/-!
# The next version is read as it is written

The next version has another number at the end, and everything in front of the number stays. So what
is written for it is cut in the same places as before, unless digits now stand where there was nothing:
behind the last hyphen they would be a revision, and behind the first colon a release.

## What is proved

* `parse?_render_iff` — which versions are read as they are written.
* `incrementNumber_eq` — only the digits at the end of a text become others, those of the next number.
* `parse?_render_increment` — if a version is read as it is written, then so is the next one, as long as
  it has a revision or a release that ends plainly.
-/

namespace Packaging.Changelog.Version

open Text

/-! ### Versions that are read as they are written -/

/-- The release and the revision are found again where they are written one behind the other. -/
structure IsCut (v : Version) : Prop where
  ne_nil : v.release ≠ []
  release : ∀ c ∈ v.release, isReleaseChar c = true
  revision : ∀ r, v.revision = some r → r ≠ [] ∧ ∀ c ∈ r, isRevisionChar c = true
  noRevision : v.revision = none → ∀ before after, v.release = before ++ '-' :: after →
    before ≠ [] → after ≠ [] → ∃ c ∈ after, isRevisionChar c = false

variable {v : Version}

theorem isReleaseChar_of_isRevisionChar {c : Char} (h : isRevisionChar c = true) :
    isReleaseChar c = true := by
  simp [isReleaseChar, h]

theorem hyphen_not_mem {t : Text} (h : ∀ c ∈ t, isRevisionChar c = true) : '-' ∉ t :=
  fun hmem => absurd (h _ hmem) (by decide)

theorem afterEpoch_of_revision {r : Text} (h : v.revision = some r) :
    v.afterEpoch = v.release ++ '-' :: r := by
  simp [afterEpoch, h]

theorem afterEpoch_of_no_revision (h : v.revision = none) : v.afterEpoch = v.release := by
  simp [afterEpoch, h]

theorem IsCut.ofParts_eq (h : v.IsCut) : ofParts v.epoch v.afterEpoch = some v := by
  have hchars : (v.afterEpoch.isEmpty || !v.afterEpoch.all isReleaseChar) = false := by
    simp only [Bool.or_eq_false_iff, Bool.not_eq_false', List.isEmpty_eq_false_iff, List.all_eq_true,
      afterEpoch]
    refine ⟨by simp [h.ne_nil], List.forall_mem_append.mpr ⟨h.release, ?_⟩⟩
    cases hr : v.revision with
    | none => simp
    | some r =>
      refine List.forall_mem_cons.mpr ⟨by decide, fun c hc => ?_⟩
      exact isReleaseChar_of_isRevisionChar ((h.revision r hr).2 c hc)
  unfold ofParts
  rw [hchars, if_neg (by decide)]
  obtain ⟨epoch, release, revision⟩ := v
  cases revision with
  | some r =>
    obtain ⟨hne, hall⟩ := h.revision r rfl
    have hcut : cutLast? '-' (release ++ '-' :: r) = some (release, r) :=
      cutLast?_append (hyphen_not_mem hall) release
    have hparts : (!release.isEmpty && !r.isEmpty && r.all isRevisionChar) = true := by
      simpa [hne, h.ne_nil] using hall
    simp only [afterEpoch, hcut, hparts, if_true]
  | none =>
    rw [afterEpoch_of_no_revision rfl]
    cases hcut : cutLast? '-' release with
    | none => rfl
    | some cut =>
      obtain ⟨before, after⟩ := cut
      obtain ⟨-, hrelease⟩ := cutLast?_eq_some_iff.mp hcut
      have hparts : (!before.isEmpty && !after.isEmpty && after.all isRevisionChar) = false := by
        by_contra htrue
        simp only [Bool.not_eq_false, Bool.and_eq_true, Bool.not_eq_true', List.isEmpty_eq_false_iff,
          List.all_eq_true] at htrue
        obtain ⟨⟨hbefore, hafter⟩, hall⟩ := htrue
        obtain ⟨c, hc, hnot⟩ := h.noRevision rfl before after hrelease hbefore hafter
        exact absurd (hall c hc) (by simp [hnot])
      simp [hparts]

theorem isCut_of_ofParts {epoch : Option Nat} {t : Text} (h : ofParts epoch t = some v) : v.IsCut := by
  unfold ofParts at h
  split at h
  · cases h
  rename_i hchars
  obtain ⟨hne, hall⟩ : t ≠ [] ∧ ∀ c ∈ t, isReleaseChar c = true := by simpa using hchars
  split at h
  · rename_i release revision hcut
    obtain ⟨hno, rfl⟩ := cutLast?_eq_some_iff.mp hcut
    split at h
    · rename_i hparts
      simp only [Bool.and_eq_true, Bool.not_eq_true', List.isEmpty_eq_false_iff,
        List.all_eq_true] at hparts
      cases h
      refine ⟨hparts.1.1, (List.forall_mem_append.mp hall).1, fun r hr => ?_, nofun⟩
      cases hr
      exact ⟨hparts.1.2, hparts.2⟩
    · rename_i hparts
      cases h
      refine ⟨hne, hall, nofun, fun _ before after hcut' hbefore hafter => ?_⟩
      by_contra hchars
      have hrevision : ∀ c ∈ after, isRevisionChar c = true := by simpa using hchars
      have hsame := cutLast?_append (hyphen_not_mem hrevision) before
      rw [← show release ++ '-' :: revision = before ++ '-' :: after from hcut', hcut] at hsame
      cases hsame
      exact hparts (by simpa [hbefore, hafter] using hrevision)
  · rename_i hcut
    cases h
    refine ⟨hne, hall, nofun, fun _ before after hcut' _ _ => ?_⟩
    have hmem : '-' ∈ t := by
      rw [show t = before ++ '-' :: after from hcut']
      simp
    exact absurd hmem (cutLast?_eq_none_iff.mp hcut)

/-- An epoch is a run of digits up to a colon with something behind it. -/
theorem splitEpoch?_eq_some_iff {t digits rest : Text} :
    splitEpoch? t = some (digits, rest) ↔
      t = digits ++ ':' :: rest ∧ digits ≠ [] ∧ (∀ c ∈ digits, c.isDigit = true) ∧ rest ≠ [] := by
  constructor
  · intro h
    unfold splitEpoch? at h
    split at h
    · rename_i d ds c rest' hspan
      cases h
      obtain ⟨ht, hdigits, -⟩ := span_eq_iff.mp hspan
      exact ⟨ht, List.cons_ne_nil _ _, hdigits, List.cons_ne_nil _ _⟩
    · cases h
  · rintro ⟨rfl, hne, hdigits, hrest⟩
    exact splitEpoch?_append hdigits hne hrest

/-- **Versions that are read as they are written.** -/
theorem parse?_render_iff :
    parse? v.render = some v ↔ v.IsCut ∧ (∀ n, v.epoch = some n → n < 0x100000000) ∧
      (v.epoch = none → splitEpoch? v.afterEpoch = none) := by
  constructor
  · intro h
    unfold parse? at h
    split at h
    · rename_i digits rest hsplit
      dsimp only at h
      split at h
      · rename_i hlt
        have hepoch := (ofParts_eq_some h).1
        refine ⟨isCut_of_ofParts h, fun n hn => ?_, fun hnone => by simp [hnone] at hepoch⟩
        rw [hepoch] at hn
        cases hn
        exact hlt
      · cases h
    · rename_i hsplit
      have hepoch := (ofParts_eq_some h).1
      refine ⟨isCut_of_ofParts h, fun n hn => by simp [hn] at hepoch, fun _ => ?_⟩
      rwa [render_of_no_epoch hepoch] at hsplit
  · rintro ⟨hcut, hlt, hno⟩
    have hparts := hcut.ofParts_eq
    cases hepoch : v.epoch with
    | some n =>
      have hne : v.afterEpoch ≠ [] := by simp [afterEpoch, hcut.ne_nil]
      have hsplit := splitEpoch?_append (fun c => isDigit_ofNat) (ofNat_ne_nil n) hne
      rw [hepoch] at hparts
      rw [render_of_epoch hepoch, parse?, hsplit]
      simp only [digitsValue_ofNat, hlt n hepoch, if_true, hparts]
    | none =>
      rw [hepoch] at hparts
      rw [render_of_no_epoch hepoch, parse?, hno hepoch]
      exact hparts

/-! ### The number at the end -/

theorem toNat_next {d : Char} (hd : d.isDigit = true) :
    (Char.ofNat (d.toNat + 1)).toNat = d.toNat + 1 := by
  have hcode : 48 ≤ d.toNat ∧ d.toNat ≤ 57 := isDigit_iff.mp hd
  have hvalid : (d.toNat + 1).isValidChar := .inl (by omega)
  rw [Char.ofNat, dif_pos hvalid]
  rfl

theorem isDigit_succDigits {digits : Text} (h : ∀ c ∈ digits, c.isDigit = true) :
    ∀ c ∈ succDigits digits, c.isDigit = true := by
  induction digits with
  | nil => simp [succDigits]
  | cons d ds ih =>
    obtain ⟨hd, hds⟩ := List.forall_mem_cons.mp h
    unfold succDigits
    split
    · exact List.forall_mem_cons.mpr ⟨by decide, ih hds⟩
    · rename_i hnine
      refine List.forall_mem_cons.mpr ⟨?_, hds⟩
      have hcode : 48 ≤ d.toNat ∧ d.toNat ≤ 57 := isDigit_iff.mp hd
      have hlt : d.toNat < 57 := lt_of_le_of_ne hcode.2 fun he => hnine (Char.toNat_inj.mp he)
      rw [isDigit_iff, toNat_next hd]
      omega

theorem succDigits_ne_nil (digits : Text) : succDigits digits ≠ [] := by
  cases digits with
  | nil => simp [succDigits]
  | cons d ds =>
    unfold succDigits
    split <;> simp

theorem digitsValue_concat (digits : Text) (d : Char) :
    digitsValue (digits ++ [d]) = 10 * digitsValue digits + (d.toNat - '0'.toNat) := by
  rw [digitsValue, List.foldl_append]
  rfl

/-- The digits of the next number write a number that is greater by one. Both have the last digit
first. -/
theorem digitsValue_succDigits {digits : Text} (h : ∀ c ∈ digits, c.isDigit = true) :
    digitsValue (succDigits digits).reverse = digitsValue digits.reverse + 1 := by
  induction digits with
  | nil => rfl
  | cons d ds ih =>
    obtain ⟨hd, hds⟩ := List.forall_mem_cons.mp h
    have hcode : 48 ≤ d.toNat ∧ d.toNat ≤ 57 := isDigit_iff.mp hd
    have hzero : '0'.toNat = 48 := rfl
    unfold succDigits
    split
    · -- A nine becomes a zero, and the carry goes to the digits in front of it.
      rename_i hnine
      have hcode : d.toNat = 57 := by rw [hnine]; rfl
      rw [List.reverse_cons, List.reverse_cons, digitsValue_concat, digitsValue_concat, ih hds]
      omega
    · have hnext := toNat_next hd
      rw [List.reverse_cons, List.reverse_cons, digitsValue_concat, digitsValue_concat, hnext]
      omega

/-- Only the digits at the end of a text become others, and these write the next number. -/
theorem incrementNumber_eq (t : Text) :
    ∃ others digits digits', t = others ++ digits ∧ incrementNumber t = others ++ digits' ∧
      (∀ c ∈ digits, c.isDigit = true) ∧ (∀ c ∈ digits', c.isDigit = true) ∧ digits' ≠ [] ∧
      others.getLast?.any Char.isDigit = false ∧ digitsValue digits' = digitsValue digits + 1 ∧
      (digits = [] → digits' = ['1']) := by
  have hdigits : ∀ c ∈ t.reverse.takeWhile Char.isDigit, c.isDigit = true :=
    fun c hc => List.mem_takeWhile_imp hc
  refine ⟨(t.reverse.dropWhile Char.isDigit).reverse, (t.reverse.takeWhile Char.isDigit).reverse,
    (succDigits (t.reverse.takeWhile Char.isDigit)).reverse, ?_, rfl, fun c hc => ?_, fun c hc => ?_, ?_,
    ?_, digitsValue_succDigits hdigits, fun hnone => ?_⟩
  · rw [← List.reverse_append, List.takeWhile_append_dropWhile, List.reverse_reverse]
  · exact hdigits c (List.mem_reverse.mp hc)
  · exact isDigit_succDigits hdigits c (List.mem_reverse.mp hc)
  · simpa using succDigits_ne_nil _
  · rw [List.getLast?_reverse]
    exact head?_dropWhile Char.isDigit t.reverse
  · rw [List.reverse_eq_nil_iff.mp hnone]
    rfl

/-- A character that is no digit is in front of the digits at the end. -/
theorem exists_append_digits {others digits before after : Text} {c : Char}
    (hdigits : ∀ d ∈ digits, d.isDigit = true) (hc : c.isDigit = false)
    (h : others ++ digits = before ++ c :: after) :
    ∃ mid, others = before ++ c :: mid ∧ after = mid ++ digits := by
  have hnot : c ∉ digits := fun hmem => by simp [hdigits c hmem] at hc
  rcases List.append_eq_append_iff.mp h with ⟨m, -, hdigits⟩ | ⟨m, hothers, hafter⟩
  · simp [hdigits] at hnot
  · cases m with
    | nil =>
      rw [List.nil_append] at hafter
      simp [← hafter] at hnot
    | cons d m =>
      obtain ⟨rfl, hmore⟩ := List.cons.inj hafter
      exact ⟨m, hothers, hmore⟩

theorem isRevisionChar_of_isDigit {c : Char} (h : c.isDigit = true) : isRevisionChar c = true := by
  simp [isRevisionChar, Char.isAlphanum, h]

/-! ### The next version -/

/-- Digits behind the release would still be a part of it: they would not be behind the last hyphen, nor
directly behind the colon of what would then be an epoch. -/
structure EndsPlainly (v : Version) : Prop where
  noHyphen : v.release.getLast? ≠ some '-'
  noEpoch : v.epoch = none → ∀ digits, digits ≠ [] → (∀ c ∈ digits, c.isDigit = true) →
    v.release ≠ digits ++ [':']

theorem endsPlainly_of_getLast? (hhyphen : v.release.getLast? ≠ some '-')
    (hcolon : v.release.getLast? ≠ some ':') : v.EndsPlainly :=
  ⟨hhyphen, fun _ digits _ _ hrelease => hcolon (by rw [hrelease, List.getLast?_concat])⟩

theorem IsCut.increment_of_revision {r : Text} (h : v.IsCut) (hr : v.revision = some r) :
    v.increment.IsCut := by
  obtain ⟨others, digits, digits', hrevision, hnext, -, hdigits', hne, -⟩ := incrementNumber_eq r
  have hall := (h.revision r hr).2
  rw [hrevision] at hall
  have hincrement : v.increment = { v with revision := some (others ++ digits') } := by
    rw [increment, hr, ← hnext]
  rw [hincrement]
  refine ⟨h.ne_nil, h.release, fun r' hr' => ?_, nofun⟩
  cases hr'
  exact ⟨by simp [hne], List.forall_mem_append.mpr ⟨(List.forall_mem_append.mp hall).1,
    fun c hc => isRevisionChar_of_isDigit (hdigits' c hc)⟩⟩

/-- Other digits at the end of a release that ends plainly are no revision. -/
theorem IsCut.increment_of_no_revision (h : v.IsCut) (hnone : v.revision = none)
    (hplain : v.EndsPlainly) : v.increment.IsCut := by
  obtain ⟨others, digits, digits', hrelease, hnext, hdigits, hdigits', hne, -⟩ :=
    incrementNumber_eq v.release
  have hall := h.release
  rw [hrelease] at hall
  have hincrement : v.increment = { v with release := others ++ digits' } := by
    rw [increment, hnone, ← hnext]
  rw [hincrement]
  refine ⟨by simp [hne], List.forall_mem_append.mpr ⟨(List.forall_mem_append.mp hall).1,
    fun c hc => isReleaseChar_of_isDigit (hdigits' c hc)⟩, fun r hr => ?_, ?_⟩
  · exact absurd (hnone.symm.trans hr) (by simp)
  · intro _ before after hcut hbefore _
    obtain ⟨mid, hothers, rfl⟩ := exists_append_digits hdigits' (by decide) hcut
    have hold : v.release = before ++ '-' :: (mid ++ digits) := by simp [hrelease, hothers]
    have hmid : mid ++ digits ≠ [] := fun hnil => hplain.noHyphen (by simp [hold, hnil])
    obtain ⟨c, hc, hnot⟩ := h.noRevision hnone before (mid ++ digits) hold hbefore hmid
    rcases List.mem_append.mp hc with hc | hc
    · exact ⟨c, List.mem_append_left digits' hc, hnot⟩
    · exact absurd (isRevisionChar_of_isDigit (hdigits c hc)) (by simp [hnot])

/-- What stands behind the epoch gets another number at its end as well. -/
theorem afterEpoch_increment (v : Version) :
    ∃ others digits digits', v.afterEpoch = others ++ digits ∧ v.increment.afterEpoch = others ++ digits' ∧
      ∀ c ∈ digits', c.isDigit = true := by
  obtain ⟨epoch, release, revision⟩ := v
  cases revision with
  | none =>
    obtain ⟨others, digits, digits', hrelease, hnext, -, hdigits', -⟩ := incrementNumber_eq release
    exact ⟨others, digits, digits', by simpa [afterEpoch] using hrelease,
      by simpa [increment, afterEpoch] using hnext, hdigits'⟩
  | some r =>
    obtain ⟨others, digits, digits', hrevision, hnext, -, hdigits', -⟩ := incrementNumber_eq r
    exact ⟨release ++ '-' :: others, digits, digits', by simp [afterEpoch, hrevision],
      by simp [increment, afterEpoch, hnext], hdigits'⟩

/-- Other digits make no epoch of what is in front of them, unless this is digits and a colon. -/
theorem splitEpoch?_increment (h : splitEpoch? v.afterEpoch = none)
    (hcolon : ∀ run, run ≠ [] → (∀ c ∈ run, c.isDigit = true) → v.afterEpoch ≠ run ++ [':']) :
    splitEpoch? v.increment.afterEpoch = none := by
  obtain ⟨others, digits, digits', hold, hnew, hdigits'⟩ := afterEpoch_increment v
  rw [hnew]
  refine Option.eq_none_iff_forall_ne_some.mpr fun (run, rest) hsplit => ?_
  obtain ⟨hcut, hne, hrun, -⟩ := splitEpoch?_eq_some_iff.mp hsplit
  obtain ⟨mid, rfl, -⟩ := exists_append_digits hdigits' (by decide) hcut
  rw [List.append_assoc, List.cons_append] at hold
  cases hmid : mid ++ digits with
  | nil => exact hcolon run hne hrun (by rw [hold, hmid])
  | cons c more =>
    have hagain : splitEpoch? v.afterEpoch = some (run, mid ++ digits) :=
      splitEpoch?_eq_some_iff.mpr ⟨hold, hne, hrun, by simp [hmid]⟩
    rw [h] at hagain
    cases hagain

theorem epoch_increment (v : Version) : v.increment.epoch = v.epoch := by
  unfold increment
  split <;> rfl

/-- **The next version is read as it is written**, if the version is and has a revision or ends
plainly. -/
theorem parse?_render_increment (h : parse? v.render = some v)
    (hnext : v.revision.isSome ∨ v.EndsPlainly) : parse? v.increment.render = some v.increment := by
  obtain ⟨hcut, hlt, hno⟩ := parse?_render_iff.mp h
  rw [parse?_render_iff, epoch_increment]
  cases hr : v.revision with
  | some r =>
    refine ⟨hcut.increment_of_revision hr, hlt, fun hepoch => splitEpoch?_increment (hno hepoch) ?_⟩
    intro run _ _ hcolon
    obtain ⟨hne, hall⟩ := hcut.revision r hr
    have hlast : r.getLast? = some ':' := by
      have hafter := congrArg List.getLast? hcolon
      rwa [afterEpoch_of_revision hr, ← List.singleton_append, ← List.append_assoc,
        List.getLast?_append_of_ne_nil _ hne, List.getLast?_concat] at hafter
    exact absurd (hall _ (List.mem_of_getLast? hlast)) (by decide)
  | none =>
    have hplain : v.EndsPlainly := by simpa [hr] using hnext
    refine ⟨hcut.increment_of_no_revision hr hplain, hlt,
      fun hepoch => splitEpoch?_increment (hno hepoch) fun run hne hrun => ?_⟩
    rw [afterEpoch_of_no_revision hr]
    exact hplain.noEpoch hepoch run hne hrun

end Packaging.Changelog.Version
