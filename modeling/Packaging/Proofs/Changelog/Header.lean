import Packaging.Proofs.Changelog.Settings
import Packaging.Proofs.Changelog.Version

/-!
# Headers are read as they are written

Reading a header trims its distributions and its settings. Writing it puts one space where there was
any white space, and the settings in their own order.

## What is proved

* `parse?_eq_some`, `parse?_headerText` — what the parts of a header line are, without the scanning.
* `reread_header` — the line that is written for an entry which a header began begins the same entry.
-/

namespace Packaging.Changelog

open Text

/-! ### The line -/

/-- The text before the parentheses of a header. -/
def IsPackage (t : Text) : Prop :=
  ∃ c name, t = c :: name ∧ isWordChar c = true ∧ ∀ d ∈ name, isNameChar d = true

/-- The text between the parentheses of a header. -/
structure IsVersion (t : Text) : Prop where
  ne_nil : t ≠ []
  chars : ∀ c ∈ t, isVersionText c = true

/-- The text between the parentheses and the semicolon of a header. -/
structure IsDistributions (t : Text) : Prop where
  head : t.head?.any isBlank = true
  last : t.getLast?.any isNameChar = true
  chars : ∀ c ∈ t, (isBlank c || isNameChar c) = true

/-- A line with these parts. -/
def headerText (package version distributions settings : Text) : Text :=
  package ++ ' ' :: '(' :: (version ++ ')' :: (distributions ++ ';' :: settings))

/-- A header line has a package, a version, distributions and settings, and nothing else. -/
theorem parse?_eq_some {line : Text} {h : Header} (hparse : Header.parse? line = some h) :
    ∃ distributions settings,
      line = headerText h.package h.version distributions settings ∧
      IsPackage h.package ∧ IsVersion h.version ∧ IsDistributions distributions ∧
      h.distributions = trim distributions ∧ h.settings = trimStart settings := by
  cases line with
  | nil => simp [Header.parse?] at hparse
  | cons c t =>
    unfold Header.parse? at hparse
    obtain ⟨name, t₁, hname⟩ : ∃ name t₁, t.span isNameChar = (name, t₁) := ⟨_, _, rfl⟩
    simp only [hname, Option.bind_eq_bind, Option.bind_eq_some_iff] at hparse
    obtain ⟨t₂, ht₂, t₃, ht₃, settings, hsettings, hparts⟩ := hparse
    obtain ⟨version, t₄, hversion⟩ : ∃ version t₄, t₂.span isVersionText = (version, t₄) :=
      ⟨_, _, rfl⟩
    rw [drop_length_takeWhile, dropStart?_eq_some_iff] at hsettings
    rw [dropStart?_eq_some_iff] at ht₂ ht₃
    rw [hversion] at ht₃ hparts
    split at hparts
    · rename_i hchecks
      cases hparts
      simp only [Bool.and_eq_true, Bool.not_eq_true', List.isEmpty_eq_false_iff] at hchecks
      obtain ⟨⟨⟨hc, hne⟩, hhead⟩, hlast⟩ := hchecks
      obtain ⟨rfl, hnameChars, -⟩ := span_eq_iff.mp hname
      obtain ⟨hcut, hversionChars, -⟩ := span_eq_iff.mp hversion
      refine ⟨_, settings, ?_, ⟨c, name, rfl, hc, hnameChars⟩, ⟨hne, hversionChars⟩,
        ⟨hhead, hlast, fun d hd => ?_⟩, rfl, rfl⟩
      · have hrest : t₃ = t₃.takeWhile (fun c => isBlank c || isNameChar c) ++ ';' :: settings := by
          rw [← List.singleton_append, ← hsettings, List.takeWhile_append_dropWhile]
        rw [headerText, ← hrest, ht₂, hcut]
        simpa using ht₃
      · exact List.mem_takeWhile_imp (p := fun c => isBlank c || isNameChar c) hd
    · cases hparts

/-- Each part of a header line ends where the next one begins, so it is read as it stands there. -/
theorem parse?_headerText {package version distributions : Text} (hpackage : IsPackage package)
    (hversion : IsVersion version) (hdistributions : IsDistributions distributions)
    (settings : Text) :
    Header.parse? (headerText package version distributions settings) =
      some ⟨package, version, trim distributions, trimStart settings⟩ := by
  obtain ⟨c, name, rfl, hc, hname⟩ := hpackage
  obtain ⟨hne, hversion⟩ := hversion
  obtain ⟨hhead, hlast, hchars⟩ := hdistributions
  have hspanName : ∀ rest, (name ++ ' ' :: rest).span isNameChar = (name, ' ' :: rest) :=
    fun rest => span_eq_iff.mpr ⟨rfl, hname, by simp [show isNameChar ' ' = false by decide]⟩
  have hspanVersion : ∀ rest, (version ++ ')' :: rest).span isVersionText = (version, ')' :: rest) :=
    fun rest => span_eq_iff.mpr ⟨rfl, hversion, by simp [show isVersionText ')' = false by decide]⟩
  have hsemicolon : (isBlank ';' || isNameChar ';') = false := by decide
  have htake : (distributions ++ ';' :: settings).takeWhile (fun c => isBlank c || isNameChar c) =
      distributions := takeWhile_append_rest hchars hsemicolon
  unfold Header.parse? headerText
  simp only [List.cons_append, hspanName, Option.bind_eq_bind, Option.bind_eq_some_iff]
  refine ⟨version ++ ')' :: (distributions ++ ';' :: settings), by simp [dropStart?],
    distributions ++ ';' :: settings, ?_, settings, ?_, ?_⟩
  · rw [hspanVersion]
    simp [dropStart?]
  · rw [htake, List.drop_left]
    simp [dropStart?]
  · simp only [hspanVersion, htake]
    simp [hc, hne, hhead, hlast]

/-! ### Package and distributions -/

/-- The code points of letters and digits. -/
theorem isAlphanum_iff {c : Char} : c.isAlphanum = true ↔
    (65 ≤ c.toNat ∧ c.toNat ≤ 90 ∨ 97 ≤ c.toNat ∧ c.toNat ≤ 122) ∨ 48 ≤ c.toNat ∧ c.toNat ≤ 57 := by
  have hclasses : c.isAlphanum = ((decide ('A'.val ≤ c.val ∧ c.val ≤ 'Z'.val) ||
      decide ('a'.val ≤ c.val) && decide (c.val ≤ 'z'.val)) ||
      decide ('0'.val ≤ c.val) && decide (c.val ≤ '9'.val)) := rfl
  rw [hclasses]
  simp only [Bool.or_eq_true, Bool.and_eq_true, decide_eq_true_eq, UInt32.le_iff_toNat_le]
  exact Iff.rfl

theorem isBlank_of_isNameChar {c : Char} (h : isNameChar c = true) : isBlank c = false := by
  have hcode : 43 ≤ c.toNat ∧ c.toNat ≤ 122 ∨ c.toNat = 0x17F ∨ c.toNat = 0x212A := by
    simp only [isNameChar, Bool.or_eq_true, beq_iff_eq, isAlphanum_iff] at h
    rcases h with ((((h | rfl) | rfl) | rfl) | rfl) | rfl
    · omega
    all_goals decide
  simp only [isBlank, inRanges, blankRanges, List.any_cons, List.any_nil, Bool.or_false,
    Bool.or_eq_false_iff, Bool.and_eq_false_iff, decide_eq_false_iff_not]
  omega

/-- Distributions are still distributions with their blanks trimmed and one space in front. -/
theorem IsDistributions.space_trim {t : Text} (h : IsDistributions t) :
    IsDistributions (' ' :: trim t) := by
  have hlast := h.last
  obtain ⟨c, hc⟩ : ∃ c, t.getLast? = some c := by
    cases ht : t.getLast? with
    | none => simp [ht] at hlast
    | some c => exact ⟨c, rfl⟩
  have hblank : isBlank c = false := isBlank_of_isNameChar (by simpa [hc] using hlast)
  have ht : t = t.takeWhile isBlank ++ trimStart t := List.takeWhile_append_dropWhile.symm
  have hne : trimStart t ≠ [] := by
    intro hnil
    rw [hnil, List.append_nil] at ht
    have hmem : c ∈ t.takeWhile isBlank := ht ▸ List.mem_of_getLast? hc
    exact absurd (List.mem_takeWhile_imp hmem) (by simp [hblank])
  have hspace : (' ' :: trimStart t).getLast? = t.getLast? := by
    conv_rhs => rw [ht]
    rw [List.getLast?_append_of_ne_nil _ hne]
    exact List.getLast?_append_of_ne_nil [' '] hne
  rw [trim_eq_trimStart (by simp [hc, hblank])]
  refine ⟨rfl, hspace ▸ hlast, List.forall_mem_cons.mpr ⟨by decide, fun d hd => ?_⟩⟩
  exact h.chars d ((List.dropWhile_sublist isBlank).subset hd)

namespace Entry

/-! ### The header that is written -/

theorem ofHeader_eq_ok_iff {n : Nat} {line : Text} {h : Header} {e : Entry} :
    ofHeader n line h = .ok e ↔ ∃ version, Version.parse? h.version = some version ∧
      ({ package := h.package, version, distributions := h.distributions } : Entry).addSettings
        (splitSettings h.settings) = some e := by
  unfold ofHeader
  cases Version.parse? h.version with
  | none => simp
  | some version =>
    simp only [Option.some.injEq, exists_eq_left']
    split <;> simp_all

theorem headerLine_eq (package : Text) (version : Version) (e : Entry) :
    headerLine package version e =
      headerText package version.render (' ' :: e.distributions) e.settingsSuffix := by
  unfold headerLine settingsSuffix headerText
  cases e.settingTexts <;> simp

/-- An entry that a header begins has its settings and nothing else. -/
theorem hasSettings_of_ofHeader {n : Nat} {line : Text} {h : Header} {e : Entry}
    (hnew : '\n' ∉ h.settings) (he : ofHeader n line h = .ok e) : e.HasSettings := by
  obtain ⟨version, -, hadd⟩ := ofHeader_eq_ok_iff.mp he
  refine HasSettings.addSettings ⟨?_, by simp, by simp, by simp⟩
    (fun t ht => isSetting_of_mem_splitSettings hnew ht) hadd
  simp [settingTexts]

/-- The package, the version, the distributions and the settings can be read from the header that is
written for them. -/
structure HasHeader (e : Entry) (package : Text) (version : Version) : Prop where
  package : IsPackage package
  version : Version.parse? version.render = some version
  distributions : IsDistributions (' ' :: e.distributions)
  trimmed : IsTrimmed e.distributions
  noNewline : '\n' ∉ e.distributions
  settings : e.HasSettings

theorem HasHeader.parse?_headerLine {e : Entry} {package : Text} {version : Version}
    (h : e.HasHeader package version) : Header.parse? (headerLine package version e) =
      some ⟨package, version.render, e.distributions, trimStart e.settingsSuffix⟩ := by
  have hisVersion : IsVersion version.render := ⟨Version.render_ne_nil h.version, fun c hc =>
    Version.isVersionText_of_isReleaseChar (Version.isReleaseChar_render h.version c hc)⟩
  rw [headerLine_eq, parse?_headerText h.package hisVersion h.distributions,
    trim_cons_of_isBlank (by decide), h.trimmed.trim_eq]

/-- What such a header says is what the entry holds besides its lines and its trailer. -/
theorem HasHeader.ofHeader_eq {e : Entry} {package : Text} {version : Version}
    (h : e.HasHeader package version) (n : Nat) (l : Text) :
    ofHeader n l ⟨package, version.render, e.distributions, trimStart e.settingsSuffix⟩ =
      .ok { e with
        package := some package, version := some version, changes := [], author := none, date := none,
        trailing := [] } := by
  refine ofHeader_eq_ok_iff.mpr ⟨version, h.version, ?_⟩
  dsimp only
  rw [h.settings.suffix.1, addSettings_settingTexts h.settings rfl rfl rfl]

theorem HasHeader.isLine {e : Entry} {package : Text} {version : Version}
    (h : e.HasHeader package version) : IsLine (headerLine package version e) := by
  have hstart : headerLine package version e =
      (package ++ ' ' :: '(' :: (version.render ++ ')' :: ' ' :: e.distributions)) ++
        ';' :: e.settingsSuffix := by
    simp [headerLine_eq, headerText]
  have hnewPackage : '\n' ∉ package := by
    obtain ⟨c, name, rfl, hc, hname⟩ := h.package
    rw [List.mem_cons, not_or]
    exact ⟨fun he => absurd (he ▸ hc) (by decide), fun hmem => absurd (hname _ hmem) (by decide)⟩
  have hnewVersion : '\n' ∉ version.render := fun hmem =>
    absurd (Version.isReleaseChar_render h.version _ hmem) (by decide)
  rw [hstart, isLine_append (by simp)]
  exact ⟨by simp [hnewPackage, hnewVersion, h.noNewline], h.settings.suffix.2⟩

/-- An entry that a header begins has a header that can be read again. -/
theorem hasHeader_of_ofHeader {n : Nat} {line : Text} {h : Header} {e : Entry} (hnew : '\n' ∉ line)
    (hline : Header.parse? line = some h) (he : ofHeader n line h = .ok e) :
    ∃ package version, e.package = some package ∧ e.version = some version ∧
      e.HasHeader package version := by
  obtain ⟨distributions, settings, rfl, hpackage, -, hdistributions, htrim, hsettings⟩ :=
    parse?_eq_some hline
  obtain ⟨version, hversion, hadd⟩ := ofHeader_eq_ok_iff.mp he
  have hparts := addSettings_eq_some hadd
  have hdist : e.distributions = trim distributions := by rw [hparts, ← htrim]
  have hnewDistributions : '\n' ∉ trim distributions := fun hmem =>
    hnew (by simp [headerText, mem_of_mem_trim hmem])
  have hnewSettings : '\n' ∉ h.settings := fun hmem => by
    rw [hsettings] at hmem
    exact hnew (by simp [headerText, (List.dropWhile_sublist isBlank).subset hmem])
  refine ⟨h.package, version, by rw [hparts], by rw [hparts], hpackage,
    Version.parse?_render hversion, ?_, ?_, ?_, hasSettings_of_ofHeader hnewSettings he⟩
  · exact hdist ▸ hdistributions.space_trim
  · exact hdist ▸ isTrimmed_trim distributions
  · exact hdist ▸ hnewDistributions

/-- **A header is read as it is written.** The line that is written for an entry which a header
began begins the same entry. -/
theorem reread_header {n : Nat} {line : Text} {h : Header} {e : Entry} (hnew : '\n' ∉ line)
    (hline : Header.parse? line = some h) (he : ofHeader n line h = .ok e) :
    ∃ package version, e.package = some package ∧ e.version = some version ∧ e.changes = [] ∧
      e.trailing = [] ∧ IsLine (headerLine package version e) ∧
      ∃ h', Header.parse? (headerLine package version e) = some h' ∧
        ∀ m l, ofHeader m l h' = .ok e := by
  obtain ⟨package, version, hpackage, hversion, hheader⟩ := hasHeader_of_ofHeader hnew hline he
  obtain ⟨_, -, hadd⟩ := ofHeader_eq_ok_iff.mp he
  have hparts := addSettings_eq_some hadd
  have hsame : { e with
      package := some package, version := some version, changes := [], author := none, date := none,
      trailing := [] } = e := by
    rw [← hpackage, ← hversion, hparts]
  refine ⟨package, version, hpackage, hversion, by rw [hparts], by rw [hparts],
    hheader.isLine, _, hheader.parse?_headerLine, fun m l => ?_⟩
  rw [hheader.ofHeader_eq, hsame]

end Entry

end Packaging.Changelog
