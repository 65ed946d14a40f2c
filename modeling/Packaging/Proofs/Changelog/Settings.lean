import Packaging.Changelog.Parser
import Packaging.Changelog.Printer
import Packaging.Proofs.Text.Split
import Packaging.Proofs.Text.Trim

/-!
# Settings are read as they are written

Reading the settings of a header trims them, takes the urgency out of them and forgets how its name
was written. Writing them puts the urgency first.

## What is proved

* `splitSettings_join` — settings that are joined are found between the commas again.
* `HasSettings.addSettings` — an entry that settings were read into has settings that can be written.
* `addSettings_settingTexts` — the settings that are written for an entry are read into the same
  entry.
-/

namespace Packaging.Changelog

open Text

/-! ### Between the commas -/

/-- A text that may stand between the commas of a header. -/
structure IsSetting (t : Text) : Prop extends IsTrimmed t where
  ne_nil : t ≠ []
  noComma : ',' ∉ t
  noNewline : '\n' ∉ t

theorem isSetting_of_mem_splitSettings {t setting : Text} (hnew : '\n' ∉ t)
    (h : setting ∈ Entry.splitSettings t) : IsSetting setting := by
  obtain ⟨htrim, hne⟩ := List.mem_filter.mp h
  obtain ⟨piece, hpiece, rfl⟩ := List.mem_map.mp htrim
  exact ⟨isTrimmed_trim piece, by simpa using hne,
    fun hmem => not_mem_of_mem_splitOn hpiece (mem_of_mem_trim hmem),
    fun hmem => hnew (mem_of_mem_splitOn hpiece (mem_of_mem_trim hmem))⟩

theorem IsSetting.isLine {t : Text} (h : IsSetting t) : IsLine t := by
  refine ⟨h.noNewline, fun hreturn => ?_⟩
  have hlast := h.last
  rw [hreturn] at hlast
  exact absurd hlast (by decide)

/-- Settings that are joined are a line that begins with no white space. -/
theorem isLine_join {ts : List Text} (h : ∀ t ∈ ts, IsSetting t) (hne : ts ≠ []) :
    (join [',', ' '] ts).head?.any isBlank = false ∧ join [',', ' '] ts ≠ [] ∧
      IsLine (join [',', ' '] ts) := by
  induction ts with
  | nil => exact absurd rfl hne
  | cons t ts ih =>
    obtain ⟨ht, hts⟩ := List.forall_mem_cons.mp h
    cases ts with
    | nil =>
      have hjoin : join [',', ' '] [t] = t := by simp [join]
      rw [hjoin]
      exact ⟨ht.head, ht.ne_nil, ht.isLine⟩
    | cons u ts =>
      obtain ⟨-, hneRest, hline⟩ := ih hts (by simp)
      rw [join_cons_cons]
      refine ⟨?_, by simp, (isLine_append hneRest).mpr ⟨by simp [ht.noNewline], hline⟩⟩
      have hhead := ht.head
      obtain ⟨c, rest, rfl⟩ := List.exists_cons_of_ne_nil ht.ne_nil
      exact hhead

/-- A space after a comma is a space before the next setting. -/
theorem join_comma_space (t : Text) (ts : List Text) :
    join [',', ' '] (t :: ts) = join [','] (t :: ts.map (' ' :: ·)) := by
  induction ts generalizing t with
  | nil => rfl
  | cons u ts ih =>
    rw [List.map_cons, join_cons_cons, join_cons_cons, ih]
    cases ts <;> simp [join]

/-- Settings that are joined are found between the commas again. -/
theorem splitSettings_join {ts : List Text} (h : ∀ t ∈ ts, IsSetting t) :
    Entry.splitSettings (join [',', ' '] ts) = ts := by
  cases ts with
  | nil => rfl
  | cons t ts =>
    obtain ⟨ht, hts⟩ := List.forall_mem_cons.mp h
    have hnoComma : ∀ piece ∈ t :: ts.map (' ' :: ·), ',' ∉ piece := by
      refine List.forall_mem_cons.mpr ⟨ht.noComma, fun piece hpiece => ?_⟩
      obtain ⟨u, hu, rfl⟩ := List.mem_map.mp hpiece
      simpa using (hts u hu).noComma
    have htrim : ts.map (trim ∘ (' ' :: ·)) = ts := by
      refine (List.map_congr_left fun u hu => ?_).trans (List.map_id ts)
      rw [Function.comp_apply, trim_cons_of_isBlank (by decide), (hts u hu).trim_eq, id]
    have hfilter : (t :: ts).filter (!·.isEmpty) = t :: ts := by
      rw [List.filter_eq_self]
      exact fun u hu => by simpa using (h u hu).ne_nil
    rw [Entry.splitSettings, join_comma_space, splitOn_join hnoComma (by simp), List.map_cons,
      List.map_map, htrim, ht.trim_eq, hfilter]

/-! ### In an entry -/

namespace Entry

/-- The name of the setting that is a part of its own. -/
def isUrgency (key : Text) : Bool := eqIgnoreCase key "urgency".toList

/-- A setting as it is written. -/
def settingText (s : Text × Text) : Text := s.1 ++ '=' :: s.2

/-- The settings of the entry are written in a way that can be read: no key is cut short, and what
would be read as the urgency is the urgency. -/
structure HasSettings (e : Entry) : Prop where
  texts : ∀ t ∈ e.settingTexts, IsSetting t
  keys : ∀ s ∈ e.settings, '=' ∉ s.1
  urgency : ∀ u, e.urgency = some u → splitAtBlank (u ++ e.urgencyComment) = (u, e.urgencyComment)
  noUrgency : e.urgency = none → e.urgencyComment = [] ∧ ∀ s ∈ e.settings, isUrgency s.1 = false

/-- The urgency is written with the same name, whatever name it was read with. -/
theorem isSetting_urgency {key value : Text} (h : IsSetting (key ++ '=' :: value)) :
    IsSetting ("urgency=".toList ++ value) := by
  have hlast : ∀ start : Text, (start ++ '=' :: value).getLast? = ('=' :: value).getLast? :=
    fun start => List.getLast?_append_of_ne_nil start (by simp)
  have hnot : ∀ c, c ∉ key ++ '=' :: value → c ∉ "urgency=".toList → c ∉ "urgency=".toList ++ value := by
    intro c hc hurgency
    simp only [List.mem_append, List.mem_cons, not_or] at hc ⊢
    exact ⟨hurgency, hc.2.2⟩
  refine ⟨⟨rfl, ?_⟩, by simp, hnot _ h.noComma (by decide), hnot _ h.noNewline (by decide)⟩
  have hlastValue := h.last
  rw [hlast] at hlastValue
  exact (congrArg (Option.any isBlank) (hlast "urgency".toList)).trans hlastValue

theorem settingTexts_of_urgency {e : Entry} {u : Text} (h : e.urgency = some u) :
    e.settingTexts = ("urgency=".toList ++ (u ++ e.urgencyComment)) :: e.settings.map settingText := by
  simp [settingTexts, settingText, h]

theorem settingTexts_of_no_urgency {e : Entry} (h : e.urgency = none) :
    e.settingTexts = e.settings.map settingText := by
  simp [settingTexts, settingText, h]

theorem HasSettings.addSetting {e : Entry} {key value : Text} (he : e.HasSettings)
    (hkey : '=' ∉ key) (h : IsSetting (key ++ '=' :: value)) :
    (e.addSetting key value).HasSettings := by
  unfold Entry.addSetting
  split
  · -- The setting is the urgency, and the other settings stay as they are.
    rename_i hurgency
    have hnone : e.urgency = none := by
      simp only [Bool.and_eq_true, Option.isNone_iff_eq_none] at hurgency
      exact hurgency.2
    obtain ⟨u, comment, hsplit⟩ : ∃ u comment, splitAtBlank value = (u, comment) := ⟨_, _, rfl⟩
    obtain ⟨rfl, -, -⟩ := span_eq_iff.mp hsplit
    rw [hsplit]
    refine ⟨?_, he.keys, fun v hv => ?_, fun hv => by cases hv⟩
    · rw [settingTexts_of_urgency rfl]
      have htexts := he.texts
      rw [settingTexts_of_no_urgency hnone] at htexts
      exact List.forall_mem_cons.mpr ⟨isSetting_urgency h, htexts⟩
    · cases hv
      exact hsplit
  · rename_i hother
    have htexts : ({ e with settings := e.settings ++ [(key, value)] } : Entry).settingTexts =
        e.settingTexts ++ [key ++ '=' :: value] := by
      simp [settingTexts]
    refine ⟨?_, ?_, he.urgency, fun hnone => ⟨(he.noUrgency hnone).1, ?_⟩⟩
    · rw [htexts]
      exact List.forall_mem_append.mpr ⟨he.texts, List.forall_mem_singleton.mpr h⟩
    · exact List.forall_mem_append.mpr ⟨he.keys, List.forall_mem_singleton.mpr hkey⟩
    · have hnone : e.urgency = none := hnone
      have hkeyOther : isUrgency key = false := by simpa [hnone, isUrgency] using hother
      exact List.forall_mem_append.mpr
        ⟨(he.noUrgency hnone).2, List.forall_mem_singleton.mpr hkeyOther⟩

theorem HasSettings.addSettings {base e : Entry} (hbase : base.HasSettings) {ts : List Text}
    (hall : ∀ t ∈ ts, IsSetting t) (h : base.addSettings ts = some e) : e.HasSettings := by
  induction ts generalizing base with
  | nil => cases h; exact hbase
  | cons t ts ih =>
    obtain ⟨ht, hts⟩ := List.forall_mem_cons.mp hall
    unfold Entry.addSettings at h
    split at h
    · rename_i key value hcut
      obtain ⟨hkey, rfl⟩ := cut?_eq_some_iff.mp hcut
      exact ih (hbase.addSetting hkey ht) hts h
    · cases h

/-- Settings are added and nothing else is changed. -/
theorem addSettings_eq_some {base e : Entry} {ts : List Text} (h : base.addSettings ts = some e) :
    e = { base with
      urgency := e.urgency, urgencyComment := e.urgencyComment, settings := e.settings } := by
  induction ts generalizing base with
  | nil => cases h; rfl
  | cons t ts ih =>
    unfold Entry.addSettings at h
    split at h
    · rename_i key value _
      rw [ih h]
      unfold Entry.addSetting
      split <;> rfl
    · cases h

/-- Settings that cannot be the urgency are added at the end, as they are. -/
theorem addSettings_map {base : Entry} {settings : List (Text × Text)}
    (hkeys : ∀ s ∈ settings, '=' ∉ s.1)
    (hother : base.urgency = none → ∀ s ∈ settings, isUrgency s.1 = false) :
    base.addSettings (settings.map settingText) =
      some { base with settings := base.settings ++ settings } := by
  induction settings generalizing base with
  | nil => simp [addSettings]
  | cons s settings ih =>
    obtain ⟨key, value⟩ := s
    obtain ⟨hkey, hkeys⟩ := List.forall_mem_cons.mp hkeys
    have hcut : cut? '=' (settingText (key, value)) = some (key, value) :=
      cut?_eq_some_iff.mpr ⟨hkey, rfl⟩
    have hadd : base.addSetting key value = { base with settings := base.settings ++ [(key, value)] } := by
      unfold Entry.addSetting
      refine if_neg fun hboth => ?_
      rw [Bool.and_eq_true, Option.isNone_iff_eq_none] at hboth
      have hnot := hother hboth.2 (key, value) List.mem_cons_self
      exact absurd hboth.1 (by simpa [isUrgency] using hnot)
    have hrest := @ih { base with settings := base.settings ++ [(key, value)] } hkeys
      fun hnone s hs => hother hnone s (List.mem_cons_of_mem _ hs)
    rw [List.map_cons, addSettings]
    simp only [hcut, hadd]
    rw [hrest]
    simp

/-- The settings that are written for an entry are read into it. -/
theorem addSettings_settingTexts {base e : Entry} (he : e.HasSettings) (hurgency : base.urgency = none)
    (hcomment : base.urgencyComment = []) (hsettings : base.settings = []) :
    base.addSettings e.settingTexts = some { base with
      urgency := e.urgency, urgencyComment := e.urgencyComment, settings := e.settings } := by
  cases hu : e.urgency with
  | none =>
    obtain ⟨hcommentNil, hother⟩ := he.noUrgency hu
    rw [settingTexts_of_no_urgency hu, addSettings_map he.keys fun _ => hother]
    simp [hurgency, hcomment, hsettings, hcommentNil]
  | some u =>
    have hcut : cut? '=' ("urgency=".toList ++ (u ++ e.urgencyComment)) =
        some ("urgency".toList, u ++ e.urgencyComment) := rfl
    have hadd : base.addSetting "urgency".toList (u ++ e.urgencyComment) =
        { base with urgency := some u, urgencyComment := e.urgencyComment } := by
      rw [addSetting, hurgency, he.urgency u hu]
      rfl
    rw [settingTexts_of_urgency hu, addSettings]
    simp only [hcut, hadd]
    rw [addSettings_map he.keys (by simp)]
    simp [hsettings]

/-- What is written behind the semicolon of a header. -/
def settingsSuffix (e : Entry) : Text :=
  match e.settingTexts with
  | [] => []
  | ts => ' ' :: join [',', ' '] ts

/-- What is written behind the semicolon has the settings of the entry. -/
theorem HasSettings.suffix {e : Entry} (he : e.HasSettings) :
    splitSettings (trimStart e.settingsSuffix) = e.settingTexts ∧ IsLine (';' :: e.settingsSuffix) := by
  unfold settingsSuffix
  cases hts : e.settingTexts with
  | nil => exact ⟨rfl, by decide, by decide⟩
  | cons t ts =>
    have hall : ∀ u ∈ t :: ts, IsSetting u := hts ▸ he.texts
    obtain ⟨hhead, hne, hline⟩ := isLine_join hall (by simp)
    refine ⟨?_, (@isLine_append [';', ' '] _ hne).mpr ⟨by decide, hline⟩⟩
    have htrim : trimStart (' ' :: join [',', ' '] (t :: ts)) = join [',', ' '] (t :: ts) := by
      rw [trimStart, trimStartOf, List.dropWhile_cons_of_pos (by decide)]
      exact trimStart_eq_self hhead
    dsimp only
    rw [htrim, splitSettings_join hall]

end Entry

end Packaging.Changelog
