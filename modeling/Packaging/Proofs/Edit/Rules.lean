import Packaging.Edit.Rules
import Packaging.Proofs.Edit.OpenFile
import Packaging.Proofs.Makefile.Ink

/-!
# Changing rules files

A rules file is changed by commands that return what to put in the place of each part of it, and at the end
pointless overrides are discarded. When each part is returned as it was, discarding is all that is done. It
shows in the text if there is something to discard, and otherwise the text is the one that was read, so that
the file is written in the first case and left alone in the second.

## What is proved

* `changeRules_returns` — an idle change does nothing but discard pointless overrides.
* `commit_opened`, `commit_changed` — what committing a makefile comes to, as it was read and otherwise.
* `updateRules_of_isIdle` — a rules file is written by an idle change if and only if there is a pointless
  override in it.
-/

namespace Packaging.Edit

open Text Makefile

section

variable {m : Type → Type} [Monad m]

/-- The change does nothing to a makefile: each part of it is returned as it is. -/
structure RulesChange.IsIdle (change : RulesChange m) : Prop where
  makefile : ∀ mk, Returns (change.makefile mk) mk
  command : ∀ command targets, Returns (change.command command targets) [command]
  rule : ∀ r, Returns (change.rule r) r
  line : ∀ line, Returns (change.line line) [line]

variable [LawfulMonad m] {change : RulesChange m}

theorem isIdle_default : RulesChange.IsIdle ({} : RulesChange m) where
  makefile := returns_pure
  command command _ := returns_pure [command]
  rule := returns_pure
  line line := returns_pure [line]

theorem flatten_parts {α : Type} (as : List α) : (as.map ([·])).flatten = as := by
  simp [← List.flatMap_def]

/-- What is put in the place of each part is the part itself. -/
theorem mapM_parts_returns {α : Type} {f : α → m (List α)} (h : ∀ a, Returns (f a) [a]) (as : List α) :
    Returns (as.mapM f) (as.map ([·])) := Returns.mapM fun a _ => h a

theorem replaceCommandsM_returns (h : change.IsIdle) (r : Rule) :
    Returns (r.replaceCommandsM change.command) r := by
  refine (mapM_parts_returns (fun line => ?_) r.body).bind ?_
  · cases hcommand : Rule.command? line with
    | none => exact returns_pure [line]
    | some command =>
      rw [dropStart?_eq_some_iff.mp hcommand]
      exact (h.command command r.targets).bind (returns_pure _)
  · rw [flatten_parts]
    exact returns_pure r

theorem changeCommands_returns (h : change.IsIdle) (r : Rule) : Returns (changeCommands change r) r := by
  refine (replaceCommandsM_returns h r).bind ?_
  have hkept : (!r.commands.isEmpty && r.commands.isEmpty && r.prerequisites.isEmpty) = false := by
    cases r.commands.isEmpty <;> rfl
  rw [hkept]
  exact returns_pure r

theorem changeRule_returns (h : change.IsIdle) (r : Rule) : Returns (changeRule change r) r := by
  refine (changeCommands_returns h r).bind ?_
  split
  · exact returns_pure r
  · exact h.rule r

theorem mapRulesM_returns {f : Rule → m Rule} (h : ∀ r, Returns (f r) r) (mk : Makefile) :
    Returns (mk.mapRulesM f) mk := by
  refine (Returns.mapM (g := id) fun e _ => ?_).bind ?_
  · cases e with
    | line l => exact returns_pure _
    | rule r => exact (h r).bind (returns_pure _)
  · rw [List.map_id]
    exact returns_pure mk

theorem replaceGlobalLinesM_returns {f : Text → m (List Text)} (h : ∀ l, Returns (f l) [l])
    (mk : Makefile) : Returns (mk.replaceGlobalLinesM f) mk := by
  refine (mapM_parts_returns (fun e => ?_) mk.entries).bind ?_
  · cases e with
    | line l => exact (h l).bind (returns_pure _)
    | rule r => exact returns_pure _
  · rw [flatten_parts]
    exact returns_pure mk

/-- **An idle change** discards pointless overrides and does nothing else. -/
theorem changeRules_returns (h : change.IsIdle) (mk : Makefile) :
    Returns (changeRules change mk) (mk.discardPointlessOverrides false) :=
  (h.makefile mk).bind ((mapRulesM_returns (changeRule_returns h) mk).bind
    ((replaceGlobalLinesM_returns h.line mk).bind (returns_pure _)))

end

/-! ### Committing -/

variable {files : FileTree} {path : Path} {options : Options} {file : OpenFile Makefile}

/-- What a makefile that was opened was read from. -/
theorem exists_text (h : openFile .makefile files path options = .ok file) :
    file.path = path ∧ ∃ text, file.model = parse text ∧
      (files.read path = .error .notFound ∧ text = [] ∧ file.reading = none ∨
        ∃ bytes, files.read path = .ok bytes ∧ decode bytes = .ok text ∧
          file.reading = some ⟨text, text⟩) := by
  obtain ⟨hpath, -, hread⟩ := openFile_eq_ok h
  refine ⟨hpath, ?_⟩
  obtain ⟨path', options', reading, model⟩ := file
  cases hread with
  | absent hmissing => exact ⟨[], rfl, .inl ⟨hmissing, rfl, rfl⟩⟩
  | @present bytes r model hbytes hdecode hparse hrender =>
    obtain rfl : parse r.text = model := Except.ok.inj hparse
    have hrehearsal : r.text = r.rehearsal := (render_parse r.text).symm.trans (Except.ok.inj hrender)
    refine ⟨r.text, rfl, .inr ⟨bytes, hbytes, hdecode, ?_⟩⟩
    obtain ⟨text, rehearsal⟩ := r
    obtain rfl : text = rehearsal := hrehearsal
    rfl

/-- A makefile that was opened is not written as it is. -/
theorem commit_opened (h : openFile .makefile files path options = .ok file) :
    (file.commit .makefile files).result = .ok false ∧ (file.commit .makefile files).files = files := by
  obtain ⟨-, text, hmodel, hread⟩ := exists_text h
  have hrender : Format.makefile.render file.model = .ok text := by
    rw [hmodel]
    exact congrArg Except.ok (render_parse text)
  refine OpenFile.commit_of_isUnchanged files hrender ?_
  rcases hread with ⟨-, rfl, hreading⟩ | ⟨bytes, -, -, hreading⟩
  · rw [OpenFile.isUnchanged, hreading]
    rfl
  · simp [OpenFile.isUnchanged, hreading]

/-- Another makefile is written in the place of the one that was read, if its text is another one. -/
theorem commit_changed (hfiles : files.HasOutermost) {bytes : List UInt8} {text : Text}
    (hbytes : files.read file.path = .ok bytes) (hreading : file.reading = some ⟨text, text⟩)
    {mk : Makefile} (hnew : mk.render ≠ text) :
    ({ file with model := mk }.commit .makefile files).result = .ok true ∧
      ({ file with model := mk }.commit .makefile files).files.read file.path =
        .ok (encode mk.render) := by
  have hwrite : OpenFile.MayWrite { file with model := mk } mk.render := by
    rw [OpenFile.MayWrite, hreading]
    exact ⟨hnew, hnew, .inl rfl⟩
  exact OpenFile.commit_writes hfiles hbytes rfl hwrite

/-- An idle change commits the makefile without its pointless overrides. -/
theorem updateRules_returns {m : Type → Type} [Monad m] [LawfulMonad m] {change : RulesChange m}
    (hidle : change.IsIdle) (h : openFile .makefile files path options = .ok file) :
    ∃ outcome, Returns (updateRules files path options change) outcome ∧
      let model := (file.model.discardPointlessOverrides false).1
      outcome.result = ({ file with model }.commit .makefile files).result ∧
        outcome.files = ({ file with model }.commit .makefile files).files := by
  unfold updateRules
  rw [h]
  exact ⟨_, (changeRules_returns hidle file.model).bind (returns_pure _), rfl, rfl⟩

/-- **A rules file to which nothing is done** but what is done to every one is written if and only if there
is a pointless override in it. Otherwise nothing is written, and either way nothing fails. -/
theorem updateRules_of_isIdle {m : Type → Type} [Monad m] [LawfulMonad m] {change : RulesChange m}
    (hidle : change.IsIdle) (hfiles : files.HasOutermost)
    (h : openFile .makefile files path options = .ok file) :
    ∃ text, file.model = parse text ∧
      (files.read path = .error .notFound ∧ text = [] ∨
        ∃ bytes, files.read path = .ok bytes ∧ decode bytes = .ok text) ∧
      ∃ outcome, Returns (updateRules files path options change) outcome ∧
        (outcome.result = .ok true ↔ ∃ r ∈ (parse text).rules, r.IsPointless false) ∧
        (outcome.result = .ok true → outcome.files.read path =
          .ok (encode ((parse text).discardPointlessOverrides false).1.render)) ∧
        (outcome.result ≠ .ok true → outcome.result = .ok false ∧ outcome.files = files) := by
  obtain ⟨hpath, text, hmodel, hread⟩ := exists_text h
  obtain ⟨outcome, hreturns, hresult, hafter⟩ := updateRules_returns hidle h
  refine ⟨text, hmodel, ?_, outcome, hreturns, ?_⟩
  · rcases hread with ⟨hmissing, htext, -⟩ | ⟨bytes, hbytes, hdecode, -⟩
    · exact .inl ⟨hmissing, htext⟩
    · exact .inr ⟨bytes, hbytes, hdecode⟩
  rw [hresult, hafter, hmodel]
  by_cases hpointless : ∃ r ∈ (parse text).rules, r.IsPointless false
  · have hnew : ((parse text).discardPointlessOverrides false).1.render ≠ text := by
      intro heq
      have hless := ink_discardPointlessOverrides_lt hpointless
      rw [heq] at hless
      exact Nat.lt_irrefl _ hless
    rcases hread with ⟨-, rfl, -⟩ | ⟨bytes, hbytes, -, hreading⟩
    · obtain ⟨r, hr, -⟩ := hpointless
      cases hr
    · obtain ⟨htrue, hwritten⟩ := commit_changed hfiles (hpath ▸ hbytes) hreading hnew
      rw [htrue]
      exact ⟨iff_of_true rfl hpointless, fun _ => hpath ▸ hwritten, fun hnot => absurd rfl hnot⟩
  · have hself := discardPointlessOverrides_eq_self fun r hr hnot => hpointless ⟨r, hr, hnot⟩
    have hsame : { file with model := ((parse text).discardPointlessOverrides false).1 } = file := by
      rw [hself, ← hmodel]
    obtain ⟨hfalse, hkept⟩ := commit_opened h
    rw [hsame, hfalse, hkept]
    exact ⟨iff_of_false (by simp) hpointless, nofun, fun _ => ⟨rfl, rfl⟩⟩

/-- A rules file with a pointless override. -/
def overridingText : Text := "%:\n\tdh $@\n\noverride_dh_a:\n\n\tdh_a\n".toList

/-- A tree with nothing but this file. -/
def overridingFiles : FileTree :=
  FileTree.put {} ["rules".toList] (.file (encode overridingText) 0o755)

theorem updateRules_overridingFiles : overridingFiles.HasOutermost ∧
    (openFile .makefile overridingFiles "rules".toList {}).isOk = true ∧
    ∃ outcome, Returns (updateRules (m := Id) overridingFiles "rules".toList {} {}) outcome ∧
      outcome.result = .ok true := by
  have hfiles : overridingFiles.HasOutermost := by
    have hnone : FileTree.node? {} ["rules".toList] = none := by decide
    exact FileTree.hasOutermost_empty.put fun m => by rw [hnone]; simp
  have hopens : (openFile .makefile overridingFiles "rules".toList {}).isOk = true := by decide +kernel
  refine ⟨hfiles, hopens, ?_⟩
  cases hopen : openFile .makefile overridingFiles "rules".toList {} with
  | error e =>
    rw [hopen] at hopens
    cases hopens
  | ok file =>
    obtain ⟨text, -, hread, outcome, hreturns, htrue, -⟩ :=
      updateRules_of_isIdle (isIdle_default (m := Id)) hfiles hopen
    have hbytes : overridingFiles.read "rules".toList = .ok (encode overridingText) := by decide +kernel
    have hdecode : decode (encode overridingText) = .ok overridingText := by decide +kernel
    rw [hbytes] at hread
    obtain ⟨hmissing, -⟩ | ⟨bytes, ⟨⟩, htext⟩ := hread
    · cases hmissing
    · rw [hdecode] at htext
      cases htext
      refine ⟨outcome, hreturns, htrue.mpr ?_⟩
      refine ⟨(Rule.ofHeader "override_dh_a:".toList).addLine [] |>.addCommand "dh_a".toList, ?_, ?_⟩
      · decide +kernel
      · exact ⟨"dh_a".toList, by decide +kernel, by decide +kernel, by decide +kernel⟩

end Packaging.Edit
