import Packaging.Proofs.Edit.OpenFile

/-!
# Sessions

Files are edited in sessions, one after the other: a file is opened, its value is changed in any way,
and then it is committed or given up; or all of this is done at once, by `edit`. A `Desk` is what
there is between two actions, the files and the file that is open, and `Desk.step` does one action.

## What is proved

* `run_faithful` — at any time, opening the open file once more would read what was read for it.
* `run_safe` — so whatever was done before, an action changes the files only if it reports that it
  wrote, and what it wrote is the text of the value; whether it tries is decided by what is in the
  file; and a value that was not edited is not written.
* `run_hasOutermost`, `run_writes` — files that lie in directories do so at any time, and so what is to be
  written in the place of a file is written.
-/

namespace Packaging.Edit

open Text

variable {M α : Type}

/-! ### Actions -/

/-- Something that is done with files. The changes are any functions of the value, and the change of
an edit may fail. -/
inductive Action (M α : Type) where
  | openAt (path : Path) (options : Options)
  | change (f : M → M)
  | commit
  | discard
  | edit (path : Path) (options : Options) (change : M → Except Failure (α × M))

/-- What an action reports. -/
inductive Report (α : Type) where
  /-- Nothing can fail, or nothing is open. -/
  | done
  | opened (result : Except Failure Unit)
  | committed (result : Except Failure Bool)
  | edited (result : Except Failure (α × Bool))

/-- The report on a commit, if one was made or should have been. -/
def Report.result? : Report α → Option (Except Failure Bool)
  | .committed result => some result
  | .edited result => some (result.map (·.2))
  | _ => none

/-- The report says that a file was written. -/
def Report.Wrote (report : Report α) : Prop := report.result? = some (.ok true)

/-- The files, and the file that is open. -/
structure Desk (M : Type) where
  files : FileTree
  current : Option (OpenFile M) := none

namespace Desk

variable {format : Format M} {d : Desk M} {action : Action M α}

/-- Does an action. A session ends before the next one begins: whatever is open is given up when a
file is opened or edited. -/
def step (format : Format M) (d : Desk M) : Action M α → Desk M × Report α
  | .openAt path options =>
    match openFile format d.files path options with
    | .ok file => (⟨d.files, some file⟩, .opened (.ok ()))
    | .error e => (⟨d.files, none⟩, .opened (.error e))
  | .change f => (⟨d.files, d.current.map fun file => { file with model := f file.model }⟩, .done)
  | .commit =>
    match d.current with
    | some file =>
      let outcome := file.commit format d.files
      (⟨outcome.files, none⟩, .committed outcome.result)
    | none => (d, .done)
  | .discard => (⟨d.files, none⟩, .done)
  | .edit path options change =>
    let outcome := Id.run (Edit.edit format d.files path options change)
    (⟨outcome.files, none⟩, .edited outcome.result)

/-- Does actions one after the other. The reports are in the same order. -/
def run (format : Format M) (d : Desk M) : List (Action M α) → Desk M × List (Report α)
  | [] => (d, [])
  | action :: actions =>
    let (d, report) := d.step format action
    let (d, reports) := run format d actions
    (d, report :: reports)

/-- The file that an action commits, with the value it then has. -/
def committing? (format : Format M) (d : Desk M) : Action M α → Option (OpenFile M)
  | .commit => d.current
  | .edit path options change =>
    match openFile format d.files path options with
    | .ok file =>
      match change file.model with
      | .ok (_, model) => some { file with model }
      | .error _ => none
    | .error _ => none
  | _ => none

/-- An action that commits a file leads to what the commit leads to. -/
theorem step_of_committing {file : OpenFile M} (h : d.committing? format action = some file) :
    (d.step format action).1.files = (file.commit format d.files).files ∧
      (d.step format action).2.result? = some (file.commit format d.files).result := by
  cases action with
  | openAt | change | discard => simp [committing?] at h
  | commit =>
    simp only [committing?] at h
    simp [step, h, Report.result?]
  | edit path options change =>
    simp only [committing?] at h
    split at h
    · rename_i opened hopen
      split at h
      · rename_i value model hchange
        simp only [Option.some.injEq] at h
        subst h
        simp only [step, edit, hopen, hchange, OpenFile.finish, Id.run, bind, pure,
          Report.result?]
        cases (OpenFile.commit format d.files { opened with model }).result <;> simp [Except.map]
      · simp at h
    · simp at h

/-- Any other action leaves the files alone and does not say otherwise. -/
theorem step_of_not_committing (h : d.committing? format action = none) :
    (d.step format action).1.files = d.files ∧ ¬(d.step format action).2.Wrote := by
  cases action with
  | openAt path options =>
    simp only [step]
    split <;> simp [Report.Wrote, Report.result?]
  | change | discard => simp [step, Report.Wrote, Report.result?]
  | commit =>
    simp only [committing?] at h
    simp [step, h, Report.Wrote, Report.result?]
  | edit path options change =>
    simp only [committing?] at h
    split at h
    · rename_i opened hopen
      split at h
      · simp at h
      · rename_i e hchange
        simp [step, edit, hopen, hchange, OpenFile.finish, Id.run, bind, pure, Report.Wrote,
          Report.result?, Except.map]
    · rename_i e hopen
      simp [step, edit, hopen, Id.run, pure, Report.Wrote, Report.result?, Except.map]

/-- Only an action that reports that it wrote changes the files. -/
theorem step_files (h : ¬(d.step format action).2.Wrote) :
    (d.step format action).1.files = d.files := by
  cases hc : d.committing? format action with
  | none => exact (step_of_not_committing hc).1
  | some file =>
    obtain ⟨hfiles, hresult⟩ := step_of_committing hc
    rw [hfiles]
    refine OpenFile.commit_files_of_ne fun e => h ?_
    rw [Report.Wrote, hresult, e]

/-! ### What is open was read from what is there -/

/-- Opening the open file once more would read what was read for it. -/
def Faithful (format : Format M) (d : Desk M) : Prop :=
  ∀ file, d.current = some file →
    ∃ model, openFile format d.files file.path file.options = .ok { file with model }

theorem step_faithful (h : d.Faithful format) (action : Action M α) :
    (d.step format action).1.Faithful format := by
  cases action with
  | openAt path options =>
    simp only [step]
    split
    · rename_i opened hopen
      obtain ⟨rfl, rfl, -⟩ := openFile_eq_ok hopen
      rintro file ⟨⟩
      exact ⟨opened.model, hopen⟩
    · simp [Faithful]
  | change f =>
    intro file hfile
    simp only [step, Option.map_eq_some_iff] at hfile
    obtain ⟨file, hcurrent, rfl⟩ := hfile
    exact h file hcurrent
  | commit =>
    simp only [step]
    split
    · simp [Faithful]
    · exact h
  | discard | edit => simp [step, Faithful]

theorem run_faithful (h : d.Faithful format) (actions : List (Action M α)) :
    (d.run format actions).1.Faithful format := by
  induction actions generalizing d with
  | nil => exact h
  | cons action actions ih => exact ih (step_faithful h action)

/-- What an action commits was opened from the files as they are. -/
theorem openFile_of_committing (h : d.Faithful format) {file : OpenFile M}
    (hc : d.committing? format action = some file) :
    ∃ model, openFile format d.files file.path file.options = .ok { file with model } := by
  cases action with
  | openAt | change | discard => simp [committing?] at hc
  | commit => exact h file hc
  | edit path options change =>
    simp only [committing?] at hc
    split at hc
    · rename_i opened hopen
      split at hc
      · simp only [Option.some.injEq] at hc
        subst hc
        obtain ⟨rfl, rfl, -⟩ := openFile_eq_ok hopen
        exact ⟨opened.model, hopen⟩
      · simp at hc
    · simp at hc

theorem run_files (actions : List (Action M α))
    (h : ∀ report ∈ (d.run format actions).2, ¬report.Wrote) :
    (d.run format actions).1.files = d.files := by
  induction actions generalizing d with
  | nil => rfl
  | cons action actions ih =>
    simp only [run, List.forall_mem_cons] at h
    exact (ih h.2).trans (step_files h.1)

/-! ### What a session can do to a file -/

/-- A text is due to be written, by what is in the file now: it is neither the text of the file nor
what is written for that text unedited, and these two are the same or formatting may be lost. An
absent file counts as empty. -/
def IsDue (format : Format M) (d : Desk M) (file : OpenFile M) (updated : Text) : Prop :=
  match d.files.read file.path with
  | .ok bytes => ∃ old model rehearsal, decode bytes = .ok old ∧ format.parse old = .ok model ∧
      format.render model = .ok rehearsal ∧ updated ≠ old ∧ updated ≠ rehearsal ∧
      (rehearsal = old ∨ file.options.allowReformatting = true)
  | .error _ => updated ≠ []

/-- What was read when the file was opened is in the file now, so a commit goes by that. -/
theorem isDue_iff {file : OpenFile M} {model : M} {updated : Text}
    (h : openFile format d.files file.path file.options = .ok { file with model }) :
    d.IsDue format file updated ↔ file.MayWrite updated := by
  obtain ⟨-, -, hread⟩ := openFile_eq_ok h
  simp only at hread
  unfold IsDue OpenFile.MayWrite
  generalize hr : file.reading = reading at hread
  cases hread with
  | absent habsent => simp [habsent]
  | @present bytes r _ hbytes hd hp hre =>
    simp only [hbytes]
    constructor
    · rintro ⟨old, m, rehearsal, hd', hp', hre', hnew⟩
      simp_all
    · exact fun hnew => ⟨r.text, model, r.rehearsal, hd, hp, hre, hnew⟩

end Desk

/-- The formats of this library. -/
inductive Format.Provided : ∀ {M : Type}, Format M → Prop
  | stanzas : Provided stanzas
  | makefile : Provided makefile
  | changelog : Provided changelog
  | watchFile : Provided watchFile
  | lineList : Provided lineList

/-- What is edited in place of an absent file has no text, as the file has none. -/
theorem Format.Provided.render_blank {format : Format M} (h : format.Provided) :
    format.render format.blank = .ok [] := by
  cases h <;> rfl

namespace Desk

variable {format : Format M} {d : Desk M} {action : Action M α}

/-- An action is safe on a desk. -/
structure Safe (format : Format M) (d : Desk M) (action : Action M α) : Prop where
  /-- Unless it reports that it wrote, all files stay as they are. -/
  keeps : ¬(d.step format action).2.Wrote → (d.step format action).1.files = d.files
  /-- If it does, the file has the text of the value that was committed, and no other place of the
  tree has changed. -/
  writes : (d.step format action).2.Wrote → ∃ file updated place mode,
    d.committing? format action = some file ∧ format.render file.model = .ok updated ∧
      (d.step format action).1.files.read file.path = .ok (encode updated) ∧
      d.files.target file.path = .ok place ∧
      (d.step format action).1.files = d.files.put place (.file (encode updated) mode)
  /-- A text that is due is tried to be written. -/
  tries : ∀ file updated, d.committing? format action = some file →
    format.render file.model = .ok updated → d.IsDue format file updated →
      ∃ result, (d.step format action).2.result? = some result ∧
        (result, (d.step format action).1.files) = file.attempt d.files updated
  /-- Any other is not. -/
  refrains : ∀ file updated, d.committing? format action = some file →
    format.render file.model = .ok updated → ¬d.IsDue format file updated →
      ∃ result, (d.step format action).2.result? = some result ∧ file.IsRefrained result
  /-- Without permission to lose formatting, an existing file is overwritten only if its text is what
  is written for it unedited. -/
  preserves : (d.step format action).2.Wrote → ∀ file, d.committing? format action = some file →
    file.options.allowReformatting = false → ∀ bytes, d.files.read file.path = .ok bytes →
      ∃ old model, decode bytes = .ok old ∧ format.parse old = .ok model ∧
        format.render model = .ok old
  /-- A value that is what the file is opened as is not written. -/
  unedited : format.Provided → ∀ file, d.committing? format action = some file →
    openFile format d.files file.path file.options = .ok file →
      (d.step format action).2.result? = some (.ok false)

theorem writes_of_faithful (hd : d.Faithful format) (h : (d.step format action).2.Wrote) :
    ∃ file updated, d.committing? format action = some file ∧
      format.render file.model = .ok updated ∧ d.IsDue format file updated ∧
      d.files.replace file.path (encode updated) = .ok (d.step format action).1.files := by
  cases hc : d.committing? format action with
  | none => exact absurd h (step_of_not_committing hc).2
  | some file =>
    obtain ⟨hfiles, hresult⟩ := step_of_committing hc
    rw [Report.Wrote, hresult, Option.some.injEq] at h
    obtain ⟨updated, hr, hw, hrep⟩ := OpenFile.commit_eq_ok_true h
    obtain ⟨model, hopen⟩ := openFile_of_committing hd hc
    exact ⟨file, updated, rfl, hr, (isDue_iff hopen).mpr hw, by rw [hfiles, hrep]⟩

theorem unedited_of_committing (hf : format.Provided) {file : OpenFile M}
    (hc : d.committing? format action = some file)
    (hopen : openFile format d.files file.path file.options = .ok file) :
    (d.step format action).2.result? = some (.ok false) := by
  rw [(step_of_committing hc).2]
  have hcommit : ∀ updated, format.render file.model = .ok updated →
      file.isUnchanged updated = true → (file.commit format d.files).result = .ok false := by
    intro updated hr hsame
    simp [OpenFile.commit, renderAt_eq_ok_iff.mpr hr, hsame]
  obtain ⟨-, -, hread⟩ := openFile_eq_ok hopen
  congr 1
  cases hr : file.reading with
  | none =>
    rw [hr] at hread
    generalize hm : file.model = model at hread
    cases hread with
    | absent => exact hcommit [] (hm ▸ hf.render_blank) (by simp [OpenFile.isUnchanged, hr])
  | some r =>
    rw [hr] at hread
    cases hread with
    | present _ _ _ hre => exact hcommit r.rehearsal hre (by simp [OpenFile.isUnchanged, hr])

theorem safe_of_faithful (hd : d.Faithful format) (action : Action M α) : d.Safe format action where
  keeps := step_files
  writes h := by
    obtain ⟨file, updated, hc, hr, -, hrep⟩ := writes_of_faithful hd h
    obtain ⟨place, mode, ht, -, -, hput⟩ := FileTree.replace_eq_put hrep
    exact ⟨file, updated, place, mode, hc, hr, FileTree.read_replace hrep, ht, hput⟩
  tries file updated hc hr hdue := by
    obtain ⟨hfiles, hresult⟩ := step_of_committing hc
    obtain ⟨model, hopen⟩ := openFile_of_committing hd hc
    refine ⟨_, hresult, ?_⟩
    rw [hfiles, OpenFile.commit_of_mayWrite d.files hr ((isDue_iff hopen).mp hdue)]
  refrains file updated hc hr hdue := by
    obtain ⟨model, hopen⟩ := openFile_of_committing hd hc
    have hnot := mt (isDue_iff hopen).mpr hdue
    exact ⟨_, (step_of_committing hc).2, (OpenFile.commit_of_not_mayWrite d.files hr hnot).1⟩
  preserves h file hc hallow bytes hbytes := by
    obtain ⟨file', updated, hc', -, hdue, -⟩ := writes_of_faithful hd h
    obtain rfl : file = file' := Option.some.inj (hc.symm.trans hc')
    simp only [IsDue, hbytes] at hdue
    obtain ⟨old, model, rehearsal, hdec, hp, hre, -, -, hkeep⟩ := hdue
    rcases hkeep with rfl | hkeep
    · exact ⟨rehearsal, model, hdec, hp, hre⟩
    · rw [hallow] at hkeep
      simp at hkeep
  unedited hf _ hc hopen := unedited_of_committing hf hc hopen

/-- **Every action of every session is safe**, whatever files there are and whatever was done before;
and as long as no action reports that it wrote, all files stay as they were. -/
theorem run_safe (format : Format M) (files : FileTree) (past : List (Action M α)) :
    (∀ action : Action M α, ((⟨files, none⟩ : Desk M).run format past).1.Safe format action) ∧
      ((∀ report ∈ ((⟨files, none⟩ : Desk M).run format past).2, ¬report.Wrote) →
        ((⟨files, none⟩ : Desk M).run format past).1.files = files) :=
  ⟨safe_of_faithful (run_faithful (by simp [Faithful]) past), run_files past⟩

/-! ### What is written for certain -/

/-- **One action** leaves the files in their directories. -/
theorem step_hasOutermost (h : d.files.HasOutermost) (action : Action M α) :
    (d.step format action).1.files.HasOutermost := by
  cases hc : d.committing? format action with
  | none => rwa [(step_of_not_committing hc).1]
  | some file =>
    rw [(step_of_committing hc).1]
    exact OpenFile.hasOutermost_commit h

theorem run_hasOutermost (h : d.files.HasOutermost) (actions : List (Action M α)) :
    (d.run format actions).1.files.HasOutermost := by
  induction actions generalizing d with
  | nil => exact h
  | cons action actions ih => exact ih (step_hasOutermost h action)

theorem step_writes (hd : d.Faithful format) (h : d.files.HasOutermost) {file : OpenFile M}
    (hc : d.committing? format action = some file) {updated : Text}
    (hr : format.render file.model = .ok updated) (hdue : d.IsDue format file updated) {bytes : List UInt8}
    (hbytes : d.files.read file.path = .ok bytes) :
    (d.step format action).2.Wrote ∧
      (d.step format action).1.files.read file.path = .ok (encode updated) := by
  obtain ⟨hfiles, hresult⟩ := step_of_committing hc
  obtain ⟨model, hopen⟩ := openFile_of_committing hd hc
  obtain ⟨htrue, hread⟩ := OpenFile.commit_writes h hbytes hr ((isDue_iff hopen).mp hdue)
  rw [Report.Wrote, hresult, htrue, hfiles]
  exact ⟨rfl, hread⟩

/-- **A text that is due is written** where there is a file, whatever was done before: no action fails for
want of a directory, if the files lie in directories to begin with. -/
theorem run_writes {files : FileTree} (hfiles : files.HasOutermost) {past : List (Action M α)}
    (hd : ((⟨files, none⟩ : Desk M).run format past).1 = d) {file : OpenFile M}
    (hc : d.committing? format action = some file) {updated : Text}
    (hr : format.render file.model = .ok updated) (hdue : d.IsDue format file updated) {bytes : List UInt8}
    (hbytes : d.files.read file.path = .ok bytes) :
    (d.step format action).2.Wrote ∧
      (d.step format action).1.files.read file.path = .ok (encode updated) := by
  subst hd
  have hfaithful : Faithful format (⟨files, none⟩ : Desk M) := nofun
  exact step_writes (run_faithful hfaithful past) (run_hasOutermost hfiles past) hc hr hdue hbytes

/-- A line is added to a file. -/
example : (((⟨⟨[([['a']], .file (encode "x\n".toList) 0o644)]⟩, none⟩ : Desk LineList).run .lineList
    [.openAt ['a'] {}, .change (·.push ['y']), (.commit : Action LineList Unit)]).1.files.read ['a']).toOption =
      some (encode "x\ny\n".toList) := by decide +kernel

end Desk

end Packaging.Edit
