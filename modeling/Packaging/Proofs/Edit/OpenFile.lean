import Packaging.Edit.OpenFile
import Packaging.Proofs.FileTree

/-!
# Open files: what opening and committing come to

An open file is `ReadFrom` the files it was opened from: either there was nothing, or the bytes at its
path were read as a value and that value was rehearsed. A commit of a value whose text `MayWrite` is
an `attempt` to put the text in place; a commit of any other value refrains, and then the files stay
as they are. The attempt succeeds where there is a file (`OpenFile.commit_writes`), in a tree that lies in
directories, as it still does after the commit (`OpenFile.hasOutermost_commit`).
-/

namespace Packaging.Edit

open Text

variable {M : Type}

/-! ### Opening -/

theorem renderAt_eq_ok_iff {format : Format M} {path : Path} {model : M} {t : Text} :
    renderAt format path model = .ok t ↔ format.render model = .ok t := mapError_eq_ok_iff

/-- What a reading and a value have to do with the file that they were read from. -/
inductive ReadFrom (format : Format M) (files : FileTree) (path : Path) : Option Reading → M → Prop
  /-- There is no file, and nothing was read. -/
  | absent : files.read path = .error .notFound → ReadFrom format files path none format.blank
  /-- The bytes of the file were read as a value, and writing it was rehearsed. -/
  | present {bytes : List UInt8} {r : Reading} {model : M} : files.read path = .ok bytes →
      decode bytes = .ok r.text → format.parse r.text = .ok model →
      format.render model = .ok r.rehearsal → ReadFrom format files path (some r) model

theorem readModel_eq_ok {format : Format M} {path : Path} {bytes : List UInt8} {r : Reading}
    {model : M} (h : readModel format path bytes = .ok (r, model)) :
    decode bytes = .ok r.text ∧ format.parse r.text = .ok model ∧
      format.render model = .ok r.rehearsal := by
  simp only [readModel, bind_eq_ok_iff, mapError_eq_ok_iff, pure_eq_ok_iff, renderAt_eq_ok_iff,
    Prod.mk.injEq] at h
  obtain ⟨_, hd, _, hp, _, hr, rfl, rfl⟩ := h
  exact ⟨hd, hp, hr⟩

theorem openFile_eq_ok {format : Format M} {files : FileTree} {path : Path} {options : Options}
    {file : OpenFile M} (h : openFile format files path options = .ok file) :
    file.path = path ∧ file.options = options ∧
      ReadFrom format files path file.reading file.model := by
  have h := of_checked_eq_ok h
  split at h
  · rename_i hread
    split at h
    · rw [pure_eq_ok_iff] at h
      subst h
      exact ⟨rfl, rfl, .absent hread⟩
    · exact absurd h not_throw_eq_ok
  · exact absurd h not_throw_eq_ok
  · rename_i bytes hread
    simp only [bind_eq_ok_iff, pure_eq_ok_iff] at h
    obtain ⟨⟨r, model⟩, hm, rfl⟩ := h
    obtain ⟨hd, hp, hr⟩ := readModel_eq_ok hm
    exact ⟨rfl, rfl, .present hread hd hp hr⟩

/-! ### Committing -/

namespace OpenFile

variable {format : Format M} {files : FileTree} {file : OpenFile M} {updated : Text}

/-- A commit may write this text: it is new, and no formatting is lost that may not be. An absent file
counts as empty. -/
def MayWrite (file : OpenFile M) (updated : Text) : Prop :=
  match file.reading with
  | some r => updated ≠ r.text ∧ updated ≠ r.rehearsal ∧
      (r.rehearsal = r.text ∨ file.options.allowReformatting = true)
  | none => updated ≠ []

/-- What is reported, and the files that there are, after a try to put a text in the place of a
file. -/
def attempt (files : FileTree) (file : OpenFile M) (updated : Text) :
    Except Failure Bool × FileTree :=
  match files.replace file.path (encode updated) with
  | .ok files' => (.ok true, files')
  | .error e => (.error (.io e), files)

/-- What is reported when nothing is to be written, or must not be. -/
def IsRefrained (file : OpenFile M) (result : Except Failure Bool) : Prop :=
  result = .ok false ∨ ∃ before after, result = .error (.unpreservable file.path before after)

theorem commit_of_unwritable {e : Text} (h : format.render file.model = .error e) :
    (file.commit format files).result = .error (.unwritable file.path e) ∧
      (file.commit format files).files = files := by
  have hr : renderAt format file.path file.model = .error (.unwritable file.path e) := by
    rw [renderAt, h]; rfl
  simp [commit, hr]

theorem write_eq_attempt :
    ((write files file updated).result, (write files file updated).files) =
      file.attempt files updated := by
  unfold write attempt
  cases files.replace file.path (encode updated) <;> rfl

theorem commit_of_mayWrite (files : FileTree) (h : format.render file.model = .ok updated)
    (hw : file.MayWrite updated) :
    ((file.commit format files).result, (file.commit format files).files) =
      file.attempt files updated := by
  rw [← write_eq_attempt]
  unfold commit
  rw [renderAt_eq_ok_iff.mpr h]
  unfold MayWrite at hw
  unfold isUnchanged
  cases hread : file.reading with
  | none =>
    rw [hread] at hw
    simp [hw]
  | some r =>
    rw [hread] at hw
    obtain ⟨htext, hrehearsal, hkeep⟩ := hw
    have hloss : ¬(¬r.text = r.rehearsal ∧ file.options.allowReformatting = false) := by
      rintro ⟨hne, hallow⟩
      rcases hkeep with hkeep | hkeep
      · exact hne hkeep.symm
      · simp [hkeep] at hallow
    simp [htext, hrehearsal, hloss]

theorem commit_of_not_mayWrite (files : FileTree) (h : format.render file.model = .ok updated)
    (hw : ¬file.MayWrite updated) :
    file.IsRefrained (file.commit format files).result ∧
      (file.commit format files).files = files := by
  unfold commit
  rw [renderAt_eq_ok_iff.mpr h]
  unfold MayWrite at hw
  unfold isUnchanged IsRefrained
  cases hread : file.reading with
  | none =>
    rw [hread] at hw
    simp [Classical.not_not.mp hw]
  | some r =>
    rw [hread] at hw
    by_cases hsame : updated = r.text ∨ updated = r.rehearsal
    · simp [hsame]
    · have hloss : r.text ≠ r.rehearsal ∧ file.options.allowReformatting = false := by
        refine ⟨fun hk => hw ?_, Bool.eq_false_iff.mpr fun hk => hw ?_⟩
        · exact ⟨fun e => hsame (.inl e), fun e => hsame (.inr e), .inl hk.symm⟩
        · exact ⟨fun e => hsame (.inl e), fun e => hsame (.inr e), .inr hk⟩
      simp [hsame, hloss]

theorem commit_of_isUnchanged (files : FileTree) (h : format.render file.model = .ok updated)
    (hsame : file.isUnchanged updated = true) :
    (file.commit format files).result = .ok false ∧ (file.commit format files).files = files := by
  rw [commit, renderAt_eq_ok_iff.mpr h]
  simp [hsame]

/-- A commit that reports that it wrote has replaced the file by the text of the value, and it was
one that may be written. -/
theorem commit_eq_ok_true (h : (file.commit format files).result = .ok true) :
    ∃ updated, format.render file.model = .ok updated ∧ file.MayWrite updated ∧
      files.replace file.path (encode updated) = .ok (file.commit format files).files := by
  cases hr : format.render file.model with
  | error e =>
    rw [(commit_of_unwritable hr).1] at h
    simp at h
  | ok updated =>
    by_cases hw : file.MayWrite updated
    · refine ⟨updated, rfl, hw, ?_⟩
      have hc := commit_of_mayWrite files hr hw
      unfold attempt at hc
      split at hc
      · rename_i files' hrep
        rw [(Prod.mk.inj hc).2, hrep]
      · rw [h] at hc
        simp at hc
    · rcases (commit_of_not_mayWrite files hr hw).1 with hc | ⟨_, _, hc⟩ <;>
        rw [h] at hc <;> simp at hc

/-- Any other commit changes nothing. -/
theorem commit_files_of_ne (h : (file.commit format files).result ≠ .ok true) :
    (file.commit format files).files = files := by
  cases hr : format.render file.model with
  | error e => exact (commit_of_unwritable hr).2
  | ok updated =>
    by_cases hw : file.MayWrite updated
    · have hc := commit_of_mayWrite files hr hw
      unfold attempt at hc
      split at hc
      · exact absurd (Prod.mk.inj hc).1 h
      · exact (Prod.mk.inj hc).2
    · exact (commit_of_not_mayWrite files hr hw).2

/-- A commit leaves the tree in its directories. -/
theorem hasOutermost_commit (hfiles : files.HasOutermost) : (file.commit format files).files.HasOutermost := by
  by_cases h : (file.commit format files).result = .ok true
  · obtain ⟨updated, -, -, hreplace⟩ := commit_eq_ok_true h
    exact hfiles.replace hreplace
  · rwa [commit_files_of_ne h]

/-- **What may be written is written** in the place of a file that is there. -/
theorem commit_writes (hfiles : files.HasOutermost) {bytes : List UInt8}
    (hbytes : files.read file.path = .ok bytes) (h : format.render file.model = .ok updated)
    (hw : file.MayWrite updated) :
    (file.commit format files).result = .ok true ∧
      (file.commit format files).files.read file.path = .ok (encode updated) := by
  obtain ⟨files', hfiles'⟩ := files.exists_replace hfiles hbytes (encode updated)
  have hcommit := commit_of_mayWrite files h hw
  rw [attempt, hfiles', Prod.mk.injEq] at hcommit
  exact ⟨hcommit.1, hcommit.2 ▸ FileTree.read_replace hfiles'⟩

end OpenFile

end Packaging.Edit
