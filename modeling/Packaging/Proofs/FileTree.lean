import Mathlib.Tactic.SplitIfs
import Packaging.FileTree
import Packaging.Proofs.Success

/-!
# File trees: what replacing a file does

`replace` either fails, or puts one file at the place its path leads to and leaves every other place
alone (`replace_eq_put`). Reading that path afterwards gives the bytes that were put there
(`read_replace`): the place that `target` finds is the one that `locate` leads to once there is a
file at it.

It does not fail where there is a file (`exists_replace`), in a tree that lies in directories. A path that
leads to a file ends in its name: any other last name is looked up in a directory and stays in it or goes up
from it, and either way there is a directory. The tree still lies in directories then (`HasOutermost.replace`).
-/

namespace Packaging.FileTree

open Text

/-- What there is at a place after a node was put somewhere. -/
theorem node?_put (t : FileTree) (place p : Place) (node : Node) :
    (t.put place node).node? p = if p = place then some node else t.node? p := by
  by_cases h : p = place
  · subst h
    simp [node?, put]
  · have hb : (p == place) = false := by simpa using h
    simp [node?, put, List.lookup_cons, hb, h]

theorem enter_eq_ok_iff {t : FileTree} {p : Place} :
    t.enter p = .ok () ↔ ∃ mode, t.node? p = some (.directory mode) := by
  unfold enter
  split <;> simp_all

variable {t : FileTree} {place : Place} {bytes : List UInt8} {mode : Nat}

/-- A directory can still be entered after a file was put where no directory is. -/
theorem enter_put (hplace : ∀ m, t.node? place ≠ some (.directory m)) {p : Place}
    (h : t.enter p = .ok ()) : (t.put place (.file bytes mode)).enter p = .ok () := by
  obtain ⟨m, hm⟩ := enter_eq_ok_iff.mp h
  have hne : p ≠ place := fun e => hplace m (e ▸ hm)
  exact enter_eq_ok_iff.mpr ⟨m, by rw [node?_put, if_neg hne, hm]⟩

/-- Following a name that leads down, from a directory. -/
theorem follow_cons_down {p : Place} {name : Text} {names : List Text} (hdir : t.enter p = .ok ())
    (hstays : stays name = false) (hup : name ≠ ['.', '.']) (hlong : isTooLong name = false)
    (hnode : (t.node? (p ++ [name])).isSome) :
    t.follow p (name :: names) = t.follow (p ++ [name]) names := by
  rw [follow, hdir]
  simp [bind, Except.bind, hstays, hup, hlong, Option.isSome_iff_ne_none.mp hnode]

/-- Names that lead somewhere still lead there after a file was put where no directory is. -/
theorem follow_put (hplace : ∀ m, t.node? place ≠ some (.directory m)) {names : List Text} :
    ∀ {p q : Place}, t.follow p names = .ok q →
      (t.put place (.file bytes mode)).follow p names = .ok q := by
  induction names with
  | nil => intro p q h; exact h
  | cons name names ih =>
    intro p q h
    simp only [follow, bind_eq_ok_iff] at h ⊢
    obtain ⟨_, hp, h⟩ := h
    refine ⟨(), enter_put hplace hp, ?_⟩
    split_ifs at h ⊢ with hstays hup hlong hnone hnone'
    · exact ih h
    · exact ih h
    · -- the name was there before, and so it is there now
      rw [node?_put] at hnone
      split_ifs at hnone with he
      · simp at hnone
      · contradiction
    · exact ih h

theorem follow_append (names names' : List Text) :
    ∀ p : Place, t.follow p (names ++ names') = (t.follow p names).bind (t.follow · names') := by
  induction names with
  | nil => intro p; rfl
  | cons name names ih =>
    intro p
    rw [List.cons_append, follow, follow]
    cases t.enter p with
    | error e => rfl
    | ok _ =>
      simp only [bind, Except.bind]
      split_ifs
      · exact ih _
      · exact ih _
      · rfl
      · rfl
      · exact ih _

/-- The place where a file of a path can be put is a name in a directory, and the path leads to the
directory and then to that name. -/
theorem target_eq_ok {path : Path} (h : t.target path = .ok place) :
    ∃ start before parent last, waypoints path = .ok (start, before ++ [last]) ∧
      t.follow start before = .ok parent ∧ t.enter parent = .ok () ∧ place = parent ++ [last] ∧
      stays last = false ∧ last ≠ ['.', '.'] ∧ isTooLong last = false := by
  simp only [target, bind_eq_ok_iff, Prod.exists] at h
  obtain ⟨start, names, hw, h⟩ := h
  cases hd : names.reverse.dropWhile List.isEmpty with
  | nil => rw [hd] at h; simp at h
  | cons last before =>
    simp only [hd, bind_eq_ok_iff] at h
    obtain ⟨parent, hf, _, he, h⟩ := h
    split_ifs at h with hbusy hlong hlast
    simp only [Except.ok.injEq] at h
    simp only [Bool.or_eq_true, beq_iff_eq, not_or, Bool.not_eq_true] at hbusy
    simp only [ne_eq, Classical.not_not] at hlast
    -- the last name is not empty, so nothing was dropped behind it
    have hnames : names = before.reverse ++ [last] := by
      obtain ⟨front, rfl⟩ := List.getLast?_eq_some_iff.mp hlast
      have hne : last.isEmpty = false := (Bool.or_eq_false_iff.mp hbusy.1).1
      simp only [List.reverse_append, List.reverse_cons, List.reverse_nil, List.nil_append,
        List.singleton_append, List.dropWhile_cons, hne, Bool.false_eq_true, if_false,
        List.cons.injEq, true_and] at hd
      rw [← hd, List.reverse_reverse]
    exact ⟨start, before.reverse, parent, last, by rw [hw, hnames], hf, he, h.symm, hbusy.1,
      hbusy.2, by simpa using hlong⟩

/-- A file that was put where a path can have one is what the path leads to. -/
theorem locate_put {path : Path} (h : t.target path = .ok place)
    (hplace : ∀ m, t.node? place ≠ some (.directory m)) :
    (t.put place (.file bytes mode)).locate path = .ok place := by
  obtain ⟨start, before, parent, last, hw, hf, he, rfl, hstays, hup, hlong⟩ := target_eq_ok h
  simp only [locate, bind_eq_ok_iff, Prod.exists]
  refine ⟨start, before ++ [last], hw, ?_⟩
  rw [follow_append, follow_put hplace hf]
  exact follow_cons_down (enter_put hplace he) hstays hup hlong (by rw [node?_put]; simp)

/-- Replacing a file puts one file with the new bytes at the place of its path, where no directory
was, and changes nothing else. -/
theorem replace_eq_put {t' : FileTree} {path : Path} (h : t.replace path bytes = .ok t') :
    ∃ place mode, t.target path = .ok place ∧ (∀ m, t.node? place ≠ some (.directory m)) ∧
      (∀ old m, t.node? place = some (.file old m) → mode = m) ∧
      t' = t.put place (.file bytes mode) := by
  simp only [replace, bind_eq_ok_iff, putFile] at h
  obtain ⟨place, ht, h⟩ := h
  split at h
  · simp at h
  · rename_i old m hn
    simp only [Except.ok.injEq] at h
    exact ⟨place, m, ht, by simp [hn], fun o m' ho => by simp_all, h.symm⟩
  · rename_i hn
    simp only [Except.ok.injEq] at h
    exact ⟨place, replacementMode, ht, by simp [hn], by simp [hn], h.symm⟩

/-- **A replaced file reads back** as the bytes that were put in its place. -/
theorem read_replace {t' : FileTree} {path : Path} (h : t.replace path bytes = .ok t') :
    t'.read path = .ok bytes := by
  obtain ⟨place, mode, ht, hplace, -, rfl⟩ := replace_eq_put h
  simp only [read, get, locate_put ht hplace, bind, Except.bind, node?_put, if_true]
  rfl

/-! ### Where there is a file -/

/-- The tree lies in directories, and its root is one. -/
def HasOutermost (t : FileTree) : Prop := ∀ p : Place, p.isOutermost = true → t.enter p = .ok ()

theorem hasOutermost_empty : HasOutermost {} := by
  intro p hp
  simp [enter, node?, hp]

theorem HasOutermost.put (ht : t.HasOutermost) (hplace : ∀ m, t.node? place ≠ some (.directory m)) :
    (t.put place (.file bytes mode)).HasOutermost := fun p hp => enter_put hplace (ht p hp)

/-- Replacing a file puts none in the place of a directory. -/
theorem HasOutermost.replace {t' : FileTree} {path : Path} (ht : t.HasOutermost)
    (h : t.replace path bytes = .ok t') : t'.HasOutermost := by
  obtain ⟨place, mode, -, hplace, -, rfl⟩ := replace_eq_put h
  exact ht.put hplace

/-- A place to which names lead down from outside of the tree, through directories. -/
inductive Rooted (t : FileTree) : Place → Prop
  | outermost {p : Place} (h : p.isOutermost = true) : Rooted t p
  | down {p : Place} {name : Text} (h : Rooted t p) (hdir : t.enter p = .ok ())
      (hstays : stays name = false) (hup : name ≠ ['.', '.']) : Rooted t (p ++ [name])

theorem isOutermost_up {p : Place} (h : p.isOutermost = true) : p.up.isOutermost = true := by
  unfold Place.up
  split
  · rfl
  · rename_i htop
    have hall : p.all (· == ['.', '.']) = true := by
      rw [Place.isOutermost, Bool.or_eq_true] at h
      exact h.resolve_left htop
    rw [Place.isOutermost, List.all_append, hall]
    simp

theorem up_append {p : Place} {name : Text} (hstays : stays name = false) (hup : name ≠ ['.', '.']) :
    Place.up (p ++ [name]) = p := by
  have htop : (p ++ [name] == Place.top) = false := by
    rw [beq_eq_false_iff_ne]
    intro heq
    have hnil : p ++ [name] = [] ++ [[]] := heq
    rw [List.singleton_inj.mp (List.append_inj' hnil rfl).2] at hstays
    cases hstays
  have hinside : Place.isOutermost (p ++ [name]) = false := by
    rw [Place.isOutermost, htop]
    simp [hup]
  rw [Place.up, htop, hinside]
  simp

/-- Up from such a place there is a directory. -/
theorem Rooted.up (ht : t.HasOutermost) {p : Place} (h : t.Rooted p) :
    t.Rooted p.up ∧ t.enter p.up = .ok () := by
  cases h with
  | outermost h => exact ⟨.outermost (isOutermost_up h), ht _ (isOutermost_up h)⟩
  | down h hdir hstays hup =>
    rw [up_append hstays hup]
    exact ⟨h, hdir⟩

/-- Names lead from one such place to another. -/
theorem Rooted.follow (ht : t.HasOutermost) {names : List Text} :
    ∀ {p q : Place}, t.Rooted p → t.follow p names = .ok q → t.Rooted q := by
  induction names with
  | nil =>
    intro p q hp h
    cases h
    exact hp
  | cons name names ih =>
    intro p q hp h
    simp only [FileTree.follow, bind_eq_ok_iff] at h
    obtain ⟨_, hdir, h⟩ := h
    split_ifs at h with hstays hup hlong hnone
    · exact ih hp h
    · exact ih (hp.up ht).1 h
    · exact ih (.down hp hdir (Bool.eq_false_iff.mpr hstays) (by simpa using hup)) h

/-- The last name of a path to a file is the name of the file, in a directory. -/
theorem exists_parent_of_follow (ht : t.HasOutermost) {start : Place} {names : List Text} {last : Text}
    (hstart : t.Rooted start) (h : t.follow start (names ++ [last]) = .ok place)
    (hfile : t.node? place = some (.file bytes mode)) :
    ∃ parent, t.follow start names = .ok parent ∧ t.enter parent = .ok () ∧ stays last = false ∧
      last ≠ ['.', '.'] ∧ isTooLong last = false ∧ place = parent ++ [last] := by
  have hnodir : t.enter place ≠ .ok () := by
    intro hdir
    obtain ⟨m, hm⟩ := enter_eq_ok_iff.mp hdir
    rw [hfile] at hm
    cases hm
  rw [follow_append] at h
  obtain ⟨parent, hparent, hlast⟩ := bind_eq_ok_iff.mp h
  simp only [FileTree.follow, bind_eq_ok_iff] at hlast
  obtain ⟨_, hdir, hlast⟩ := hlast
  split_ifs at hlast with hstays hup hlong hnone
  · cases hlast
    exact absurd hdir hnodir
  · cases hlast
    exact absurd ((hstart.follow ht hparent).up ht).2 hnodir
  · cases hlast
    exact ⟨parent, hparent, hdir, Bool.eq_false_iff.mpr hstays, by simpa using hup,
      Bool.eq_false_iff.mpr hlong, rfl⟩

theorem read_eq_ok {path : Path} (h : t.read path = .ok bytes) :
    ∃ place mode, t.locate path = .ok place ∧ t.node? place = some (.file bytes mode) := by
  simp only [read, get, bind_eq_ok_iff] at h
  obtain ⟨node, ⟨place, hplace, hnode⟩, h⟩ := h
  split at hnode
  · rename_i found hfound
    rw [pure_eq_ok_iff] at hnode
    subst hnode
    split at h
    · rename_i bytes' mode
      rw [pure_eq_ok_iff] at h
      exact ⟨place, mode, hplace, h ▸ hfound⟩
    · cases h
  · cases hnode

theorem rooted_of_waypoints {path : Path} {start : Place} {names : List Text}
    (h : waypoints path = .ok (start, names)) : t.Rooted start ∧ names ≠ [] := by
  unfold waypoints at h
  split_ifs at h
  all_goals
    obtain ⟨rfl, rfl⟩ := Prod.mk.inj (Except.ok.inj h)
    exact ⟨.outermost rfl, List.splitOn_ne_nil _ _⟩

/-- **A file can be replaced**: the directory of a file that can be read is there. -/
theorem exists_replace (ht : t.HasOutermost) {path : Path} {old : List UInt8}
    (h : t.read path = .ok old) (bytes : List UInt8) : ∃ t', t.replace path bytes = .ok t' := by
  obtain ⟨place, mode, hlocate, hfile⟩ := read_eq_ok h
  simp only [locate, bind_eq_ok_iff, Prod.exists] at hlocate
  obtain ⟨start, names, hways, hfollow⟩ := hlocate
  obtain ⟨hstart, hne⟩ := rooted_of_waypoints hways
  obtain ⟨front, last, rfl⟩ : ∃ front last, names = front ++ [last] :=
    ⟨_, _, (List.dropLast_concat_getLast hne).symm⟩
  obtain ⟨parent, hparent, hdir, hstays, hup, hlong, rfl⟩ :=
    exists_parent_of_follow ht hstart hfollow hfile
  have htarget : t.target path = .ok (parent ++ [last]) := by
    have hlast : last.isEmpty = false := (Bool.or_eq_false_iff.mp hstays).1
    have hnames : (front ++ [last]).reverse.dropWhile List.isEmpty = last :: front.reverse := by
      simp [hlast]
    simp only [target, bind_eq_ok_iff, Prod.exists]
    refine ⟨start, front ++ [last], hways, ?_⟩
    rw [hnames]
    simp only [List.reverse_reverse, hparent, hdir, bind, Except.bind]
    simp [hstays, hup, hlong]
  refine ⟨t.put (parent ++ [last]) (.file bytes mode), ?_⟩
  simp only [replace, bind_eq_ok_iff]
  exact ⟨_, htarget, by rw [putFile, hfile]⟩

end Packaging.FileTree
