import Mathlib.Data.List.Induction
import Mathlib.Data.List.Nodup
import Packaging.Proofs.Text.Split
import Packaging.WatchFile.Parser

/-!
# Options as a map that keeps its order

Options are set and taken away by name, and the first option with a name is the one that counts. A name may
be there more than once, since options are read as they are written. Then taking the first option with the
name away lets the next one count.

## What is proved

* `exists_first` — the first option with a name, which is the one that is read, set and taken away.
* `setsOnly_set`, `keepsOthers_erase` — what setting and taking away an option do, and what they leave.
* `contains_erase_iff` — the name is gone exactly if it was not there twice.
* `nodup_run`, `get?_run` — what holds after any number of edits, if no name was there twice before.
* `isMap_run_iff` — so options are edited as a map that keeps its order exactly if no name is there twice.
-/

namespace Packaging.WatchFile.Options

open Text

variable {options before after : Options} {name other new o : Text}

/-- The names of the options, in order. -/
def names (options : Options) : List Text := options.map nameOf

/-- The options with other names. -/
def others (options : Options) (name : Text) : Options := options.filter (nameOf · != name)

/-! ### Names and values -/

theorem equals_not_mem_nameOf (o : Text) : '=' ∉ nameOf o := by
  unfold nameOf
  split
  · rename_i name value hcut
    exact (cut?_eq_some_iff.mp hcut).1
  · rename_i hcut
    exact cut?_eq_none_iff.mp hcut

/-- What is made of a name and a value is read as this name and value. -/
theorem nameOf_make (h : '=' ∉ name) (value : Option Text) :
    nameOf (make name value) = name ∧ valueOf (make name value) = value.getD [] := by
  cases value with
  | some value =>
    have hcut : cut? '=' (name ++ '=' :: value) = some (name, value) := cut?_eq_some_iff.mpr ⟨h, rfl⟩
    rw [make, nameOf, valueOf, hcut]
    exact ⟨rfl, rfl⟩
  | none =>
    rw [make, nameOf, valueOf, cut?_eq_none_iff.mpr h]
    exact ⟨rfl, rfl⟩

/-! ### The first option with a name -/

theorem contains_iff : options.contains name = true ↔ name ∈ options.names := by
  rw [contains, List.any_eq_true, names, List.mem_map]
  simp

theorem contains_eq_false_iff : options.contains name = false ↔ name ∉ options.names := by
  rw [← contains_iff, Bool.not_eq_true]

theorem miss_of_not_mem (h : name ∉ options.names) : ∀ p ∈ options, ¬ (nameOf p == name) = true := by
  intro p hp heq
  exact h (List.mem_map.mpr ⟨p, hp, by simpa using heq⟩)

theorem exists_first (h : name ∈ options.names) :
    ∃ before o after, options = before ++ o :: after ∧ nameOf o = name ∧ name ∉ names before := by
  induction options with
  | nil => cases h
  | cons p options ih =>
    by_cases hp : nameOf p = name
    · exact ⟨[], p, options, rfl, hp, List.not_mem_nil⟩
    · obtain ⟨before, o, after, rfl, ho, hbefore⟩ := ih ((List.mem_cons.mp h).resolve_left (Ne.symm hp))
      exact ⟨p :: before, o, after, rfl, ho, List.not_mem_cons_of_ne_of_not_mem (Ne.symm hp) hbefore⟩

section

variable (ho : nameOf o = name) (hbefore : name ∉ names before)
include ho hbefore

theorem put_first (new : Text) (after : Options) :
    put name new (before ++ o :: after) = before ++ new :: after := by
  induction before with
  | nil => exact if_pos ho
  | cons p before ih =>
    obtain ⟨hp, hbefore⟩ := List.ne_and_not_mem_of_not_mem_cons hbefore
    rw [List.cons_append, put, if_neg (Ne.symm hp), ih hbefore]
    rfl

theorem erase_first (after : Options) : erase (before ++ o :: after) name = before ++ after := by
  rw [erase, List.eraseP_append_right _ (miss_of_not_mem hbefore), List.eraseP_cons_of_pos (by simpa using ho)]

theorem get?_first (after : Options) : get? (before ++ o :: after) name = some (valueOf o) := by
  have hmiss : before.find? (nameOf · == name) = none := List.find?_eq_none.mpr (miss_of_not_mem hbefore)
  rw [get?, List.find?_append, hmiss, Option.none_or, List.find?_cons_of_pos (by simpa using ho)]
  rfl

end

theorem put_of_not_mem (h : name ∉ options.names) (new : Text) : put name new options = options ++ [new] := by
  induction options with
  | nil => rfl
  | cons p options ih =>
    obtain ⟨hp, hoptions⟩ := List.ne_and_not_mem_of_not_mem_cons h
    rw [put, if_neg (Ne.symm hp), ih hoptions]
    rfl

theorem erase_of_not_mem (h : name ∉ options.names) : erase options name = options :=
  List.eraseP_of_forall_not (miss_of_not_mem h)

/-- Whether there was an option with the name is what is noted. -/
theorem eraseNoting_eq (options : Options) (name : Text) :
    options.eraseNoting name = (options.erase name, options.contains name) := by
  have hcontains : options.contains name = (options.findIdx? (nameOf · == name)).isSome := by
    rw [contains, List.findIdx?_isSome]
  rw [eraseNoting, erase, List.eraseP_eq_eraseIdx, hcontains]
  cases options.findIdx? (nameOf · == name) <;> rfl

/-! ### Options with other names -/

theorem others_append (options more : Options) (name : Text) :
    others (options ++ more) name = others options name ++ others more name := List.filter_append _ _

theorem others_cons_of_eq (h : nameOf o = name) (options : Options) :
    others (o :: options) name = others options name := List.filter_cons_of_neg (by simp [h])

/-- What is known of another name does not depend on the options with this one. -/
theorem get?_others (h : other ≠ name) (options : Options) :
    (others options name).get? other = options.get? other := by
  rw [get?, get?, others, List.find?_filter]
  congr 2
  funext o
  by_cases ho : nameOf o = other
  · simp [ho, h]
  · simp [ho]

theorem isSome_get? (options : Options) (name : Text) : (options.get? name).isSome = options.contains name := by
  rw [get?, Option.isSome_map, contains, List.isSome_find?]

/-- Options with other names are there as before: in the same order, and with the same values. -/
structure KeepsOthers (name : Text) (options options' : Options) : Prop where
  order : options'.others name = options.others name
  value : ∀ other, other ≠ name → options'.get? other = options.get? other
  presence : ∀ other, other ≠ name → options'.contains other = options.contains other

theorem keepsOthers_of_others {options' : Options} (h : options'.others name = options.others name) :
    KeepsOthers name options options' := by
  have hvalue : ∀ other, other ≠ name → options'.get? other = options.get? other := by
    intro other hother
    rw [← get?_others hother options', h, get?_others hother]
  refine ⟨h, hvalue, fun other hother => ?_⟩
  rw [← isSome_get?, ← isSome_get?, hvalue other hother]

/-- After an option is set it has its value, and its place if there was one with its name; the others are
kept. -/
structure SetsOnly (name : Text) (value : Option Text) (options options' : Options) : Prop where
  reads : options'.get? name = some (value.getD [])
  place : name ∈ options.names → options'.names = options.names
  behind : name ∉ options.names → options' = options ++ [make name value]
  others : KeepsOthers name options options'

theorem setsOnly_set (hname : '=' ∉ name) (value : Option Text) (options : Options) :
    SetsOnly name value options (options.set name value) := by
  obtain ⟨hmake, hvalue⟩ := nameOf_make hname value
  rw [set]
  by_cases hmem : name ∈ options.names
  · obtain ⟨before, o, after, rfl, ho, hbefore⟩ := exists_first hmem
    rw [put_first ho hbefore]
    refine ⟨by rw [get?_first hmake hbefore, hvalue], fun _ => ?_, fun h => absurd hmem h,
      keepsOthers_of_others ?_⟩
    · simp [names, ho, hmake]
    · rw [others_append, others_append, others_cons_of_eq hmake, others_cons_of_eq ho]
  · rw [put_of_not_mem hmem]
    refine ⟨by rw [get?_first hmake hmem, hvalue], fun h => absurd h hmem, fun _ => rfl,
      keepsOthers_of_others ?_⟩
    rw [others_append, others_cons_of_eq hmake]
    exact List.append_nil _

theorem keepsOthers_erase (options : Options) (name : Text) : KeepsOthers name options (options.erase name) := by
  refine keepsOthers_of_others ?_
  by_cases hmem : name ∈ options.names
  · obtain ⟨before, o, after, rfl, ho, hbefore⟩ := exists_first hmem
    rw [erase_first ho hbefore, others_append, others_append, others_cons_of_eq ho]
  · rw [erase_of_not_mem hmem]

/-- One option with the name is taken away. -/
theorem count_names_erase (options : Options) (name : Text) :
    (options.erase name).names.count name = options.names.count name - 1 := by
  by_cases hmem : name ∈ options.names
  · obtain ⟨before, o, after, rfl, ho, hbefore⟩ := exists_first hmem
    rw [erase_first ho hbefore]
    simp [names, ho]
  · rw [erase_of_not_mem hmem, List.count_eq_zero.mpr hmem]

theorem contains_erase_iff : (options.erase name).contains name = false ↔ options.names.count name ≤ 1 := by
  rw [contains_eq_false_iff, ← List.count_eq_zero, count_names_erase]
  omega

/-! ### Any number of edits -/

/-- An edit of the option with a name. -/
inductive Edit where
  | set (name : Text) (value : Option Text)
  | erase (name : Text)

namespace Edit

/-- The name of the option. -/
def optionName : Edit → Text
  | set name _ => name
  | erase name => name

/-- The options after the edit. -/
def apply (options : Options) : Edit → Options
  | set name value => options.set name value
  | erase name => (options.eraseNoting name).1

/-- The value that the option has then, if it is the only one with its name. -/
def outcome : Edit → Option Text
  | set _ value => some (value.getD [])
  | erase _ => none

end Edit

/-- The options after some edits. -/
def run (options : Options) (edits : List Edit) : Options := edits.foldl Edit.apply options

/-- The names in the edits are names of options. -/
def AreNames (edits : List Edit) : Prop := ∀ e ∈ edits, '=' ∉ e.optionName

theorem nodup_apply (h : options.names.Nodup) {e : Edit} (he : '=' ∉ e.optionName) :
    (e.apply options).names.Nodup := by
  cases e with
  | set name value =>
    have hname : '=' ∉ name := he
    have hset : SetsOnly name value options (options.set name value) := setsOnly_set hname value options
    rw [Edit.apply]
    by_cases hmem : name ∈ options.names
    · rwa [hset.place hmem]
    · have hnames : (options.set name value).names = options.names ++ [name] := by
        rw [hset.behind hmem, names, List.map_append, List.map_singleton, (nameOf_make hname value).1]
        rfl
      rw [hnames]
      refine List.nodup_append.mpr ⟨h, List.nodup_singleton name, fun a ha b hb heq => hmem ?_⟩
      rwa [← List.mem_singleton.mp hb, ← heq]
  | erase name =>
    rw [Edit.apply, eraseNoting_eq]
    exact h.sublist (List.eraseP_sublist.map nameOf)

/-- Names stay different. -/
theorem nodup_run (h : options.names.Nodup) {edits : List Edit} (hedits : AreNames edits) :
    (run options edits).names.Nodup := by
  induction edits generalizing options with
  | nil => exact h
  | cons e edits ih =>
    obtain ⟨he, hedits⟩ := List.forall_mem_cons.mp hedits
    exact ih (nodup_apply h he) hedits

/-- An edit decides on the option with its name, and on no other. -/
theorem get?_apply (h : options.names.Nodup) {e : Edit} (he : '=' ∉ e.optionName) (name : Text) :
    (e.apply options).get? name = if e.optionName = name then e.outcome else options.get? name := by
  cases e with
  | set n value =>
    have hset := setsOnly_set he value options
    rw [Edit.apply, Edit.optionName]
    split
    · rename_i heq
      exact heq ▸ hset.reads
    · rename_i hne
      exact hset.others.value name (Ne.symm hne)
  | erase n =>
    rw [Edit.apply, Edit.optionName, eraseNoting_eq]
    split
    · rename_i heq
      subst heq
      have hgone : (options.erase n).contains n = false :=
        contains_erase_iff.mpr (List.nodup_iff_count_le_one.mp h n)
      rwa [← isSome_get?, Option.isSome_eq_false_iff, Option.isNone_iff_eq_none] at hgone
    · rename_i hne
      exact (keepsOthers_erase options n).value name (Ne.symm hne)

/-- The last edit of an option decides. -/
theorem get?_run (h : options.names.Nodup) {edits : List Edit} (hedits : AreNames edits) (name : Text) :
    (run options edits).get? name =
      ((edits.reverse.find? (·.optionName = name)).map Edit.outcome).getD (options.get? name) := by
  induction edits using List.reverseRecOn with
  | nil => rfl
  | append_singleton edits e ih =>
    obtain ⟨hbefore, he⟩ := List.forall_mem_append.mp hedits
    have hrun : run options (edits ++ [e]) = e.apply (run options edits) := by
      rw [run, List.foldl_append]
      rfl
    rw [hrun, get?_apply (nodup_run h hbefore) (he e (List.mem_singleton_self e)), ih hbefore,
      List.reverse_append, List.reverse_singleton, List.singleton_append, List.find?_cons]
    by_cases hname : e.optionName = name
    · rw [if_pos hname, decide_eq_true hname]
      rfl
    · rw [if_neg hname, decide_eq_false hname]

/-! ### The map -/

/-- What holds of an edit of the option with a name, except that its name may still be there when it is taken
away. -/
structure EditsOnly (name : Text) (options : Options) : Prop where
  set : ∀ value, SetsOnly name value options (options.set name value)
  noted : (options.eraseNoting name).2 = options.contains name
  erase : KeepsOthers name options (options.eraseNoting name).1
  gone : (options.eraseNoting name).1.contains name = false ↔ options.names.count name ≤ 1

theorem editsOnly (hname : '=' ∉ name) (options : Options) : EditsOnly name options := by
  refine ⟨fun value => setsOnly_set hname value options, ?_, ?_, ?_⟩
  · rw [eraseNoting_eq]
  · rw [eraseNoting_eq]
    exact keepsOthers_erase options name
  · rw [eraseNoting_eq]
    exact contains_erase_iff

/-- **Options as a map that keeps its order.** Whatever the options and the edits of them, an option that is
set has its value then, at its place or behind the others; one that is taken away is noted if it was there;
and options with other names are kept, in order. The name of an option that is taken away is gone exactly if
it was there at most once, so it is gone after all edits exactly if all names are different to begin with.
Then what is read of an option is what the last edit of it says. -/
theorem isMap_run_iff (options : Options) :
    (∀ edits name, '=' ∉ name → EditsOnly name (run options edits)) ∧
    ((∀ edits, AreNames edits → ∀ name, '=' ∉ name →
        ((run options edits).eraseNoting name).1.contains name = false) ↔ options.names.Nodup) ∧
    (options.names.Nodup → ∀ edits, AreNames edits → ∀ name,
      (run options edits).get? name =
        ((edits.reverse.find? (·.optionName = name)).map Edit.outcome).getD (options.get? name)) := by
  refine ⟨fun edits name hname => editsOnly hname _, ⟨fun h => ?_, fun h edits hedits name hname => ?_⟩,
    fun h edits hedits name => get?_run h hedits name⟩
  · refine List.nodup_iff_count_le_one.mpr fun name => ?_
    by_cases hmem : name ∈ options.names
    · obtain ⟨o, -, rfl⟩ := List.mem_map.mp hmem
      have hname := equals_not_mem_nameOf o
      exact (editsOnly hname options).gone.mp (h [] nofun (nameOf o) hname)
    · rw [List.count_eq_zero.mpr hmem]
      exact Nat.zero_le 1
  · exact (editsOnly hname _).gone.mpr (List.nodup_iff_count_le_one.mp (nodup_run h hedits) name)

/-- Options with different names: with a value, a name alone, and a value with a `=` in it. -/
def modeOptions : Options := ["pgpmode=auto".toList, "decompress".toList, "repack=a=b".toList]

/-- An option is taken away and set again, which puts it behind the others, and one is set where it is. -/
def modeEdits : List Edit :=
  [.erase "pgpmode".toList, .set "repack".toList none, .set "pgpmode".toList (some "none".toList)]

theorem isMap_run_iff_modeOptions :
    modeOptions.names.Nodup ∧ AreNames modeEdits ∧ '=' ∉ "decompress".toList ∧
      EditsOnly "decompress".toList (run modeOptions modeEdits) ∧
      ((run modeOptions modeEdits).eraseNoting "decompress".toList).1.contains "decompress".toList = false ∧
      run modeOptions modeEdits = ["decompress", "repack", "pgpmode=none"].map String.toList ∧
      (run modeOptions modeEdits).get? "pgpmode".toList = some "none".toList := by
  have hnodup : modeOptions.names.Nodup := by decide +kernel
  have hedits : AreNames modeEdits := by unfold AreNames; decide +kernel
  have hname : '=' ∉ "decompress".toList := by decide
  obtain ⟨hall, hgone, hlast⟩ := isMap_run_iff modeOptions
  exact ⟨hnodup, hedits, hname, hall modeEdits _ hname, hgone.mpr hnodup modeEdits hedits _ hname,
    by decide +kernel, (hlast hnodup modeEdits hedits _).trans (by decide +kernel)⟩

/-- A watch file with two options of one name. -/
def repeatedText : Text := "version=4\nopts=a=1,a=2 https://example.com/ foo\n".toList

/-- The entry that is read from it. -/
def repeatedEntry : Entry where
  url := "https://example.com/".toList
  pattern := "foo".toList
  options := ["a=1".toList, "a=2".toList]

/-- The first of the two options is taken away, and the name is still there. -/
theorem not_gone_repeated :
    parse repeatedText = .ok (some { entries := [repeatedEntry] }) ∧ '=' ∉ "a".toList ∧
      repeatedEntry.options.eraseNoting "a".toList = (["a=2".toList], true) ∧
      (repeatedEntry.options.eraseNoting "a".toList).1.contains "a".toList = true := by
  exact ⟨by decide +kernel, by decide, by decide +kernel, by decide +kernel⟩

end Packaging.WatchFile.Options
