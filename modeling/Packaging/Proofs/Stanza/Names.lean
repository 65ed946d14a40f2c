import Mathlib.Data.List.Nodup
import Packaging.Proofs.Stanza.Readable

/-!
# The names of a paragraph

Fields are found by name, and the first one counts. Where all names are different there is nothing
that the others could be hidden behind, and a paragraph is a map from names to values that keeps its
order.

## What is proved

* `names_set`, `mem_set_iff`, `names_erase` — what setting a field or taking it away does to the names
  and to the fields.
* `nodup_erase`, `nodup_rename_iff` — taking a field away keeps names apart, and renaming one does
  exactly if the new name is its own or not taken.
* `get?_of_mem`, `fields_set`, `fields_erase` — where names are apart, each operation finds the only
  field of its name.
* `get?_set_of_ne`, `get?_erase_of_ne` — other names keep their values, apart or not.
-/

namespace Packaging.Stanza.Paragraph

open Text

variable {p q : Paragraph} {name value : Text}

/-! ### Changing the first field of a name -/

/-- There is a first field of every name, and changing it leaves the others alone. -/
theorem exists_updateFirst {fs : List Field} (h : name ∈ fs.map Field.name) :
    ∃ before f after, fs = before ++ f :: after ∧ f.name = name ∧
      ∀ change, updateFirst name change fs = before ++ change f :: after := by
  induction fs with
  | nil => simp at h
  | cons g fs ih =>
    by_cases hg : g.name = name
    · exact ⟨[], g, fs, rfl, hg, fun change => by simp [updateFirst, hg]⟩
    · have hrest : name ∈ fs.map Field.name := by
        rw [List.map_cons, List.mem_cons] at h
        exact h.resolve_left (Ne.symm hg)
      obtain ⟨before, f, after, rfl, hf, hupdate⟩ := ih hrest
      exact ⟨g :: before, f, after, rfl, hf, fun change => by simp [updateFirst, hg, hupdate]⟩

/-- Where names are apart the first field of a name is the only one. -/
theorem updateFirst_eq_map {change : Field → Field} {fs : List Field}
    (h : (fs.map Field.name).Nodup) :
    updateFirst name change fs = fs.map fun f => if f.name = name then change f else f := by
  induction fs with
  | nil => rfl
  | cons g fs ih =>
    rw [List.map_cons, List.nodup_cons] at h
    obtain ⟨hg, hfs⟩ := h
    by_cases hname : g.name = name
    · have hrest : fs.map (fun f => if f.name = name then change f else f) = fs := by
        refine (List.map_congr_left fun f hf => if_neg fun hsame => hg ?_).trans (List.map_id fs)
        exact List.mem_map.mpr ⟨f, hf, hsame.trans hname.symm⟩
      simp [updateFirst, hname, hrest]
    · simp [updateFirst, hname, ih hfs]

/-! ### Setting a field -/

theorem names_set (p : Paragraph) (name value : Text) :
    (p.set name value).names = if name ∈ p.names then p.names else p.names ++ [name] := by
  by_cases hmem : name ∈ p.names
  · rw [if_pos hmem, set, if_pos (contains_iff.mpr hmem), names]
    exact @map_name_updateFirst name (fun f => { f with value }) (fun _ => rfl) p.fields
  · rw [if_neg hmem, set, if_neg fun hcontains => hmem (contains_iff.mp hcontains)]
    simp [names]

/-- Where names are apart, setting a field gives the only field of its name the value. -/
theorem fields_set (h : p.names.Nodup) (hmem : name ∈ p.names) :
    (p.set name value).fields = p.fields.map fun f => if f.name = name then { f with value } else f := by
  rw [set, if_pos (contains_iff.mpr hmem)]
  exact updateFirst_eq_map h

theorem mem_set_iff (h : p.names.Nodup) {f : Field} :
    f ∈ (p.set name value).fields ↔ f = ⟨name, value⟩ ∨ f ∈ p.fields ∧ f.name ≠ name := by
  by_cases hmem : name ∈ p.names
  · rw [fields_set h hmem, List.mem_map]
    constructor
    · rintro ⟨g, hg, rfl⟩
      by_cases hname : g.name = name
      · rw [if_pos hname, ← hname]
        exact .inl rfl
      · rw [if_neg hname]
        exact .inr ⟨hg, hname⟩
    · rintro (rfl | ⟨hf, hname⟩)
      · obtain ⟨g, hg, hgname⟩ := List.mem_map.mp hmem
        exact ⟨g, hg, by rw [if_pos hgname, hgname]⟩
      · exact ⟨f, hf, if_neg hname⟩
  · have hother : ∀ g ∈ p.fields, g.name ≠ name := fun g hg hname =>
      hmem (List.mem_map.mpr ⟨g, hg, hname⟩)
    rw [set, if_neg fun hcontains => hmem (contains_iff.mp hcontains), List.mem_append,
      List.mem_singleton]
    constructor
    · rintro (hf | rfl)
      · exact .inr ⟨hf, hother f hf⟩
      · exact .inl rfl
    · rintro (rfl | ⟨hf, -⟩)
      · exact .inr rfl
      · exact .inl hf

/-! ### Taking a field away -/

theorem names_erase (p : Paragraph) (name : Text) : (p.erase name).names = p.names.erase name := by
  rw [erase, names, names, List.erase_eq_eraseP', List.eraseP_map]
  rfl

theorem nodup_erase (h : p.names.Nodup) (name : Text) : (p.erase name).names.Nodup :=
  (List.eraseP_sublist.map Field.name).nodup h

/-- Where names are apart, no field of the name is left. -/
theorem fields_erase (h : p.names.Nodup) (name : Text) :
    (p.erase name).fields = p.fields.filter (·.name ≠ name) := by
  have hall : ∀ fs : List Field, (fs.map Field.name).Nodup →
      fs.eraseP (·.name == name) = fs.filter (·.name ≠ name) := by
    intro fs hfs
    induction fs with
    | nil => rfl
    | cons g fs ih =>
      rw [List.map_cons, List.nodup_cons] at hfs
      by_cases hname : g.name = name
      · have hrest : ∀ f ∈ fs, f.name ≠ name := fun f hf hsame =>
          hfs.1 (List.mem_map.mpr ⟨f, hf, hsame.trans hname.symm⟩)
        simpa [hname] using (List.filter_eq_self.mpr fun f hf => by simpa using hrest f hf).symm
      · simp [hname, ih hfs.2]
  exact hall p.fields h

/-! ### Renaming a field -/

/-- **Renaming a field** keeps names apart exactly if the new name is the old one or not taken. -/
theorem nodup_rename_iff {old new : Text} (h : p.names.Nodup) (hq : p.rename? old new = some q) :
    q.names.Nodup ↔ new = old ∨ new ∉ p.names := by
  unfold rename? at hq
  split at hq
  · rename_i hcontains
    obtain ⟨before, f, after, hfields, hf, hupdate⟩ := exists_updateFirst (contains_iff.mp hcontains)
    cases hq
    have hp : p.names = before.map Field.name ++ old :: after.map Field.name := by
      rw [names, hfields, List.map_append, List.map_cons, hf]
    rw [hp, List.nodup_middle, List.nodup_cons] at h
    rw [names, hupdate, List.map_append, List.map_cons, List.nodup_middle, List.nodup_cons,
      ← List.map_append, List.map_append]
    constructor
    · rintro ⟨hnew, -⟩
      by_cases hsame : new = old
      · exact .inl hsame
      · refine .inr fun hmem => hnew ?_
        rw [hp] at hmem
        simpa [hsame] using hmem
    · rintro (rfl | hnew)
      · exact h
      · refine ⟨fun hmem => hnew ?_, h.2⟩
        rw [hp]
        rcases List.mem_append.mp hmem with hmem | hmem
        · exact List.mem_append_left _ hmem
        · exact List.mem_append_right _ (List.mem_cons_of_mem _ hmem)
  · cases hq

/-! ### Finding a field -/

theorem get?_eq_none_iff : p.get? name = none ↔ name ∉ p.names := by
  rw [get?, Option.map_eq_none_iff, List.find?_eq_none, names, List.mem_map]
  simp only [beq_iff_eq, not_exists, not_and]

/-- Where names are apart, each field is the one that is found under its name. -/
theorem get?_of_mem (h : p.names.Nodup) {f : Field} (hf : f ∈ p.fields) :
    p.get? f.name = some f.value := by
  obtain ⟨before, after, hfields⟩ := List.append_of_mem hf
  have hbefore : ∀ g ∈ before, (g.name == f.name) = false := by
    rw [names, hfields, List.map_append, List.map_cons, List.nodup_middle, List.nodup_cons] at h
    intro g hg
    rw [beq_eq_false_iff_ne]
    exact fun hsame => h.1 (List.mem_append_left _ (List.mem_map.mpr ⟨g, hg, hsame⟩))
  have hnone : before.find? (·.name == f.name) = none := by
    rw [List.find?_eq_none]
    exact fun g hg => by simp [hbefore g hg]
  rw [get?, hfields, List.find?_append, hnone, Option.none_or, List.find?_cons_of_pos (by simp)]
  rfl

/-- Setting a field leaves those of other names alone. -/
theorem get?_set_of_ne {other : Text} (h : name ≠ other) (p : Paragraph) (value : Text) :
    (p.set name value).get? other = p.get? other := by
  by_cases hmem : name ∈ p.names
  · obtain ⟨before, f, after, hfields, hf, hupdate⟩ := exists_updateFirst hmem
    have hskip : ∀ g : Field, g.name = name →
        (before ++ g :: after).find? (·.name == other) = (before ++ after).find? (·.name == other) := by
      intro g hg
      rw [List.find?_append, List.find?_append, List.find?_cons_of_neg]
      simpa [hg] using h
    rw [set, if_pos (contains_iff.mpr hmem), get?, get?, hupdate, hfields, hskip f hf]
    exact congrArg (Option.map Field.value) (hskip ⟨f.name, value⟩ hf)
  · rw [set, if_neg fun hcontains => hmem (contains_iff.mp hcontains), get?, List.find?_append,
      List.find?_cons_of_neg (by simpa using h), List.find?_nil, Option.or_none, get?]

/-- Taking a field away leaves those of other names alone. -/
theorem get?_erase_of_ne {other : Text} (h : name ≠ other) (p : Paragraph) :
    (p.erase name).get? other = p.get? other := by
  have hall : ∀ fs : List Field,
      (fs.eraseP (·.name == name)).find? (·.name == other) = fs.find? (·.name == other) := by
    intro fs
    induction fs with
    | nil => rfl
    | cons g fs ih =>
      by_cases hg : g.name = name
      · have hother : g.name ≠ other := hg ▸ h
        simp [hg, h]
      · simp [hg, List.find?_cons, ih]
  rw [get?, get?, erase, hall]

end Packaging.Stanza.Paragraph
