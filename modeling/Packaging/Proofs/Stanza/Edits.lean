import Mathlib.Data.List.Induction
import Packaging.Proofs.Stanza.Canonical
import Packaging.Proofs.Stanza.Changes

/-!
# Edits of a document

A field is addressed by its name. That is all that is needed where the names of a paragraph are apart:
what is found, set or taken away under a name is the field that is written and read back. Reading a text
and collecting names and values keep names apart, and so does every edit but one: a field can be given
the name of another one.

## What is proved

* `Paragraph.isAddressable_of_nodup` — where names are apart, a name stands for one field.
* `Document.nodup_edit_iff` — an edit keeps names apart exactly if it is no such renaming.
* `Document.run_isAddressable_iff` — so names are apart all along exactly if no such renaming is made.
-/

namespace Packaging.Stanza

open Text

variable {σ : Type}

/-! ### Edits -/

/-- An edit of a document. -/
inductive Edit (σ : Type) where
  /-- A field of a paragraph is set. -/
  | set (i : Nat) (name value : Text)
  /-- A field of a paragraph is renamed. -/
  | rename (i : Nat) (old new : Text)
  /-- A field of a paragraph is taken away. -/
  | erase (i : Nat) (name : Text)
  /-- The values of a paragraph are changed one after the other. -/
  | values (i : Nat) (change : Nat → Field → Text)
  /-- Changes are made, all of them or none. -/
  | changes (resolver? : Option (Resolver (StateM σ))) (s : σ) (cs : List ParagraphChange)

/-- The paragraph with other values. -/
def Paragraph.withValues (change : Nat → Field → Text) (p : Paragraph) : Paragraph :=
  ⟨p.fields.mapIdx fun i f => { f with value := change i f }⟩

/-- Changing every value in the same way is one of these. -/
theorem Paragraph.withValues_eq_mapValues (change : Text → Text) (p : Paragraph) :
    p.withValues (fun _ f => change f.value) = p.mapValues change := by
  refine congrArg Paragraph.mk (List.ext_getElem? fun i => ?_)
  simp

namespace Document

/-- The document after an edit. -/
def edit (d : Document) : Edit σ → Document
  | .set i name value => d.modify i (·.set name value)
  | .rename i old new => d.modify i fun p => (p.rename? old new).getD p
  | .erase i name => d.modify i (·.erase name)
  | .values i change => d.modify i (·.withValues change)
  | .changes resolver? s cs =>
    match ((d.applyChanges resolver? cs).run.run s).run with
    | (.ok d', _) => d'
    | (.error _, _) => d

/-- The document after edits. -/
def run (d : Document) (es : List (Edit σ)) : Document := es.foldl edit d

theorem run_concat (d : Document) (es : List (Edit σ)) (e : Edit σ) :
    d.run (es ++ [e]) = (d.run es).edit e := List.foldl_concat edit d e es

end Document

/-- A field is given the name of another field of its paragraph. -/
def Edit.Clashes (d : Document) : Edit σ → Prop
  | .rename i old new => ∃ p, d.get? i = some p ∧ old ∈ p.names ∧ new ∈ p.names ∧ new ≠ old
  | .set .. | .erase .. | .values .. | .changes .. => False

/-! ### Names that stand for one field -/

namespace Paragraph

variable {p : Paragraph}

/-- The paragraph is read from a text or collected from names and values. -/
def IsCollected (p : Paragraph) : Prop :=
  (∃ t d, Document.parse t = .ok d ∧ p ∈ d.paragraphs) ∨ ∃ pairs, p = .ofList pairs

/-- Each name stands for one field: it is this field that is found, set and taken away under the name,
and if the fields can be written so that they read back, it is read back. -/
structure IsAddressable (p : Paragraph) : Prop where
  get : ∀ f ∈ p.fields, p.get? f.name = some f.value
  set : ∀ f ∈ p.fields, ∀ value,
    (p.set f.name value).fields = p.fields.map fun g => if g = f then { g with value } else g
  erase : ∀ f ∈ p.fields, (p.erase f.name).fields = p.fields.filter (· ≠ f)
  reread : (∀ f ∈ p.fields, f.IsReadable ∧ HasNoReturns f.value) →
    Document.parse (Document.render ⟨[p]⟩) = .ok (Document.compact ⟨[p]⟩)

/-- Where names are apart a field is known by its name. -/
theorem name_eq_iff (h : p.names.Nodup) {f g : Field} (hf : f ∈ p.fields) (hg : g ∈ p.fields) :
    g.name = f.name ↔ g = f := by
  refine ⟨fun hname => ?_, fun hgf => congrArg Field.name hgf⟩
  have hvalue : some g.value = some f.value := by
    rw [← get?_of_mem h hg, hname, get?_of_mem h hf]
  cases f
  cases g
  simp_all

theorem isAddressable_of_nodup (h : p.names.Nodup) : p.IsAddressable where
  get f hf := get?_of_mem h hf
  set f hf value := by
    rw [fields_set h (List.mem_map_of_mem hf)]
    refine List.map_congr_left fun g hg => ?_
    simp only [name_eq_iff h hf hg]
  erase f hf := by
    rw [fields_erase h]
    refine List.filter_congr fun g hg => ?_
    simp only [ne_eq, name_eq_iff h hf hg]
  reread hfields := by
    have hreadable : p.IsReadable := ⟨h, fun f hf => (hfields f hf).1⟩
    have hvalues : p.mapValues dropReturns = p :=
      mapValues_dropReturns_eq_self_iff.mpr fun f hf => (hfields f hf).2
    have hcompact : ∀ q ∈ (Document.compact ⟨[p]⟩).paragraphs, q = p := fun q hq =>
      List.mem_singleton.mp (mem_compact_iff.mp hq).1
    rw [parse_render_of_readable fun q hq => hcompact q hq ▸ hreadable]
    refine congrArg (fun ps => Except.ok (Document.mk ps)) (map_eq_self_iff.mpr fun q hq => ?_)
    rw [hcompact q hq, hvalues]

theorem nodup_ofList (pairs : List (Text × Text)) : (ofList pairs).names.Nodup := by
  unfold ofList
  refine List.foldlRecOn (motive := fun p : Paragraph => p.names.Nodup) pairs _ List.nodup_nil ?_
  intro p hp pair _
  exact nodup_set hp pair.1 pair.2

theorem IsCollected.nodup (h : p.IsCollected) : p.names.Nodup := by
  rcases h with ⟨t, d, hparse, hp⟩ | ⟨pairs, rfl⟩
  · exact (readable_of_parse hparse p hp).2.nodup
  · exact nodup_ofList pairs

theorem names_withValues (change : Nat → Field → Text) (p : Paragraph) :
    (p.withValues change).names = p.names := by
  refine List.ext_getElem? fun i => ?_
  simp [withValues, names, Function.comp_def]

theorem nodup_put (h : p.names.Nodup) (name : Text) (value? : Option Text) :
    (p.put name value?).names.Nodup := by
  cases value? with
  | none => exact nodup_erase h name
  | some value => exact nodup_set h name value

theorem exists_rename?_iff {old new : Text} : (∃ q, p.rename? old new = some q) ↔ old ∈ p.names := by
  rw [← contains_iff, rename?]
  cases p.contains old <;> simp

end Paragraph

/-! ### One edit -/

namespace Document

variable {d : Document} {i : Nat}

theorem mem_modify {change : Paragraph → Paragraph} {p : Paragraph} (h : d.get? i = some p) :
    change p ∈ (d.modify i change).paragraphs := by
  refine List.mem_of_getElem? (i := i) ?_
  have hget : d.paragraphs[i]? = some p := h
  simp [modify, hget]

/-- A change to one paragraph keeps what it keeps in this paragraph. -/
theorem forall_modify {P : Paragraph → Prop} {change : Paragraph → Paragraph}
    (hd : ∀ p ∈ d.paragraphs, P p) (hchange : ∀ p, d.get? i = some p → P (change p)) :
    ∀ q ∈ (d.modify i change).paragraphs, P q := by
  intro q hq
  obtain ⟨j, hj⟩ := List.mem_iff_getElem?.mp hq
  rw [modify, List.getElem?_modify] at hj
  obtain ⟨p, hp, hq⟩ := Option.map_eq_some_iff.mp hj
  by_cases hij : i = j
  · rw [if_pos hij] at hq
    subst hij hq
    exact hchange p hp
  · rw [if_neg hij] at hq
    subst hq
    exact hd p (List.mem_of_getElem? hp)

/-- **One edit** keeps the names of all paragraphs apart exactly if it gives no field the name of
another one. -/
theorem nodup_edit_iff (hd : ∀ p ∈ d.paragraphs, p.names.Nodup) (e : Edit σ) :
    (∀ p ∈ (d.edit e).paragraphs, p.names.Nodup) ↔ ¬e.Clashes d := by
  cases e with
  | set i name value =>
    refine iff_of_true (forall_modify hd fun p hp => ?_) id
    exact Paragraph.nodup_set (hd p (List.mem_of_getElem? hp)) name value
  | rename i old new =>
    constructor
    · rintro hafter ⟨p, hp, hold, hnew, hne⟩
      obtain ⟨q, hq⟩ := Paragraph.exists_rename?_iff.mpr hold
      have hnodup := hafter _ (mem_modify hp)
      rw [hq, Option.getD_some, Paragraph.nodup_rename_iff (hd p (List.mem_of_getElem? hp)) hq] at hnodup
      rcases hnodup with hsame | hfree
      · exact hne hsame
      · exact hfree hnew
    · intro hclash
      refine forall_modify hd fun p hp => ?_
      have hnodup := hd p (List.mem_of_getElem? hp)
      cases hq : p.rename? old new with
      | none => exact hnodup
      | some q =>
        rw [Option.getD_some, Paragraph.nodup_rename_iff hnodup hq]
        by_cases hsame : new = old
        · exact .inl hsame
        · have hold := Paragraph.exists_rename?_iff.mp ⟨q, hq⟩
          exact .inr fun hnew => hclash ⟨p, hp, hold, hnew, hsame⟩
  | erase i name =>
    refine iff_of_true (forall_modify hd fun p hp => ?_) id
    exact Paragraph.nodup_erase (hd p (List.mem_of_getElem? hp)) name
  | values i change =>
    refine iff_of_true (forall_modify hd fun p hp => ?_) id
    rw [Paragraph.names_withValues]
    exact hd p (List.mem_of_getElem? hp)
  | changes resolver? s cs =>
    refine iff_of_true ?_ id
    rw [edit]
    split
    · rename_i d' s' h
      exact applyChanges_preserves (fun p hp => Paragraph.nodup_put hp) List.nodup_nil hd h
    · exact hd

/-! ### All edits -/

/-- **Names that are apart.** While paragraphs that were read or collected are edited, their names are
apart and stand for one field each, exactly if no field is ever given the name of another one. -/
theorem run_isAddressable_iff (hd : ∀ p ∈ d.paragraphs, p.IsCollected) (es : List (Edit σ)) :
    (∀ past, past <+: es → ∀ p ∈ (d.run past).paragraphs, p.names.Nodup ∧ p.IsAddressable) ↔
      ∀ past e, past ++ [e] <+: es → ¬e.Clashes (d.run past) := by
  constructor
  · intro hall past e hpast
    have hbefore := hall past ((List.prefix_append past [e]).trans hpast)
    have hafter := hall (past ++ [e]) hpast
    rw [run_concat] at hafter
    exact (nodup_edit_iff (fun p hp => (hbefore p hp).1) e).mp fun p hp => (hafter p hp).1
  · intro hall past hpast
    have hnodup : ∀ p ∈ (d.run past).paragraphs, p.names.Nodup := by
      induction past using List.reverseRecOn with
      | nil => exact fun p hp => (hd p hp).nodup
      | append_singleton past e ih =>
        have hbefore := ih ((List.prefix_append past [e]).trans hpast)
        rw [run_concat]
        exact (nodup_edit_iff hbefore e).mpr (hall past e hpast)
    intro p hp
    exact ⟨hnodup p hp, Paragraph.isAddressable_of_nodup (hnodup p hp)⟩

/-- Two fields. -/
def twoFields : Document := ⟨[.ofList [(['A'], ['1']), (['B'], ['2'])]]⟩

/-- A name that has become free can be given away. -/
theorem run_isAddressable_twoFields :
    (∀ p ∈ twoFields.paragraphs, p.IsCollected) ∧
    ∀ p ∈ (@run Unit twoFields [.rename 0 ['A'] ['C'], .rename 0 ['B'] ['A']]).paragraphs,
      p.names.Nodup ∧ p.IsAddressable := by
  have hd : ∀ p ∈ twoFields.paragraphs, p.IsCollected := by
    intro p hp
    exact .inr ⟨_, List.mem_singleton.mp hp⟩
  refine ⟨hd, (run_isAddressable_iff hd _).mpr ?_ _ (List.prefix_refl _)⟩
  intro past e hpast
  rcases past with - | ⟨e₁, - | ⟨e₂, past⟩⟩
  · obtain ⟨rfl, -⟩ := List.cons_prefix_cons.mp hpast
    rintro ⟨p, hp, -, hnew, -⟩
    cases hp
    exact absurd hnew (by decide)
  · obtain ⟨rfl, hlast⟩ := List.cons_prefix_cons.mp hpast
    obtain ⟨rfl, -⟩ := List.cons_prefix_cons.mp hlast
    rintro ⟨p, hp, -, hnew, -⟩
    cases hp
    exact absurd hnew (by decide)
  · simp at hpast

/-- A field that is given the name of the next one hides it, but it is the next one that is read
back. -/
theorem run_not_isAddressable_twoFields :
    (∀ p ∈ twoFields.paragraphs, p.IsCollected) ∧
    ∃ p q, @run Unit twoFields [.rename 0 ['A'] ['B']] = ⟨[p]⟩ ∧ ¬p.names.Nodup ∧
      p.get? ['B'] = some ['1'] ∧ Document.parse (Document.render ⟨[p]⟩) = .ok ⟨[q]⟩ ∧
      q.get? ['B'] = some ['2'] := by
  refine ⟨fun p hp => .inr ⟨_, List.mem_singleton.mp hp⟩, ?_⟩
  exact ⟨⟨[⟨['B'], ['1']⟩, ⟨['B'], ['2']⟩]⟩, ⟨[⟨['B'], ['2']⟩]⟩, rfl, by decide, rfl, rfl, rfl⟩

end Document

end Packaging.Stanza
