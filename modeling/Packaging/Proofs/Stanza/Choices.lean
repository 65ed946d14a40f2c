import Packaging.Proofs.Stanza.Edits

/-!
# What comes of a list of changes

A change that is made puts a value into a field: the one that it wants, or where it finds another value
than it expects the one that the resolver chooses. So a document after changes is the document before
them with these values put into its paragraphs, and new paragraphs behind them.

## What is proved

* `Paragraph.follows_putAll` — where names are apart, the last value that was put into a field is there,
  and the other fields are as they were.
* `Paragraph.yields_applyChanges` — making changes to a paragraph is putting values into it.
* `Document.Amended.Reached.step`, `reached_steps` — the document after any number of changes.
* `isMadeFrom_of_applyChanges` — the document after all changes.
-/

namespace Packaging.Stanza

open Text

variable {σ : Type} {resolver? : Option (Resolver (StateM σ))} {s s' : σ}

/-! ### Values put into fields -/

/-- A change that is made: the value that it finds, and the one that it puts there. -/
structure Choice where
  change : FieldChange
  found : Option Text
  value : Option Text

namespace Choice

/-- The field that is changed. -/
def field (c : Choice) : Text := c.change.field

/-- The value is the one that is wanted, if the one that is expected was found, and otherwise the one
that the resolver returns. -/
def IsMade (resolver? : Option (Resolver (StateM σ))) (key : ParagraphKey) (c : Choice) : Prop :=
  (c.found = c.change.old ∧ c.value = c.change.new) ∨
    c.found ≠ c.change.old ∧ ∃ resolve s s', resolver? = some resolve ∧
      Yields (resolve ⟨key, c.field, c.change.old, c.found, c.change.new⟩) s c.value s'

end Choice

namespace Paragraph

variable {p q : Paragraph} {name : Text} {value? : Option Text} {cs : List Choice}

/-- Where names are apart, what is put into a field is found there. -/
theorem get?_put_self (h : p.names.Nodup) (name : Text) (value? : Option Text) :
    (p.put name value?).get? name = value? := by
  cases value? with
  | none =>
    rw [put, get?_eq_none_iff, names_erase]
    exact h.not_mem_erase
  | some value => exact get?_of_mem (nodup_set h name value) ((mem_set_iff h).mpr (.inl rfl))

/-- Names that are not taken away stay in their order. -/
theorem sublist_names_put {ns : List Text} (h : ns.Sublist p.names)
    (hns : value? = none → name ∉ ns) : ns.Sublist (p.put name value?).names := by
  cases value? with
  | none =>
    rw [put, names_erase, ← List.erase_of_not_mem (hns rfl)]
    exact h.erase name
  | some value =>
    rw [put, names_set]
    split
    · exact h
    · exact h.trans (List.sublist_append_left _ _)

/-- The paragraph with values put into it, in order. -/
def putAll (p : Paragraph) (cs : List Choice) : Paragraph :=
  cs.foldl (fun p c => p.put c.field c.value) p

theorem putAll_append (p : Paragraph) (cs ds : List Choice) :
    p.putAll (cs ++ ds) = (p.putAll cs).putAll ds := List.foldl_append

theorem nodup_putAll (h : p.names.Nodup) (cs : List Choice) : (p.putAll cs).names.Nodup := by
  induction cs generalizing p with
  | nil => exact h
  | cons c cs ih => exact ih (nodup_put h c.field c.value)

theorem get?_putAll_of_ne (h : ∀ c ∈ cs, c.field ≠ name) (p : Paragraph) :
    (p.putAll cs).get? name = p.get? name := by
  induction cs generalizing p with
  | nil => rfl
  | cons c cs ih =>
    obtain ⟨hc, hcs⟩ := List.forall_mem_cons.mp h
    exact (ih hcs _).trans (get?_put_of_ne hc p c.value)

theorem sublist_names_putAll {ns : List Text} (h : ns.Sublist p.names)
    (hns : ∀ c ∈ cs, c.value = none → c.field ∉ ns) : ns.Sublist (p.putAll cs).names := by
  induction cs generalizing p with
  | nil => exact h
  | cons c cs ih =>
    obtain ⟨hc, hcs⟩ := List.forall_mem_cons.mp hns
    exact ih (sublist_names_put h hc) hcs

/-- Every choice finds the value that the choices before it have left in its field. -/
def Finds (p : Paragraph) : List Choice → Prop
  | [] => True
  | c :: cs => c.found = p.get? c.field ∧ (p.put c.field c.value).Finds cs

theorem finds_append {ds : List Choice} :
    p.Finds (cs ++ ds) ↔ p.Finds cs ∧ (p.putAll cs).Finds ds := by
  induction cs generalizing p with
  | nil => exact (iff_of_eq (true_and _)).symm
  | cons c cs ih =>
    rw [List.cons_append, Finds, Finds, ih, and_assoc]
    rfl

/-- What values that were put into the fields of a paragraph leave of it. -/
structure Follows (p : Paragraph) (cs : List Choice) (q : Paragraph) : Prop where
  nodup : q.names.Nodup
  /-- A field that no value was put into has the value that it had. -/
  other : ∀ name, (∀ c ∈ cs, c.field ≠ name) → q.get? name = p.get? name
  /-- A field has the last value that was put into it, and is not there if that is none. -/
  last : ∀ before c after, cs = before ++ c :: after → (∀ d ∈ after, d.field ≠ c.field) →
    q.get? c.field = c.value ∧ (c.field ∈ q.names ↔ c.value ≠ none)
  /-- The fields that were never taken away are in the order in which they were. -/
  order : (p.names.filter fun name => ∀ c ∈ cs, c.field = name → c.value ≠ none).Sublist q.names

theorem follows_putAll (h : p.names.Nodup) (cs : List Choice) : p.Follows cs (p.putAll cs) where
  nodup := nodup_putAll h cs
  other name hname := get?_putAll_of_ne hname p
  last := by
    rintro before c after rfl hafter
    have hlast : (p.putAll (before ++ c :: after)).get? c.field = c.value := by
      rw [putAll_append]
      exact (get?_putAll_of_ne hafter _).trans (get?_put_self (nodup_putAll h before) c.field c.value)
    exact ⟨hlast, by rw [← not_iff_not, not_ne_iff, ← hlast, get?_eq_none_iff]⟩
  order := by
    refine sublist_names_putAll List.filter_sublist fun c hc hnone hmem => ?_
    have hkept := (List.mem_filter.mp hmem).2
    exact decide_eq_true_eq.mp hkept c hc rfl hnone

/-! ### Changes to a paragraph -/

/-- The choices that changes to a paragraph come to, up to a conflict. -/
def choices (resolver? : Option (Resolver (StateM σ))) (key : ParagraphKey) (p : Paragraph) (s : σ) :
    List FieldChange → List Choice
  | [] => []
  | c :: cs =>
    match ((p.chooseValue resolver? key c).run.run s).run with
    | (.ok value, s') =>
      ⟨c, p.get? c.field, value⟩ :: choices resolver? key (p.put c.field value) s' cs
    | (.error _, _) => []

theorem finds_choices (key : ParagraphKey) (p : Paragraph) (s : σ) (fs : List FieldChange) :
    p.Finds (p.choices resolver? key s fs) := by
  induction fs generalizing p s with
  | nil => exact trivial
  | cons f fs ih =>
    unfold choices
    split
    · exact ⟨rfl, ih _ _⟩
    · exact trivial

theorem isMade_of_chooseValue {key : ParagraphKey} {c : FieldChange}
    (h : Yields (p.chooseValue resolver? key c) s value? s') :
    Choice.IsMade resolver? key ⟨c, p.get? c.field, value?⟩ := by
  unfold chooseValue at h
  dsimp only at h
  split at h
  · rename_i hfound
    exact .inl ⟨hfound, (yields_pure_iff.mp h).1.symm⟩
  · rename_i hfound
    refine .inr ⟨hfound, ?_⟩
    cases resolver? with
    | none => cases h
    | some resolve => exact ⟨resolve, s, s', rfl, h⟩

/-- Making changes is putting the chosen values into the fields. -/
theorem yields_applyChanges {key : ParagraphKey} {fs : List FieldChange}
    (h : Yields (p.applyChanges resolver? key fs) s q s') :
    (p.choices resolver? key s fs).map Choice.change = fs ∧
      (∀ c ∈ p.choices resolver? key s fs, c.IsMade resolver? key) ∧
      q = p.putAll (p.choices resolver? key s fs) := by
  induction fs generalizing p s with
  | nil =>
    obtain ⟨rfl, -⟩ := yields_pure_iff.mp h
    exact ⟨rfl, nofun, rfl⟩
  | cons f fs ih =>
    obtain ⟨value?, s₁, hvalue, hrest⟩ := yields_bind_iff.mp h
    obtain ⟨hchanges, hmade, hq⟩ := ih hrest
    have hmadeFirst := isMade_of_chooseValue hvalue
    rw [Yields] at hvalue
    rw [choices, hvalue]
    exact ⟨congrArg (f :: ·) hchanges, List.forall_mem_cons.mpr ⟨hmadeFirst, hmade⟩, hq⟩

end Paragraph

/-! ### Steps -/

namespace Document.Amended

/-- The changes that are made for one key, with the choices that they come to. -/
structure Step extends Visit where
  choices : List Choice

/-- The steps that changes make, up to a conflict. -/
def steps (resolver? : Option (Resolver (StateM σ))) (a : Amended) (s : σ) :
    List ParagraphChange → List Step
  | [] => []
  | c :: cs =>
    match ((a.apply resolver? c).run.run s).run with
    | (.ok a', s') =>
      ⟨⟨a, c, a'⟩, (a.target c.key).choices resolver? c.key s c.fields⟩ :: steps resolver? a' s' cs
    | (.error _, _) => []

namespace Step

/-- No paragraph is found for the key, and so one is added. -/
def adds (v : Step) : Bool := (v.found.findIdx? v.key).isNone

/-- Where a step goes that comes after the steps `us`: to the paragraph that was added for its key, or
else to the first one that has the key, or else to a new one at the end. -/
inductive Goes (us : List Step) (v : Step) : Prop where
  | again (u : Step) : u ∈ us → u.adds = true → u.key = v.key → v.adds = false → v.index = u.index →
    Goes us v
  | found : (∀ u ∈ us, u.key = v.key → u.adds = false) → v.adds = false → v.first? = some v.index →
    Goes us v
  | added : (∀ u ∈ us, u.key = v.key → u.adds = false) → v.adds = true → v.first? = none →
    v.index = v.found.document.size → Goes us v

/-- The choices are those that the change comes to. -/
structure IsMade (resolver? : Option (Resolver (StateM σ))) (v : Step) : Prop where
  changes : v.choices.map Choice.change = v.change.fields
  choices : ∀ c ∈ v.choices, c.IsMade resolver? v.key

end Step

/-- The steps that add a paragraph. -/
def added (us : List Step) : List Step := us.filter Step.adds

/-- The choices that are made for the paragraph at an index, in order. -/
def choicesAt (i : Nat) (us : List Step) : List Choice :=
  (us.filter (·.index = i)).flatMap Step.choices

variable {d d' : Document} {a a' b : Amended} {c : ParagraphChange} {cs : List ParagraphChange}
  {us : List Step} {v : Step} {i : Nat}

theorem added_concat (us : List Step) (v : Step) :
    added (us ++ [v]) = added us ++ if v.adds then [v] else [] := by
  rw [added, List.filter_append, List.filter_singleton, added]
  cases v.adds <;> rfl

theorem choicesAt_concat (i : Nat) (us : List Step) (v : Step) :
    choicesAt i (us ++ [v]) = choicesAt i us ++ if v.index = i then v.choices else [] := by
  rw [choicesAt, List.filter_append, List.flatMap_append, List.filter_singleton]
  by_cases h : v.index = i <;> simp [h, choicesAt]

theorem choicesAt_eq_nil (h : ∀ u ∈ us, u.index ≠ i) : choicesAt i us = [] := by
  rw [choicesAt, List.filter_eq_nil_iff.mpr fun u hu => by simpa using h u hu, List.flatMap_nil]

end Document.Amended

namespace Document

open Amended

/-- The document after steps: every paragraph with the values that were put into it, and behind them one
paragraph for every step that added one. -/
def after (d : Document) (us : List Step) : Document :=
  ⟨d.paragraphs.mapIdx (fun i p => p.putAll (choicesAt i us)) ++
    (added us).map fun v => Paragraph.empty.putAll (choicesAt v.index us)⟩

variable {d : Document} {us : List Step}

theorem get?_after (h : (added us).map (·.index) = List.range' d.size (added us).length) (i : Nat) :
    (d.after us).get? i = if i < d.size + (added us).length
      then some (((d.get? i).getD {}).putAll (choicesAt i us)) else none := by
  have hadded : (added us).map (fun v => Paragraph.empty.putAll (choicesAt v.index us)) =
      (List.range' d.size (added us).length).map fun i => Paragraph.empty.putAll (choicesAt i us) := by
    rw [← h, List.map_map]
    rfl
  rw [after, hadded]
  unfold get?
  by_cases hi : i < d.size
  · have hget : d.paragraphs[i]? = some d.paragraphs[i] := List.getElem?_eq_getElem hi
    rw [if_pos (by omega), List.getElem?_append_left (by rwa [List.length_mapIdx]),
      List.getElem?_mapIdx, hget]
    rfl
  · -- Paragraphs were added one by one, so the place behind `d` is the one of the step.
    have hget : d.paragraphs[i]? = none := List.getElem?_eq_none (Nat.le_of_not_lt hi)
    have hlength : (d.paragraphs.mapIdx fun i p => p.putAll (choicesAt i us)).length = d.size :=
      List.length_mapIdx
    rw [List.getElem?_append_right (by omega), hlength, List.getElem?_map, hget]
    by_cases hlast : i < d.size + (added us).length
    · have hindex : d.size + 1 * (i - d.size) = i := by omega
      rw [if_pos hlast, List.getElem?_range' (by omega), hindex]
      rfl
    · rw [if_neg hlast, List.getElem?_eq_none (by rw [List.length_range']; omega)]
      rfl

end Document

/-! ### The document after steps -/

namespace Document.Amended

variable {d d' : Document} {a a' b : Amended} {c : ParagraphChange} {cs : List ParagraphChange}
  {us : List Step} {v : Step} {i : Nat}

/-- The step is one that the program makes. -/
structure Step.IsRun (resolver? : Option (Resolver (StateM σ))) (s s' : σ) (v : Step) : Prop where
  apply : Yields (v.found.apply resolver? v.change) s v.left s'
  choices : v.choices = (v.found.target v.key).choices resolver? v.key s v.change.fields

/-- What is known of a document that steps have led to. -/
structure Reached (d : Document) (us : List Step) (a : Amended) : Prop where
  document : a.document = d.after us
  /-- A key has a paragraph of its own if a step added one for it. -/
  created : ∀ key i, a.created.lookup key = some i ↔
    ∃ u ∈ us, u.adds = true ∧ u.key = key ∧ u.index = i
  added : (added us).map (·.index) = List.range' d.size (added us).length
  lt : ∀ u ∈ us, u.index < a.document.size
  found : ∀ i, ((d.get? i).getD {}).Finds (choicesAt i us)

theorem reached_nil (d : Document) : Reached d [] ⟨d, []⟩ where
  document := by
    have hparagraphs : d.paragraphs.mapIdx (fun i p => p.putAll (choicesAt i [])) = d.paragraphs :=
      List.mapIdx_eq_iff.mpr fun i => by cases d.paragraphs[i]? <;> rfl
    rw [after, hparagraphs]
    simp [Amended.added]
  created := by simp
  added := rfl
  lt := nofun
  found i := trivial

theorem Reached.size (h : Reached d us a) : a.document.size = d.size + (Amended.added us).length := by
  rw [h.document, Document.size, after, List.length_append, List.length_mapIdx, List.length_map]
  rfl

theorem Reached.get? (h : Reached d us a) (i : Nat) :
    a.document.get? i = if i < a.document.size
      then some (((d.get? i).getD {}).putAll (choicesAt i us)) else none := by
  rw [h.size, h.document, get?_after h.added]

/-- Where the next step goes. -/
theorem Reached.goes (h : Reached d us v.found) : v.Goes us := by
  cases hcreated : v.found.created.lookup v.key with
  | some i =>
    obtain ⟨u, hu, hadds, hkey, hindex⟩ := (h.created v.key i).mp hcreated
    have hfind : v.found.findIdx? v.key = some i := by rw [findIdx?, hcreated, Option.some_or]
    refine .again u hu hadds hkey ?_ ?_
    · rw [Step.adds, hfind, Option.isNone_some]
    · rw [Visit.index_of_lookup hcreated, hindex]
  | none =>
    have hnone : ∀ u ∈ us, u.key = v.key → u.adds = false := by
      intro u hu hkey
      rw [← Bool.not_eq_true]
      intro hadds
      have hsome := (h.created v.key u.index).mpr ⟨u, hu, hadds, hkey, rfl⟩
      rw [hcreated] at hsome
      cases hsome
    have hfind : v.found.findIdx? v.key = v.first? := by
      rw [findIdx?, hcreated, Option.none_or]
      rfl
    cases hfirst : v.first? with
    | some i =>
      refine .found hnone ?_ ?_
      · rw [Step.adds, hfind, hfirst, Option.isNone_some]
      · rw [hfirst, Visit.index_of_first? hcreated hfirst]
    | none =>
      refine .added hnone ?_ hfirst (Visit.index_of_none hcreated hfirst)
      rw [Step.adds, hfind, hfirst, Option.isNone_none]

/-- The paragraph that a key stands for is there, or has no fields yet. -/
theorem target_eq (a : Amended) (key : ParagraphKey) :
    a.target key = (a.document.get? (a.locate key).2).getD {} := by
  unfold target
  cases hfind : a.findIdx? key with
  | some i => rw [locate_of_findIdx? hfind]
  | none =>
    have hnone : a.document.get? a.document.size = none := List.getElem?_eq_none (Nat.le_refl _)
    have hempty : (a.document.push {}).get? a.document.size = some {} := List.getElem?_concat_length
    rw [locate_of_none hfind, hempty, hnone]
    rfl

theorem Step.size_locate (v : Step) : (v.found.locate v.key).1.document.size =
    v.found.document.size + if v.adds then 1 else 0 := by
  cases hfind : v.found.findIdx? v.key with
  | some i => simp [locate_of_findIdx? hfind, Step.adds, hfind]
  | none => simp [locate_of_none hfind, Step.adds, hfind, Document.size, push]

theorem Step.Goes.index_lt (h : v.Goes us) (hlt : ∀ u ∈ us, u.index < v.found.document.size) :
    v.index < v.found.document.size + if v.adds then 1 else 0 := by
  cases h with
  | again u hu _ _ _ hindex =>
    rw [hindex]
    exact Nat.lt_add_right _ (hlt u hu)
  | found _ _ hfirst => exact Nat.lt_add_right _ (Visit.lt_size_of_first? hfirst)
  | added _ hadds _ hindex =>
    rw [hadds, hindex]
    exact Nat.lt_succ_self _

/-- A step puts its choices into the paragraph that it goes to, and changes no other one. -/
theorem Step.IsRun.get?_left (h : v.IsRun resolver? s s')
    (hindex : v.index < (v.found.locate v.key).1.document.size) (i : Nat) :
    v.left.document.get? i = if i = v.index
      then some (((v.found.document.get? i).getD {}).putAll v.choices) else v.found.document.get? i := by
  split
  · rename_i hi
    subst hi
    obtain ⟨q, hq, hleft⟩ := yields_apply_iff.mp h.apply
    obtain ⟨-, -, hput⟩ := Paragraph.yields_applyChanges hq
    have hset : v.left.document.get? v.index = some q := by
      rw [hleft]
      exact List.getElem?_set_self hindex
    rw [hset, hput, h.choices]
    exact congrArg (fun p => some (Paragraph.putAll p _)) (target_eq v.found v.key)
  · rename_i hi
    exact Visit.get?_left_of_ne h.apply hi

theorem Step.IsRun.isMade (h : v.IsRun resolver? s s') : v.IsMade resolver? := by
  obtain ⟨q, hq, -⟩ := yields_apply_iff.mp h.apply
  obtain ⟨hchanges, hmade, -⟩ := Paragraph.yields_applyChanges hq
  refine ⟨?_, ?_⟩
  · rw [h.choices]
    exact hchanges
  · rw [h.choices]
    exact hmade

theorem Step.Goes.index_of_adds (h : v.Goes us) (hadds : v.adds = true) :
    v.index = v.found.document.size := by
  cases h with
  | again _ _ _ _ hfalse => exact absurd hadds (by simp [hfalse])
  | found _ hfalse => exact absurd hadds (by simp [hfalse])
  | added _ _ _ hindex => exact hindex

/-- A paragraph that is not there yet is one without fields, and nothing was put into it. -/
theorem Reached.getD (h : Reached d us a) (i : Nat) :
    (a.document.get? i).getD {} = ((d.get? i).getD {}).putAll (choicesAt i us) := by
  rw [h.get?]
  split
  · rfl
  · rename_i hi
    have hsize := h.size
    have hnone : d.get? i = none := List.getElem?_eq_none (by unfold Document.size at *; omega)
    have hchoices : choicesAt i us = [] := choicesAt_eq_nil fun u hu hindex => by
      have hlt := h.lt u hu
      omega
    rw [hnone, hchoices]
    rfl

theorem Reached.created_step (h : Reached d us v.found) (hv : v.IsRun resolver? s s')
    (key : ParagraphKey) (i : Nat) : v.left.created.lookup key = some i ↔
      ∃ u ∈ us ++ [v], u.adds = true ∧ u.key = key ∧ u.index = i := by
  have hcreated : v.left.created = (v.found.locate v.key).1.created := (created_apply hv.apply).1
  simp only [List.mem_append, List.mem_singleton, or_and_right, exists_or, exists_eq_left]
  rw [hcreated, ← h.created key i]
  cases hfind : v.found.findIdx? v.key with
  | some j =>
    have hadds : v.adds = false := by rw [Step.adds, hfind, Option.isNone_some]
    rw [locate_of_findIdx? hfind]
    simp [hadds]
  | none =>
    have hadds : v.adds = true := by rw [Step.adds, hfind, Option.isNone_none]
    have hindex := h.goes.index_of_adds hadds
    have hnone : v.found.created.lookup v.key = none := (Option.or_eq_none_iff.mp hfind).1
    rw [locate_of_none hfind, List.lookup_cons]
    -- Nothing was remembered for the key of the step, so what is remembered now hides nothing.
    by_cases hkey : key = v.key
    · subst hkey
      simp [hnone, hadds, hindex]
    · have hother : (key == v.key) = false := beq_eq_false_iff_ne.mpr hkey
      simp [hother, Ne.symm hkey]

theorem length_added_concat (us : List Step) (v : Step) :
    (Amended.added (us ++ [v])).length = (Amended.added us).length + if v.adds then 1 else 0 := by
  rw [added_concat, List.length_append]
  cases v.adds <;> rfl

theorem Step.IsRun.size_left (h : v.IsRun resolver? s s') :
    v.left.document.size = v.found.document.size + if v.adds then 1 else 0 :=
  (created_apply h.apply).2.trans v.size_locate

/-- A paragraph that is added comes behind those that were added before. -/
theorem Reached.added_step (h : Reached d us v.found) : (Amended.added (us ++ [v])).map (·.index) =
    List.range' d.size (Amended.added (us ++ [v])).length := by
  rw [length_added_concat, added_concat]
  cases hadds : v.adds with
  | false => simpa using h.added
  | true =>
    have hlast : v.index = d.size + (Amended.added us).length := by
      rw [h.goes.index_of_adds hadds, h.size]
    simp only [if_true, List.map_append, h.added, List.map_singleton, hlast]
    exact List.range'_1_concat.symm

/-- A paragraph that a step does not go to is there after it exactly if it was before. -/
theorem Step.Goes.lt_iff (h : v.Goes us) {i : Nat} (hi : i ≠ v.index) :
    i < v.found.document.size + (if v.adds then 1 else 0) ↔ i < v.found.document.size := by
  cases hadds : v.adds with
  | false => rfl
  | true =>
    have hlast := h.index_of_adds hadds
    simp only [if_true]
    omega

theorem Reached.document_step (h : Reached d us v.found) (hv : v.IsRun resolver? s s') :
    v.left.document = d.after (us ++ [v]) := by
  have hindex := h.goes.index_lt h.lt
  refine congrArg Document.mk (List.ext_getElem? fun i => ?_)
  show v.left.document.get? i = (d.after (us ++ [v])).get? i
  rw [hv.get?_left (v.size_locate ▸ hindex), get?_after h.added_step, length_added_concat, h.getD,
    choicesAt_concat, Paragraph.putAll_append, ← Nat.add_assoc, ← h.size]
  by_cases hi : i = v.index
  · subst hi
    rw [if_pos rfl, if_pos hindex, if_pos rfl]
  · rw [if_neg hi, if_neg (Ne.symm hi), h.get?]
    simp only [h.goes.lt_iff hi]
    rfl

/-- The values of a step are put behind those that were put there before. -/
theorem Reached.found_step (h : Reached d us v.found) (hv : v.IsRun resolver? s s') (i : Nat) :
    ((d.get? i).getD {}).Finds (choicesAt i (us ++ [v])) := by
  rw [choicesAt_concat, Paragraph.finds_append, ← h.getD]
  refine ⟨h.found i, ?_⟩
  split
  · rename_i hi
    subst hi
    rw [hv.choices, Visit.index, ← target_eq]
    exact Paragraph.finds_choices _ _ _ _
  · exact trivial

/-- **One step** puts values into one paragraph, which it may have added. -/
theorem Reached.step (h : Reached d us v.found) (hv : v.IsRun resolver? s s') :
    Reached d (us ++ [v]) v.left where
  document := h.document_step hv
  created := h.created_step hv
  added := h.added_step
  lt := by
    rw [hv.size_left]
    have hindex := h.goes.index_lt h.lt
    refine List.forall_mem_append.mpr ⟨fun u hu => ?_, List.forall_mem_singleton.mpr hindex⟩
    exact Nat.lt_add_right _ (h.lt u hu)
  found := h.found_step hv

/-- **All steps.** Every step comes to the document that the steps before it have led to. -/
theorem reached_steps (ha : Reached d us a) (h : Yields (applyAll resolver? a cs) s b s') :
    Reached d (us ++ steps resolver? a s cs) b ∧
      (steps resolver? a s cs).map (·.change) = cs ∧
      (∀ v ∈ steps resolver? a s cs, v.IsMade resolver?) ∧
      ∀ before v rest, steps resolver? a s cs = before ++ v :: rest → Reached d (us ++ before) v.found := by
  induction cs generalizing us a s with
  | nil =>
    obtain ⟨rfl, -⟩ := yields_pure_iff.mp h
    exact ⟨by rwa [steps, List.append_nil], rfl, nofun, by simp [steps]⟩
  | cons c cs ih =>
    obtain ⟨a₁, s₁, hc, hrest⟩ := yields_bind_iff.mp h
    -- The steps so far are those of the rest and this one, so the induction is over all `us`.
    let v : Step := ⟨⟨a, c, a₁⟩, (a.target c.key).choices resolver? c.key s c.fields⟩
    have hv : v.IsRun resolver? s s₁ := ⟨hc, rfl⟩
    have hsteps : steps resolver? a s (c :: cs) = v :: steps resolver? a₁ s₁ cs := by
      rw [Yields] at hc
      rw [steps, hc]
    obtain ⟨hreached, hchanges, hmade, hfound⟩ := ih (ha.step (v := v) hv) hrest
    rw [hsteps]
    refine ⟨?_, congrArg (c :: ·) hchanges, List.forall_mem_cons.mpr ⟨hv.isMade, hmade⟩, ?_⟩
    · rwa [List.append_assoc] at hreached
    · intro before w rest hsplit
      cases before with
      | nil =>
        cases hsplit
        rwa [List.append_nil]
      | cons u before =>
        obtain ⟨rfl, htail⟩ := List.cons.inj hsplit
        have hw := hfound before w rest htail
        rwa [List.append_assoc] at hw

end Document.Amended

/-! ### Making changes -/

namespace Document

open Amended

variable {d d' : Document} {cs : List ParagraphChange}

/-- The document `d'` comes of `d` by the steps `vs`, which make the changes `cs`. -/
structure IsMadeFrom (resolver? : Option (Resolver (StateM σ))) (d : Document)
    (cs : List ParagraphChange) (vs : List Step) (d' : Document) : Prop where
  /-- There is one step for each change, in order. -/
  changes : vs.map (·.change) = cs
  /-- Each step comes to the document that the steps before it have made, and goes to the paragraph that
  its key stands for there. -/
  places : ∀ us v ws, vs = us ++ v :: ws → v.found.document = d.after us ∧ v.Goes us
  /-- The values are those that are wanted, or those that the resolver returned for the values that were
  found. -/
  choices : ∀ v ∈ vs, v.IsMade resolver?
  /-- What was found is what the values that had been put into the paragraph before have left. -/
  found : ∀ i, ((d.get? i).getD {}).Finds (choicesAt i vs)
  /-- The paragraphs that were there come first, and behind them those that were added, one for each step
  that found none, in the order of these steps. -/
  document : d' = d.after vs
  added : (added vs).map (·.index) = List.range' d.size (added vs).length
  /-- A paragraph that no step went to is as it was. -/
  untouched : ∀ i < d.size, (∀ v ∈ vs, v.index ≠ i) → d'.get? i = d.get? i
  /-- Where names were apart, each paragraph has what the values that were put into it leave of it. -/
  follows : (∀ p ∈ d.paragraphs, p.names.Nodup) →
    ∀ i p, d'.get? i = some p → ((d.get? i).getD {}).Follows (choicesAt i vs) p

/-- **Making changes.** If all changes are made, the document comes of the one before by their steps. -/
theorem isMadeFrom_of_applyChanges (h : Yields (d.applyChanges resolver? cs) s d' s') :
    IsMadeFrom resolver? d cs (steps resolver? ⟨d, []⟩ s cs) d' := by
  obtain ⟨a, s₁, happly, hresult⟩ := yields_bind_iff.mp h
  obtain ⟨rfl, -⟩ := yields_pure_iff.mp hresult
  obtain ⟨hreached, hchanges, hmade, hfound⟩ := reached_steps (reached_nil d) happly
  rw [List.nil_append] at hreached
  have hget : ∀ i p, a.document.get? i = some p →
      p = ((d.get? i).getD {}).putAll (choicesAt i (steps resolver? ⟨d, []⟩ s cs)) := by
    intro i p hp
    rw [← hreached.getD, hp]
    rfl
  refine ⟨hchanges, fun us v ws hvs => ?_, hmade, hreached.found, hreached.document, hreached.added,
    fun i hi hother => ?_, fun hnodup i p hp => ?_⟩
  · have hv := hfound us v ws hvs
    exact ⟨hv.document, hv.goes⟩
  · have hlt : i < a.document.size := by
      have hsize := hreached.size
      omega
    have hsome : d.get? i = some d.paragraphs[i] := List.getElem?_eq_getElem hi
    rw [hreached.get?, if_pos hlt, choicesAt_eq_nil hother, hsome]
    rfl
  · rw [hget i p hp]
    refine Paragraph.follows_putAll ?_ _
    cases hi : d.get? i with
    | none => exact List.nodup_nil
    | some q => exact hnodup q (List.mem_of_getElem? hi)

/-- A resolver that takes the value that is wanted. -/
def insisting : Option (Resolver (StateM Unit)) := some fun conflict => pure conflict.new

/-- Changes that give a field a value, take it away and want to replace it then. -/
def sectionChanges : List ParagraphChange :=
  [⟨⟨"Package".toList, "foo".toList⟩,
    [⟨"Section".toList, none, some "libs".toList⟩,
      ⟨"Section".toList, some "libs".toList, none⟩,
      ⟨"Section".toList, some "libs".toList, some "doc".toList⟩]⟩]

/-- The document after these changes and those with another key. -/
def sectionDocument : Document :=
  ⟨[⟨[⟨"Package".toList, "foo".toList⟩, ⟨"Section".toList, "doc".toList⟩]⟩,
    ⟨[⟨"Section".toList, "libs".toList⟩, ⟨"Package".toList, "bar".toList⟩]⟩]⟩

/-- A field that is taken away and comes again, and a paragraph that is added behind. -/
theorem isMadeFrom_of_applyChanges_section :
    Yields (fooDocument.applyChanges insisting (sectionChanges ++ barChanges)) () sectionDocument () ∧
    ∃ vs, vs.map (·.index) = [0, 1, 1] ∧
      IsMadeFrom insisting fooDocument (sectionChanges ++ barChanges) vs sectionDocument := by
  have h : Yields (fooDocument.applyChanges insisting (sectionChanges ++ barChanges)) ()
      sectionDocument () := rfl
  exact ⟨h, _, rfl, isMadeFrom_of_applyChanges h⟩

end Document

end Packaging.Stanza
