import Packaging.Proofs.Stanza.Names
import Packaging.Stanza.Change

/-!
# Lists of changes

Changes are made one after another, and each key is looked up in the document that the changes before
it have left. A `Visit` is one look-up, with the document before and after. A key that no paragraph has
gets a paragraph of its own, and keeps it; but a paragraph that is found for a key may lose it.

## What is proved

* `Document.applyChanges_preserves` — what setting and taking away fields keeps, changes keep.
* `Amended.forall_later` — what every change respects holds between one visit and all later ones.
* `Amended.Grows` — documents get longer only, and a key that was given a paragraph keeps it.
* `visits_of_applyChanges` — which paragraphs the changes with one key are made to.
-/

namespace Packaging.Stanza

variable {σ : Type} {resolver? : Option (Resolver (StateM σ))} {s s' : σ}

/-! ### Changes to a paragraph -/

/-- What setting and taking away the changed fields keeps, making the changes keeps, whatever the
resolver chooses. -/
theorem Paragraph.applyChanges_preserves {P : Paragraph → Prop} {key : ParagraphKey}
    {changes : List FieldChange} {p q : Paragraph}
    (hput : ∀ p, P p → ∀ c ∈ changes, ∀ value, P (p.put c.field value)) (hp : P p)
    (h : Yields (p.applyChanges resolver? key changes) s q s') : P q := by
  induction changes generalizing p s with
  | nil =>
    obtain ⟨rfl, -⟩ := yields_pure_iff.mp h
    exact hp
  | cons c changes ih =>
    obtain ⟨value, s₁, -, hrest⟩ := yields_bind_iff.mp h
    exact ih (fun p hp c' hc' => hput p hp c' (List.mem_cons_of_mem c hc'))
      (hput p hp c List.mem_cons_self value) hrest

theorem Paragraph.get?_put_of_ne {name other : Text} (h : name ≠ other) (p : Paragraph)
    (value? : Option Text) : (p.put name value?).get? other = p.get? other := by
  cases value? with
  | none => exact get?_erase_of_ne h p
  | some value => exact get?_set_of_ne h p value

/-- Changes to other fields leave a key to its paragraph. -/
theorem Paragraph.isKeyOf_applyChanges {key k : ParagraphKey} {changes : List FieldChange}
    {p q : Paragraph} (hother : ∀ c ∈ changes, c.field ≠ k.field)
    (h : Yields (p.applyChanges resolver? key changes) s q s') : k.isKeyOf q = k.isKeyOf p := by
  have hget : q.get? k.field = p.get? k.field := by
    refine applyChanges_preserves (P := fun q => q.get? k.field = p.get? k.field) ?_ rfl h
    intro q hq c hc value
    rw [get?_put_of_ne (hother c hc), hq]
  rw [ParagraphKey.isKeyOf, ParagraphKey.isKeyOf, hget]

/-- A paragraph at the end is the only one that is new. -/
theorem Document.get?_push_of_ne {d : Document} {p : Paragraph} {i : Nat} (h : i ≠ d.size) :
    (d.push p).get? i = d.get? i := by
  unfold get? push
  rcases Nat.lt_or_gt_of_ne h with hlt | hgt
  · exact List.getElem?_append_left hlt
  · have hlength : (d.paragraphs ++ [p]).length ≤ i := by
      rw [List.length_append]
      exact hgt
    rw [List.getElem?_eq_none hlength, List.getElem?_eq_none (Nat.le_of_lt hgt)]

namespace Document.Amended

variable {d d' : Document} {a a' b : Amended} {c : ParagraphChange} {cs : List ParagraphChange}

/-! ### One change -/

theorem locate_of_findIdx? {key : ParagraphKey} {i : Nat} (h : a.findIdx? key = some i) :
    a.locate key = (a, i) := by
  rw [locate, h]

theorem locate_of_none {key : ParagraphKey} (h : a.findIdx? key = none) :
    a.locate key = (⟨a.document.push {}, (key, a.document.size) :: a.created⟩, a.document.size) := by
  rw [locate, h]

/-- The paragraph that a key stands for. -/
def target (a : Amended) (key : ParagraphKey) : Paragraph :=
  ((a.locate key).1.document.get? (a.locate key).2).getD {}

/-- The paragraph that a key stands for is changed, and nothing else. -/
theorem yields_apply_iff : Yields (a.apply resolver? c) s a' s' ↔
    ∃ q, Yields ((a.target c.key).applyChanges resolver? c.key c.fields) s q s' ∧
      a' = { (a.locate c.key).1 with
        document := (a.locate c.key).1.document.set (a.locate c.key).2 q } := by
  unfold apply
  rw [yields_bind_iff]
  constructor
  · rintro ⟨q, s₁, hq, h⟩
    obtain ⟨rfl, rfl⟩ := yields_pure_iff.mp h
    exact ⟨q, hq, rfl⟩
  · rintro ⟨q, hq, rfl⟩
    exact ⟨q, s', hq, yields_pure_iff.mpr ⟨rfl, rfl⟩⟩

theorem applyAll_preserves {P : Amended → Prop}
    (hstep : ∀ a s a' s', ∀ c ∈ cs, P a → Yields (a.apply resolver? c) s a' s' → P a') (ha : P a)
    (h : Yields (applyAll resolver? a cs) s b s') : P b := by
  induction cs generalizing a s with
  | nil =>
    obtain ⟨rfl, -⟩ := yields_pure_iff.mp h
    exact ha
  | cons c cs ih =>
    obtain ⟨a₁, s₁, hc, hrest⟩ := yields_bind_iff.mp h
    exact ih (fun a s a' s' c' hc' => hstep a s a' s' c' (List.mem_cons_of_mem c hc'))
      (hstep a s a₁ s₁ c List.mem_cons_self ha hc) hrest

/-! ### Visits -/

/-- A key that is looked up, with the document that the change finds and the one that it leaves. -/
structure Visit where
  found : Amended
  change : ParagraphChange
  left : Amended

/-- The visits that changes make, up to a conflict. -/
def visits (resolver? : Option (Resolver (StateM σ))) (a : Amended) (s : σ) :
    List ParagraphChange → List Visit
  | [] => []
  | c :: cs =>
    match ((a.apply resolver? c).run.run s).run with
    | (.ok a', s') => ⟨a, c, a'⟩ :: visits resolver? a' s' cs
    | (.error _, _) => []

namespace Visit

def key (v : Visit) : ParagraphKey := v.change.key

/-- The index of the paragraph that is changed. -/
def index (v : Visit) : Nat := (v.found.locate v.key).2

/-- The index of the first paragraph that has the key when the change comes. -/
def first? (v : Visit) : Option Nat := v.found.document.paragraphs.findIdx? v.key.isKeyOf

end Visit

/-- Without a conflict, every change makes a visit. -/
theorem map_change_visits (h : Yields (applyAll resolver? a cs) s b s') :
    (visits resolver? a s cs).map Visit.change = cs := by
  induction cs generalizing a s with
  | nil => rfl
  | cons c cs ih =>
    obtain ⟨a₁, s₁, hc, hrest⟩ := yields_bind_iff.mp h
    rw [Yields] at hc
    rw [visits, hc, List.map_cons, ih hrest]

theorem yields_of_mem_visits {v : Visit} (h : v ∈ visits resolver? a s cs) :
    v.change ∈ cs ∧ ∃ s s', Yields (v.found.apply resolver? v.change) s v.left s' := by
  induction cs generalizing a s with
  | nil => cases h
  | cons c cs ih =>
    rw [visits] at h
    split at h
    · rename_i a' s' hc
      rcases List.mem_cons.mp h with rfl | h
      · exact ⟨List.mem_cons_self, s, s', hc⟩
      · obtain ⟨hmem, hyields⟩ := ih h
        exact ⟨List.mem_cons_of_mem c hmem, hyields⟩
    · cases h

section Relations

variable {R : Amended → Amended → Prop} (hrefl : ∀ a, R a a)
  (htrans : ∀ {a b c}, R a b → R b c → R a c)

include hrefl htrans

theorem forall_visits
    (hstep : ∀ a s a' s', ∀ c ∈ cs, Yields (a.apply resolver? c) s a' s' → R a a') :
    ∀ w ∈ visits resolver? a s cs, R a w.found := by
  induction cs generalizing a s with
  | nil => nofun
  | cons c cs ih =>
    intro w hw
    rw [visits] at hw
    split at hw
    · rename_i a' s' hc
      rcases List.mem_cons.mp hw with rfl | hw
      · exact hrefl a
      · exact htrans (hstep a s a' s' c List.mem_cons_self hc)
          (ih (fun a s a' s' c' hc' => hstep a s a' s' c' (List.mem_cons_of_mem c hc')) w hw)
    · cases hw

/-- What holds between the documents before and after every change holds between one visit and all
later ones. -/
theorem forall_later {us ws : List Visit} {v : Visit}
    (hstep : ∀ a s a' s', ∀ c ∈ cs, Yields (a.apply resolver? c) s a' s' → R a a')
    (hvisits : visits resolver? a s cs = us ++ v :: ws) : ∀ w ∈ ws, R v.left w.found := by
  induction cs generalizing a s us with
  | nil => simp [visits] at hvisits
  | cons c cs ih =>
    have hrest : ∀ a s a' s', ∀ c' ∈ cs, Yields (a.apply resolver? c') s a' s' → R a a' :=
      fun a s a' s' c' hc' => hstep a s a' s' c' (List.mem_cons_of_mem c hc')
    rw [visits] at hvisits
    split at hvisits
    · cases us with
      | nil =>
        cases hvisits
        exact forall_visits hrefl htrans hrest
      | cons u us => exact ih hrest (List.cons.inj hvisits).2
    · simp at hvisits

end Relations

/-! ### Keys that were given a paragraph -/

/-- A document gets longer only, and a key that was given a paragraph keeps it. -/
structure Grows (a b : Amended) : Prop where
  size : a.document.size ≤ b.document.size
  kept : ∀ key i, a.created.lookup key = some i → b.created.lookup key = some i
  new : ∀ key i, a.created.lookup key = none → b.created.lookup key = some i → a.document.size ≤ i

theorem Grows.refl (a : Amended) : a.Grows a :=
  ⟨Nat.le_refl _, fun _ _ => id, fun key i hnone hsome => by simp [hnone] at hsome⟩

theorem Grows.trans {a b c : Amended} (hab : a.Grows b) (hbc : b.Grows c) : a.Grows c := by
  refine ⟨Nat.le_trans hab.size hbc.size, fun key i h => hbc.kept key i (hab.kept key i h), ?_⟩
  intro key i hnone hsome
  cases hb : b.created.lookup key with
  | none => exact Nat.le_trans hab.size (hbc.new key i hb hsome)
  | some j =>
    have hkept := hbc.kept key j hb
    rw [hsome, Option.some.injEq] at hkept
    subst hkept
    exact hab.new key i hnone hb

theorem grows_locate (a : Amended) (key : ParagraphKey) : a.Grows (a.locate key).1 := by
  cases hfind : a.findIdx? key with
  | some i =>
    rw [locate_of_findIdx? hfind]
    exact .refl a
  | none =>
    rw [locate_of_none hfind]
    have hnone : a.created.lookup key = none := (Option.or_eq_none_iff.mp hfind).1
    refine ⟨by simp [size, push], fun k i hk => ?_, fun k i hk hsome => ?_⟩
    · have hne : (k == key) = false := by
        rw [beq_eq_false_iff_ne]
        rintro rfl
        rw [hnone] at hk
        cases hk
      rw [List.lookup_cons, hne]
      exact hk
    · rw [List.lookup_cons] at hsome
      split at hsome
      · exact Nat.le_of_eq (Option.some.inj hsome)
      · rw [hk] at hsome
        cases hsome

theorem created_apply (h : Yields (a.apply resolver? c) s a' s') :
    a'.created = (a.locate c.key).1.created ∧
      a'.document.size = (a.locate c.key).1.document.size := by
  obtain ⟨q, -, rfl⟩ := yields_apply_iff.mp h
  exact ⟨rfl, by simp [size, set]⟩

theorem grows_apply (h : Yields (a.apply resolver? c) s a' s') : a.Grows a' := by
  obtain ⟨hcreated, hsize⟩ := created_apply h
  have hgrows := grows_locate a c.key
  exact ⟨hsize ▸ hgrows.size, hcreated ▸ hgrows.kept, hcreated ▸ hgrows.new⟩

/-- Up to a visit, a key is given no paragraph if it has one whenever it is looked up. -/
theorem lookup_found_eq_none {key : ParagraphKey} {us ws : List Visit} {v : Visit}
    (hvisits : visits resolver? a s cs = us ++ v :: ws) (ha : a.created.lookup key = none)
    (hus : ∀ u ∈ us, u.key = key → u.first? ≠ none) : v.found.created.lookup key = none := by
  induction cs generalizing a s us with
  | nil => simp [visits] at hvisits
  | cons c cs ih =>
    rw [visits] at hvisits
    split at hvisits
    · rename_i a' s' hc
      cases us with
      | nil =>
        cases hvisits
        exact ha
      | cons u us =>
        obtain ⟨rfl, hrest⟩ := List.cons.inj hvisits
        obtain ⟨hu, hus⟩ := List.forall_mem_cons.mp hus
        refine ih hrest ?_ hus
        rw [(created_apply hc).1]
        cases hfind : a.findIdx? c.key with
        | some i => rwa [locate_of_findIdx? hfind]
        | none =>
          have hne : (key == c.key) = false := by
            rw [beq_eq_false_iff_ne]
            exact fun hsame => hu hsame.symm (Option.or_eq_none_iff.mp hfind).2
          rw [locate_of_none hfind, List.lookup_cons, hne]
          exact ha
    · simp at hvisits

/-! ### The paragraph of a visit -/

namespace Visit

variable {v : Visit} {i : Nat}

theorem index_of_lookup (h : v.found.created.lookup v.key = some i) : v.index = i := by
  rw [index, locate_of_findIdx? (i := i) (by rw [findIdx?, h, Option.some_or])]

theorem index_of_first? (h : v.found.created.lookup v.key = none) (hfirst : v.first? = some i) :
    v.index = i := by
  rw [index, locate_of_findIdx? (i := i) (by rw [findIdx?, h, Option.none_or]; exact hfirst)]

theorem index_of_none (h : v.found.created.lookup v.key = none) (hfirst : v.first? = none) :
    v.index = v.found.document.size := by
  rw [index, locate_of_none (by rw [findIdx?, h, Option.none_or]; exact hfirst)]

theorem lt_size_of_first? (h : v.first? = some i) : i < v.found.document.size :=
  (List.findIdx?_eq_some_iff_getElem.mp h).1

/-- A paragraph that is added for a key stands behind those that were there before. So a visit to one of
these has found it. -/
theorem first?_of_index_eq {a : Amended} (hgrows : a.Grows v.found)
    (hlookup : a.created.lookup v.key = none) (hlt : i < a.document.size) (h : v.index = i) :
    v.first? = some i := by
  cases hcreated : v.found.created.lookup v.key with
  | some j =>
    have hnew := hgrows.new v.key j hlookup hcreated
    rw [index_of_lookup hcreated] at h
    omega
  | none =>
    cases hfirst : v.first? with
    | none =>
      have hsize := hgrows.size
      rw [index_of_none hcreated hfirst] at h
      omega
    | some j => rw [← h, index_of_first? hcreated hfirst]

/-- A visit that adds a paragraph remembers it. -/
theorem lookup_left (h : Yields (v.found.apply resolver? v.change) s v.left s')
    (hnone : v.found.created.lookup v.key = none) (hfirst : v.first? = none) :
    v.left.created.lookup v.key = some v.index := by
  have hfind : v.found.findIdx? v.change.key = none := Option.or_eq_none_iff.mpr ⟨hnone, hfirst⟩
  rw [(created_apply h).1, index_of_none hnone hfirst, locate_of_none hfind]
  exact List.lookup_cons_self

/-- All other paragraphs stay as they are. -/
theorem get?_left_of_ne (h : Yields (v.found.apply resolver? v.change) s v.left s')
    (hi : i ≠ v.index) : v.left.document.get? i = v.found.document.get? i := by
  obtain ⟨q, -, hleft⟩ := yields_apply_iff.mp h
  have hset : v.left.document.get? i = (v.found.locate v.key).1.document.get? i := by
    rw [hleft]
    exact List.getElem?_set_ne (Ne.symm hi)
  rw [hset]
  cases hfind : v.found.findIdx? v.key with
  | some j => rw [locate_of_findIdx? hfind]
  | none =>
    rw [index, locate_of_none hfind] at hi
    rw [locate_of_none hfind]
    exact get?_push_of_ne hi

end Visit

/-! ### Keys that are looked up again -/

section Again

variable {us ws : List Visit} {v : Visit}

/-- Nothing is remembered for a key that comes for the first time. -/
theorem lookup_of_first_visit (hvisits : visits resolver? ⟨d, []⟩ s cs = us ++ v :: ws)
    (hus : ∀ u ∈ us, u.key ≠ v.key) : v.found.created.lookup v.key = none :=
  lookup_found_eq_none hvisits rfl fun u hu hkey => absurd hkey (hus u hu)

/-- **One paragraph for one key.** All visits of a key go to the paragraph of the first of them exactly
if that one added it, or all later ones find that it is still the first paragraph with the key. -/
theorem index_eq_iff (hvisits : visits resolver? ⟨d, []⟩ s cs = us ++ v :: ws)
    (hus : ∀ u ∈ us, u.key ≠ v.key) :
    (∀ w ∈ ws, w.key = v.key → w.index = v.index) ↔
      v.first? = none ∨ ∀ w ∈ ws, w.key = v.key → w.first? = some v.index := by
  have hlookup := lookup_of_first_visit hvisits hus
  have hmem : v ∈ visits resolver? ⟨d, []⟩ s cs := by
    rw [hvisits]
    exact List.mem_append_right us List.mem_cons_self
  obtain ⟨-, s₁, s₂, happly⟩ := yields_of_mem_visits hmem
  have hgrows : ∀ w ∈ ws, v.left.Grows w.found :=
    forall_later Grows.refl Grows.trans (fun _ _ _ _ _ _ => grows_apply) hvisits
  cases hfirst : v.first? with
  | none =>
    refine iff_of_true (fun w hw hkey => Visit.index_of_lookup ?_) (.inl rfl)
    rw [hkey]
    exact (hgrows w hw).kept _ _ (Visit.lookup_left happly hlookup hfirst)
  | some i =>
    have hindex : v.index = i := Visit.index_of_first? hlookup hfirst
    have hlt : i < v.found.document.size := Visit.lt_size_of_first? hfirst
    rw [hindex]
    constructor
    · intro hsame
      refine .inr fun w hw hkey => ?_
      have hfound : v.found.Grows w.found := (grows_apply happly).trans (hgrows w hw)
      rw [← hkey] at hlookup
      exact Visit.first?_of_index_eq hfound hlookup hlt (hsame w hw hkey)
    · rintro (hnone | hall) w hw hkey
      · cases hnone
      · obtain ⟨us', ws', rfl⟩ := List.append_of_mem hw
        have hbetween : visits resolver? ⟨d, []⟩ s cs = (us ++ v :: us') ++ w :: ws' := by
          rw [hvisits, List.append_assoc, List.cons_append]
        refine Visit.index_of_first? (lookup_found_eq_none hbetween rfl fun u hu hsame => ?_)
          (hall w hw hkey)
        rw [hkey] at hsame
        rcases List.mem_append.mp hu with hu | hu
        · exact absurd hsame (hus u hu)
        rcases List.mem_cons.mp hu with rfl | hu
        · rw [hfirst]
          exact Option.some_ne_none i
        · rw [hall u (List.mem_append_left _ hu) hsame]
          exact Option.some_ne_none i

end Again

/-! ### Keys that no change is about -/

theorem findIdx?_set_of_eq {f : Paragraph → Bool} {ps : List Paragraph} {i : Nat} {p : Paragraph}
    (h : ∀ q, ps[i]? = some q → f p = f q) : (ps.set i p).findIdx? f = ps.findIdx? f := by
  have hmap : (ps.set i p).map f = ps.map f := by
    rw [List.map_set]
    refine List.ext_getElem? fun j => ?_
    rw [List.getElem?_set]
    split
    · rename_i hij
      subst hij
      rw [List.getElem?_map]
      cases hp : ps[i]? with
      | none => simp [List.getElem?_eq_none_iff.mp hp]
      | some q => simp [h q hp, (List.getElem?_eq_some_iff.mp hp).1]
    · rfl
  have hfind : ∀ ps : List Paragraph, ps.findIdx? f = (ps.map f).findIdx? id := by
    intro ps
    rw [List.findIdx?_map]
    rfl
  rw [hfind, hfind, hmap]

/-- While no change is about its field, the first paragraph of a key stays the first one. -/
theorem findIdx?_apply {key : ParagraphKey} {i : Nat} (hother : ∀ f ∈ c.fields, f.field ≠ key.field)
    (h : Yields (a.apply resolver? c) s a' s')
    (hi : a.document.paragraphs.findIdx? key.isKeyOf = some i) :
    a'.document.paragraphs.findIdx? key.isKeyOf = some i := by
  obtain ⟨q, hq, rfl⟩ := yields_apply_iff.mp h
  have hlocate : (a.locate c.key).1.document.paragraphs.findIdx? key.isKeyOf = some i := by
    cases hfind : a.findIdx? c.key with
    | some j => rwa [locate_of_findIdx? hfind]
    | none =>
      rw [locate_of_none hfind]
      change (a.document.paragraphs ++ [_]).findIdx? key.isKeyOf = some i
      rw [List.findIdx?_append, hi, Option.some_or]
  rw [← hlocate]
  refine findIdx?_set_of_eq fun p hp => ?_
  have hget : (a.locate c.key).1.document.get? (a.locate c.key).2 = some p := hp
  rw [target, hget, Option.getD_some] at hq
  exact Paragraph.isKeyOf_applyChanges hother hq

/-- Among the visits of a key there is a first one. -/
theorem exists_first_visit {vs : List Visit} {w : Visit} (hw : w ∈ vs) :
    ∃ us v ws, vs = us ++ v :: ws ∧ v.key = w.key ∧ ∀ u ∈ us, u.key ≠ w.key := by
  cases hfind : vs.find? (·.key = w.key) with
  | none => exact absurd (by simp) (List.find?_eq_none.mp hfind w hw)
  | some v =>
    obtain ⟨hv, us, ws, hsplit, hus⟩ := List.find?_eq_some_iff_append.mp hfind
    exact ⟨us, v, ws, hsplit, by simpa using hv, fun u hu => by simpa using hus u hu⟩

/-- All visits of a key go to one paragraph if no change is about its field. -/
theorem index_eq_of_other {v w : Visit} (hv : v ∈ visits resolver? ⟨d, []⟩ s cs)
    (hw : w ∈ visits resolver? ⟨d, []⟩ s cs) (hkey : w.key = v.key)
    (hother : ∀ c ∈ cs, ∀ f ∈ c.fields, f.field ≠ v.key.field) : w.index = v.index := by
  obtain ⟨us, u, ws, hvisits, hu, hus⟩ := exists_first_visit hv
  have hmem : u ∈ visits resolver? ⟨d, []⟩ s cs := by
    rw [hvisits]
    exact List.mem_append_right us List.mem_cons_self
  obtain ⟨hchange, s₁, s₂, happly⟩ := yields_of_mem_visits hmem
  rw [← hu] at hus hother
  have hlater : ∀ w ∈ ws, w.key = u.key → w.index = u.index := by
    rw [index_eq_iff hvisits hus]
    cases hfirst : u.first? with
    | none => exact .inl rfl
    | some i =>
      refine .inr fun w hw hsame => ?_
      let R (a b : Amended) : Prop := a.document.paragraphs.findIdx? u.key.isKeyOf = some i →
        b.document.paragraphs.findIdx? u.key.isKeyOf = some i
      have hkept : R u.left w.found :=
        forall_later (R := R) (fun _ => id) (fun hab hbc ha => hbc (hab ha))
          (fun _ _ _ _ c hc => findIdx?_apply (hother c hc)) hvisits w hw
      rw [Visit.index_of_first? (lookup_of_first_visit hvisits hus) hfirst, Visit.first?, hsame]
      exact hkept (findIdx?_apply (hother u.change hchange) happly hfirst)
  have hindex : ∀ w ∈ us ++ u :: ws, w.key = u.key → w.index = u.index := by
    intro w hw hsame
    rcases List.mem_append.mp hw with hw | hw
    · exact absurd hsame (hus w hw)
    rcases List.mem_cons.mp hw with rfl | hw
    · rfl
    · exact hlater w hw hsame
  rw [hvisits] at hv hw
  rw [hindex w hw (hkey.trans hu.symm), hindex v hv hu.symm]

end Document.Amended

/-! ### Making changes -/

namespace Document

open Amended

variable {d d' : Document} {cs : List ParagraphChange}

/-- What setting and taking away fields keeps, changes keep in every paragraph. -/
theorem applyChanges_preserves {P : Paragraph → Prop} (hput : ∀ p, P p → ∀ name value, P (p.put name value))
    (hempty : P {}) (hd : ∀ p ∈ d.paragraphs, P p) (h : Yields (d.applyChanges resolver? cs) s d' s') :
    ∀ p ∈ d'.paragraphs, P p := by
  obtain ⟨a, s₁, happly, hresult⟩ := yields_bind_iff.mp h
  obtain ⟨rfl, -⟩ := yields_pure_iff.mp hresult
  refine applyAll_preserves (P := fun a => ∀ p ∈ a.document.paragraphs, P p) ?_ hd happly
  intro a s a' s' c _ ha hc
  obtain ⟨q, hq, rfl⟩ := yields_apply_iff.mp hc
  have hlocate : ∀ p ∈ (a.locate c.key).1.document.paragraphs, P p := by
    cases hfind : a.findIdx? c.key with
    | some i => rwa [locate_of_findIdx? hfind]
    | none =>
      rw [locate_of_none hfind]
      exact List.forall_mem_append.mpr ⟨ha, List.forall_mem_singleton.mpr hempty⟩
  have hstart : P (a.target c.key) := by
    unfold target
    cases hget : (a.locate c.key).1.document.get? (a.locate c.key).2 with
    | some p => exact hlocate p (List.mem_of_getElem? hget)
    | none => exact hempty
  intro p hp
  rcases List.mem_or_eq_of_mem_set hp with hp | rfl
  · exact hlocate p hp
  · exact Paragraph.applyChanges_preserves (fun p hp c _ => hput p hp c.field) hstart hq

/-- **Which paragraph a change is made to.** If all changes are made, each of them goes to one paragraph
and leaves the others alone. Those with one key go to the same paragraph exactly if there was none with
this key when the first of them came, or the one that it went to is the first with this key whenever a
later one comes; and so they do if no change is about the field of the key. -/
theorem visits_of_applyChanges (h : Yields (d.applyChanges resolver? cs) s d' s') :
    (visits resolver? ⟨d, []⟩ s cs).map Visit.change = cs ∧
    (∀ v ∈ visits resolver? ⟨d, []⟩ s cs, ∀ i, i ≠ v.index →
      v.left.document.get? i = v.found.document.get? i) ∧
    (∀ us v ws, visits resolver? ⟨d, []⟩ s cs = us ++ v :: ws → (∀ u ∈ us, u.key ≠ v.key) →
      ((∀ w ∈ ws, w.key = v.key → w.index = v.index) ↔
        v.first? = none ∨ ∀ w ∈ ws, w.key = v.key → w.first? = some v.index)) ∧
    ∀ v ∈ visits resolver? ⟨d, []⟩ s cs, ∀ w ∈ visits resolver? ⟨d, []⟩ s cs, w.key = v.key →
      (∀ c ∈ cs, ∀ f ∈ c.fields, f.field ≠ v.key.field) → w.index = v.index := by
  obtain ⟨a, s₁, happly, -⟩ := yields_bind_iff.mp h
  refine ⟨map_change_visits happly, ?_, ?_, ?_⟩
  · intro v hv i hi
    obtain ⟨-, s₂, s₃, hyields⟩ := yields_of_mem_visits hv
    exact Visit.get?_left_of_ne hyields hi
  · intro us v ws hvisits hus
    exact index_eq_iff hvisits hus
  · intro v hv w hw hkey hother
    exact index_eq_of_other hv hw hkey hother

/-- One paragraph. -/
def fooDocument : Document := ⟨[⟨[⟨"Package".toList, "foo".toList⟩]⟩]⟩

/-- Changes with the key of a paragraph that is to be added. -/
def barChanges : List ParagraphChange :=
  let key : ParagraphKey := ⟨"Package".toList, "bar".toList⟩
  [⟨key, [⟨"Section".toList, none, some "libs".toList⟩]⟩,
    ⟨key, [⟨"Package".toList, none, some "bar".toList⟩]⟩]

/-- Changes of which the first one takes the key away that the second one comes with. -/
def fooChanges : List ParagraphChange :=
  let key : ParagraphKey := ⟨"Package".toList, "foo".toList⟩
  [⟨key, [⟨"Package".toList, some "foo".toList, some "bar".toList⟩]⟩,
    ⟨key, [⟨"Section".toList, none, some "libs".toList⟩]⟩]

/-- No resolver: a conflict ends the changes. -/
def strict : Option (Resolver (StateM Unit)) := none

/-- A paragraph that was added for a key gets the later changes with this key. -/
theorem visits_of_applyChanges_bar :
    Yields (fooDocument.applyChanges strict barChanges) () ⟨fooDocument.paragraphs ++
      [⟨[⟨"Section".toList, "libs".toList⟩, ⟨"Package".toList, "bar".toList⟩]⟩]⟩ () ∧
    ∃ v w, visits strict ⟨fooDocument, []⟩ () barChanges = [v, w] ∧ w.index = v.index := by
  have h : Yields (fooDocument.applyChanges strict barChanges) () ⟨fooDocument.paragraphs ++
      [⟨[⟨"Section".toList, "libs".toList⟩, ⟨"Package".toList, "bar".toList⟩]⟩]⟩ () := rfl
  refine ⟨h, _, _, rfl, ?_⟩
  exact ((visits_of_applyChanges h).2.2.1 [] _ [_] rfl nofun).mpr (.inl rfl) _ List.mem_cons_self rfl

/-- A paragraph that loses its key does not get the later ones: another paragraph is added for them. -/
theorem index_ne_of_applyChanges_foo :
    Yields (fooDocument.applyChanges strict fooChanges) ()
      ⟨[⟨[⟨"Package".toList, "bar".toList⟩]⟩, ⟨[⟨"Section".toList, "libs".toList⟩]⟩]⟩ () ∧
    ∃ v w, visits strict ⟨fooDocument, []⟩ () fooChanges = [v, w] ∧ w.key = v.key ∧
      v.index = 0 ∧ w.index = 1 := by
  exact ⟨rfl, _, _, rfl, rfl, rfl, rfl⟩

end Document

end Packaging.Stanza
