import Packaging.Proofs.Stanza.Changes

/-!
# Conflicts

A change that does not find the value that it expects is a conflict. Up to the first one nothing depends
on the resolver: the changes are made as they are wanted. Then the resolver is called, or without one the
changes end. All of this happens to a copy, which takes the place of the document when it is done.

## What is proved

* `Document.applyChanges_of_firstConflict?_eq_none` — without a conflict the document gets the values that
  are wanted.
* `exists_resume_of_first?` — all runs come to the first conflict in the same way, settle it and go on.
* `Document.mirrors_applyChanges` — to note the calls of the resolver does not change anything else.
* `exists_outcome_amend` — the document of the caller is replaced if all changes are made, and only then.
* `amend_with_and_without` — what changes come to without a resolver, and with one.
-/

namespace Packaging.Stanza

open Text

variable {σ : Type} {m : Type → Type} [Monad m] {resolver? : Option (Resolver m)} {e : ChangeConflict}

/-! ### The first conflict -/

namespace ChangeConflict

/-- The first of the changes that did not find the value that they expect. -/
def first? (met : List ChangeConflict) : Option ChangeConflict :=
  met.find? fun c => c.actual ≠ c.expected

variable {c : ChangeConflict} {met : List ChangeConflict}

theorem first?_cons_of_eq (h : c.actual = c.expected) : first? (c :: met) = first? met :=
  List.find?_cons_of_neg (by simpa using h)

theorem first?_cons_of_ne (h : c.actual ≠ c.expected) : first? (c :: met) = some c :=
  List.find?_cons_of_pos (by simpa using h)

theorem first?_append (met met' : List ChangeConflict) :
    first? (met ++ met') = (first? met).or (first? met') := List.find?_append

end ChangeConflict

open ChangeConflict

/-- What is done about a conflict: the resolver is called for it, or without one it ends the changes. -/
def settle (resolver? : Option (Resolver m)) (conflict : ChangeConflict) :
    ExceptT ChangeConflict m (Option Text) :=
  match resolver? with
  | some resolve => resolve conflict
  | none => throw conflict

namespace Paragraph

variable {p : Paragraph} {key : ParagraphKey} {f : FieldChange} {fs : List FieldChange}

/-- A change with the value that it finds. -/
def meet (key : ParagraphKey) (p : Paragraph) (f : FieldChange) : ChangeConflict :=
  ⟨key, f.field, f.old, p.get? f.field, f.new⟩

/-- The changes, each with the value that it finds if those before it are made as they are wanted. -/
def encounters (key : ParagraphKey) (p : Paragraph) : List FieldChange → List ChangeConflict
  | [] => []
  | f :: fs => p.meet key f :: encounters key (p.put f.field f.new) fs

/-- The paragraph with all values that are wanted. -/
def force (p : Paragraph) (fs : List FieldChange) : Paragraph :=
  fs.foldl (fun p f => p.put f.field f.new) p

theorem chooseValue_eq : p.chooseValue resolver? key f =
    if p.get? f.field = f.old then pure f.new else settle resolver? (p.meet key f) := by
  cases resolver? <;> rfl

theorem applyChanges_cons_of_ne (h : p.get? f.field ≠ f.old) :
    p.applyChanges resolver? key (f :: fs) = settle resolver? (p.meet key f) >>= fun value =>
      (p.put f.field value).applyChanges resolver? key fs := by
  rw [applyChanges, chooseValue_eq, if_neg h]

variable [LawfulMonad m]

theorem applyChanges_cons_of_eq (h : p.get? f.field = f.old) :
    p.applyChanges resolver? key (f :: fs) =
      (p.put f.field f.new).applyChanges resolver? key fs := by
  rw [applyChanges, chooseValue_eq, if_pos h, pure_bind]

/-- Without a conflict the resolver has no part in the changes. -/
theorem applyChanges_of_first?_eq_none (h : first? (p.encounters key fs) = none) :
    p.applyChanges resolver? key fs = pure (p.force fs) := by
  induction fs generalizing p with
  | nil => rfl
  | cons f fs ih =>
    rw [encounters] at h
    by_cases hmeet : p.get? f.field = f.old
    · rw [first?_cons_of_eq hmeet] at h
      rw [applyChanges_cons_of_eq hmeet, ih h]
      rfl
    · rw [first?_cons_of_ne hmeet] at h
      cases h

/-- The changes are made as they are wanted up to the first conflict. -/
theorem exists_rest_of_first? (h : first? (p.encounters key fs) = some e) :
    e.key = key ∧ ∃ q field rest, ∀ {m : Type → Type} [Monad m] [LawfulMonad m]
      (resolver? : Option (Resolver m)), p.applyChanges resolver? key fs =
        settle resolver? e >>= fun value => (put q field value).applyChanges resolver? key rest := by
  induction fs generalizing p with
  | nil => cases h
  | cons f fs ih =>
    rw [encounters] at h
    by_cases hmeet : p.get? f.field = f.old
    · rw [first?_cons_of_eq hmeet] at h
      obtain ⟨hkey, q, field, rest, hrest⟩ := ih h
      refine ⟨hkey, q, field, rest, fun resolver? => ?_⟩
      rw [applyChanges_cons_of_eq hmeet, hrest]
    · rw [first?_cons_of_ne hmeet] at h
      cases h
      exact ⟨rfl, p, f.field, fs, fun resolver? => applyChanges_cons_of_ne hmeet⟩

end Paragraph

namespace Document.Amended

variable {a : Amended} {c : ParagraphChange} {cs : List ParagraphChange}

/-- The document with another paragraph for a key. -/
def fill (a : Amended) (key : ParagraphKey) (p : Paragraph) : Amended :=
  { (a.locate key).1 with document := (a.locate key).1.document.set (a.locate key).2 p }

/-- The document with the values that a change wants. -/
def force (a : Amended) (c : ParagraphChange) : Amended :=
  a.fill c.key ((a.target c.key).force c.fields)

/-- The changes, each with the value that it finds if those before it are made as they are wanted. -/
def encounters (a : Amended) : List ParagraphChange → List ChangeConflict
  | [] => []
  | c :: cs => (a.target c.key).encounters c.key c.fields ++ (a.force c).encounters cs

theorem apply_eq (a : Amended) (c : ParagraphChange) : a.apply resolver? c =
    (a.target c.key).applyChanges resolver? c.key c.fields >>= fun p => pure (a.fill c.key p) := rfl

/-- What is left to do when a conflict is settled. -/
structure Rest where
  key : ParagraphKey
  amended : Amended
  paragraph : Paragraph
  field : Text
  fields : List FieldChange
  changes : List ParagraphChange

/-- Goes on with the value that was chosen. -/
def Rest.resume (resolver? : Option (Resolver m)) (r : Rest) (value : Option Text) :
    ExceptT ChangeConflict m Amended := do
  let p ← (r.paragraph.put r.field value).applyChanges resolver? r.key r.fields
  applyAll resolver? (r.amended.fill r.key p) r.changes

variable [LawfulMonad m]

theorem applyAll_cons_of_first?_eq_none
    (h : first? ((a.target c.key).encounters c.key c.fields) = none) :
    applyAll resolver? a (c :: cs) = applyAll resolver? (a.force c) cs := by
  rw [applyAll, apply_eq, Paragraph.applyChanges_of_first?_eq_none h, pure_bind, pure_bind]
  rfl

theorem applyAll_of_first?_eq_none (h : first? (a.encounters cs) = none) :
    applyAll resolver? a cs = pure (cs.foldl force a) := by
  induction cs generalizing a with
  | nil => rfl
  | cons c cs ih =>
    rw [encounters, first?_append, Option.or_eq_none_iff] at h
    rw [applyAll_cons_of_first?_eq_none h.1, ih h.2]
    rfl

/-- **The first conflict.** With any resolver, or without one, the changes come to the first conflict,
settle it and go on from there. -/
theorem exists_resume_of_first? (h : first? (a.encounters cs) = some e) :
    ∃ r : Rest, ∀ {m : Type → Type} [Monad m] [LawfulMonad m] (resolver? : Option (Resolver m)),
      applyAll resolver? a cs = settle resolver? e >>= r.resume resolver? := by
  induction cs generalizing a with
  | nil => cases h
  | cons c cs ih =>
    rw [encounters, first?_append] at h
    -- The first conflict comes behind this change, or is one of its fields.
    cases hfields : first? ((a.target c.key).encounters c.key c.fields) with
    | none =>
      rw [hfields, Option.none_or] at h
      obtain ⟨r, hr⟩ := ih h
      refine ⟨r, fun resolver? => ?_⟩
      rw [applyAll_cons_of_first?_eq_none hfields, hr]
    | some e' =>
      rw [hfields, Option.some_or] at h
      cases h
      obtain ⟨-, q, field, rest, hrest⟩ := Paragraph.exists_rest_of_first? hfields
      refine ⟨⟨c.key, a, q, field, rest, cs⟩, fun resolver? => ?_⟩
      rw [applyAll, apply_eq, hrest, bind_assoc, bind_assoc]
      refine congrArg (settle resolver? e >>= ·) (funext fun value => ?_)
      simp only [pure_bind]
      rfl

end Document.Amended

/-! ### Changes as their caller sees them -/

/-- What the caller of the changes has: the document, what the resolver works with, and the calls of the
resolver so far. -/
structure Caller (σ : Type) where
  document : Document
  own : σ
  calls : List ChangeConflict

/-- The resolver, which is handed nothing but the conflict, with a note of every call. -/
def Resolver.noted (resolve : Resolver (StateM σ)) : Resolver (StateM (Caller σ)) := fun conflict =>
  ExceptT.mk fun w =>
    let (value, own) := outcome (resolve conflict) w.own
    (value, { w with own, calls := w.calls ++ [conflict] })

/-- Makes changes to the document of the caller, all of them or none. -/
def amend (resolver? : Option (Resolver (StateM σ))) (cs : List ParagraphChange) :
    ExceptT ChangeConflict (StateM (Caller σ)) Unit := do
  let w ← get
  let d ← w.document.applyChanges (resolver?.map Resolver.noted) cs
  modify fun w => { w with document := d }

section Mirrors

variable {α β : Type} {x : ExceptT ChangeConflict (StateM σ) α}
  {y : ExceptT ChangeConflict (StateM (Caller σ)) α} {resolver? : Option (Resolver (StateM σ))}

/-- The computation does the same with what the caller has. It does not reach the document, and no note of
a call gets lost. -/
def Mirrors (x : ExceptT ChangeConflict (StateM σ) α)
    (y : ExceptT ChangeConflict (StateM (Caller σ)) α) : Prop :=
  ∀ w, ∃ more, outcome y w =
    ((outcome x w.own).1, ⟨w.document, (outcome x w.own).2, w.calls ++ more⟩)

theorem mirrors_pure (a : α) : Mirrors (pure a : ExceptT _ (StateM σ) α) (pure a) := fun w =>
  ⟨[], by rw [List.append_nil]; rfl⟩

theorem mirrors_noted (resolve : Resolver (StateM σ)) (conflict : ChangeConflict) :
    Mirrors (resolve conflict) (resolve.noted conflict) := fun _ => ⟨[conflict], rfl⟩

theorem mirrors_bind {f : α → ExceptT ChangeConflict (StateM σ) β}
    {g : α → ExceptT ChangeConflict (StateM (Caller σ)) β} (hx : Mirrors x y)
    (hf : ∀ a, Mirrors (f a) (g a)) : Mirrors (x >>= f) (y >>= g) := by
  intro w
  obtain ⟨more, hy⟩ := hx w
  rw [outcome_bind, outcome_bind, hy]
  rcases outcome x w.own with ⟨e | a, own⟩
  · exact ⟨more, rfl⟩
  · obtain ⟨more', hg⟩ := hf a ⟨w.document, own, w.calls ++ more⟩
    refine ⟨more ++ more', ?_⟩
    rw [← List.append_assoc]
    exact hg

theorem mirrors_settle (conflict : ChangeConflict) :
    Mirrors (settle resolver? conflict) (settle (resolver?.map Resolver.noted) conflict) := by
  cases resolver? with
  | some resolve => exact mirrors_noted resolve conflict
  | none => exact fun w => ⟨[], by rw [List.append_nil]; rfl⟩

theorem Paragraph.mirrors_applyChanges (key : ParagraphKey) (p : Paragraph) (fs : List FieldChange) :
    Mirrors (p.applyChanges resolver? key fs)
      (p.applyChanges (resolver?.map Resolver.noted) key fs) := by
  induction fs generalizing p with
  | nil => exact mirrors_pure p
  | cons f fs ih =>
    by_cases hmeet : p.get? f.field = f.old
    · rw [applyChanges_cons_of_eq hmeet, applyChanges_cons_of_eq hmeet]
      exact ih _
    · rw [applyChanges_cons_of_ne hmeet, applyChanges_cons_of_ne hmeet]
      exact mirrors_bind (mirrors_settle _) fun value => ih _

namespace Document

open Amended

theorem Amended.mirrors_applyAll (a : Amended) (cs : List ParagraphChange) :
    Mirrors (applyAll resolver? a cs) (applyAll (resolver?.map Resolver.noted) a cs) := by
  induction cs generalizing a with
  | nil => exact mirrors_pure a
  | cons c cs ih =>
    have happly : Mirrors (a.apply resolver? c) (a.apply (resolver?.map Resolver.noted) c) :=
      mirrors_bind (Paragraph.mirrors_applyChanges _ _ _) fun p => mirrors_pure _
    exact mirrors_bind happly ih

theorem Amended.Rest.mirrors_resume (resolver? : Option (Resolver (StateM σ))) (r : Rest)
    (value : Option Text) :
    Mirrors (r.resume resolver? value) (r.resume (resolver?.map Resolver.noted) value) :=
  mirrors_bind (Paragraph.mirrors_applyChanges _ _ _) fun _ => mirrors_applyAll _ _

theorem mirrors_applyChanges (resolver? : Option (Resolver (StateM σ))) (d : Document)
    (cs : List ParagraphChange) :
    Mirrors (d.applyChanges resolver? cs) (d.applyChanges (resolver?.map Resolver.noted) cs) :=
  mirrors_bind (mirrors_applyAll _ _) fun _ => mirrors_pure _

end Document

end Mirrors

/-! ### With a resolver and without one -/

namespace Document

open Amended

/-- The document with all values that are wanted. -/
def force (d : Document) (cs : List ParagraphChange) : Document :=
  (cs.foldl Amended.force ⟨d, []⟩).document

/-- The first conflict of a list of changes. -/
def firstConflict? (d : Document) (cs : List ParagraphChange) : Option ChangeConflict :=
  first? (encounters ⟨d, []⟩ cs)

variable {d : Document} {cs : List ParagraphChange} [LawfulMonad m]

theorem applyChanges_of_firstConflict?_eq_none (h : d.firstConflict? cs = none) :
    d.applyChanges resolver? cs = pure (d.force cs) := by
  rw [applyChanges, applyAll_of_first?_eq_none h, pure_bind]
  rfl

theorem exists_resume_of_firstConflict? (h : d.firstConflict? cs = some e) :
    ∃ r : Rest, ∀ {m : Type → Type} [Monad m] [LawfulMonad m] (resolver? : Option (Resolver m)),
      d.applyChanges resolver? cs =
        settle resolver? e >>= fun value => do return (← r.resume resolver? value).document := by
  obtain ⟨r, hr⟩ := exists_resume_of_first? h
  refine ⟨r, fun resolver? => ?_⟩
  rw [applyChanges, hr, bind_assoc]

end Document

section Amend

variable {resolver? : Option (Resolver (StateM σ))} {cs : List ParagraphChange} {w w' : Caller σ}

theorem outcome_amend (resolver? : Option (Resolver (StateM σ))) (cs : List ParagraphChange)
    (w : Caller σ) : outcome (amend resolver? cs) w =
      match outcome (w.document.applyChanges (resolver?.map Resolver.noted) cs) w with
      | (.ok d, w') => (.ok (), { w' with document := d })
      | (.error e, w') => (.error e, w') := by
  have hget : outcome (get : ExceptT ChangeConflict (StateM (Caller σ)) _) w = (.ok w, w) := rfl
  rw [amend, outcome_bind, hget]
  dsimp only
  rw [outcome_bind]
  rcases outcome (w.document.applyChanges (resolver?.map Resolver.noted) cs) w with ⟨e | d, w'⟩ <;> rfl

theorem calls_amend (resolver? : Option (Resolver (StateM σ))) (cs : List ParagraphChange)
    (w : Caller σ) : (outcome (amend resolver? cs) w).2.calls =
      (outcome (w.document.applyChanges (resolver?.map Resolver.noted) cs) w).2.calls := by
  rw [outcome_amend]
  rcases outcome (w.document.applyChanges (resolver?.map Resolver.noted) cs) w with ⟨e | d, w'⟩ <;> rfl

/-- **All or nothing.** The document of the caller gives way to the one that all changes make of it, or
stays. -/
theorem exists_outcome_amend (resolver? : Option (Resolver (StateM σ))) (cs : List ParagraphChange)
    (w : Caller σ) : ∃ more, outcome (amend resolver? cs) w =
      match outcome (w.document.applyChanges resolver? cs) w.own with
      | (.ok d, own) => (.ok (), ⟨d, own, w.calls ++ more⟩)
      | (.error e, own) => (.error e, ⟨w.document, own, w.calls ++ more⟩) := by
  obtain ⟨more, hmore⟩ := w.document.mirrors_applyChanges resolver? cs w
  refine ⟨more, ?_⟩
  rw [outcome_amend, hmore]
  rcases outcome (w.document.applyChanges resolver? cs) w.own with ⟨e | d, own⟩ <;> rfl

theorem outcome_amend_of_firstConflict?_eq_none (h : w.document.firstConflict? cs = none) :
    outcome (amend resolver? cs) w = (.ok (), { w with document := w.document.force cs }) := by
  rw [outcome_amend, Document.applyChanges_of_firstConflict?_eq_none h]
  rfl

theorem outcome_amend_none (h : w.document.firstConflict? cs = some e) :
    outcome (amend none cs) w = (.error e, w) := by
  obtain ⟨r, hr⟩ := Document.exists_resume_of_firstConflict? h
  rw [outcome_amend, hr]
  rfl

/-- The resolver is called for the first conflict, before it is called for anything else. -/
theorem calls_amend_some (resolve : Resolver (StateM σ)) (h : w.document.firstConflict? cs = some e) :
    ∃ more, (outcome (amend (some resolve) cs) w).2.calls = w.calls ++ e :: more := by
  obtain ⟨r, hr⟩ := Document.exists_resume_of_firstConflict? h
  have hcall : outcome (settle (some resolve.noted) e) w =
      ((outcome (resolve e) w.own).1,
        ⟨w.document, (outcome (resolve e) w.own).2, w.calls ++ [e]⟩) := rfl
  rw [calls_amend, Option.map_some, hr, outcome_bind, hcall]
  rcases outcome (resolve e) w.own with ⟨e' | value, own⟩
  · exact ⟨[], rfl⟩
  · -- What is left to do only adds to the notes.
    obtain ⟨more, hmore⟩ := mirrors_bind (r.mirrors_resume (some resolve) value)
      (fun a => mirrors_pure a.document) ⟨w.document, own, w.calls ++ [e]⟩
    rw [Option.map_some] at hmore
    dsimp only
    rw [hmore]
    exact ⟨more, List.append_assoc w.calls [e] more⟩

/-- A document that changes could not be made to is as it was. -/
theorem document_of_fails (h : Fails (amend resolver? cs) w e w') : w'.document = w.document := by
  obtain ⟨more, hmore⟩ := exists_outcome_amend resolver? cs w
  rw [Fails, hmore] at h
  split at h
  · cases h
  · cases h
    rfl

/-- **Conflicts.** Changes that can be made without a resolver are made with any resolver in the same way,
and it is not called. Otherwise the first conflict ends them, or is what the resolver is called for first.
Whenever the changes are not made, the document is as it was. -/
theorem amend_with_and_without (cs : List ParagraphChange) (w : Caller σ) :
    (∀ w', Yields (amend none cs) w () w' →
      ∀ resolve, Yields (amend (some resolve) cs) w () w' ∧ w'.calls = w.calls) ∧
    (∀ e w', Fails (amend none cs) w e w' → w.document.firstConflict? cs = some e ∧
      ∀ resolve, ∃ more, (outcome (amend (some resolve) cs) w).2.calls = w.calls ++ e :: more) ∧
    ∀ resolver? e w', Fails (amend resolver? cs) w e w' → w'.document = w.document := by
  refine ⟨?_, ?_, fun _ _ _ => document_of_fails⟩
  · intro w' h resolve
    rw [yields_iff_outcome] at h
    cases hfirst : w.document.firstConflict? cs with
    | none =>
      rw [outcome_amend_of_firstConflict?_eq_none hfirst] at h
      cases h
      exact ⟨outcome_amend_of_firstConflict?_eq_none hfirst, rfl⟩
    | some e =>
      rw [outcome_amend_none hfirst] at h
      cases h
  · intro e w' h
    rw [Fails] at h
    cases hfirst : w.document.firstConflict? cs with
    | none =>
      rw [outcome_amend_of_firstConflict?_eq_none hfirst] at h
      cases h
    | some e' =>
      rw [outcome_amend_none hfirst] at h
      cases h
      exact ⟨rfl, fun resolve => calls_amend_some resolve hfirst⟩

/-- The value that a change finds is the one that the changes before it have left, but only in the copy. -/
example :
    let key : ParagraphKey := ⟨"Package".toList, "foo".toList⟩
    let cs : List ParagraphChange :=
      [⟨key, [⟨"Section".toList, none, some "libs".toList⟩]⟩,
        ⟨key, [⟨"Section".toList, none, some "doc".toList⟩]⟩]
    Fails (amend none cs) ⟨Document.fooDocument, (), []⟩
      ⟨key, "Section".toList, none, some "libs".toList, some "doc".toList⟩
      ⟨Document.fooDocument, (), []⟩ := rfl

end Amend

end Packaging.Stanza
