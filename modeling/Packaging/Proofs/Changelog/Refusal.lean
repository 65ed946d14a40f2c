import Packaging.Changelog.Addition
import Packaging.Proofs.Success

/-!
# Changes that are refused

A change is added to the changelog itself, in steps of which some can fail, and nothing undoes the steps
before them. All steps that can fail come before the first one that changes anything, but for the one
that looks for the first entry again, and by then there is one.

## What is proved

* `outcome_addChangeInPlace` — the steps come to what `addChange` gives, and leave the changelog as it
  was if that is an error.
* `fails_addChangeInPlace_iff` — which changes are refused, and that a refused one leaves no trace.
-/

namespace Packaging.Changelog

/-- A new entry cannot be made after this one: nothing may be added to it any more, and it does not say
what the next version of which package is. -/
structure Entry.IsDeadEnd (e : Entry) : Prop where
  released : e.isUnreleased = false
  author : e.author.isSome
  date : e.date.isSome
  unnamed : e.package = none ∨ e.version = none

/-- The changelog cannot receive a change with this summary. -/
def Refuses (c : Changelog) (summary : List Text) : Prop :=
  summary = [] ∨ c.entries = [] ∨ ∃ e es, c.entries = e :: es ∧ e.IsDeadEnd

variable {c : Changelog} {e : Entry} {es : List Entry} {summary : List Text}

section

variable (name address date urgency : Text)

/-! ### Step by step -/

theorem outcome_firstEntry_cons : outcome firstEntry ⟨e :: es⟩ = (.ok e, ⟨e :: es⟩) := rfl

/-- What is only computed does not touch the changelog. -/
theorem outcome_liftM {α : Type} (x : Except EntryError α) (c : Changelog) :
    outcome (liftM x : Steps α) c = (x, c) := by
  cases x <;> rfl

/-- The steps that end an addition cannot fail where there is an entry. -/
theorem outcome_addSummary (summary : List Text) :
    outcome (do
      let _ ← firstEntry
      modifyFirst fun e => e.addSummary summary) ⟨e :: es⟩ =
      (.ok (), ⟨e.addSummary summary :: es⟩) := by
  rw [outcome_bind, outcome_firstEntry_cons]
  rfl

theorem addChange_cons (e : Entry) (es : List Entry) (hsummary : summary ≠ []) :
    addChange ⟨e :: es⟩ summary name address date urgency =
      if e.isOpen then .ok ⟨(e.prepare name address date).addSummary summary :: es⟩
      else (e.next name address date urgency).map
        fun new => Changelog.prepend ⟨e :: es⟩ (new.addSummary summary) := by
  obtain ⟨first, further, rfl⟩ := List.exists_cons_of_ne_nil hsummary
  cases hnext : e.next name address date urgency <;> simp [addChange, hnext, Except.map]

/-- **In place.** The changelog gives way to the one with the change, or stays. -/
theorem outcome_addChangeInPlace (c : Changelog) (summary : List Text) :
    outcome (addChangeInPlace summary name address date urgency) c =
      match c.addChange summary name address date urgency with
      | .ok c' => (.ok (), c')
      | .error err => (.error err, c) := by
  obtain ⟨entries⟩ := c
  cases summary with
  | nil => rfl
  | cons first further =>
    cases entries with
    | nil => rfl
    | cons e es =>
      rw [addChange_cons name address date urgency e es (List.cons_ne_nil first further),
        addChangeInPlace]
      simp only [List.isEmpty_cons, Bool.false_eq_true, if_false]
      rw [outcome_bind, outcome_firstEntry_cons]
      cases hopen : e.isOpen with
      | true =>
        simp only [hopen, if_true]
        exact outcome_addSummary _
      | false =>
        simp only [hopen, Bool.false_eq_true, if_false]
        rw [outcome_bind, outcome_liftM]
        cases e.next name address date urgency with
        | error err => rfl
        | ok new => exact outcome_addSummary _

/-! ### Which changes are refused -/

theorem isOpen_eq_false_iff :
    e.isOpen = false ↔ e.isUnreleased = false ∧ e.author.isSome ∧ e.date.isSome := by
  rw [Entry.isOpen]
  cases e.isUnreleased <;> cases e.author <;> cases e.date <;> simp

theorem next_eq_error_iff :
    (∃ err, e.next name address date urgency = .error err) ↔ e.package = none ∨ e.version = none := by
  rw [Entry.next]
  cases e.package <;> cases e.version <;> simp

theorem isDeadEnd_iff :
    e.IsDeadEnd ↔ e.isOpen = false ∧ ∃ err, e.next name address date urgency = .error err := by
  rw [isOpen_eq_false_iff, next_eq_error_iff]
  constructor
  · intro h
    exact ⟨⟨h.released, h.author, h.date⟩, h.unnamed⟩
  · rintro ⟨⟨hreleased, hauthor, hdate⟩, hunnamed⟩
    exact ⟨hreleased, hauthor, hdate, hunnamed⟩

theorem addChange_cons_eq_error_iff (e : Entry) (es : List Entry) (hsummary : summary ≠ []) :
    (∃ err, addChange ⟨e :: es⟩ summary name address date urgency = .error err) ↔ e.IsDeadEnd := by
  rw [addChange_cons _ _ _ _ e es hsummary, isDeadEnd_iff name address date urgency]
  cases e.isOpen with
  | true => simp
  | false => cases e.next name address date urgency <;> simp [Except.map]

theorem addChange_eq_error_iff (c : Changelog) (summary : List Text) :
    (∃ err, c.addChange summary name address date urgency = .error err) ↔ c.Refuses summary := by
  obtain ⟨entries⟩ := c
  by_cases hsummary : summary = []
  · subst hsummary
    exact ⟨fun _ => .inl rfl, fun _ => ⟨.emptySummary, rfl⟩⟩
  cases entries with
  | nil =>
    obtain ⟨first, further, rfl⟩ := List.exists_cons_of_ne_nil hsummary
    exact ⟨fun _ => .inr (.inl rfl), fun _ => ⟨.noEntries, rfl⟩⟩
  | cons e es =>
    rw [addChange_cons_eq_error_iff _ _ _ _ e es hsummary, Refuses]
    simp [hsummary]

/-- **Refused changes.** A change is refused exactly if its summary is empty, there is no entry, or the
first entry is finished and lacks its package or its version. A refused change leaves the changelog as it
was, and one that is not refused makes of it what `addChange` does. -/
theorem fails_addChangeInPlace_iff (c : Changelog) (summary : List Text) :
    ((∃ err c', Fails (addChangeInPlace summary name address date urgency) c err c') ↔
      c.Refuses summary) ∧
    (∀ err c', Fails (addChangeInPlace summary name address date urgency) c err c' → c' = c) ∧
    ∀ c', Yields (addChangeInPlace summary name address date urgency) c () c' ↔
      c.addChange summary name address date urgency = .ok c' := by
  have hrefused := addChange_eq_error_iff name address date urgency c summary
  simp only [Fails, yields_iff_outcome, outcome_addChangeInPlace]
  cases hadd : c.addChange summary name address date urgency with
  | error err =>
    rw [hadd] at hrefused
    refine ⟨⟨fun _ => hrefused.mp ⟨err, rfl⟩, fun _ => ⟨err, c, rfl⟩⟩, ?_, by simp⟩
    rintro _ _ ⟨⟩
    rfl
  | ok c' =>
    rw [hadd] at hrefused
    refine ⟨⟨?_, fun h => ?_⟩, by simp, by simp⟩
    · rintro ⟨_, _, ⟨⟩⟩
    · obtain ⟨_, ⟨⟩⟩ := hrefused.mpr h

/-- A finished entry that has lost its version is found out before anything is done to it. -/
example :
    let e : Entry := { package := "hello".toList, author := "Joe <joe@x>".toList, date := "Mon".toList }
    Fails (addChangeInPlace ["New.".toList] "Jane".toList "jane@x".toList "Tue".toList "low".toList)
      ⟨[e]⟩ (.noVersion "hello".toList) ⟨[e]⟩ := rfl

end

end Packaging.Changelog
