import Packaging.Proofs.Changelog.Preparation
import Packaging.Proofs.Changelog.Signed

/-!
# Changes that are added

Changes are added one after another, each by somebody, to a changelog that was read. An entry that is
still open receives the change; above a finished one a new entry is put. Either way the receiving
entry is signed again, so that the next change can be added in the same way.

## What is proved

* `exists_add` — what one addition does to a changelog with a signed first entry.
* `receives_of_parse` — in any number of additions, every change is credited to whom it was credited
  before, one change is added, and no other entry is touched.
* `credited_iff` — the change that is added is credited to the person who adds it, except in an open
  entry of somebody else in which all lines are blank.
-/

namespace Packaging.Changelog

open Text Ledger

/-- A change that somebody adds. -/
structure Addition where
  summary : List Text
  name : Text
  address : Text
  date : Text
  urgency : Text

/-- Adds a change. -/
def add (c : Changelog) (a : Addition) : Except EntryError Changelog :=
  c.addChange a.summary a.name a.address a.date a.urgency

/-- The name is one line, and the first paragraph of the summary is not blank. -/
structure Addition.IsPlain (a : Addition) : Prop where
  name : '\n' ∉ a.name
  summary : ∃ first further, a.summary = first :: further ∧ isBlankLine first = false

namespace Entry

/-- Whom the entry credits with its changes: those whom the markers name, and where there is no marker
the author of the trailer. -/
def credits (e : Entry) : List Attributed :=
  (changesByAuthor e.changes).map fun (author, change) =>
    (author.or (e.maintainer?.map Prod.fst), change.lines)

theorem credits_eq (e : Entry) : e.credits = creditsOf (e.maintainer?.map Prod.fst) e.changes := by
  rw [creditsOf, ← changesByAuthor_eq, List.map_map]
  rfl

/-- The entry `e'` is the entry `e` with one change more; who was credited with a change still is. -/
structure Extends (e e' : Entry) (change : List Text) : Prop where
  same : e' = { e with changes := e'.changes, author := e'.author, date := e'.date }
  maintainer : e'.maintainer? = e.maintainer?
  credits : ∃ name, e'.credits = e.credits ++ [(some name, change)]

/-- The entry `e'` is for the upload after the one of `e`, with one change. -/
structure Succeeds (e e' : Entry) (change : List Text) : Prop where
  package : e'.package = e.package
  version : e'.version = e.version.map Version.increment
  credits : ∃ name, e'.credits = [(some name, change)]

end Entry

/-- A changelog has received a change: in its first entry if that was open, and otherwise in a new
entry above it. All other entries are the same as before. -/
inductive Receives (change : List Text) : Changelog → Changelog → Prop
  | first {e e' : Entry} {es : List Entry} (hopen : e.isOpen = true) (h : e.Extends e' change) :
      Receives change ⟨e :: es⟩ ⟨e' :: es⟩
  | new {e e' : Entry} {es : List Entry} (hopen : e.isOpen = false) (h : e.Succeeds e' change) :
      Receives change ⟨e :: es⟩ ⟨e' :: e :: es⟩

/-! ### One addition -/

namespace Entry

variable {e : Entry} {a : Addition} {owner address : Text}

theorem maintainer?_addSummary_prepare (howner : e.maintainer? = some (owner, address)) (a : Addition) :
    ((e.prepare a.name a.address a.date).addSummary a.summary).maintainer? = some (owner, address) := by
  obtain ⟨author, hauthor, hidentity⟩ := Option.bind_eq_some_iff.mp howner
  simp [maintainer?, prepare, addSummary, hauthor, hidentity]

/-- In an entry of `owner` the change is credited to the person who adds it, or to the owner if all
lines of the entry are blank. -/
theorem credits_addSummary_prepare (ha : a.IsPlain) (howner : e.maintainer? = some (owner, address))
    (hline : '\n' ∉ owner) :
    ((e.prepare a.name a.address a.date).addSummary a.summary).credits =
      e.credits ++ [(some (if e.changes.all isBlankLine then owner else a.name),
        formatSummary a.summary)] := by
  obtain ⟨first, further, hsummary, hfirst⟩ := ha.summary
  obtain ⟨hsame, hauthor⟩ := prepareLines_spec hline ha.name address e.changes
  have hchanges : ((e.prepare a.name a.address a.date).addSummary a.summary).changes =
      prepareLines (some (owner, address)) e.changes a.name ++ formatSummary (first :: further) ++ [[]] := by
    rw [← howner, ← hsummary]
    rfl
  rw [credits_eq, credits_eq, howner, maintainer?_addSummary_prepare howner, hchanges,
    creditsOf_addSummary hfirst, hsummary]
  exact congrArg₂ (fun credits author => credits ++ [(author, _)]) hsame hauthor

/-- In a new entry the change is credited to its author. -/
theorem credits_addSummary_of_changes {new : Entry} (ha : a.IsPlain) (hchanges : new.changes = [[]]) :
    (new.addSummary a.summary).credits = [(new.maintainer?.map Prod.fst, formatSummary a.summary)] := by
  obtain ⟨first, further, hsummary, hfirst⟩ := ha.summary
  have hlines : (new.addSummary a.summary).changes =
      [[]] ++ formatSummary (first :: further) ++ [[]] := by
    rw [addSummary, hchanges, hsummary]
  have howner : (new.addSummary a.summary).maintainer? = new.maintainer? := rfl
  rw [credits_eq, howner, hlines, creditsOf_addSummary hfirst,
    creditsOf_of_blank _ isBlankLine_of_mem_singleton_nil,
    ofLines_of_blank isBlankLine_of_mem_singleton_nil, hsummary]
  rfl

/-- The entry that follows a signed one. -/
theorem IsSigned.exists_next (he : e.IsSigned) (name address date urgency : Text) :
    ∃ new, e.next name address date urgency = .ok new ∧ new.package = e.package ∧
      new.version = e.version.map Version.increment ∧ new.changes = [[]] ∧
      new.author = some (renderIdentity name address) := by
  obtain ⟨package, hpackage⟩ := Option.isSome_iff_exists.mp he.package
  obtain ⟨version, hversion⟩ := Option.isSome_iff_exists.mp he.version
  simp [next, hpackage, hversion]

end Entry

open Entry

variable {c : Changelog} {e : Entry} {es : List Entry} {a : Addition}

theorem add_eq (hsummary : a.summary ≠ []) (hc : c.entries = e :: es) :
    c.add a =
      if e.isOpen then .ok ⟨(e.prepare a.name a.address a.date).addSummary a.summary :: es⟩
      else (e.next a.name a.address a.date a.urgency).map
        fun new => c.prepend (new.addSummary a.summary) := by
  obtain ⟨first, further, hsummary⟩ := List.exists_cons_of_ne_nil hsummary
  simp only [add, addChange, hc, hsummary]
  split
  · rfl
  · cases e.next a.name a.address a.date a.urgency <;> rfl

theorem Addition.IsPlain.summary_ne_nil (ha : a.IsPlain) : a.summary ≠ [] := by
  obtain ⟨first, further, hsummary, -⟩ := ha.summary
  simp [hsummary]

/-- An open entry receives the change. -/
theorem add_of_open (ha : a.IsPlain) (hc : c.entries = e :: es) (hopen : e.isOpen = true) :
    c.add a = .ok ⟨(e.prepare a.name a.address a.date).addSummary a.summary :: es⟩ := by
  rw [add_eq ha.summary_ne_nil hc, hopen, if_pos rfl]

/-- Above a finished entry a new one is put, and the change is credited to its author. -/
theorem add_of_closed (he : e.IsSigned) (ha : a.IsPlain) (hc : c.entries = e :: es)
    (hopen : e.isOpen = false) :
    ∃ new, c.add a = .ok ⟨new :: e :: es⟩ ∧ new.package = e.package ∧
      new.version = e.version.map Version.increment ∧
      new.maintainer? = identity? (renderIdentity a.name a.address) ∧
      new.credits = [(new.maintainer?.map Prod.fst, formatSummary a.summary)] := by
  obtain ⟨new, hnext, hpackage, hversion, hchanges, hauthor⟩ :=
    he.exists_next a.name a.address a.date a.urgency
  have hcredits := credits_addSummary_of_changes ha hchanges
  refine ⟨{ new.addSummary a.summary with trailing := if c.isEmpty then [] else [[]] }, ?_, hpackage,
    hversion, ?_, hcredits⟩
  · rw [add_eq ha.summary_ne_nil hc, hopen, hnext, Except.map, prepend, hc]
    rfl
  · simp [maintainer?, addSummary, hauthor]

/-- **One addition.** A changelog whose first entry is signed receives every plain change, and its
first entry is signed again. -/
theorem exists_add (ha : a.IsPlain) (hc : ∃ e es, c.entries = e :: es ∧ e.IsSigned) :
    ∃ c', c.add a = .ok c' ∧ Receives (formatSummary a.summary) c c' ∧
      ∃ e es, c'.entries = e :: es ∧ e.IsSigned := by
  obtain ⟨e, es, hentries, he⟩ := hc
  obtain rfl : c = ⟨e :: es⟩ := congrArg Changelog.mk hentries
  cases hopen : e.isOpen with
  | true =>
    obtain ⟨owner, address, howner, hline⟩ := he.maintainer
    have hcredits := credits_addSummary_prepare ha howner hline
    have howner' := maintainer?_addSummary_prepare howner a
    refine ⟨_, add_of_open ha hentries hopen,
      .first hopen ⟨rfl, howner'.trans howner.symm, _, hcredits⟩, _, es, rfl, ?_⟩
    exact ⟨he.package, he.version, owner, address, howner', hline⟩
  | false =>
    obtain ⟨new, hadd, hpackage, hversion, hmaintainer, hcredits⟩ := add_of_closed he ha hentries hopen
    obtain ⟨name, address, hidentity, hline⟩ := newline_not_mem_identity? ha.name a.address
    rw [hidentity] at hmaintainer
    rw [hmaintainer] at hcredits
    refine ⟨_, hadd, .new hopen ⟨hpackage, hversion, name, hcredits⟩, new, e :: es, rfl, ?_⟩
    exact ⟨hpackage ▸ he.package, by simpa [hversion] using he.version, name, address, hmaintainer, hline⟩

/-! ### Any number of additions -/

theorem exists_add_all {done : List Addition} (hdone : ∀ a ∈ done, a.IsPlain)
    (hc : ∃ e es, c.entries = e :: es ∧ e.IsSigned) :
    ∃ c', done.foldlM add c = .ok c' ∧ ∃ e es, c'.entries = e :: es ∧ e.IsSigned := by
  induction done generalizing c with
  | nil => exact ⟨c, rfl, hc⟩
  | cons a done ih =>
    obtain ⟨ha, hdone⟩ := List.forall_mem_cons.mp hdone
    obtain ⟨c₁, hadd, -, hc₁⟩ := exists_add ha hc
    obtain ⟨c₂, hrun, hc₂⟩ := ih hdone hc₁
    refine ⟨c₂, ?_, hc₂⟩
    rw [List.foldlM_cons, hadd]
    exact hrun

theorem exists_isSigned_of_parse {t : Text} (h : parse t = .ok c) (hc : c.entries ≠ []) :
    ∃ e es, c.entries = e :: es ∧ e.IsSigned := by
  obtain ⟨e, es, hentries⟩ := List.exists_cons_of_ne_nil hc
  exact ⟨e, es, hentries, isSigned_of_parse h e (by simp [hentries])⟩

/-- **Changes stay with those who made them.** To a changelog that was read and has an entry any
number of changes can be added. Each time, all changes of the receiving entry are credited to the same
people as before, one change is added to it, and the other entries stay as they are. -/
theorem receives_of_parse {t : Text} (h : parse t = .ok c) (hc : c.entries ≠ []) {done : List Addition}
    (hdone : ∀ b ∈ done, b.IsPlain) (ha : a.IsPlain) :
    ∃ c₁ c₂, done.foldlM add c = .ok c₁ ∧ c₁.add a = .ok c₂ ∧
      Receives (formatSummary a.summary) c₁ c₂ := by
  obtain ⟨c₁, hrun, hc₁⟩ := exists_add_all hdone (exists_isSigned_of_parse h hc)
  obtain ⟨c₂, hadd, hreceives, -⟩ := exists_add ha hc₁
  exact ⟨c₁, c₂, hrun, hadd, hreceives⟩

/-- An entry of Joe with one change. -/
def joeText : Text :=
  "hello (1.0-2) UNRELEASED; urgency=low\n\n  * Old.\n\n -- Joe <joe@x>  Mon\n".toList

/-- The entry in it. -/
def joeEntry : Entry where
  package := "hello".toList
  version := some ⟨none, "1.0".toList, some ['2']⟩
  distributions := "UNRELEASED".toList
  urgency := "low".toList
  changes := [[], "  * Old.".toList, []]
  author := "Joe <joe@x>".toList
  date := "Mon".toList

/-- A change by Joe. -/
def byJoe : Addition := ⟨["New.".toList], "Joe".toList, "joe@x".toList, "Tue".toList, "low".toList⟩

/-- A change by Jane. -/
def byJane : Addition := ⟨["New.".toList], "Jane".toList, "jane@x".toList, "Tue".toList, "low".toList⟩

theorem parse_joeText : parse joeText = .ok ⟨[joeEntry]⟩ := by decide +kernel

theorem isPlain_byJoe : byJoe.IsPlain := ⟨by decide, _, [], rfl, by decide⟩

theorem isPlain_byJane : byJane.IsPlain := ⟨by decide, _, [], rfl, by decide⟩

theorem receives_joeText :
    parse joeText = .ok ⟨[joeEntry]⟩ ∧ ∃ c₁ c₂, [byJane].foldlM add ⟨[joeEntry]⟩ = .ok c₁ ∧
      c₁.add byJoe = .ok c₂ ∧ Receives ["  * New.".toList] c₁ c₂ := by
  have hdone : ∀ b ∈ [byJane], b.IsPlain := List.forall_mem_singleton.mpr isPlain_byJane
  have hsummary : formatSummary byJoe.summary = ["  * New.".toList] := by decide
  exact ⟨parse_joeText, hsummary ▸ receives_of_parse parse_joeText (by simp) hdone isPlain_byJoe⟩

/-! ### Who is credited with an addition -/

/-- **Whom an added change is credited to.** It is the person who adds it, unless the first entry is
open, somebody else's, and has nothing but blank lines: no marker is put in there. -/
theorem credited_iff {t : Text} (h : parse t = .ok c) (hc : c.entries = e :: es) (ha : a.IsPlain)
    (hname : IsTrimmed a.name) (hlt : '<' ∉ a.name) :
    ∃ c' e' es' name, c.add a = .ok c' ∧ c'.entries = e' :: es' ∧
      e'.credits.getLast? = some (some name, formatSummary a.summary) ∧
      (name = a.name ↔ ¬ (e.isOpen ∧ e.changes.all isBlankLine ∧
        e.maintainer?.map Prod.fst ≠ some a.name)) := by
  have he : e.IsSigned := isSigned_of_parse h e (by simp [hc])
  cases hopen : e.isOpen with
  | true =>
    obtain ⟨owner, address, howner, hline⟩ := he.maintainer
    refine ⟨_, _, es, if e.changes.all isBlankLine then owner else a.name, add_of_open ha hc hopen, rfl,
      ?_, ?_⟩
    · rw [credits_addSummary_prepare ha howner hline, List.getLast?_concat]
    · rw [howner]
      cases hblank : e.changes.all isBlankLine <;> simp
  | false =>
    obtain ⟨address, hidentity⟩ := identity?_of_isTrimmed hname hlt a.address
    obtain ⟨new, hadd, -, -, hmaintainer, hcredits⟩ := add_of_closed he ha hc hopen
    refine ⟨_, new, e :: es, a.name, hadd, rfl, ?_, by simp⟩
    rw [hcredits, hmaintainer, hidentity]
    rfl

theorem credited_joeText :
    IsTrimmed byJane.name ∧ '<' ∉ byJane.name ∧ parse joeText = .ok ⟨[joeEntry]⟩ ∧
      ∃ c e es, add ⟨[joeEntry]⟩ byJane = .ok c ∧ c.entries = e :: es ∧
        e.credits.getLast? = some (some byJane.name, ["  * New.".toList]) := by
  have hname : IsTrimmed byJane.name := ⟨by decide, by decide⟩
  have hlt : '<' ∉ byJane.name := by decide
  obtain ⟨c, e, es, name, hadd, hentries, hlast, hiff⟩ :=
    credited_iff parse_joeText rfl isPlain_byJane hname hlt
  have hsame : name = byJane.name := hiff.mpr (by decide)
  have hsummary : formatSummary byJane.summary = ["  * New.".toList] := by decide
  rw [hsame, hsummary] at hlast
  exact ⟨hname, hlt, parse_joeText, c, e, es, hadd, hentries, hlast⟩

/-- An entry that Joe has begun and not yet written anything in. -/
def blankText : Text := "hello (1.0-2) UNRELEASED; urgency=medium\n\n -- Joe <joe@x>  Mon\n".toList

/-- What Jane adds to it is credited to Joe. -/
theorem not_credited_blankText :
    byJane.IsPlain ∧ IsTrimmed byJane.name ∧ '<' ∉ byJane.name ∧
      ∃ c c' e, parse blankText = .ok c ∧ c.add byJane = .ok c' ∧ c'.entries = [e] ∧
        e.credits = [(some "Joe".toList, formatSummary byJane.summary)] := by
  refine ⟨isPlain_byJane, ⟨by decide, by decide⟩, by decide, _, _, _, rfl, rfl, rfl, ?_⟩
  decide +kernel

end Packaging.Changelog
