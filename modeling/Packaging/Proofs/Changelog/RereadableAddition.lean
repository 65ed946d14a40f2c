import Mathlib.Data.List.InsertIdx
import Packaging.Proofs.Changelog.Addition
import Packaging.Proofs.Changelog.Increment
import Packaging.Proofs.Changelog.Rereadable

/-!
# Additions that are read as they are written

A changelog that is read as it is written stays so when a change is added. The lines of the change and
the author markers begin with two spaces, so none of them is a header or a trailer, whatever the text of
the change. A date that is filled in makes no other address out of what is in front of it. Only the next
version can be one that is read as another.

## What is proved

* `mem_formatSummary` — the lines of a summary stand between a header and a trailer.
* `mem_prepareLines` — what making an entry ready puts into it.
* `Entry.IsRereadable.addition`, `Entry.IsRereadable.next` — the entry that receives the change.
* `parse_render_add` — the changelog is read as it is written.
-/

namespace Packaging.Changelog

open Text

/-! ### The lines of a summary -/

/-- A header begins with a word, and a trailer with a space and a dash. -/
theorem isInner_spaces (rest : Text) : IsInner (' ' :: ' ' :: rest) := by
  have hword : isWordChar ' ' = false := by decide
  refine ⟨Option.eq_none_iff_forall_ne_some.mpr fun header hheader => ?_, by simp [Trailer.parse?, dropStart?]⟩
  obtain ⟨distributions, settings, hline, ⟨c, name, hpackage, hc, -⟩, -⟩ := parse?_eq_some hheader
  rw [hpackage] at hline
  obtain rfl : ' ' = c := (List.cons.inj hline).1
  exact absurd hc (by simp [hword])

theorem isInner_nil : IsInner [] := ⟨rfl, rfl⟩

theorem isLine_nil : IsLine [] := ⟨by simp, by simp⟩

namespace Filler

variable {f : Filler}

/-- Every line ends as the last chunk in it does. -/
theorem isLine_of_mem_fill {t : Text} (hfirst : '\n' ∉ f.first) (hfurther : '\n' ∉ f.further) :
    ∀ l ∈ f.fill t, IsLine l := by
  intro l hl
  obtain ⟨indent, c, cs, hindent, hchunks, rfl, -⟩ := exists_of_mem_fill hl
  obtain ⟨hline, hne⟩ := isLine_join_space (fun d hd => isLine_of_mem_chunks d (hchunks d hd))
    (List.cons_ne_nil c cs)
  have hnew : '\n' ∉ indent := by rcases hindent with rfl | rfl <;> assumption
  exact (isLine_append hne).mpr ⟨hnew, hline⟩

theorem isLine_of_mem_fill_hanging {first t : Text} (h : '\n' ∉ first) :
    ∀ l ∈ (hanging first).fill t, IsLine l :=
  isLine_of_mem_fill h fun hmem => absurd (List.eq_of_mem_replicate hmem) (by decide)

end Filler

/-- What is filled behind two spaces is no header and no trailer. -/
theorem isInner_of_mem_fill_hanging {start t : Text} :
    ∀ l ∈ (Filler.hanging (' ' :: ' ' :: start)).fill t, IsInner l := by
  intro l hl
  obtain ⟨indent, c, cs, rfl | rfl, -, rfl, -⟩ := Filler.exists_of_mem_fill hl
  · exact isInner_spaces _
  · exact isInner_spaces _

theorem splitSubBullet?_eq_some {line before text : Text} {c : Char}
    (h : splitSubBullet? line = some (before, c, text)) : line = before ++ c :: ' ' :: text := by
  unfold splitSubBullet? at h
  obtain ⟨blanks, rest, hspan⟩ : ∃ blanks rest, line.span isBlank = (blanks, rest) := ⟨_, _, rfl⟩
  obtain ⟨rfl, -, -⟩ := span_eq_iff.mp hspan
  rw [hspan] at h
  dsimp only at h
  split at h
  · split at h
    · cases h
      rfl
    · cases h
  · cases h

theorem mem_formatFurther {paragraph : Text} (hnew : '\n' ∉ paragraph) :
    ∀ l ∈ formatFurther paragraph, IsLine l ∧ IsInner l := by
  have hindent : '\n' ∉ bodyIndent := by decide
  intro l hl
  unfold formatFurther at hl
  split at hl
  · rename_i before c text hsplit
    rw [splitSubBullet?_eq_some hsplit] at hnew
    simp only [List.mem_append, List.mem_cons, not_or] at hnew
    refine ⟨Filler.isLine_of_mem_fill_hanging ?_ l hl, isInner_of_mem_fill_hanging l hl⟩
    simp [hindent, hnew.1, hnew.2.1]
  · exact ⟨Filler.isLine_of_mem_fill_hanging hindent l hl, isInner_of_mem_fill_hanging l hl⟩

/-- **The lines of a summary** stand between a header and a trailer, whatever their text. -/
theorem mem_formatSummary {summary : List Text} (h : ∀ l ∈ summary, '\n' ∉ l) :
    ∀ l ∈ formatSummary summary, IsLine l ∧ IsInner l := by
  cases summary with
  | nil => simp [formatSummary]
  | cons first further =>
    obtain ⟨-, hfurther⟩ := List.forall_mem_cons.mp h
    refine List.forall_mem_append.mpr ⟨fun l hl => ?_, fun l hl => ?_⟩
    · exact ⟨Filler.isLine_of_mem_fill_hanging (by decide) l hl, isInner_of_mem_fill_hanging l hl⟩
    · obtain ⟨paragraph, hparagraph, hl⟩ := List.mem_flatMap.mp hl
      exact mem_formatFurther (hfurther paragraph hparagraph) l hl

/-! ### Entries made ready -/

theorem isLine_renderMarker {name : Text} (h : '\n' ∉ name) : IsLine (renderMarker name) := by
  rw [renderMarker, isLine_append (by simp)]
  exact ⟨by simp [h], by decide, by decide⟩

theorem isInner_renderMarker (name : Text) : IsInner (renderMarker name) := isInner_spaces _

theorem mem_addMarker {lines : List Text} {name l : Text} (h : l ∈ addMarker lines name) :
    l ∈ lines ∨ l = [] ∨ l = renderMarker name := by
  rcases List.mem_append.mp h with h | h
  · unfold ensureTrailingBlank at h
    split at h
    · rcases List.mem_append.mp h with h | h
      · exact .inl h
      · exact .inr (.inl (List.mem_singleton.mp h))
    · exact .inl h
  · exact .inr (.inr (List.mem_singleton.mp h))

theorem mem_dropTrailingBlank {lines : List Text} {l : Text} (h : l ∈ dropTrailingBlank lines) :
    l ∈ lines := by
  unfold dropTrailingBlank at h
  split at h
  · exact List.dropLast_subset _ h
  · exact h

/-- Lines made ready are the lines there were, empty lines and markers. -/
theorem mem_prepareLines {maintainer? : Option (Text × Text)} {lines : List Text} {name l : Text}
    (h : l ∈ prepareLines maintainer? lines name) :
    l ∈ lines ∨ l = [] ∨ l = renderMarker name ∨
      ∃ owner address, maintainer? = some (owner, address) ∧ l = renderMarker owner := by
  unfold prepareLines at h
  split at h
  · exact .inr (.inl (List.mem_singleton.mp h))
  · rename_i start _
    dsimp only at h
    split at h
    · split at h
      · rename_i owner address
        split at h
        · rcases mem_addMarker h with h | h | h
          · rcases List.eq_or_mem_of_mem_insertIdx h with h | h
            · exact .inr (.inr (.inr ⟨owner, address, rfl, h⟩))
            · exact .inl h
          · exact .inr (.inl h)
          · exact .inr (.inr (.inl h))
        · exact .inl (mem_dropTrailingBlank h)
      · exact .inl (mem_dropTrailingBlank h)
    · split at h
      · exact .inl (mem_dropTrailingBlank h)
      · rcases mem_addMarker h with h | h | h
        · exact .inl h
        · exact .inr (.inl h)
        · exact .inr (.inr (.inl h))

/-! ### Trailers with a new date -/

namespace Trailer

/-- A date without brackets leaves the address in front of it where it is, if no other address begins
in this one. -/
theorem isLast_dateText {address date : Text} (haddress : ∀ a b, address ≠ a ++ ' ' :: '<' :: b)
    (hlt : '<' ∉ date) (hgt : '>' ∉ date) : IsLast address (dateText (some date)) := by
  constructor
  · intro a rest hrest
    have hmem : '>' ∈ dateText (some date) := by simp [hrest]
    simp [dateText, hgt] at hmem
  · intro name t ht
    have hmem : '<' ∉ '>' :: dateText (some date) := by simp [dateText, hlt]
    rcases List.append_eq_append_iff.mp ht with ⟨m, -, hm⟩ | ⟨m, hm, hrest⟩
    · simp [hm] at hmem
    · rcases m with _ | ⟨c, _ | ⟨d, m⟩⟩
      · simp at hrest
      · simp at hrest
      · simp only [List.cons_append, List.cons.injEq] at hrest
        exact absurd (by rw [hm, hrest.1, hrest.2.1]) (haddress name m)

/-- In a trailer without a date no other address begins in the address. -/
theorem IsLast.noOther {address : Text} (h : IsLast address []) (a b : Text) :
    address ≠ a ++ ' ' :: '<' :: b := by
  rintro rfl
  have hno := h.start a (b ++ ['>']) (by simp) b [] rfl
  cases hno

theorem isLine_trailerLine_date {author date : Text} (hauthor : '\n' ∉ author) (hdate : IsLine date) :
    IsLine (Entry.trailerLine author (some date)) := by
  rw [trailerLine_eq, isLine_append (by simp [dateText])]
  refine ⟨by decide, (isLine_append (by simp [dateText])).mpr ⟨hauthor, ?_⟩⟩
  cases date with
  | nil => exact ⟨by decide, by decide⟩
  | cons c date => exact (@isLine_append [' ', ' '] (c :: date) (by simp)).mpr ⟨by decide, hdate⟩

/-- A date without brackets can be filled in. -/
theorem parse?_trailerLine_date {author date : Text}
    (h : Trailer.parse? (Entry.trailerLine author none) = some ⟨author, none⟩) (hlt : '<' ∉ date)
    (hgt : '>' ∉ date) :
    Trailer.parse? (Entry.trailerLine author (some date)) = some ⟨author, some date⟩ := by
  obtain ⟨name, address, rest, date', -, hrest, hlast, htrailer⟩ := parse?_eq_some_iff.mp h
  obtain ⟨hauthor, rfl⟩ := Trailer.mk.inj htrailer
  have hnil : rest = [] := by
    unfold trailerDate? at hrest
    split at hrest
    · rfl
    all_goals cases hrest
  rw [hnil] at hlast
  refine parse?_eq_some_iff.mpr ⟨name, address, dateText (some date), some date, ?_, rfl,
    isLast_dateText hlast.noOther hlt hgt, by rw [hauthor]⟩
  simp [trailerLine_eq, hauthor]

/-- A trailer is read as it is written, if there are no brackets in its parts. -/
theorem parse?_trailerLine_renderIdentity {name address date : Text} (haddress : '<' ∉ address)
    (hlt : '<' ∉ date) (hgt : '>' ∉ date) :
    Trailer.parse? (Entry.trailerLine (renderIdentity name address) (some date)) =
      some ⟨renderIdentity name address, some date⟩ := by
  have hno : ∀ a b, address ≠ a ++ ' ' :: '<' :: b := by
    rintro a b rfl
    simp at haddress
  refine parse?_eq_some_iff.mpr ⟨name, address, dateText (some date), some date, ?_, rfl,
    isLast_dateText hno hlt hgt, rfl⟩
  simp [trailerLine_eq, renderIdentity]

end Trailer

/-! ### The receiving entry -/

/-- A part of a trailer that ends neither its line nor its name or address. -/
structure IsTrailerPart (t : Text) : Prop where
  noNewline : '\n' ∉ t
  noOpening : '<' ∉ t
  noClosing : '>' ∉ t

/-- The parts of an addition can be written where they go. -/
structure Addition.IsWritable (a : Addition) : Prop where
  name : IsTrailerPart a.name
  address : IsTrailerPart a.address
  date : IsTrailerPart a.date
  noReturn : a.date.getLast? ≠ some '\r'
  urgency : ∀ c ∈ a.urgency, isBlank c = false ∧ c ≠ ','
  summary : ∀ l ∈ a.summary, '\n' ∉ l

theorem Addition.IsWritable.isLine_date {a : Addition} (ha : a.IsWritable) : IsLine a.date :=
  ⟨ha.date.noNewline, ha.noReturn⟩

theorem mem_of_identity? {author name address : Text} (h : identity? author = some (name, address))
    {c : Char} (hc : c ∈ name) : c ∈ author := by
  unfold identity? at h
  simp only [Option.bind_eq_bind, Option.bind_eq_some_iff] at h
  obtain ⟨⟨before, after⟩, hcut, address', -, hname⟩ := h
  cases hname
  rw [(cut?_eq_some_iff.mp hcut).2]
  exact List.mem_append_left _ (mem_of_mem_trim hc)

namespace Entry

variable {e : Entry} {a : Addition}

theorem IsRereadable.newline_not_mem_author (h : e.IsRereadable) {author : Text}
    (hauthor : e.author = some author) : '\n' ∉ author := by
  obtain ⟨author', hauthor', hline, -⟩ := h.trailer
  obtain rfl : author = author' := Option.some.inj (hauthor.symm.trans hauthor')
  have hnew := hline.noNewline
  simp only [Trailer.trailerLine_eq, List.mem_append, not_or] at hnew
  exact hnew.2.1

/-- The lines of an entry that is made ready. -/
theorem IsRereadable.prepareLines (h : e.IsRereadable) {name : Text} (hname : '\n' ∉ name) :
    ∀ l ∈ prepareLines e.maintainer? e.changes name, IsLine l ∧ IsInner l := by
  intro l hl
  rcases mem_prepareLines hl with hl | rfl | rfl | ⟨owner, address, howner, rfl⟩
  · exact h.changes l hl
  · exact ⟨isLine_nil, isInner_nil⟩
  · exact ⟨isLine_renderMarker hname, isInner_renderMarker name⟩
  · obtain ⟨author, hauthor, hidentity⟩ := Option.bind_eq_some_iff.mp howner
    have hnew : '\n' ∉ owner := fun hmem =>
      h.newline_not_mem_author hauthor (mem_of_identity? hidentity hmem)
    exact ⟨isLine_renderMarker hnew, isInner_renderMarker owner⟩

/-- The trailer of an entry that is made ready. -/
theorem IsRereadable.trailer_prepare (h : e.IsRereadable) (ha : a.IsWritable) {author : Text}
    (hauthor : e.author = some author) :
    IsLine (trailerLine author (some (e.date.getD a.date))) ∧
      Trailer.parse? (trailerLine author (some (e.date.getD a.date))) =
        some ⟨author, some (e.date.getD a.date)⟩ := by
  obtain ⟨author', hauthor', hline, htrailer⟩ := h.trailer
  obtain rfl : author = author' := Option.some.inj (hauthor.symm.trans hauthor')
  cases hdate : e.date with
  | some date =>
    rw [hdate] at hline htrailer
    exact ⟨hline, htrailer⟩
  | none =>
    rw [hdate] at htrailer
    exact ⟨Trailer.isLine_trailerLine_date (h.newline_not_mem_author hauthor) ha.isLine_date,
      Trailer.parse?_trailerLine_date htrailer ha.date.noOpening ha.date.noClosing⟩

/-- **An open entry** is still rereadable when it has received a change. -/
theorem IsRereadable.addition (h : e.IsRereadable) (ha : a.IsWritable) :
    ((e.prepare a.name a.address a.date).addSummary a.summary).IsRereadable := by
  obtain ⟨package, version, hpackage, hversion, hheader⟩ := h.header
  obtain ⟨author, hauthor, -⟩ := h.trailer
  have hopened : e.opened = ((e.prepare a.name a.address a.date).addSummary a.summary).opened := rfl
  refine ⟨⟨package, version, hpackage, hversion, ?_⟩, ⟨author, ?_, ?_⟩, ?_, h.trailing⟩
  · rwa [← hasHeader_opened_iff, ← hopened, hasHeader_opened_iff]
  · simp [addSummary, prepare, hauthor]
  · exact h.trailer_prepare ha hauthor
  · refine List.forall_mem_append.mpr ⟨List.forall_mem_append.mpr ⟨?_, ?_⟩, ?_⟩
    · exact h.prepareLines ha.name.noNewline
    · exact mem_formatSummary ha.summary
    · exact List.forall_mem_singleton.mpr ⟨isLine_nil, isInner_nil⟩

/-- The settings of a new entry are its urgency. -/
theorem hasSettings_of_urgency {urgency : Text} (h : ∀ c ∈ urgency, isBlank c = false ∧ c ≠ ',')
    (hurgency : e.urgency = some urgency) (hcomment : e.urgencyComment = [])
    (hsettings : e.settings = []) : e.HasSettings := by
  have hkey : "urgency=".toList.any isBlank = false := by decide
  have hblank : ∀ c ∈ "urgency=".toList ++ urgency, isBlank c = false :=
    List.forall_mem_append.mpr
      ⟨fun c hc => Bool.eq_false_iff.mpr (List.any_eq_false.mp hkey c hc), fun c hc => (h c hc).1⟩
  refine ⟨?_, by simp [hsettings], fun u hu => ?_, fun hnone => by simp [hurgency] at hnone⟩
  · rw [settingTexts_of_urgency hurgency, hcomment, hsettings, List.append_nil, List.map_nil]
    refine List.forall_mem_singleton.mpr ⟨⟨rfl, ?_⟩, by simp, fun hmem => ?_, fun hmem => ?_⟩
    · rw [Option.any_eq_false]
      exact fun c hc => by simp [hblank c (List.mem_of_getLast? hc)]
    · rcases List.mem_append.mp hmem with hmem | hmem
      · exact absurd hmem (by decide)
      · exact (h _ hmem).2 rfl
    · exact absurd (hblank _ hmem) (by decide)
  · obtain rfl : urgency = u := Option.some.inj (hurgency.symm.trans hu)
    rw [hcomment, List.append_nil]
    exact span_eq_iff.mpr ⟨by simp, fun c hc => by simp [(h c hc).1], rfl⟩

theorem isDistributions_unreleased : IsDistributions (' ' :: unreleased) :=
  ⟨by decide, by decide, List.all_eq_true.mp (by decide)⟩

theorem isTrimmed_unreleased : IsTrimmed unreleased := ⟨by decide, by decide⟩

theorem newline_not_mem_unreleased : '\n' ∉ unreleased := by decide

/-- **A new entry** for the next version is rereadable. -/
theorem IsRereadable.next {new : Entry} (h : e.IsRereadable) (ha : a.IsWritable)
    (hversion : ∀ v, e.version = some v → v.revision.isSome ∨ v.EndsPlainly)
    (hnew : e.next a.name a.address a.date a.urgency = .ok new) :
    ({ new.addSummary a.summary with trailing := [[]] } : Entry).IsRereadable := by
  obtain ⟨package, version, hpackage, hisVersion, hheader⟩ := h.header
  simp only [Entry.next, hpackage, hisVersion] at hnew
  cases hnew
  have hauthor : '\n' ∉ renderIdentity a.name a.address := by
    simp [renderIdentity, ha.name.noNewline, ha.address.noNewline]
  refine ⟨⟨package, version.increment, rfl, rfl, hheader.package,
    Version.parse?_render_increment hheader.version (hversion version hisVersion),
    isDistributions_unreleased, isTrimmed_unreleased, newline_not_mem_unreleased,
    hasSettings_of_urgency ha.urgency rfl rfl rfl⟩,
    ⟨_, rfl, Trailer.isLine_trailerLine_date hauthor ha.isLine_date,
      Trailer.parse?_trailerLine_renderIdentity ha.address.noOpening ha.date.noOpening ha.date.noClosing⟩,
    ?_, ?_⟩
  · refine List.forall_mem_append.mpr ⟨List.forall_mem_append.mpr ⟨?_, ?_⟩, ?_⟩
    · exact List.forall_mem_singleton.mpr ⟨isLine_nil, isInner_nil⟩
    · exact mem_formatSummary ha.summary
    · exact List.forall_mem_singleton.mpr ⟨isLine_nil, isInner_nil⟩
  · exact List.forall_mem_singleton.mpr ⟨isLine_nil, rfl⟩

end Entry

variable {c : Changelog} {t : Text} {e : Entry} {es : List Entry} {a : Addition}

/-- A change goes to the first entry, or to a new one above it. -/
theorem add_cases (hc : c.entries = e :: es) (he : e.IsRereadable) (hsummary : a.summary ≠ []) :
    c.add a = .ok ⟨(e.prepare a.name a.address a.date).addSummary a.summary :: es⟩ ∨
      ∃ new, e.next a.name a.address a.date a.urgency = .ok new ∧
        c.add a = .ok ⟨{ new.addSummary a.summary with trailing := [[]] } :: e :: es⟩ := by
  rw [add_eq hsummary hc]
  cases e.isOpen with
  | true => exact .inl rfl
  | false =>
    obtain ⟨package, version, hpackage, hversion, -⟩ := he.header
    obtain ⟨new, hnew⟩ : ∃ new, e.next a.name a.address a.date a.urgency = .ok new := by
      simp [Entry.next, hpackage, hversion]
    refine .inr ⟨new, hnew, ?_⟩
    simp [hnew, Except.map, prepend, isEmpty, hc]

/-- **A change that is added can be read again.** To a changelog that is read as it is written, any
change with a summary can be added, and the result is read as it is written, too, as long as the version
of the first entry has a revision or a release that ends plainly. -/
theorem parse_render_add (hrender : c.render = .ok t) (hparse : parse t = .ok c)
    (hc : c.entries = e :: es) (hversion : ∀ v, e.version = some v → v.revision.isSome ∨ v.EndsPlainly)
    (ha : a.IsWritable) :
    ((∃ c', c.add a = .ok c') ↔ a.summary ≠ []) ∧
      ∀ c', c.add a = .ok c' → ∃ t', c'.render = .ok t' ∧ parse t' = .ok c' := by
  have hall : ∀ e ∈ c.entries, e.IsRereadable := exists_render_parse_iff.mp ⟨t, hrender, hparse⟩
  rw [hc] at hall
  obtain ⟨he, hes⟩ := List.forall_mem_cons.mp hall
  by_cases hsummary : a.summary = []
  · have hadd : c.add a = .error .emptySummary := by simp [add, addChange, hsummary]
    simp [hadd, hsummary]
  · rcases add_cases hc he hsummary with hadd | ⟨new, hnew, hadd⟩
    · refine ⟨by simp [hadd, hsummary], fun c' hc' => exists_render_parse_iff.mpr ?_⟩
      obtain rfl := Except.ok.inj (hadd.symm.trans hc')
      exact List.forall_mem_cons.mpr ⟨he.addition ha, hes⟩
    · refine ⟨by simp [hadd, hsummary], fun c' hc' => exists_render_parse_iff.mpr ?_⟩
      obtain rfl := Except.ok.inj (hadd.symm.trans hc')
      exact List.forall_mem_cons.mpr ⟨he.next ha hversion hnew, hall⟩

/-- A finished entry of Joe, for a version without epoch and revision. -/
def finishedText (release : Text) : Text :=
  "hello (".toList ++ release ++ ") unstable; urgency=low\n\n  * Old.\n\n -- Joe <joe@x>  Mon\n".toList

/-- The entry in it. -/
def finishedEntry (release : Text) : Entry :=
  { joeEntry with version := some ⟨none, release, none⟩, distributions := "unstable".toList }

theorem isWritable_byJane : byJane.IsWritable := by
  have hurgency : byJane.urgency.all (fun c => !isBlank c && c != ',') = true := by decide
  refine ⟨⟨by decide, by decide, by decide⟩, ⟨by decide, by decide, by decide⟩,
    ⟨by decide, by decide, by decide⟩, by decide, fun c hc => ?_, by decide⟩
  simpa using List.all_eq_true.mp hurgency c hc

theorem parse_render_add_finishedText :
    render ⟨[finishedEntry "1.9".toList]⟩ = .ok (finishedText "1.9".toList) ∧
      parse (finishedText "1.9".toList) = .ok ⟨[finishedEntry "1.9".toList]⟩ ∧
      (∀ v, (finishedEntry "1.9".toList).version = some v → v.revision.isSome ∨ v.EndsPlainly) ∧
      byJane.IsWritable ∧
      ∃ c' t', add ⟨[finishedEntry "1.9".toList]⟩ byJane = .ok c' ∧ c'.render = .ok t' ∧ parse t' = .ok c' := by
  have hrender : render ⟨[finishedEntry "1.9".toList]⟩ = .ok (finishedText "1.9".toList) := by
    decide +kernel
  have hparse : parse (finishedText "1.9".toList) = .ok ⟨[finishedEntry "1.9".toList]⟩ := by
    decide +kernel
  have hversion : ∀ v, (finishedEntry "1.9".toList).version = some v →
      v.revision.isSome ∨ v.EndsPlainly := by
    intro v hv
    cases hv
    exact .inr (Version.endsPlainly_of_getLast? (by decide) (by decide))
  obtain ⟨hadds, hagain⟩ := parse_render_add hrender hparse rfl hversion isWritable_byJane
  obtain ⟨c', hadd⟩ := hadds.mpr (by decide)
  obtain ⟨t', hrender', hparse'⟩ := hagain c' hadd
  exact ⟨hrender, hparse, hversion, isWritable_byJane, c', t', hadd, hrender', hparse'⟩

/-- After a release of digits and a colon comes one that is read as an epoch and a release. -/
theorem not_parse_render_add_colon :
    render ⟨[finishedEntry "1:".toList]⟩ = .ok (finishedText "1:".toList) ∧
      parse (finishedText "1:".toList) = .ok ⟨[finishedEntry "1:".toList]⟩ ∧
      (∀ v, (finishedEntry "1:".toList).version = some v →
        v.revision.isSome ∨ v.release.getLast? ≠ some '-') ∧
      byJane.IsWritable ∧
      ∃ c' t', add ⟨[finishedEntry "1:".toList]⟩ byJane = .ok c' ∧ c'.render = .ok t' ∧ parse t' ≠ .ok c' := by
  refine ⟨by decide +kernel, by decide +kernel, fun v hv => ?_, isWritable_byJane, _, _, rfl, rfl, ?_⟩
  · cases hv
    exact .inr (by decide)
  · decide +kernel

end Packaging.Changelog
