import Packaging.Changelog.Line
import Packaging.Changelog.Printer
import Packaging.Proofs.Text.Split

/-!
# Trailers are read as they are written

A trailer is written with two spaces before its date, but it is read with one as well. Where its
address begins and ends depends on everything that follows, so a space more has to be shown to make
no other place the last one.

## What is proved

* `parse?_eq_some_iff` — what the parts of a trailer line are, without the search for them.
* `parse?_trailerLine` — the line that is written for a trailer that was read is read as the same
  trailer.
-/

namespace Packaging.Changelog.Trailer

open Text

/-- No address ends in the text and is followed by a date or nothing. -/
def NoAddress (t : Text) : Prop := ∀ address rest, t = address ++ '>' :: rest → trailerDate? rest = none

/-- In `address>rest` no address begins or ends later than this one does. -/
structure IsLast (address rest : Text) : Prop where
  ending : NoAddress rest
  start : ∀ name t, address ++ '>' :: rest = name ++ ' ' :: '<' :: t → NoAddress t

/-- The trailer whose name is known, from the text behind the `<`. -/
def ofAddress? (name t : Text) : Option Trailer :=
  (cutsAt ['>'] t).findSome? fun (address, rest) =>
    (trailerDate? rest).map fun date => ⟨name ++ [' ', '<'] ++ address ++ ['>'], date⟩

theorem ofAddress?_eq_none_iff {name t : Text} : ofAddress? name t = none ↔ NoAddress t := by
  unfold ofAddress? NoAddress
  rw [List.findSome?_eq_none_iff]
  constructor
  · intro h address rest ht
    have hmem : (address, rest) ∈ cutsAt ['>'] t :=
      (mem_cutsAt_iff (by simp)).mpr (by simpa using ht)
    simpa using h _ hmem
  · rintro h ⟨address, rest⟩ hmem
    have ht := (mem_cutsAt_iff (by simp)).mp hmem
    simpa using h address rest (by simpa using ht)

theorem ofAddress?_eq_some_iff {name t : Text} {tr : Trailer} :
    ofAddress? name t = some tr ↔
      ∃ address rest date, t = address ++ '>' :: rest ∧ trailerDate? rest = some date ∧
        NoAddress rest ∧ tr = ⟨name ++ [' ', '<'] ++ address ++ ['>'], date⟩ := by
  unfold ofAddress?
  rw [findSome?_cutsAt_eq_some_iff (by simp)]
  constructor
  · rintro ⟨address, rest, ht, hdate, hlater⟩
    obtain ⟨date, hdate', rfl⟩ := Option.map_eq_some_iff.mp hdate
    refine ⟨address, rest, date, by simpa using ht, hdate', fun a r hr => ?_, rfl⟩
    simpa using hlater ('>' :: a) r (by simp) (by simp [hr])
  · rintro ⟨address, rest, date, ht, hdate, hno, rfl⟩
    refine ⟨address, rest, by simpa using ht, by simp [hdate], fun m r hm hr => ?_⟩
    obtain ⟨c, m, rfl⟩ := List.exists_cons_of_ne_nil hm
    have hrest : '>' = c ∧ rest = m ++ '>' :: r := by simpa using hr
    simpa using hno m r hrest.2

/-- A trailer line has a name, an address and perhaps a date, and the address begins and ends at the
last places where it can. -/
theorem parse?_eq_some_iff {line : Text} {tr : Trailer} :
    Trailer.parse? line = some tr ↔
      ∃ name address rest date,
        line = [' ', '-', '-', ' '] ++ (name ++ ' ' :: '<' :: (address ++ '>' :: rest)) ∧
        trailerDate? rest = some date ∧ IsLast address rest ∧
        tr = ⟨name ++ [' ', '<'] ++ address ++ ['>'], date⟩ := by
  have hparse : Trailer.parse? line = some tr ↔ ∃ t, line = [' ', '-', '-', ' '] ++ t ∧
      (cutsAt [' ', '<'] t).findSome? (fun (name, t) => ofAddress? name t) = some tr := by
    rw [Trailer.parse?, Option.bind_eq_bind, Option.bind_eq_some_iff]
    simp only [dropStart?_eq_some_iff]
    rfl
  rw [hparse]
  constructor
  · rintro ⟨t, rfl, hcuts⟩
    obtain ⟨name, t, rfl, hfound, hlater⟩ := (findSome?_cutsAt_eq_some_iff (by simp)).mp hcuts
    obtain ⟨address, rest, date, rfl, hdate, hno, rfl⟩ := ofAddress?_eq_some_iff.mp hfound
    refine ⟨name, address, rest, date, by simp, hdate, ⟨hno, fun n b hb => ?_⟩, rfl⟩
    exact ofAddress?_eq_none_iff.mp (hlater (' ' :: '<' :: n) b (by simp) (by simp [hb]))
  · rintro ⟨name, address, rest, date, rfl, hdate, hlast, rfl⟩
    refine ⟨_, rfl, (findSome?_cutsAt_eq_some_iff (by simp)).mpr ⟨name, address ++ '>' :: rest,
      by simp, ofAddress?_eq_some_iff.mpr ⟨address, rest, date, rfl, hdate, hlast.ending, rfl⟩, ?_⟩⟩
    intro m b hm hb
    refine ofAddress?_eq_none_iff.mpr ?_
    -- The second place is behind the first one as a whole, since `<` is no space.
    match m, hm, hb with
    | [c], _, hb => simp at hb
    | c :: d :: m, _, hb =>
      simp only [List.cons_append, List.nil_append, List.cons.injEq, List.append_assoc] at hb
      exact hlast.start m b hb.2.2

theorem trailerDate?_space_ne_none (date : Text) : trailerDate? (' ' :: date) ≠ none := by
  cases date with
  | nil => simp [trailerDate?]
  | cons c date =>
    by_cases h : c = ' '
    · simp [trailerDate?, h]
    · simp [trailerDate?, h]

/-- A space more before a date makes no other place the last one. -/
theorem IsLast.space {address date : Text} (h : IsLast address (' ' :: date)) :
    IsLast address (' ' :: ' ' :: date) := by
  constructor
  · intro a r hr
    cases a with
    | nil => simp at hr
    | cons c a => exact h.ending a r (List.cons.inj hr).2
  · intro name t ht
    rcases List.append_eq_append_iff.mp ht with ⟨m, rfl, hm⟩ | ⟨m, rfl, hm⟩
    · -- The address would begin in the date.
      match m, hm with
      | [], hm => simp at hm
      | [c], hm => simp at hm
      | c :: d :: m, hm =>
        have hdate : ' ' :: date = m ++ ' ' :: '<' :: t := (List.cons.inj (List.cons.inj hm).2).2
        exact h.start (address ++ '>' :: m) t (by simp [hdate])
    · -- The address would begin in this address, and end where it does.
      match m, hm with
      | [], hm => simp at hm
      | [c], hm => simp at hm
      | c :: d :: m, hm =>
        obtain ⟨rfl, rfl, rfl⟩ : c = ' ' ∧ d = '<' ∧ t = m ++ '>' :: ' ' :: ' ' :: date := by
          simpa [eq_comm] using hm
        have hno := h.start name (m ++ '>' :: ' ' :: date) (by simp) m (' ' :: date) rfl
        exact absurd hno (trailerDate?_space_ne_none date)

/-- What is written after the address. -/
def dateText : Option Text → Text
  | some date => ' ' :: ' ' :: date
  | none => []

/-- What is written after the address says the same, and the address is still the last one. -/
theorem IsLast.dateText {address rest : Text} {date : Option Text} (h : IsLast address rest)
    (hdate : trailerDate? rest = some date) :
    trailerDate? (dateText date) = some date ∧ IsLast address (dateText date) := by
  unfold trailerDate? at hdate
  split at hdate
  · cases hdate
    exact ⟨rfl, h⟩
  · cases hdate
    exact ⟨rfl, h⟩
  · cases hdate
    exact ⟨rfl, h.space⟩
  · cases hdate

theorem trailerLine_eq (author : Text) (date : Option Text) :
    Entry.trailerLine author date = [' ', '-', '-', ' '] ++ (author ++ dateText date) := by
  cases date <;> simp [Entry.trailerLine, dateText]

/-- **A trailer is read as it is written.** -/
theorem parse?_trailerLine {line : Text} {tr : Trailer} (h : Trailer.parse? line = some tr) :
    Trailer.parse? (Entry.trailerLine tr.author tr.date) = some tr := by
  obtain ⟨name, address, rest, date, rfl, hdate, hlast, rfl⟩ := parse?_eq_some_iff.mp h
  obtain ⟨hdate', hlast'⟩ := hlast.dateText hdate
  rw [trailerLine_eq]
  exact parse?_eq_some_iff.mpr ⟨name, address, dateText date, date, by simp, hdate', hlast', rfl⟩

/-- What is written for the trailer of a line has the characters of the line, but for spaces. -/
theorem count_trailerLine {line : Text} {tr : Trailer} {c : Char} (h : Trailer.parse? line = some tr)
    (hspace : c ≠ ' ') : (Entry.trailerLine tr.author tr.date).count c = line.count c := by
  obtain ⟨name, address, rest, date, rfl, hdate, -, rfl⟩ := parse?_eq_some_iff.mp h
  have hdateText : (dateText date).count c = rest.count c := by
    unfold trailerDate? at hdate
    split at hdate <;> cases hdate <;> simp [dateText, hspace.symm]
  simp only [trailerLine_eq, List.count_append, List.count_cons, List.count_nil, hdateText]
  omega

theorem mem_of_mem_trailerLine {line : Text} {tr : Trailer} {c : Char} (h : Trailer.parse? line = some tr)
    (hc : c ∈ Entry.trailerLine tr.author tr.date) (hspace : c ≠ ' ') : c ∈ line := by
  rw [← List.count_pos_iff] at hc ⊢
  rwa [← count_trailerLine h hspace]

/-- What is written for the trailer of a line is a line. -/
theorem isLine_trailerLine {line : Text} {tr : Trailer} (hline : IsLine line)
    (h : Trailer.parse? line = some tr) : IsLine (Entry.trailerLine tr.author tr.date) := by
  obtain ⟨name, address, rest, date, rfl, hdate, -, rfl⟩ := parse?_eq_some_iff.mp h
  have hparts : ∀ rest : Text, [' ', '-', '-', ' '] ++ (name ++ ' ' :: '<' :: (address ++ '>' :: rest)) =
      ([' ', '-', '-', ' '] ++ name ++ ' ' :: '<' :: address) ++ '>' :: rest := by simp
  have hauthor : Entry.trailerLine (name ++ [' ', '<'] ++ address ++ ['>']) date =
      ([' ', '-', '-', ' '] ++ name ++ ' ' :: '<' :: address) ++ '>' :: dateText date := by
    simp [trailerLine_eq]
  rw [hparts, isLine_append (by simp)] at hline
  rw [hauthor, isLine_append (by simp)]
  refine ⟨hline.1, ?_⟩
  have hrest := hline.2
  unfold trailerDate? at hdate
  split at hdate
  · cases hdate
    exact hrest
  · cases hdate
    exact hrest
  · rename_i date _
    cases hdate
    have hspace := (@isLine_append ['>'] (' ' :: date) (by simp)).mp hrest
    exact (@isLine_append ['>', ' '] (' ' :: date) (by simp)).mpr ⟨by decide, hspace.2⟩
  · cases hdate

end Packaging.Changelog.Trailer
