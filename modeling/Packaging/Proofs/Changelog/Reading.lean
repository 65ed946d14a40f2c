import Packaging.Proofs.Changelog.Header
import Packaging.Proofs.Changelog.Trailer

/-!
# What a line does to a reader

A line is a header, a trailer or neither, but not both. `Reader.Takes` has a case for each thing that
can become of a line: which it is depends on the line and on whether an entry is open. What is said of
a reader here is all that is used of it where lines are taken.

## What is proved

* `Reader.feed_eq_ok_iff` — a reader takes a line exactly in one of these cases.
* `Reader.run_induction` — what is kept up in each of them is kept up by a run.
* `parse_eq_ok_iff_run` — a changelog is what a run leaves behind.
-/

namespace Packaging.Changelog

open Text

/-! ### Kinds of lines -/

/-- A line that may stand between the header and the trailer of an entry. -/
structure IsInner (line : Text) : Prop where
  noHeader : Header.parse? line = none
  noTrailer : Trailer.parse? line = none

theorem parse?_header_of_blank {line : Text} (h : isBlankLine line = true) :
    Header.parse? line = none := by
  refine Option.eq_none_iff_forall_ne_some.mpr fun header hheader => ?_
  obtain ⟨distributions, settings, rfl, -⟩ := parse?_eq_some hheader
  have hparen : isBlank '(' = true := List.all_eq_true.mp h '(' (by simp [headerText])
  exact absurd hparen (by decide)

/-- A header begins with a character of a word, and a trailer with a space. -/
theorem parse?_header_of_trailer {line : Text} {t : Trailer} (h : Trailer.parse? line = some t) :
    Header.parse? line = none := by
  refine Option.eq_none_iff_forall_ne_some.mpr fun header hheader => ?_
  obtain ⟨name, address, rest, date, rfl, -⟩ := Trailer.parse?_eq_some_iff.mp h
  obtain ⟨distributions, settings, hline, ⟨c, package, hpackage, hword, -⟩, -⟩ := parse?_eq_some hheader
  have hc : c = ' ' := by
    rw [hpackage] at hline
    exact (List.cons.inj hline).1.symm
  rw [hc] at hword
  exact absurd hword (by decide)

namespace Reader

/-! ### One line -/

/-- What becomes of a reader that takes a line. -/
inductive Takes : Reader → (n : Nat) → (line : Text) → Reader → Prop
  /-- A trailer closes the open entry. -/
  | trailer {es : List Entry} {start : Nat} {e : Entry} {n : Nat} {line : Text} {t : Trailer}
      (ht : Trailer.parse? line = some t) :
      Takes ⟨es, some (start, e)⟩ n line ⟨es ++ [e.close t], none⟩
  /-- In an open entry, any other line but a header is a change. -/
  | change {es : List Entry} {start : Nat} {e : Entry} {n : Nat} {line : Text} (hline : IsInner line) :
      Takes ⟨es, some (start, e)⟩ n line ⟨es, some (start, e.addChange line)⟩
  /-- A header opens an entry. -/
  | header {es : List Entry} {e : Entry} {n : Nat} {line : Text} {h : Header}
      (hline : Header.parse? line = some h) (he : Entry.ofHeader n line h = .ok e) :
      Takes ⟨es, none⟩ n line ⟨es, some (n, e)⟩
  /-- Any other line goes to the entry above it. -/
  | trailing {es : List Entry} {last : Entry} {n : Nat} {line : Text}
      (hline : Header.parse? line = none) :
      Takes ⟨es ++ [last], none⟩ n line ⟨es ++ [last.addTrailing line], none⟩
  /-- A blank line above the first entry is passed over. -/
  | blank {n : Nat} {line : Text} (hblank : isBlankLine line = true) : Takes {} n line {}

variable {r r' : Reader} {n : Nat} {line : Text}

theorem Takes.feed_eq (h : r.Takes n line r') : r.feed n line = .ok r' := by
  cases h with
  | trailer ht => simp [feed, feedInside, ht]
  | change hline => simp [feed, feedInside, hline.noHeader, hline.noTrailer]
  | header hline he => simp [feed, feedBetween, hline, he]
  | trailing hline => simp [feed, feedBetween, hline]
  | blank hblank => simp [feed, feedBetween, parse?_header_of_blank hblank, hblank]

theorem Takes.of_feed (h : r.feed n line = .ok r') : r.Takes n line r' := by
  obtain ⟨es, current⟩ := r
  rcases current with _ | ⟨start, e⟩
  · change feedBetween ⟨es, none⟩ n line = .ok r' at h
    unfold feedBetween at h
    split at h
    · rename_i header hline
      split at h
      · rename_i e he
        cases h
        exact .header hline he
      · cases h
    · rename_i hline
      split at h
      · rename_i last hlast
        cases h
        obtain ⟨init, rfl⟩ := List.getLast?_eq_some_iff.mp hlast
        rw [List.dropLast_concat]
        exact .trailing hline
      · rename_i hlast
        obtain rfl := List.getLast?_eq_none_iff.mp hlast
        split at h
        · rename_i hblank
          cases h
          exact .blank hblank
        · cases h
  · change feedInside ⟨es, some (start, e)⟩ start e n line = .ok r' at h
    unfold feedInside at h
    split at h
    · rename_i t ht
      cases h
      exact .trailer ht
    · rename_i hnone
      split at h
      · cases h
      · rename_i hheader
        cases h
        exact .change ⟨by simpa using hheader, hnone⟩

/-- **What becomes of a line** that is not refused. -/
theorem feed_eq_ok_iff : r.feed n line = .ok r' ↔ r.Takes n line r' :=
  ⟨Takes.of_feed, Takes.feed_eq⟩

/-! ### Runs -/

/-- **What every line keeps up, a run keeps up.** The invariant is about a reader and the lines that it
has taken. -/
theorem run_induction (Inv : Reader → List Text → Prop) (Fits : Text → Prop)
    (htakes : ∀ {r r' : Reader} {ls : List Text} {n : Nat} {line : Text}, Inv r ls → Fits line →
      r.Takes n line r' → Inv r' (ls ++ [line]))
    (ls : List Text) {r r' : Reader} {more : List Text} {n : Nat} (h : Inv r ls)
    (hmore : ∀ l ∈ more, Fits l) (hrun : r.run n more = .ok r') : Inv r' (ls ++ more) := by
  induction more generalizing r ls n with
  | nil =>
    cases hrun
    rwa [List.append_nil]
  | cons line more ih =>
    obtain ⟨hline, hmore⟩ := List.forall_mem_cons.mp hmore
    unfold Reader.run at hrun
    split at hrun
    · rename_i s hs
      rw [← List.singleton_append, ← List.append_assoc]
      exact ih (ls ++ [line]) (htakes h hline (feed_eq_ok_iff.mp hs)) hmore hrun
    · cases hrun

theorem run_append {ls : List Text} (h : r.run n ls = .ok r') (more : List Text) :
    r.run n (ls ++ more) = r'.run (n + ls.length) more := by
  induction ls generalizing r n with
  | nil => cases h; rfl
  | cons line ls ih =>
    rw [run] at h
    rw [List.cons_append, run]
    split at h
    · rw [ih h, List.length_cons, Nat.add_right_comm, Nat.add_assoc]
    · cases h

theorem Takes.run_cons (h : r.Takes n line r') (ls : List Text) :
    r.run n (line :: ls) = r'.run (n + 1) ls := by
  rw [run, h.feed_eq]

end Reader

/-- A changelog is what a reader holds that has taken all lines and has no entry open. -/
theorem parse_eq_ok_iff_run {t : Text} {c : Changelog} :
    parse t = .ok c ↔ Reader.run {} 1 (lines t) = .ok ⟨c.entries, none⟩ := by
  constructor
  · intro h
    unfold parse at h
    split at h
    · cases h
    · rename_i r hrun
      split at h
      · cases h
      · rename_i hcurrent
        cases h
        rw [hrun, ← hcurrent]
  · intro h
    rw [parse, h]

end Packaging.Changelog
