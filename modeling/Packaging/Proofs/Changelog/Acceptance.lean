import Packaging.Proofs.Changelog.Division

/-!
# Which texts are changelogs

Whether a text is a changelog is decided line by line: `Violates` says what is wrong with the next line
after those before it, in terms of which lines are headers and trailers. A text is read if nothing is
wrong with any of its lines, and otherwise the error is that of the first line with which something is
wrong.

## What is proved

* `Reader.Tracks.feed_eq_error_iff` — a reader refuses a line exactly if something is wrong with it.
* `parse_eq_error_iff` — the error of a text is that of its first violation.
* `parse_iff_violates` — so a text is read exactly if there is no violation, and then into entries that
  hold the lines between its headers and trailers.
-/

namespace Packaging.Changelog

open Text

/-! ### What can be wrong -/

/-- The lines end within an entry, whose header is the line of this number: there is no header and no
trailer behind it. -/
def EndsInEntry (ls : List Text) (start : Nat) : Prop :=
  ∃ above header body, ls = above ++ header :: body ∧ start = above.length + 1 ∧
    (Header.parse? header).isSome ∧ ∀ l ∈ body, IsInner l

/-- Something is wrong with the first of the lines `rest` if they come after the lines `before`, or with
the end of the text if `rest` is empty. -/
inductive Violates (before : List Text) : (rest : List Text) → ParseError → Prop
  /-- Before the first header only blank lines may stand. -/
  | noHeader {line : Text} {rest : List Text} (hbefore : ∀ l ∈ before, Header.parse? l = none)
      (hline : Header.parse? line = none) (hblank : isBlankLine line = false) :
      Violates before (line :: rest) (.invalidHeader (before.length + 1) line)
  /-- In an entry there may be no header. -/
  | headerInEntry {line : Text} {rest : List Text} {start : Nat} (hopen : EndsInEntry before start)
      (hline : (Header.parse? line).isSome) :
      Violates before (line :: rest) (.unexpectedLine (before.length + 1) line)
  /-- The version of a header has to be one. -/
  | badVersion {line : Text} {rest : List Text} {h : Header}
      (hclosed : ∀ start, ¬ EndsInEntry before start) (hline : Header.parse? line = some h)
      (hversion : Version.parse? h.version = none) :
      Violates before (line :: rest) (.invalidVersion (before.length + 1) h.version)
  /-- What stands between the commas of a header and is not blank has to have a `=` in it. -/
  | badSetting {line : Text} {rest : List Text} {h : Header} {piece : Text}
      (hclosed : ∀ start, ¬ EndsInEntry before start) (hline : Header.parse? line = some h)
      (hversion : (Version.parse? h.version).isSome) (hpiece : piece ∈ h.settings.splitOn ',')
      (hblank : isBlankLine piece = false) (hequals : '=' ∉ piece) :
      Violates before (line :: rest) (.invalidHeader (before.length + 1) line)
  /-- The text may not end in an entry. -/
  | noTrailer {start : Nat} (hopen : EndsInEntry before start) :
      Violates before [] (.missingTrailer start)

/-- Nothing is wrong with the first `n` lines. -/
def CleanUpTo (n : Nat) (ls : List Text) : Prop :=
  ∀ before rest e, ls = before ++ rest → before.length < n → ¬ Violates before rest e

/-- The error is that of the first violation in the lines. -/
def FirstViolation (ls : List Text) (e : ParseError) : Prop :=
  ∃ before rest, ls = before ++ rest ∧ Violates before rest e ∧ CleanUpTo before.length ls

/-! ### In an entry or not -/

theorem not_endsInEntry_nil (start : Nat) : ¬ EndsInEntry [] start := by
  rintro ⟨above, header, body, hls, -⟩
  simp at hls

/-- Behind one more line: the line is a header, or it is an inner line of the entry. -/
theorem endsInEntry_concat_iff {ls : List Text} {line : Text} {start : Nat} :
    EndsInEntry (ls ++ [line]) start ↔
      (Header.parse? line).isSome ∧ start = ls.length + 1 ∨ IsInner line ∧ EndsInEntry ls start := by
  constructor
  · rintro ⟨above, header, body, hls, rfl, hheader, hbody⟩
    rcases List.eq_nil_or_concat' body with rfl | ⟨body, last, rfl⟩
    · obtain ⟨rfl, hline⟩ := List.append_inj' hls rfl
      cases hline
      exact .inl ⟨hheader, rfl⟩
    · rw [← List.cons_append, ← List.append_assoc] at hls
      obtain ⟨rfl, hline⟩ := List.append_inj' hls rfl
      cases hline
      obtain ⟨hbody, hlast⟩ := List.forall_mem_append.mp hbody
      exact .inr ⟨List.forall_mem_singleton.mp hlast, above, header, body, rfl, rfl, hheader, hbody⟩
  · rintro (⟨hheader, rfl⟩ | ⟨hline, above, header, body, rfl, rfl, hheader, hbody⟩)
    · exact ⟨ls, line, [], rfl, rfl, hheader, by simp⟩
    · refine ⟨above, header, body ++ [line], by simp, rfl, hheader, ?_⟩
      exact List.forall_mem_append.mpr ⟨hbody, List.forall_mem_singleton.mpr hline⟩

theorem EndsInEntry.exists_header {ls : List Text} {start : Nat} (h : EndsInEntry ls start) :
    ¬ ∀ l ∈ ls, Header.parse? l = none := by
  obtain ⟨above, header, body, rfl, -, hheader, -⟩ := h
  intro hnone
  rw [hnone header (by simp)] at hheader
  cases hheader

/-! ### Headers that are refused -/

namespace Entry

theorem addSettings_eq_none_iff {e : Entry} {ts : List Text} :
    e.addSettings ts = none ↔ ∃ t ∈ ts, '=' ∉ t := by
  induction ts generalizing e with
  | nil => simp [addSettings]
  | cons t ts ih =>
    rw [addSettings]
    split
    · rename_i key value hcut
      obtain ⟨-, rfl⟩ := cut?_eq_some_iff.mp hcut
      simp [ih]
    · rename_i hcut
      have hequals : '=' ∉ t := fun hmem => by
        obtain ⟨key, value, h⟩ := exists_cut? hmem
        rw [hcut] at h
        cases h
      simp [hequals]

/-- A setting without a `=` comes from a piece between the commas that is not blank. -/
theorem exists_mem_splitSettings_iff {t : Text} :
    (∃ setting ∈ splitSettings t, '=' ∉ setting) ↔
      ∃ piece ∈ t.splitOn ',', isBlankLine piece = false ∧ '=' ∉ piece := by
  have hequals : ∀ piece, '=' ∈ trim piece ↔ '=' ∈ piece := fun piece => mem_trim_iff (by decide)
  simp [splitSettings, trim_eq_nil_iff, hequals, and_assoc]

theorem ofHeader_eq_error_iff {n : Nat} {line : Text} {h : Header} {err : ParseError} :
    ofHeader n line h = .error err ↔
      (Version.parse? h.version = none ∧ err = .invalidVersion n h.version) ∨
      ((Version.parse? h.version).isSome ∧ err = .invalidHeader n line ∧
        ∃ piece ∈ h.settings.splitOn ',', isBlankLine piece = false ∧ '=' ∉ piece) := by
  rw [← exists_mem_splitSettings_iff]
  unfold ofHeader
  cases hversion : Version.parse? h.version with
  | none => simp [eq_comm]
  | some version =>
    rw [← addSettings_eq_none_iff
      (e := { package := h.package, version, distributions := h.distributions })]
    dsimp only
    split
    · rename_i e he
      simp [he]
    · rename_i hnone
      simp [hnone, eq_comm]

end Entry

/-! ### Violations by the kind of the line -/

variable {before rest : List Text} {line : Text} {err : ParseError}

/-- In an entry only a header is wrong. -/
theorem violates_inEntry_iff {start : Nat} (hopen : EndsInEntry before start) :
    Violates before (line :: rest) err ↔
      (Header.parse? line).isSome ∧ err = .unexpectedLine (before.length + 1) line := by
  constructor
  · intro h
    cases h with
    | noHeader hbefore => exact absurd hbefore hopen.exists_header
    | headerInEntry _ hline => exact ⟨hline, rfl⟩
    | badVersion hclosed => exact absurd hopen (hclosed start)
    | badSetting hclosed => exact absurd hopen (hclosed start)
  · rintro ⟨hline, rfl⟩
    exact .headerInEntry hopen hline

/-- Between entries a header is wrong if no entry can be made of it. -/
theorem violates_header_iff {h : Header} (hclosed : ∀ start, ¬ EndsInEntry before start)
    (hline : Header.parse? line = some h) :
    Violates before (line :: rest) err ↔
      Entry.ofHeader (before.length + 1) line h = .error err := by
  rw [Entry.ofHeader_eq_error_iff]
  constructor
  · intro hviolates
    cases hviolates with
    | noHeader _ hnone => rw [hline] at hnone; cases hnone
    | headerInEntry hopen => exact absurd hopen (hclosed _)
    | badVersion _ hline' hversion =>
      cases hline.symm.trans hline'
      exact .inl ⟨hversion, rfl⟩
    | badSetting _ hline' hversion hpiece hblank hequals =>
      cases hline.symm.trans hline'
      exact .inr ⟨hversion, rfl, _, hpiece, hblank, hequals⟩
  · rintro (⟨hversion, rfl⟩ | ⟨hversion, rfl, piece, hpiece, hblank, hequals⟩)
    · exact .badVersion hclosed hline hversion
    · exact .badSetting hclosed hline hversion hpiece hblank hequals

/-- Between entries any other line is wrong only before the first header, and if it is not blank. -/
theorem violates_between_iff (hclosed : ∀ start, ¬ EndsInEntry before start)
    (hline : Header.parse? line = none) :
    Violates before (line :: rest) err ↔
      (∀ l ∈ before, Header.parse? l = none) ∧ isBlankLine line = false ∧
        err = .invalidHeader (before.length + 1) line := by
  constructor
  · intro h
    cases h with
    | noHeader hbefore _ hblank => exact ⟨hbefore, hblank, rfl⟩
    | headerInEntry hopen => exact absurd hopen (hclosed _)
    | badVersion _ hline' => rw [hline] at hline'; cases hline'
    | badSetting _ hline' => rw [hline] at hline'; cases hline'
  · rintro ⟨hbefore, hblank, rfl⟩
    exact .noHeader hbefore hline hblank

theorem violates_end_iff :
    Violates before [] err ↔ ∃ start, EndsInEntry before start ∧ err = .missingTrailer start := by
  constructor
  · rintro ⟨⟩
    rename_i start hopen
    exact ⟨start, hopen, rfl⟩
  · rintro ⟨start, hopen, rfl⟩
    exact .noTrailer hopen

/-! ### The first violation -/

theorem cleanUpTo_zero (ls : List Text) : CleanUpTo 0 ls := fun _ _ _ _ hlt => absurd hlt (by omega)

theorem CleanUpTo.succ (h : CleanUpTo before.length (before ++ rest))
    (hnext : ∀ e, ¬ Violates before rest e) : CleanUpTo (before.length + 1) (before ++ rest) := by
  intro before' rest' e hsplit hlt
  by_cases hlength : before'.length < before.length
  · exact h before' rest' e hsplit hlength
  · obtain ⟨rfl, rfl⟩ := List.append_inj hsplit (by omega)
    exact hnext e

/-- If something is wrong with the next line, that is the first violation. -/
theorem CleanUpTo.firstViolation_iff {e : ParseError} (h : CleanUpTo before.length (before ++ rest))
    (hnext : Violates before rest e) :
    FirstViolation (before ++ rest) err ↔ Violates before rest err := by
  constructor
  · rintro ⟨before', rest', hsplit, hviolates, hclean⟩
    have hge : ¬ before'.length < before.length := fun hlt => h before' rest' err hsplit hlt hviolates
    have hle : ¬ before.length < before'.length := fun hlt => hclean before rest e rfl hlt hnext
    obtain ⟨rfl, rfl⟩ := List.append_inj hsplit (by omega)
    exact hviolates
  · exact fun hviolates => ⟨before, rest, rfl, hviolates, h⟩

theorem CleanUpTo.not_firstViolation {ls : List Text} (h : CleanUpTo (ls.length + 1) ls) :
    ¬ FirstViolation ls err := by
  rintro ⟨before, rest, rfl, hviolates, -⟩
  exact h before rest err rfl (by rw [List.length_append]; omega) hviolates

theorem exists_firstViolation {ls : List Text} (hls : ls = before ++ rest)
    (h : Violates before rest err) : ∃ e, FirstViolation ls e := by
  induction hn : before.length using Nat.strong_induction_on generalizing before rest err with
  | _ n ih =>
    subst hn
    by_cases hclean : CleanUpTo before.length ls
    · exact ⟨err, before, rest, hls, h, hclean⟩
    · simp only [CleanUpTo, not_forall, not_not] at hclean
      obtain ⟨before', rest', e, hsplit, hlt, hviolates⟩ := hclean
      exact ih before'.length hlt hsplit hviolates rfl

/-! ### The reader -/

namespace Reader

/-- The reader knows of the lines before it whether they end in an entry, and whether there was a header
among them. -/
structure Tracks (r : Reader) (before : List Text) : Prop where
  inEntry : ∀ start, (∃ e, r.current = some (start, e)) ↔ EndsInEntry before start
  noHeader : r.current = none → (r.entries = [] ↔ ∀ l ∈ before, Header.parse? l = none)

theorem tracks_empty : Tracks {} [] :=
  ⟨fun start => by simp [not_endsInEntry_nil start], by simp⟩

variable {r r' : Reader}

theorem Tracks.not_endsInEntry (h : r.Tracks before) (hcurrent : r.current = none) (start : Nat) :
    ¬ EndsInEntry before start := by
  rw [← h.inEntry start, hcurrent]
  simp

/-- **A line is refused** exactly if something is wrong with it. -/
theorem Tracks.feed_eq_error_iff (h : r.Tracks before) :
    r.feed (before.length + 1) line = .error err ↔ Violates before (line :: rest) err := by
  cases hcurrent : r.current with
  | some current =>
    obtain ⟨start, e⟩ := current
    rw [violates_inEntry_iff ((h.inEntry start).mp ⟨e, hcurrent⟩)]
    simp only [feed, hcurrent, feedInside]
    cases ht : Trailer.parse? line with
    | some t => simp [parse?_header_of_trailer ht]
    | none => by_cases hheader : (Header.parse? line).isSome = true <;> simp [hheader, eq_comm]
  | none =>
    simp only [feed, hcurrent, feedBetween]
    have hclosed := h.not_endsInEntry hcurrent
    cases hheader : Header.parse? line with
    | some header =>
      rw [violates_header_iff hclosed hheader]
      cases hopened : Entry.ofHeader (before.length + 1) line header <;> simp [hopened]
    | none =>
      rw [violates_between_iff hclosed hheader, ← h.noHeader hcurrent, ← List.getLast?_eq_none_iff]
      cases r.entries.getLast? with
      | some last => simp
      | none => cases hblank : isBlankLine line <;> simp [eq_comm]

/-- Taking a line keeps up what the reader knows of the lines before it. -/
theorem Tracks.takes {n : Nat} (h : r.Tracks before) (htakes : r.Takes n line r')
    (hn : n = before.length + 1) : r'.Tracks (before ++ [line]) := by
  obtain ⟨hinEntry, hnoHeader⟩ := h
  cases htakes with
  | @trailer es start e _ _ t ht =>
    have hopen : EndsInEntry before start := (hinEntry start).mp ⟨e, rfl⟩
    have hnot : ¬ IsInner line := fun hinner => by simp [hinner.noTrailer] at ht
    have hheader : ¬ ∀ l ∈ before ++ [line], Header.parse? l = none := fun hnone =>
      hopen.exists_header (List.forall_mem_append.mp hnone).1
    refine ⟨fun start' => ?_, fun _ => iff_of_false (by simp) hheader⟩
    simp [endsInEntry_concat_iff, parse?_header_of_trailer ht, hnot]
  | change hline =>
    refine ⟨fun start' => ?_, nofun⟩
    rw [endsInEntry_concat_iff, ← hinEntry start']
    simp [hline, hline.noHeader]
  | header hline =>
    refine ⟨fun start' => ?_, nofun⟩
    simp [endsInEntry_concat_iff, hline, ← hinEntry, hn, eq_comm]
  | trailing hline =>
    have hheader : ¬ ∀ l ∈ before ++ [line], Header.parse? l = none := fun hnone => by
      simpa using (hnoHeader rfl).mpr (List.forall_mem_append.mp hnone).1
    refine ⟨fun start' => ?_, fun _ => iff_of_false (by simp) hheader⟩
    simp [endsInEntry_concat_iff, hline, ← hinEntry]
  | blank hblank =>
    have hline := parse?_header_of_blank hblank
    refine ⟨fun start' => ?_, fun _ => iff_of_true rfl ?_⟩
    · simp [endsInEntry_concat_iff, hline, ← hinEntry]
    · exact List.forall_mem_append.mpr ⟨(hnoHeader rfl).mp rfl, List.forall_mem_singleton.mpr hline⟩

/-- What comes of the lines from a reader on. -/
def readRest (r : Reader) (n : Nat) (ls : List Text) : Except ParseError Changelog :=
  match r.run n ls with
  | .error e => .error e
  | .ok r =>
    match r.current with
    | some (start, _) => .error (.missingTrailer start)
    | none => .ok ⟨r.entries⟩

theorem Tracks.readRest_nil_eq_error_iff (h : r.Tracks before) (n : Nat) :
    r.readRest n [] = .error err ↔ Violates before [] err := by
  rw [violates_end_iff]
  simp only [readRest, run, ← h.inEntry]
  cases r.current with
  | some current =>
    obtain ⟨start, e⟩ := current
    simp [eq_comm]
  | none => simp

/-- **The first violation is found**: if nothing is wrong with the lines before it, a reader gives the
error of the first violation. -/
theorem Tracks.readRest_eq_error_iff (h : r.Tracks before)
    (hclean : CleanUpTo before.length (before ++ rest)) :
    r.readRest (before.length + 1) rest = .error err ↔ FirstViolation (before ++ rest) err := by
  induction rest generalizing r before with
  | nil =>
    by_cases hnext : ∃ e, Violates before [] e
    · obtain ⟨e, hviolates⟩ := hnext
      rw [h.readRest_nil_eq_error_iff, hclean.firstViolation_iff hviolates]
    · have hnone := not_exists.mp hnext
      have hall := hclean.succ hnone
      rw [h.readRest_nil_eq_error_iff]
      rw [List.append_nil] at hall ⊢
      exact iff_of_false (hnone err) hall.not_firstViolation
  | cons line rest ih =>
    cases hfeed : r.feed (before.length + 1) line with
    | error e =>
      have hviolates : Violates before (line :: rest) e := h.feed_eq_error_iff.mp hfeed
      rw [hclean.firstViolation_iff hviolates, ← h.feed_eq_error_iff, readRest, run, hfeed]
      simp
    | ok r' =>
      have hnone : ∀ e, ¬ Violates before (line :: rest) e := fun e hviolates => by
        rw [h.feed_eq_error_iff.mpr hviolates] at hfeed
        cases hfeed
      have hrest := hclean.succ hnone
      have hnext := ih (h.takes (feed_eq_ok_iff.mp hfeed) rfl) (by simpa using hrest)
      rw [List.length_append, List.length_singleton, List.append_assoc, List.singleton_append] at hnext
      rw [← hnext, readRest, run, hfeed]
      rfl

end Reader

/-! ### Texts -/

/-- A text gives the error of the first violation in its lines. -/
theorem parse_eq_error_iff {t : Text} {e : ParseError} :
    parse t = .error e ↔ FirstViolation (lines t) e :=
  Reader.tracks_empty.readRest_eq_error_iff (cleanUpTo_zero _)

/-- **What a changelog is, line by line.** A text is read if nothing is wrong with any of its lines, and
otherwise the error is that of the first line with which something is wrong. What is read has an entry
for each header, with the lines up to its trailer and the lines from there up to the next header. -/
theorem parse_iff_violates (t : Text) :
    ((∃ c, parse t = .ok c) ↔
      ∀ before rest e, lines t = before ++ rest → ¬ Violates before rest e) ∧
    (∀ e, parse t = .error e ↔ FirstViolation (lines t) e) ∧
    ∀ c, parse t = .ok c ↔ Divides (lines t) c.entries := by
  refine ⟨⟨?_, fun h => ?_⟩, fun e => parse_eq_error_iff, fun c => parse_eq_ok_iff⟩
  · rintro ⟨c, hc⟩ before rest e hsplit hviolates
    obtain ⟨e', hfirst⟩ := exists_firstViolation hsplit hviolates
    rw [parse_eq_error_iff.mpr hfirst] at hc
    cases hc
  · cases hparse : parse t with
    | ok c => exact ⟨c, rfl⟩
    | error e =>
      obtain ⟨before, rest, hsplit, hviolates, -⟩ := parse_eq_error_iff.mp hparse
      exact absurd hviolates (h before rest e hsplit)

end Packaging.Changelog
