import Mathlib.Data.List.Forall2
import Packaging.Proofs.Changelog.Reading

/-!
# How the lines of a changelog fall into entries

Lines are read one by one, but what comes of them can be said without a reader: behind a few blank
lines they fall into stretches, each a header, the lines up to a trailer, the trailer, and the lines up
to the next header. Each stretch gives one entry.

## What is proved

* `Reader.run_stretch` — the lines of a stretch are read into the entry that the stretch gives.
* `Reader.Divided.takes` — whatever lines were read, they fall into stretches, and into the beginning of
  one more if an entry is open.
* `parse_eq_ok_iff` — a text is read into a changelog exactly if its lines fall into stretches that give
  the entries of the changelog.
-/

namespace Packaging.Changelog

open Text

/-! ### Stretches of lines -/

/-- The lines of one entry. -/
structure Stretch where
  header : Text
  /-- The lines up to the trailer. -/
  body : List Text
  trailer : Text
  /-- The lines up to the next header. -/
  after : List Text

namespace Stretch

/-- The lines, in order. -/
def toLines (s : Stretch) : List Text := s.header :: (s.body ++ s.trailer :: s.after)

end Stretch

namespace Entry

/-- What the header of the entry says. -/
def opened (e : Entry) : Entry := { e with changes := [], author := none, date := none, trailing := [] }

/-- The line is a header, and it begins this entry. -/
def BeginsWith (e : Entry) (line : Text) : Prop :=
  ∃ h, Header.parse? line = some h ∧ ∀ n l, ofHeader n l h = .ok e.opened

/-- The line is a trailer, and it ends this entry. -/
def EndsWith (e : Entry) (line : Text) : Prop :=
  ∃ t, Trailer.parse? line = some t ∧ e.author = some t.author ∧ e.date = t.date

end Entry

/-- The stretch says what the entry holds. -/
structure Stretch.Gives (s : Stretch) (e : Entry) : Prop where
  header : e.BeginsWith s.header
  trailer : e.EndsWith s.trailer
  changes : e.changes = s.body
  trailing : e.trailing = s.after
  body : ∀ l ∈ s.body, IsInner l
  after : ∀ l ∈ s.after, Header.parse? l = none

/-- The lines are blank lines and stretches that give the entries. -/
def Divides (ls : List Text) (es : List Entry) : Prop :=
  ∃ blanks ss, ls = blanks ++ ss.flatMap Stretch.toLines ∧ (∀ l ∈ blanks, isBlankLine l = true) ∧
    List.Forall₂ Stretch.Gives ss es

/-! ### Headers and trailers of entries -/

/-- What an entry that a header begins holds does not depend on where the header stands. -/
theorem Entry.ofHeader_eq_opened {n : Nat} {line : Text} {h : Header} {e : Entry}
    (he : ofHeader n line h = .ok e) : e.opened = e ∧ ∀ m l, ofHeader m l h = .ok e := by
  obtain ⟨version, hversion, hadd⟩ := ofHeader_eq_ok_iff.mp he
  have hparts := addSettings_eq_some hadd
  refine ⟨?_, fun m l => ofHeader_eq_ok_iff.mpr ⟨version, hversion, hadd⟩⟩
  rw [hparts]
  rfl

namespace Entry

variable {e : Entry} {package author : Text} {version : Version}

/-- The header says nothing about the lines and the trailer. -/
theorem hasHeader_opened_iff : e.opened.HasHeader package version ↔ e.HasHeader package version := by
  constructor <;> rintro ⟨hpackage, hversion, hdistributions, htrimmed, hnew, htexts, hkeys, hurgency, hnone⟩
  · exact ⟨hpackage, hversion, hdistributions, htrimmed, hnew, htexts, hkeys, hurgency, hnone⟩
  · exact ⟨hpackage, hversion, hdistributions, htrimmed, hnew, htexts, hkeys, hurgency, hnone⟩

theorem HasHeader.beginsWith (h : e.HasHeader package version) (hpackage : e.package = some package)
    (hversion : e.version = some version) : e.BeginsWith (headerLine package version e) :=
  ⟨_, h.parse?_headerLine, fun n l => by rw [h.ofHeader_eq, opened, hpackage, hversion]⟩

/-- What a header that was read says can be written and read again. -/
theorem BeginsWith.exists_hasHeader {line : Text} (h : e.BeginsWith line) (hnew : '\n' ∉ line) :
    ∃ package version, e.package = some package ∧ e.version = some version ∧
      e.HasHeader package version := by
  obtain ⟨header, hheader, hopened⟩ := h
  obtain ⟨package, version, hpackage, hversion, hparts⟩ :=
    hasHeader_of_ofHeader hnew hheader (hopened 0 line)
  exact ⟨package, version, hpackage, hversion, hasHeader_opened_iff.mp hparts⟩

theorem renderLines_eq_ok (hpackage : e.package = some package) (hversion : e.version = some version)
    (hauthor : e.author = some author) :
    e.renderLines = .ok (headerLine package version e ::
      (e.changes ++ trailerLine author e.date :: e.trailing)) := by
  simp [renderLines, hpackage, hversion, hauthor]

end Entry

/-! ### One line more -/

variable {es : List Entry} {e : Entry} {line : Text} {whole : List Text}

theorem divides_append {s : Stretch} (h : Divides whole es) (hs : s.Gives e) :
    Divides (whole ++ s.toLines) (es ++ [e]) := by
  obtain ⟨blanks, ss, rfl, hblanks, hss⟩ := h
  refine ⟨blanks, ss ++ [s], by simp, hblanks, ?_⟩
  exact List.rel_append hss (.cons hs .nil)

theorem exists_last_stretch {ss : List Stretch} (h : List.Forall₂ Stretch.Gives ss (es ++ [e])) :
    ∃ init last, ss = init ++ [last] ∧ List.Forall₂ Stretch.Gives init es ∧ last.Gives e := by
  obtain ⟨last, rest, hlast, hrest, hss⟩ :=
    List.forall₂_cons_right_iff.mp (List.forall₂_drop_append ss es [e] h)
  obtain rfl := List.forall₂_nil_right_iff.mp hrest
  refine ⟨ss.take es.length, last, ?_, List.forall₂_take_append ss es [e] h, hlast⟩
  rw [← hss, List.take_append_drop]

theorem Stretch.Gives.addTrailing {s : Stretch} (h : s.Gives e) (hline : Header.parse? line = none) :
    ({ s with after := s.after ++ [line] } : Stretch).Gives (e.addTrailing line) :=
  ⟨h.header, h.trailer, h.changes, by rw [Entry.addTrailing, h.trailing], h.body,
    List.forall_mem_append.mpr ⟨h.after, List.forall_mem_singleton.mpr hline⟩⟩

/-- A line behind the last stretch that is no header is one more line of the last entry. -/
theorem divides_addTrailing (h : Divides whole (es ++ [e]))
    (hline : Header.parse? line = none) : Divides (whole ++ [line]) (es ++ [e.addTrailing line]) := by
  obtain ⟨blanks, ss, rfl, hblanks, hss⟩ := h
  obtain ⟨init, last, rfl, hinit, hlast⟩ := exists_last_stretch hss
  refine ⟨blanks, init ++ [{ last with after := last.after ++ [line] }], ?_, hblanks,
    List.rel_append hinit (.cons (hlast.addTrailing hline) .nil)⟩
  simp [Stretch.toLines]

/-- Before the first entry only blank lines were read. -/
theorem divides_blank (h : Divides whole []) (hline : isBlankLine line = true) :
    Divides (whole ++ [line]) [] := by
  obtain ⟨blanks, ss, rfl, hblanks, hss⟩ := h
  obtain rfl := List.forall₂_nil_right_iff.mp hss
  refine ⟨blanks ++ [line], [], by simp, ?_, .nil⟩
  exact List.forall_mem_append.mpr ⟨hblanks, List.forall_mem_singleton.mpr hline⟩

namespace Reader

/-! ### Reading stretches -/

/-- Blank lines before the first header are passed over. -/
theorem run_blanks {blanks : List Text} (h : ∀ l ∈ blanks, isBlankLine l = true) (n : Nat) :
    run {} n blanks = .ok {} := by
  induction blanks generalizing n with
  | nil => rfl
  | cons line blanks ih =>
    obtain ⟨hline, hblanks⟩ := List.forall_mem_cons.mp h
    rw [(Takes.blank hline).run_cons, ih hblanks]

theorem run_body {body : List Text} (h : ∀ l ∈ body, IsInner l) (start n : Nat) :
    run ⟨es, some (start, e)⟩ n body =
      .ok ⟨es, some (start, { e with changes := e.changes ++ body })⟩ := by
  induction body generalizing e n with
  | nil => simp [run]
  | cons line body ih =>
    obtain ⟨hline, hbody⟩ := List.forall_mem_cons.mp h
    rw [(Takes.change hline).run_cons, ih hbody]
    simp [Entry.addChange]

theorem run_after {after : List Text} (h : ∀ l ∈ after, Header.parse? l = none) (n : Nat) :
    run ⟨es ++ [e], none⟩ n after =
      .ok ⟨es ++ [{ e with trailing := e.trailing ++ after }], none⟩ := by
  induction after generalizing e n with
  | nil => simp [run]
  | cons line after ih =>
    obtain ⟨hline, hafter⟩ := List.forall_mem_cons.mp h
    rw [(Takes.trailing hline).run_cons, ih hafter]
    simp [Entry.addTrailing]

/-- **A stretch is read** into the entry that it gives. -/
theorem run_stretch {s : Stretch} (h : s.Gives e) (n : Nat) :
    run ⟨es, none⟩ n s.toLines = .ok ⟨es ++ [e], none⟩ := by
  obtain ⟨header, hheader, hopened⟩ := h.header
  obtain ⟨t, ht, hauthor, hdate⟩ := h.trailer
  have hbody : run ⟨es, some (n, e.opened)⟩ (n + 1) s.body =
      .ok ⟨es, some (n, { e.opened with changes := e.changes })⟩ := by
    rw [run_body h.body, show e.opened.changes ++ s.body = e.changes from h.changes.symm]
  have hclosed : ({ e.opened with changes := e.changes } : Entry).close t = { e with trailing := [] } := by
    rw [Entry.close, ← hauthor, ← hdate]
    rfl
  rw [Stretch.toLines, (Takes.header hheader (hopened n s.header)).run_cons, run_append hbody,
    (Takes.trailer ht).run_cons, hclosed, run_after h.after, List.nil_append, ← h.trailing]

theorem run_stretches {ss : List Stretch} {new : List Entry} (h : List.Forall₂ Stretch.Gives ss new)
    (n : Nat) : run ⟨es, none⟩ n (ss.flatMap Stretch.toLines) = .ok ⟨es ++ new, none⟩ := by
  induction h generalizing es n with
  | nil => simp [run]
  | cons hs _ ih =>
    rw [List.flatMap_cons, run_append (run_stretch hs n), ih]
    simp

/-- Lines that fall into stretches are read into the entries. -/
theorem run_of_divides {ls : List Text} (h : Divides ls es) (n : Nat) :
    run {} n ls = .ok ⟨es, none⟩ := by
  obtain ⟨blanks, ss, rfl, hblanks, hss⟩ := h
  rw [run_append (run_blanks hblanks n)]
  exact run_stretches hss _

/-! ### Lines that were read -/

/-- The lines are the beginning of a stretch, up to some line before its trailer. -/
structure Opens (ls : List Text) (e : Entry) : Prop where
  lines : ∃ header, ls = header :: e.changes ∧ e.BeginsWith header
  body : ∀ l ∈ e.changes, IsInner l
  trailing : e.trailing = []

/-- The lines that were read fall into stretches, and into the beginning of one if an entry is open. -/
def Divided (r : Reader) (ls : List Text) : Prop :=
  ∃ whole part, ls = whole ++ part ∧ Divides whole r.entries ∧
    match r.current with
    | some (_, e) => Opens part e
    | none => part = []

theorem divided_empty : Divided {} [] := ⟨[], [], rfl, ⟨[], [], rfl, by simp, .nil⟩, rfl⟩

variable {r r' : Reader} {ls : List Text} {n : Nat}

/-- **Taking a line** keeps the lines that were read divided into stretches. -/
theorem Divided.takes (h : r.Divided ls) (htakes : r.Takes n line r') : r'.Divided (ls ++ [line]) := by
  obtain ⟨whole, part, rfl, hwhole, hpart⟩ := h
  cases htakes with
  | @trailer es start e _ _ t ht =>
    -- the stretch is complete
    obtain ⟨⟨header, rfl, hheader⟩, hbody, htrailing⟩ := hpart
    have hgives : Stretch.Gives ⟨header, e.changes, line, []⟩ (e.close t) :=
      ⟨hheader, ⟨t, ht, rfl, rfl⟩, rfl, htrailing, hbody, by simp⟩
    refine ⟨_, [], ?_, divides_append hwhole hgives, rfl⟩
    simp [Stretch.toLines]
  | change hline =>
    obtain ⟨⟨header, rfl, hheader⟩, hbody, htrailing⟩ := hpart
    refine ⟨whole, _, List.append_assoc .., hwhole, ⟨header, rfl, hheader⟩, ?_, htrailing⟩
    exact List.forall_mem_append.mpr ⟨hbody, List.forall_mem_singleton.mpr hline⟩
  | @header es e _ _ header hline he =>
    obtain rfl : part = [] := hpart
    obtain ⟨hopened, hagain⟩ := Entry.ofHeader_eq_opened he
    rw [← hopened] at hagain ⊢
    exact ⟨whole, [line], by rw [List.append_nil], hwhole, ⟨line, rfl, header, hline, hagain⟩,
      List.forall_mem_nil _, rfl⟩
  | trailing hline =>
    obtain rfl : part = [] := hpart
    rw [List.append_nil]
    exact ⟨_, [], (List.append_nil _).symm, divides_addTrailing hwhole hline, rfl⟩
  | blank hblank =>
    obtain rfl : part = [] := hpart
    rw [List.append_nil]
    exact ⟨_, [], (List.append_nil _).symm, divides_blank hwhole hblank, rfl⟩

theorem Divided.run (h : r.Divided ls) {more : List Text} (hrun : r.run n more = .ok r') :
    r'.Divided (ls ++ more) :=
  run_induction Divided (fun _ => True) (fun h _ htakes => h.takes htakes) ls h (fun _ _ => trivial) hrun

end Reader

/-- **What a changelog is read from.** A text is read into a changelog exactly if its lines fall into
stretches that give the entries. -/
theorem parse_eq_ok_iff {t : Text} {c : Changelog} :
    parse t = .ok c ↔ Divides (lines t) c.entries := by
  rw [parse_eq_ok_iff_run]
  constructor
  · intro hrun
    obtain ⟨whole, part, hlines, hwhole, hpart⟩ := Reader.divided_empty.run hrun
    obtain rfl : part = [] := hpart
    rw [List.nil_append, List.append_nil] at hlines
    rwa [hlines]
  · exact fun h => Reader.run_of_divides h 1

end Packaging.Changelog
