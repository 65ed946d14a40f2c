import Packaging.Proofs.Changelog.Ledger

/-!
# No line is lost in sections

The sections of an entry have all of its lines from the first that is not blank on, one after the other,
and the changes of a section have its lines but for blank ones and its marker. A section is left out only
if nothing was in it.

## What is proved

* `Divider.Tracks.endSection` — a section that is left out has no lines.
* `Divider.Tracks.feed`, `Divider.Tracks.run` — what dividing lines keeps, line by line and over all lines.
* `markedAuthors_eq` — the names in markers, each once, where it is first.
* `covers_sections` — what the sections of an entry are.
-/

namespace Packaging.Changelog

open Text

/-! ### Changes and sections of lines -/

/-- The line belongs to a change: it is not blank, and no marker of an author. -/
def isChangeLine (line : Text) : Bool := !isBlankLine line && (marker? line).isNone

/-- The number of the first line that is not blank, if there is one. -/
def firstLine (lines : List Text) : Nat := lines.findIdx (!isBlankLine ·)

/-- The change is one or more lines that stand one after the other, and only the first of them can be a
bullet. -/
structure Change.IsRunOf (lines : List Text) (c : Change) : Prop where
  ne_nil : c.lineNumbers ≠ []
  consecutive : ∃ start, c.lineNumbers = List.range' start c.lineNumbers.length
  lines : c.lines.map some = c.lineNumbers.map (lines[·]?)
  bullet : ∀ l ∈ c.lines.tail, startsWith bulletStart l = false

/-- The changes of the section are all of its lines that belong to one, and a section that names an author
begins with the marker. -/
structure Section.IsPartOf (lines : List Text) (s : Section) : Prop where
  changes : s.changes.flatMap Change.lineNumbers =
    s.lineNumbers.filter fun n => (lines[n]?).any isChangeLine
  runs : ∀ c ∈ s.changes, c.IsRunOf lines
  author : ∀ name, s.author = some name →
    ∃ n, s.lineNumbers.head? = some n ∧ (lines[n]?).bind marker? = some name

/-- The sections have the lines before the line `n`, from the first one that is not blank on. -/
structure Covers (lines : List Text) (n : Nat) (ss : List Section) : Prop where
  numbers : ss.flatMap Section.lineNumbers = List.range' (firstLine lines) (n - firstLine lines)
  parts : ∀ s ∈ ss, s.IsPartOf lines
  authors : ss.filterMap Section.author = (lines.take n).filterMap marker?
  later : ∀ s ∈ ss.tail, s.author.isSome = true

variable {lines : List Text} {n : Nat} {line : Text}

theorem firstLine_le (hline : lines[n]? = some line) (h : isBlankLine line = false) :
    firstLine lines ≤ n := by
  obtain ⟨hlt, rfl⟩ := List.getElem?_eq_some_iff.mp hline
  by_contra hbefore
  have hblank := List.not_of_lt_findIdx (Nat.not_le.mp hbefore)
  rw [h] at hblank
  cases hblank

/-- A blank line is not the first one that is not blank. -/
theorem lt_firstLine (hline : lines[n]? = some line) (h : isBlankLine line = true)
    (hle : n ≤ firstLine lines) : n < firstLine lines := by
  refine Nat.lt_of_le_of_ne hle ?_
  rintro rfl
  obtain ⟨hlt, rfl⟩ := List.getElem?_eq_some_iff.mp hline
  have hfound := @List.findIdx_getElem _ (fun l => !isBlankLine l) lines hlt
  exact absurd (h.symm.trans ((Bool.not_eq_true' _).mp hfound)) (by decide)

theorem range'_concat {k n : Nat} (h : k ≤ n) :
    List.range' k (n - k) ++ [n] = List.range' k (n + 1 - k) := by
  have hlength : n + 1 - k = n - k + 1 := by omega
  have hlast : k + 1 * (n - k) = n := by omega
  rw [hlength, List.range'_concat, hlast]

/-! ### One more line -/

theorem take_succ_of_getElem? (hline : lines[n]? = some line) :
    (lines.take (n + 1)).filterMap marker? = (lines.take n).filterMap marker? ++ (marker? line).toList := by
  rw [List.take_add_one, hline, List.filterMap_append]
  cases hmarker : marker? line <;> simp [hmarker]

theorem isChangeLine_of_isBlankLine (h : isBlankLine line = true) : isChangeLine line = false := by
  rw [isChangeLine, h]
  rfl

namespace Section.IsPartOf

variable {s : Section} {c : Change}

/-- The marker stays where it is when a line more comes to the section. -/
theorem author_concat (hs : s.IsPartOf lines) (n : Nat) : ∀ name, s.author = some name →
    ∃ m, (s.lineNumbers ++ [n]).head? = some m ∧ (lines[m]?).bind marker? = some name := by
  intro name hname
  obtain ⟨m, hm, hmarker⟩ := hs.author name hname
  exact ⟨m, by rw [List.head?_append, hm, Option.some_or], hmarker⟩

/-- A blank line more. -/
theorem addBlank (hs : s.IsPartOf lines) (hline : lines[n]? = some line) (h : isBlankLine line = true) :
    Section.IsPartOf lines { s with lineNumbers := s.lineNumbers ++ [n] } where
  changes := by
    rw [List.filter_append, ← hs.changes]
    simp [hline, isChangeLine_of_isBlankLine h]
  runs := hs.runs
  author := hs.author_concat n

/-- A line more of the change `c`, which is the last one or has no line yet. -/
theorem addLine {base : List Change} (hs : s.IsPartOf lines) (hbase : ∀ b ∈ base, b ∈ s.changes)
    (hnumbers : s.changes.flatMap Change.lineNumbers =
      base.flatMap Change.lineNumbers ++ c.lineNumbers)
    (hline : lines[n]? = some line) (h : isChangeLine line = true)
    (hrun : (c.add n line).IsRunOf lines) :
    Section.IsPartOf lines
      { s with lineNumbers := s.lineNumbers ++ [n], changes := base ++ [c.add n line] } where
  changes := by
    rw [List.filter_append, ← hs.changes, hnumbers]
    simp [hline, h, Change.add]
  runs := List.forall_mem_append.mpr
    ⟨fun b hb => hs.runs b (hbase b hb), List.forall_mem_singleton.mpr hrun⟩
  author := hs.author_concat n

/-- A marker alone. -/
theorem ofMarker {name : Text} (hline : lines[n]? = some line) (h : marker? line = some name) :
    Section.IsPartOf lines { author := some name, lineNumbers := [n] } where
  changes := by simp [hline, isChangeLine, h]
  runs := nofun
  author := fun name' hname => ⟨n, rfl, by rw [hline, Option.bind_some, h]; exact hname⟩

end Section.IsPartOf

/-- The change has the lines from some line up to the line `n`. -/
def Change.EndsBefore (n : Nat) (c : Change) : Prop :=
  ∃ start, start ≤ n ∧ c.lineNumbers = List.range' start (n - start)

namespace Change

variable {c : Change}

/-- The first line of a change. -/
theorem isRunOf_first (hline : lines[n]? = some line) :
    (Change.add {} n line).IsRunOf lines ∧ (Change.add {} n line).EndsBefore (n + 1) := by
  refine ⟨⟨List.cons_ne_nil n [], ⟨n, rfl⟩, ?_, nofun⟩, n, Nat.le_succ n, ?_⟩
  · rw [add, List.map_append, List.map_append]
    simp [hline]
  · rw [Nat.add_sub_cancel_left]
    rfl

/-- A further line of a change, which is no bullet. -/
theorem IsRunOf.add (hc : c.IsRunOf lines) (hends : c.EndsBefore n) (hline : lines[n]? = some line)
    (h : startsWith bulletStart line = false) :
    (c.add n line).IsRunOf lines ∧ (c.add n line).EndsBefore (n + 1) := by
  obtain ⟨start, hle, hnumbers⟩ := hends
  have hmore : (c.add n line).lineNumbers = List.range' start (n + 1 - start) := by
    rw [Change.add, hnumbers, range'_concat hle]
  have hne : c.lines ≠ [] := by
    intro hnil
    have hlines := hc.lines
    rw [hnil, List.map_nil, eq_comm, List.map_eq_nil_iff] at hlines
    exact hc.ne_nil hlines
  refine ⟨⟨List.append_ne_nil_of_right_ne_nil _ (List.cons_ne_nil n []), ⟨start, ?_⟩, ?_, ?_⟩, start,
    by omega, hmore⟩
  · rw [hmore, List.length_range']
  · rw [Change.add, List.map_append, List.map_append, hc.lines, List.map_singleton, List.map_singleton,
      hline]
  · rw [Change.add, List.tail_append_of_ne_nil hne]
    exact List.forall_mem_append.mpr ⟨hc.bullet, List.forall_mem_singleton.mpr h⟩

end Change

namespace Covers

variable {done : List Section} {s s' : Section} {ss : List Section}

/-- The last section gets a line more. -/
theorem addLine (h : Covers lines n (done ++ [s])) (hline : lines[n]? = some line)
    (hmarker : marker? line = none) (hfirst : firstLine lines ≤ n)
    (hnumbers : s'.lineNumbers = s.lineNumbers ++ [n]) (hauthor : s'.author = s.author)
    (hs' : s'.IsPartOf lines) : Covers lines (n + 1) (done ++ [s']) where
  numbers := by
    have hall := h.numbers
    rw [List.flatMap_append, List.flatMap_singleton] at hall
    rw [List.flatMap_append, List.flatMap_singleton, hnumbers, ← List.append_assoc, hall,
      range'_concat hfirst]
  parts := List.forall_mem_append.mpr
    ⟨(List.forall_mem_append.mp h.parts).1, List.forall_mem_singleton.mpr hs'⟩
  authors := by
    have hall := h.authors
    rw [List.filterMap_append] at hall
    rw [take_succ_of_getElem? hline, hmarker, Option.toList_none, List.append_nil, ← hall,
      List.filterMap_append, List.filterMap_cons, List.filterMap_cons, hauthor]
  later := by
    have hall := h.later
    cases done with
    | nil => nofun
    | cons d ds =>
      obtain ⟨hds, hs⟩ := List.forall_mem_append.mp hall
      refine List.forall_mem_append.mpr ⟨hds, List.forall_mem_singleton.mpr ?_⟩
      rw [hauthor]
      exact hs s (List.mem_singleton.mpr rfl)

/-- A marker begins a section. -/
theorem addMarker {name : Text} (h : Covers lines n ss) (hline : lines[n]? = some line)
    (hmarker : marker? line = some name) (hfirst : firstLine lines ≤ n) :
    Covers lines (n + 1) (ss ++ [{ author := some name, lineNumbers := [n] }]) where
  numbers := by
    rw [List.flatMap_append, List.flatMap_singleton, h.numbers, range'_concat hfirst]
  parts := List.forall_mem_append.mpr
    ⟨h.parts, List.forall_mem_singleton.mpr (.ofMarker hline hmarker)⟩
  authors := by
    rw [take_succ_of_getElem? hline, hmarker, List.filterMap_append, h.authors]
    rfl
  later := by
    cases ss with
    | nil => nofun
    | cons s ss => exact List.forall_mem_append.mpr ⟨h.later, List.forall_mem_singleton.mpr rfl⟩

/-- A blank line before the first one that is not blank is in no section. -/
theorem skip (h : Covers lines n ss) (hline : lines[n]? = some line) (hblank : isBlankLine line = true)
    (hfirst : n < firstLine lines) : Covers lines (n + 1) ss where
  numbers := by
    rw [h.numbers, Nat.sub_eq_zero_of_le (Nat.le_of_lt hfirst), Nat.sub_eq_zero_of_le hfirst]
  parts := h.parts
  authors := by
    rw [take_succ_of_getElem? hline, marker?_of_isBlankLine hblank, Option.toList_none, List.append_nil]
    exact h.authors
  later := h.later

/-- A section that is left out has no lines. -/
theorem leaveOut (h : Covers lines n (done ++ [s])) (hauthor : s.author = none)
    (hnumbers : s.lineNumbers = []) : Covers lines n done where
  numbers := by
    have hall := h.numbers
    rwa [List.flatMap_append, List.flatMap_singleton, hnumbers, List.append_nil] at hall
  parts := (List.forall_mem_append.mp h.parts).1
  authors := by
    have hall := h.authors
    rwa [List.filterMap_append, List.filterMap_cons_none hauthor, List.filterMap_nil,
      List.append_nil] at hall
  later := by
    have hall := h.later
    cases done with
    | nil => nofun
    | cons d ds => exact (List.forall_mem_append.mp hall).1

end Covers

/-! ### Dividing lines -/

namespace Divider

/-- All sections, the one being made included, with the change being made in it. -/
def all (d : Divider) : List Section := d.done ++ [d.endChange.current]

/-- What dividing the lines before the line `n` has led to. A section without an author and without a
change has no lines. -/
structure Tracks (lines : List Text) (n : Nat) (d : Divider) : Prop where
  covers : Covers lines n d.all
  started : d.started = true ↔ firstLine lines < n
  change : ∀ c, d.change = some c → d.started = true ∧ c.EndsBefore n
  absent : d.endChange.current.isPresent = false → d.current.lineNumbers = []

variable {d : Divider}

theorem tracks_empty (lines : List Text) : Tracks lines 0 {} where
  covers := {
    numbers := by rw [Nat.zero_sub]; rfl
    parts := List.forall_mem_singleton.mpr ⟨rfl, nofun, nofun⟩
    authors := rfl
    later := nofun }
  started := by simp
  change := nofun
  absent := fun _ => rfl

theorem Tracks.isPartOf_current (h : Tracks lines n d) : d.endChange.current.IsPartOf lines :=
  h.covers.parts d.endChange.current (List.mem_append_right _ (List.mem_singleton.mpr rfl))

/-- A section that is left out had nothing in it. -/
theorem Tracks.endSection (h : Tracks lines n d) : Covers lines n d.endSection.done := by
  have hdone : d.endSection.done = if d.endChange.current.isPresent then d.all else d.done := rfl
  rw [hdone]
  split
  · exact h.covers
  · rename_i habsent
    rw [Bool.not_eq_true] at habsent
    exact h.covers.leaveOut (Section.isPresent_eq_false_iff.mp habsent).1 (h.absent habsent)

/-- After the first line that is not blank there is something in the section being made. -/
theorem Tracks.isPresent (h : Tracks lines n d) (hfirst : firstLine lines < n) :
    d.endChange.current.isPresent = true := by
  by_contra habsent
  rw [Bool.not_eq_true] at habsent
  have hauthor := (Section.isPresent_eq_false_iff.mp habsent).1
  have hlater := h.covers.later
  have hnumbers := h.covers.numbers
  have hnone : d.endChange.current.lineNumbers = [] := h.absent habsent
  unfold all at hlater hnumbers
  cases hdone : d.done with
  | nil =>
    -- The only section would have the first line that is not blank.
    rw [hdone, List.nil_append, List.flatMap_singleton, hnone, eq_comm, List.range'_eq_nil_iff] at hnumbers
    omega
  | cons s ss =>
    -- Every section after the first one has an author.
    rw [hdone] at hlater
    have hsome := hlater d.endChange.current (List.mem_append_right _ (List.mem_singleton.mpr rfl))
    rw [hauthor] at hsome
    cases hsome

/-- A blank line finishes a change and belongs to the section being made. -/
theorem Tracks.addBlank (h : Tracks lines n d) (hline : lines[n]? = some line)
    (hblank : isBlankLine line = true) (hstarted : d.started = true) :
    Tracks lines (n + 1) (d.endChange.addNumber n) := by
  have hfirst := h.started.mp hstarted
  have hall : (d.endChange.addNumber n).all =
      d.done ++ [{ d.endChange.current with lineNumbers := d.current.lineNumbers ++ [n] }] := by
    simp [all, endChange, addNumber]
  refine ⟨?_, iff_of_true hstarted (Nat.lt_succ_of_lt hfirst), fun c hc => ?_, fun habsent => ?_⟩
  · rw [hall]
    exact h.covers.addLine hline (marker?_of_isBlankLine hblank) (Nat.le_of_lt hfirst) rfl rfl
      (h.isPartOf_current.addBlank hline hblank)
  · cases hc
  · have hpresent := h.isPresent hfirst
    have hsame : (d.endChange.addNumber n).endChange.current.isPresent = d.endChange.current.isPresent := by
      simp [Section.isPresent, endChange, addNumber]
    rw [hsame, hpresent] at habsent
    cases habsent

/-- A line goes to the change `c`, and the changes `base` are before it. -/
theorem Tracks.addLine {base : List Change} {c : Change} (h : Tracks lines n d)
    (hline : lines[n]? = some line) (hblank : isBlankLine line = false) (hmarker : marker? line = none)
    (hbase : ∀ b ∈ base, b ∈ d.endChange.current.changes)
    (hnumbers : d.endChange.current.changes.flatMap Change.lineNumbers =
      base.flatMap Change.lineNumbers ++ c.lineNumbers)
    (hrun : (c.add n line).IsRunOf lines ∧ (c.add n line).EndsBefore (n + 1)) :
    Tracks lines (n + 1)
      { d with
        current := { d.current with lineNumbers := d.current.lineNumbers ++ [n], changes := base }
        change := some (c.add n line)
        started := true } := by
  have hfirst := firstLine_le hline hblank
  have hchangeLine : isChangeLine line = true := by rw [isChangeLine, hblank, hmarker]; rfl
  refine ⟨?_, iff_of_true rfl (Nat.lt_succ_of_le hfirst), fun c' hc' => ?_, fun habsent => ?_⟩
  · exact h.covers.addLine hline hmarker hfirst rfl rfl
      (h.isPartOf_current.addLine hbase hnumbers hline hchangeLine hrun.1)
  · obtain rfl := Option.some.inj hc'
    exact ⟨rfl, hrun.2⟩
  · simp [Section.isPresent, endChange] at habsent

/-- A line that is not blank and no marker is a line more of the change being made, or the first line of
one. -/
theorem Tracks.feedChangeLine (h : Tracks lines n d) (hline : lines[n]? = some line)
    (hblank : isBlankLine line = false) (hmarker : marker? line = none) :
    Tracks lines (n + 1) (d.feed n line) := by
  have hchanges : d.endChange.current.changes = d.current.changes ++ d.change.toList := rfl
  rw [Divider.feed, hblank, hmarker]
  cases hbullet : startsWith bulletStart line with
  | true =>
    exact h.addLine hline hblank hmarker (c := {}) (fun b hb => hb) (List.append_nil _).symm
      (Change.isRunOf_first hline)
  | false =>
    cases hchange : d.change with
    | none =>
      rw [hchange, Option.toList_none, List.append_nil] at hchanges
      have hadd := h.addLine hline hblank hmarker (c := {}) (fun b hb => hchanges ▸ hb)
        (by rw [hchanges]; exact (List.append_nil _).symm) (Change.isRunOf_first hline)
      simpa [addNumber, hchange] using hadd
    | some c =>
      rw [hchange] at hchanges
      have hmem : c ∈ d.endChange.current.changes := by rw [hchanges]; simp
      have hadd := h.addLine hline hblank hmarker (c := c)
        (fun b hb => by rw [hchanges]; exact List.mem_append_left _ hb)
        (by rw [hchanges, List.flatMap_append]; simp)
        ((h.isPartOf_current.runs c hmem).add (h.change c hchange).2 hline hbullet)
      simpa [addNumber, hchange] using hadd

/-- A line more. -/
theorem Tracks.feed (h : Tracks lines n d) (hline : lines[n]? = some line) :
    Tracks lines (n + 1) (d.feed n line) := by
  cases hblank : isBlankLine line with
  | true =>
    rw [Divider.feed, hblank, if_pos rfl]
    split
    · exact h.addBlank hline hblank ‹_›
    · rename_i hstarted
      have hfirst : n < firstLine lines := by
        rw [h.started, Nat.not_lt] at hstarted
        exact lt_firstLine hline hblank hstarted
      refine ⟨h.covers.skip hline hblank hfirst, iff_of_false hstarted (by omega), fun c hc => ?_,
        h.absent⟩
      exact absurd (h.change c hc).1 hstarted
  | false =>
    cases hmarker : marker? line with
    | none => exact h.feedChangeLine hline hblank hmarker
    | some name =>
      have hfirst := firstLine_le hline hblank
      have hfeed : d.feed n line =
          { ({ d with started := true } : Divider).endSection with
            current := { author := some name, lineNumbers := [n] } } := by
        rw [Divider.feed, hblank, hmarker]
        rfl
      rw [hfeed]
      refine ⟨?_, iff_of_true rfl (Nat.lt_succ_of_le hfirst), nofun, nofun⟩
      exact h.endSection.addMarker hline hmarker hfirst

/-- All lines. -/
theorem Tracks.run {before after : List Text} (h : Tracks (before ++ after) before.length d) :
    Tracks (before ++ after) (before ++ after).length (d.run before.length after) := by
  induction after generalizing before d with
  | nil => simpa [Divider.run] using h
  | cons line after ih =>
    have hline : (before ++ line :: after)[before.length]? = some line := by simp
    have hnext := h.feed hline
    -- The next line is the last of the lines before the ones that are left.
    have hcut : before ++ line :: after = (before ++ [line]) ++ after := by simp
    have hlength : before.length + 1 = (before ++ [line]).length := by simp
    rw [hcut, hlength] at hnext
    have hrun := ih hnext
    rw [← hcut] at hrun
    rw [Divider.run]
    simpa using hrun

end Divider

/-! ### The sections of an entry -/

/-- The names so far, and then the other names, each once. -/
theorem foldl_names (names : List Text) (all : List Text) :
    all.foldl (fun names n => if names.contains n then names else names ++ [n]) names =
      names ++ (all.filter fun n => !names.contains n).eraseDups := by
  induction all generalizing names with
  | nil => simp
  | cons name all ih =>
    rw [List.foldl_cons, ih]
    cases hknown : names.contains name with
    | true =>
      rw [if_pos rfl, List.filter_cons_of_neg (by rw [hknown]; decide)]
    | false =>
      have hlater : ∀ n, (!(names ++ [name]).contains n) = (!n == name && !names.contains n) := by
        intro n
        rw [List.contains_append, Bool.not_or, Bool.and_comm, List.contains_cons, List.contains_nil,
          Bool.or_false]
      rw [if_neg (by decide), List.filter_cons_of_pos (by rw [hknown]; decide), List.eraseDups_cons,
        List.filter_filter, List.append_assoc, List.singleton_append]
      simp only [hlater]

/-- The names in markers, each once, where it is first. -/
theorem markedAuthors_eq (lines : List Text) :
    markedAuthors lines = (lines.filterMap marker?).eraseDups := by
  rw [markedAuthors, foldl_names]
  simp

/-- **Sections.** The sections have all lines from the first that is not blank on, each once and in order.
The changes of a section have its lines but for blank ones and its marker, and each of them is lines that
stand one after the other, of which only the first can be a bullet. Only the first section can be without
an author, and a section with an author begins with the marker. The names in markers are those of the
sections, each once. -/
theorem covers_sections (lines : List Text) :
    (sections lines).flatMap Section.lineNumbers =
        List.range' (firstLine lines) (lines.length - firstLine lines) ∧
      (∀ s ∈ sections lines, s.IsPartOf lines) ∧
      (∀ s ∈ (sections lines).tail, s.author.isSome = true) ∧
      markedAuthors lines = ((sections lines).filterMap Section.author).eraseDups := by
  have hrun := @Divider.Tracks.run {} [] lines (Divider.tracks_empty lines)
  obtain ⟨hnumbers, hparts, hauthors, hlater⟩ := hrun.endSection
  rw [List.nil_append, List.take_length] at hauthors
  refine ⟨hnumbers, hparts, hlater, ?_⟩
  rw [markedAuthors_eq, ← hauthors]
  rfl

end Packaging.Changelog
