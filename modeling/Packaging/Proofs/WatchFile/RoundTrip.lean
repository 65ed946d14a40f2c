import Packaging.Proofs.Text.Number
import Packaging.Proofs.WatchFile.Items
import Packaging.Proofs.WatchFile.Lines

/-!
# Watch files that are written and read again

Each line of a watch file that is written should say what it was written for. It does if the reader
takes it as it is, and if it is not read as something else.

## What is proved

* `isRead_of_parse` — what is known of a watch file that was read.
* `IsRead.parse_render_iff_lines` — a watch file is read again exactly if all lines are taken as they
  are and say it. A line that is lost can not be made up for by another one: it would take ink.
* `IsRead.readLines_iff` — lines say a watch file exactly if each says the part it was written for.
* `parse_render_iff_isRereadable` — so a watch file that was read is read again exactly if it is
  `IsRereadable`.
-/

namespace Packaging.WatchFile

open Text Options Joiner

/-! ### Lines that end with a character -/

theorem isLine_of_getLast? {line : Text} {c : Char} (hline : '\n' ∉ line) (hlast : line.getLast? = some c)
    (hc : isBlank c = false) : IsLine line := by
  refine ⟨hline, fun hreturn => ?_⟩
  rw [hlast] at hreturn
  cases hreturn
  exact absurd hc (by decide)

theorem ink_pos_of_getLast? {line : Text} {c : Char} (hlast : line.getLast? = some c)
    (hc : isBlank c = false) : 0 < ink line :=
  ink_pos (List.all_eq_false.mpr ⟨c, List.mem_of_getLast? hlast, by simp [hc]⟩)

theorem isWhole_iff {line : Text} {c : Char} (hlast : line.getLast? = some c) (hc : isBlank c = false) :
    IsWhole line ↔ line.head? ≠ some '#' ∧ c ≠ '\\' := by
  have hblank : isBlankLine line = false :=
    List.all_eq_false.mpr ⟨c, List.mem_of_getLast? hlast, by simp [hc]⟩
  have htrim : trimEnd line = line := trimEnd_eq_self (by simp [hlast, hc])
  have hskip : isSkipped line = false ↔ line.head? ≠ some '#' := by
    rw [isSkipped, hblank, Bool.or_false]
    cases line with
    | nil => exact ⟨nofun, fun _ => rfl⟩
    | cons d line =>
      have hstart : startsWith ['#'] (d :: line) = ('#' == d) := by simp [startsWith, List.isPrefixOf]
      rw [hstart, beq_eq_false_iff_ne, List.head?_cons, ne_eq, ne_eq, Option.some.injEq, eq_comm]
  have hends : dropEnd? ['\\'] line = none ↔ c ≠ '\\' := by
    rw [Option.eq_none_iff_forall_ne_some]
    constructor
    · rintro h rfl
      obtain ⟨init, rfl⟩ := List.getLast?_eq_some_iff.mp hlast
      exact h init (dropEnd?_eq_some_iff.mpr rfl)
    · rintro h init hinit
      rw [dropEnd?_eq_some_iff.mp hinit, List.getLast?_concat] at hlast
      exact h (Option.some.inj hlast).symm
  constructor
  · rintro ⟨htaken, hend⟩
    rw [htrim] at hend
    exact ⟨hskip.mp htaken, hends.mp hend⟩
  · rintro ⟨hhead, hc⟩
    exact ⟨hskip.mpr hhead, htrim.symm ▸ hends.mpr hc⟩

/-! ### The lines that are written -/

/-- The line that gives the version. -/
def versionLine (version : Nat) : Text := "version=".toList ++ ofNat version

/-- The lines after it. -/
def bodyLines (w : WatchFile) : List Text :=
  (if w.options.isEmpty then [] else [w.options.render]) ++ w.entries.map Entry.render

theorem renderLines_eq (w : WatchFile) : w.renderLines = versionLine w.version :: w.bodyLines := rfl

theorem getLast?_versionLine (version : Nat) :
    ∃ c, (versionLine version).getLast? = some c ∧ isBlank c = false ∧ c ≠ '\\' := by
  have hend : (versionLine version).getLast? = (ofNat version).getLast? :=
    List.getLast?_append_of_ne_nil "version=".toList (ofNat_ne_nil version)
  cases hlast : (ofNat version).getLast? with
  | none => exact absurd (List.getLast?_eq_none_iff.mp hlast) (ofNat_ne_nil version)
  | some c =>
    have hdigit : c.isDigit = true := isDigit_ofNat (List.mem_of_getLast? hlast)
    refine ⟨c, hend.trans hlast, isBlank_of_isDigit hdigit, ?_⟩
    rintro rfl
    exact absurd hdigit (by decide)

theorem newline_not_mem_versionLine (version : Nat) : '\n' ∉ versionLine version := by
  intro hmem
  rcases List.mem_append.mp hmem with hmem | hmem
  · exact absurd hmem (by decide)
  · exact absurd (isBlank_ofNat hmem) (by decide)

theorem isWhole_versionLine (version : Nat) : IsWhole (versionLine version) := by
  obtain ⟨c, hlast, hc, hback⟩ := getLast?_versionLine version
  have hhead : (versionLine version).head? = some 'v' := rfl
  refine (isWhole_iff hlast hc).mpr ⟨?_, hback⟩
  rw [hhead]
  decide

theorem versionNumber?_versionLine {version : Nat} (h : version < 0x100000000) :
    versionNumber? (versionLine version) = some version := by
  have hhead : (ofNat version).head?.any isBlank = false := by
    cases hd : (ofNat version).head? with
    | none => rfl
    | some c => exact isBlank_ofNat (List.mem_of_head? hd)
  have hlast : (ofNat version).getLast?.any isBlank = false := by
    cases hd : (ofNat version).getLast? with
    | none => rfl
    | some c => exact isBlank_ofNat (List.mem_of_getLast? hd)
  have htrim : trim (ofNat version) = ofNat version := IsTrimmed.trim_eq ⟨hhead, hlast⟩
  have hline : versionLine version = "version".toList ++ '=' :: ofNat version := rfl
  have hstart : trimStart ('=' :: ofNat version) = '=' :: ofNat version :=
    trimStart_eq_self (by rfl)
  have hdrop : dropStart? ['='] ('=' :: ofNat version) = some (ofNat version) := by
    simp [dropStart?]
  have hdigits : (ofNat version).all Char.isDigit = true := List.all_eq_true.mpr fun c => isDigit_ofNat
  have hempty : (ofNat version).isEmpty = false := by simp [ofNat_ne_nil]
  rw [versionNumber?, hline]
  simp only [dropStart?_append, Option.bind_eq_bind, Option.bind_some, hstart, hdrop, htrim, hempty,
    hdigits, digitsValue_ofNat, Bool.not_true, Bool.or_false, Bool.false_eq_true, if_false, h, if_true]

theorem getLast?_render_options (options : Options) :
    ∃ c, options.render.getLast? = some c ∧ isBlank c = false ∧
      (c = '\\' ↔ options.hasBlank = false ∧ options.list.getLast? = some '\\') := by
  rw [Options.render_eq]
  cases hblank : options.hasBlank with
  | true => exact ⟨'"', by rw [if_pos rfl, List.getLast?_concat], by decide, by simp⟩
  | false =>
    rw [if_neg Bool.false_ne_true]
    cases hlast : options.list.getLast? with
    | none => exact ⟨'=', by rw [List.getLast?_eq_none_iff.mp hlast]; rfl, by decide, by simp⟩
    | some c =>
      have hne : options.list ≠ [] := by
        rintro hnil
        simp [hnil] at hlast
      have hc : isBlank c = false := by
        simpa using List.any_eq_false.mp hblank c (List.mem_of_getLast? hlast)
      refine ⟨c, ?_, hc, by simp⟩
      rw [List.getLast?_append_of_ne_nil _ hne, hlast]

theorem Entry.IsRead.getLast?_render {e : Entry} (he : e.IsRead) :
    ∃ w c, e.wordList.getLast? = some w ∧ w.getLast? = some c ∧ e.render.getLast? = some c ∧
      isBlank c = false := by
  have hne : e.wordList ≠ [] := List.cons_ne_nil _ _
  cases hlast : e.wordList.getLast? with
  | none => exact absurd (List.getLast?_eq_none_iff.mp hlast) hne
  | some w =>
    have hw : IsWord w := he.words w (List.mem_of_getLast? hlast)
    cases hend : w.getLast? with
    | none => exact absurd (List.getLast?_eq_none_iff.mp hend) hw.ne_nil
    | some c =>
      refine ⟨w, c, rfl, hend, ?_, hw.noBlank c (List.mem_of_getLast? hend)⟩
      have hjoin : (join [' '] e.wordList).getLast? = some c := by
        rw [getLast?_join hlast hw.ne_nil, hend]
      have hjoin_ne : join [' '] e.wordList ≠ [] := by
        intro hnil
        rw [hnil] at hjoin
        cases hjoin
      rw [Entry.render_eq]
      split
      · exact hjoin
      · rw [List.append_cons, List.getLast?_append_of_ne_nil _ hjoin_ne, hjoin]

theorem Entry.IsRead.head?_render {e : Entry} (he : e.IsRead) :
    e.render.head? = if e.options.isEmpty then e.url.head? else some 'o' := by
  obtain ⟨hurl, -⟩ := List.forall_mem_cons.mp he.words
  rw [Entry.render_eq]
  split
  · obtain ⟨c, url, hc⟩ := List.exists_cons_of_ne_nil hurl.ne_nil
    rw [Entry.wordList]
    cases e.pattern.toList ++ e.version.toList ++ e.script.toList with
    | nil => rw [join_singleton]
    | cons w ws =>
      rw [join_cons_cons, hc]
      rfl
  · rw [Options.render_eq]
    split <;> rfl

variable {w : WatchFile}

/-- The lines of a watch file are lines of a text, and none is blank. -/
theorem IsRead.of_mem_bodyLines (hw : w.IsRead) {l : Text} (hl : l ∈ w.bodyLines) :
    IsLine l ∧ 0 < ink l := by
  have hend : ∃ c, l.getLast? = some c ∧ isBlank c = false ∧ '\n' ∉ l := by
    rcases List.mem_append.mp hl with hl | hl
    · split at hl
      · cases hl
      · obtain rfl := List.mem_singleton.mp hl
        obtain ⟨c, hlast, hc, -⟩ := getLast?_render_options w.options
        exact ⟨c, hlast, hc, hw.options.newline_not_mem_render⟩
    · obtain ⟨e, he, rfl⟩ := List.mem_map.mp hl
      obtain ⟨-, c, -, -, hlast, hc⟩ := (hw.entries e he).getLast?_render
      exact ⟨c, hlast, hc, (hw.entries e he).newline_not_mem_render⟩
  obtain ⟨c, hlast, hc, hline⟩ := hend
  exact ⟨isLine_of_getLast? hline hlast hc, ink_pos_of_getLast? hlast hc⟩

theorem IsRead.lines_render (hw : w.IsRead) : lines w.render = versionLine w.version :: w.bodyLines := by
  rw [render, renderLines_eq]
  refine lines_unlines (List.forall_mem_cons.mpr ⟨?_, fun l hl => (hw.of_mem_bodyLines hl).1⟩)
  obtain ⟨c, hlast, hc, -⟩ := getLast?_versionLine w.version
  exact isLine_of_getLast? (newline_not_mem_versionLine w.version) hlast hc

/-! ### The lines that are read -/

theorem parse_eq_ok_some_iff {t : Text} :
    parse t = .ok (some w) ↔ ∃ version first ls, logicalLines t = (some version, first :: ls) ∧
      readLines { version } ls = .ok w := by
  unfold parse
  rcases logicalLines t with ⟨_ | version, _ | ⟨first, ls⟩⟩
  · simp
  · simp
  · simp
  · simp only [map_eq_ok_iff, Option.some.injEq, exists_eq_right]
    constructor
    · intro h
      exact ⟨version, first, ls, rfl, h⟩
    · rintro ⟨_, _, _, ⟨⟩, h⟩
      exact h

/-- What is known of a watch file that was read. -/
theorem isRead_of_parse {t : Text} (h : parse t = .ok (some w)) : w.IsRead := by
  obtain ⟨version, first, ls, hlogical, hread⟩ := parse_eq_ok_some_iff.mp h
  obtain ⟨items, hitems, rfl⟩ := readLines_eq_ok_iff.mp hread
  obtain ⟨hlines, hversion⟩ := logicalLines_spec t
  rw [hlogical] at hlines hversion
  exact ((isRead_of_version (hversion version rfl)).foldl_addItem (List.forall_mem_cons.mp hlines).2 hitems).1

/-- The reader behind the line that gives the version. -/
def versionRead (version : Nat) : Joiner := ⟨some version, [versionLine version], none⟩

theorem inkAll_finish_versionRead (version : Nat) :
    inkAll (versionRead version).finish = ink (versionLine version) := by
  simp [finish, versionRead]

theorem IsRead.logicalLines_render (hw : w.IsRead) :
    logicalLines w.render = ((w.bodyLines.foldl Joiner.feed (versionRead w.version)).version,
      (w.bodyLines.foldl Joiner.feed (versionRead w.version)).finish) := by
  have hstart : Joiner.feed {} (versionLine w.version) = versionRead w.version := by
    rw [feed_of_isWhole rfl (isWhole_versionLine w.version)]
    simp [Joiner.push, versionNumber?_versionLine hw.version, versionRead]
  rw [logicalLines, hw.lines_render, List.foldl_cons, hstart]

theorem IsRead.logicalLines_render_of_isWhole (hw : w.IsRead) (h : ∀ l ∈ w.bodyLines, IsWhole l) :
    logicalLines w.render = (some w.version, versionLine w.version :: w.bodyLines) := by
  rw [hw.logicalLines_render, foldl_feed_of_isWhole rfl (by simp [versionRead]) h]
  simp [finish, versionRead]

/-- Where the logical lines have all the ink that was written all lines are whole. -/
theorem IsRead.isWhole_of_logicalLines (hw : w.IsRead) {version : Option Nat} {first : Text} {ls : List Text}
    (h : logicalLines w.render = (version, first :: ls)) (hle : inkAll w.bodyLines ≤ inkAll ls) :
    ∀ l ∈ w.bodyLines, IsWhole l := by
  rw [hw.logicalLines_render] at h
  have hfinish := congrArg Prod.snd h
  dsimp only at hfinish
  have hfirst : first = versionLine w.version := by
    obtain ⟨more, hmore⟩ := lines_prefix_foldl (versionRead w.version) w.bodyLines
    rw [finish, ← hmore] at hfinish
    exact (List.cons.inj hfinish).1.symm
  refine isWhole_of_inkAll_le (j := versionRead w.version) rfl
    (fun l hl => (hw.of_mem_bodyLines hl).2) ?_
  rw [inkAll_finish_versionRead, hfinish, hfirst, inkAll_cons]
  omega

/-- Lines that say a watch file have the ink for its lines. -/
theorem inkAll_bodyLines_le {version : Nat} {ls : List Text} (hversion : version < 0x100000000)
    (hls : ∀ l ∈ ls, '\n' ∉ l) (h : readLines { version } ls = .ok w) :
    version = w.version ∧ inkAll w.bodyLines ≤ inkAll ls := by
  obtain ⟨items, hitems, rfl⟩ := readLines_eq_ok_iff.mp h
  have hsame : (items.foldl WatchFile.addItem { version }).version = version := by
    rw [WatchFile.foldl_addItem]
  have hink := ((isRead_of_version hversion).foldl_addItem hls hitems).2
  have hnone : bodyLines { version } = [] := rfl
  rw [renderLines_eq, renderLines_eq, inkAll_cons, inkAll_cons, hsame, hnone, inkAll_nil] at hink
  exact ⟨hsame.symm, by dsimp only at hink; omega⟩

/-- **A watch file is read again** exactly if all its lines are taken as they are and say it. A line
that is lost can not be made up for by another one, for that would take ink. -/
theorem IsRead.parse_render_iff_lines (hw : w.IsRead) :
    parse w.render = .ok (some w) ↔
      (∀ l ∈ w.bodyLines, IsWhole l) ∧ readLines { version := w.version } w.bodyLines = .ok w := by
  constructor
  · intro h
    obtain ⟨version, first, ls, hall, hread⟩ := parse_eq_ok_some_iff.mp h
    obtain ⟨hlines, hbound⟩ := logicalLines_spec w.render
    rw [hall] at hlines hbound
    obtain ⟨rfl, hle⟩ :=
      inkAll_bodyLines_le (hbound version rfl) (List.forall_mem_cons.mp hlines).2 hread
    have hwhole := hw.isWhole_of_logicalLines hall hle
    have hsame := hw.logicalLines_render_of_isWhole hwhole
    rw [hall] at hsame
    obtain ⟨-, rfl⟩ : _ ∧ ls = w.bodyLines := by simpa using hsame
    exact ⟨hwhole, hread⟩
  · rintro ⟨hwhole, hread⟩
    exact parse_eq_ok_some_iff.mpr ⟨_, _, _, hw.logicalLines_render_of_isWhole hwhole, hread⟩

/-! ### What the lines say -/

/-- Lines of entries that say as many entries say nothing else. -/
theorem eq_map_entry {es : List Entry} {items : List Item}
    (h : List.Forall₂ (fun e i => readItem e.render = .ok i) es items)
    (hes : items.filterMap Item.entry? = es) : items = es.map Item.entry := by
  induction h with
  | nil => rfl
  | @cons e i es items _ hrest ih =>
    cases i with
    | entry e' =>
      rw [Item.filterMap_entry, List.cons.injEq] at hes
      obtain ⟨rfl, hes⟩ := hes
      rw [ih hes, List.map_cons]
    | options o =>
      -- one entry is missing, and the lines after this one are too few
      rw [Item.filterMap_options] at hes
      have hlength := List.length_filterMap_le Item.entry? items
      have hsame := hrest.length_eq
      rw [hes, List.length_cons] at hlength
      omega

/-- Lines of entries do not say these entries with another one in front. -/
theorem cons_entry_ne {es : List Entry} {items : List Item} {e : Entry}
    (h : List.Forall₂ (fun e i => readItem e.render = .ok i) es items)
    (he : readItem e.render = .ok (.entry e)) : e :: items.filterMap Item.entry? ≠ es := by
  induction h with
  | nil => exact List.cons_ne_nil _ _
  | @cons e' i es items hi hrest ih =>
    intro heq
    obtain ⟨rfl, hes⟩ := List.cons.inj heq
    rw [he] at hi
    cases hi
    rw [Item.filterMap_entry] at hes
    exact ih hes

/-- What the lines after the version are written for. -/
def bodyItems (w : WatchFile) : List Item :=
  (if w.options.isEmpty then [] else [.options w.options]) ++ w.entries.map .entry

theorem fileOptions_map_entry (es : List Entry) : (es.map Item.entry).flatMap Item.fileOptions = [] := by
  simp [List.flatMap_map, Item.fileOptions]

theorem filterMap_map_entry (es : List Entry) : (es.map Item.entry).filterMap Item.entry? = es := by
  simp [List.filterMap_map, Function.comp_def, Item.entry?]

theorem foldl_bodyItems (w : WatchFile) : w.bodyItems.foldl addItem { version := w.version } = w := by
  rw [WatchFile.foldl_addItem, bodyItems, List.flatMap_append, List.filterMap_append,
    fileOptions_map_entry, filterMap_map_entry]
  obtain ⟨version, _ | ⟨o, options⟩, entries⟩ := w <;> simp [Item.fileOptions, Item.entry?]

theorem forall₂_bodyItems_iff (w : WatchFile) :
    List.Forall₂ (fun l i => readItem l = .ok i) w.bodyLines w.bodyItems ↔
      (w.options ≠ [] → readItem w.options.render = .ok (.options w.options)) ∧
        ∀ e ∈ w.entries, readItem e.render = .ok (.entry e) := by
  have hentries : List.Forall₂ (fun l i => readItem l = .ok i) (w.entries.map Entry.render)
      (w.entries.map Item.entry) ↔ ∀ e ∈ w.entries, readItem e.render = .ok (.entry e) := by
    rw [List.forall₂_map_left_iff, List.forall₂_map_right_iff, List.forall₂_same]
  by_cases hoptions : w.options = []
  · simp [bodyLines, bodyItems, hoptions, hentries]
  · simp [bodyLines, bodyItems, hoptions, hentries]

/-- There is no other way to say a watch file with the lines that are written for it. -/
theorem IsRead.eq_bodyItems (hw : w.IsRead) {items : List Item}
    (hitems : List.Forall₂ (fun l i => readItem l = .ok i) w.bodyLines items)
    (hadd : items.foldl WatchFile.addItem { version := w.version } = w) : items = w.bodyItems := by
  have hentries : items.filterMap Item.entry? = w.entries := by
    rw [WatchFile.foldl_addItem] at hadd
    exact congrArg WatchFile.entries hadd
  have hcollected : items.flatMap Item.fileOptions = w.options := by
    rw [WatchFile.foldl_addItem] at hadd
    exact congrArg WatchFile.options hadd
  by_cases hoptions : w.options = []
  · have hlines : w.bodyLines = w.entries.map Entry.render := by simp [bodyLines, hoptions]
    rw [hlines, List.forall₂_map_left_iff] at hitems
    rw [eq_map_entry hitems hentries]
    simp [bodyItems, hoptions]
  · have hlines : w.bodyLines = w.options.render :: w.entries.map Entry.render := by
      simp [bodyLines, hoptions]
    rw [hlines] at hitems
    cases hitems with
    | @cons _ i _ items hi hitems =>
      rw [List.forall₂_map_left_iff] at hitems
      cases i with
      | options o =>
        rw [Item.filterMap_options] at hentries
        have hrest := eq_map_entry hitems hentries
        rw [hrest, List.flatMap_cons, fileOptions_map_entry, List.append_nil] at hcollected
        have hsame : o = w.options := hcollected
        rw [hrest, hsame]
        simp [bodyItems, hoptions]
      | entry e =>
        -- all entries would have to be this one, and then there are too few
        obtain ⟨he, -, hshows⟩ := readItem_entry hw.options.newline_not_mem_render hi
        have hne : e.options ≠ [] := hshows (startsWith_render w.options)
        have hagain : readItem e.render = .ok (.entry e) :=
          (readItem_render_iff he).mpr fun hnil => absurd hnil hne
        rw [Item.filterMap_entry] at hentries
        exact absurd hentries (cons_entry_ne hitems hagain)

/-- **Lines say a watch file** exactly if each one says the part it was written for. -/
theorem IsRead.readLines_iff (hw : w.IsRead) :
    readLines { version := w.version } w.bodyLines = .ok w ↔
      (w.options ≠ [] → readItem w.options.render = .ok (.options w.options)) ∧
        ∀ e ∈ w.entries, readItem e.render = .ok (.entry e) := by
  rw [readLines_eq_ok_iff, ← forall₂_bodyItems_iff]
  constructor
  · rintro ⟨items, hitems, hadd⟩
    exact hw.eq_bodyItems hitems hadd ▸ hitems
  · intro h
    exact ⟨w.bodyItems, h, foldl_bodyItems w⟩

/-! ### Reading again -/

/-- The line of an entry is taken as it is and says this entry. -/
structure Entry.IsRereadable (e : Entry) : Prop where
  /-- A location that stands first on the line does not look like a comment or like options. -/
  comment : e.options = [] → e.url.head? ≠ some '#'
  options : e.options = [] → startsWith optionsStart e.url = false
  /-- The line does not go on. -/
  last : e.wordList.getLast?.bind List.getLast? ≠ some '\\'

instance (e : Entry) : Decidable e.IsRereadable :=
  decidable_of_iff
    ((e.options = [] → e.url.head? ≠ some '#') ∧ (e.options = [] → startsWith optionsStart e.url = false) ∧
      e.wordList.getLast?.bind List.getLast? ≠ some '\\')
    ⟨fun h => ⟨h.1, h.2.1, h.2.2⟩, fun h => ⟨h.comment, h.options, h.last⟩⟩

/-- All lines of a watch file are taken as they are and say what they were written for. -/
structure IsRereadable (w : WatchFile) : Prop where
  /-- There is no quote among options that are put between quotes. -/
  quotable : w.options.hasBlank = true → '"' ∉ w.options.list
  /-- The line of other options does not go on. -/
  last : w.options.hasBlank = false → w.options.list.getLast? ≠ some '\\'
  entries : ∀ e ∈ w.entries, e.IsRereadable

instance (w : WatchFile) : Decidable w.IsRereadable :=
  decidable_of_iff
    ((w.options.hasBlank = true → '"' ∉ w.options.list) ∧
      (w.options.hasBlank = false → w.options.list.getLast? ≠ some '\\') ∧
      ∀ e ∈ w.entries, e.IsRereadable)
    ⟨fun h => ⟨h.1, h.2.1, h.2.2⟩, fun h => ⟨h.quotable, h.last, h.entries⟩⟩

theorem Entry.IsRead.isRereadable_iff {e : Entry} (he : e.IsRead) :
    e.IsRereadable ↔ IsWhole e.render ∧ readItem e.render = .ok (.entry e) := by
  obtain ⟨word, c, hlast, hend, hrender, hc⟩ := he.getLast?_render
  rw [readItem_render_iff he, isWhole_iff hrender hc, he.head?_render]
  constructor
  · intro h
    refine ⟨⟨?_, ?_⟩, h.options⟩
    · split
      · rename_i hnone
        exact h.comment (by simpa using hnone)
      · decide
    · rintro rfl
      exact h.last (by rw [hlast, Option.bind_some, hend])
  · rintro ⟨⟨hhead, hback⟩, hshows⟩
    refine ⟨fun hnone => ?_, hshows, ?_⟩
    · rwa [hnone] at hhead
    · rw [hlast, Option.bind_some, hend]
      exact fun hslash => hback (Option.some.inj hslash)

/-- Options for all entries that are written are read again if no quote ends them too early. -/
theorem readItem_render_options_iff {options : Options} (hread : options.IsRead) (hne : options ≠ []) :
    readItem options.render = .ok (.options options) ↔ options.IsQuotable := by
  constructor
  · intro h hblank hquote
    obtain ⟨-, -, rest, htake, hrest⟩ := readItem_options hread.newline_not_mem_render h
    obtain ⟨before, after, hcut⟩ := exists_cut? hquote
    obtain ⟨hbefore, hlist⟩ := cut?_eq_some_iff.mp hcut
    have hcut' : cut? '"' (options.list ++ ['"']) = some (before, after ++ ['"']) :=
      cut?_eq_some_iff.mpr ⟨hbefore, by rw [hlist]; simp⟩
    have hline : options.render = optionsStart ++ '"' :: (options.list ++ ['"']) := by
      rw [Options.render_eq, hblank, if_pos rfl, List.append_assoc, List.cons_append]
    rw [hline, takeOptions_quoted hcut'] at htake
    obtain ⟨-, rfl⟩ : _ ∧ after ++ ['"'] = rest := by simpa using htake
    have hall : isBlankLine (after ++ ['"']) = true := words_eq_nil_iff.mp hrest
    have hmark : isBlank '"' = true := List.all_eq_true.mp hall '"' (by simp)
    exact absurd hmark (by decide)
  · intro h
    have hrest : ([] : Text).head?.all isBlank = true := rfl
    have htake := takeOptions_render hread h hne hrest
    rw [List.append_nil] at htake
    rw [readItem, htake]
    simp [Except.map, Entry.ofWords?]

theorem isWhole_render_options_iff (options : Options) :
    IsWhole options.render ↔ (options.hasBlank = false → options.list.getLast? ≠ some '\\') := by
  obtain ⟨c, hlast, hc, hback⟩ := getLast?_render_options options
  have hhead : options.render.head? ≠ some '#' := by
    rw [Options.render_eq]
    split <;> exact ne_of_beq_false rfl
  rw [isWhole_iff hlast hc, ne_eq c, hback]
  simp [hhead]

theorem IsRead.rereads_iff (hw : w.IsRead) : parse w.render = .ok (some w) ↔ w.IsRereadable := by
  rw [hw.parse_render_iff_lines, hw.readLines_iff]
  constructor
  · rintro ⟨hwhole, hoptions, hentries⟩
    refine ⟨?_, ?_, ?_⟩
    · by_cases hne : w.options = []
      · rw [hne]
        exact isQuotable_nil
      · exact (readItem_render_options_iff hw.options hne).mp (hoptions hne)
    · by_cases hne : w.options = []
      · rw [hne]
        exact fun _ => nofun
      · refine (isWhole_render_options_iff w.options).mp (hwhole _ ?_)
        simp [bodyLines, hne]
    · intro e he
      refine (hw.entries e he).isRereadable_iff.mpr ⟨hwhole _ ?_, hentries e he⟩
      exact List.mem_append_right _ (List.mem_map_of_mem he)
  · intro hagain
    have hentries : ∀ e ∈ w.entries, IsWhole e.render ∧ readItem e.render = .ok (.entry e) :=
      fun e he => (hw.entries e he).isRereadable_iff.mp (hagain.entries e he)
    refine ⟨fun l hl => ?_, fun hne => ?_, fun e he => (hentries e he).2⟩
    · rcases List.mem_append.mp hl with hl | hl
      · split at hl
        · cases hl
        · rw [List.mem_singleton.mp hl]
          exact (isWhole_render_options_iff w.options).mpr hagain.last
      · obtain ⟨e, he, rfl⟩ := List.mem_map.mp hl
        exact (hentries e he).1
    · exact (readItem_render_options_iff hw.options hne).mpr hagain.quotable

/-- **Which watch files are read again.** A watch file that was read from some text, written and read
again is the same watch file exactly if it is rereadable. -/
theorem parse_render_iff_isRereadable {t : Text} (h : parse t = .ok (some w)) :
    parse w.render = .ok (some w) ↔ w.IsRereadable := by
  have hread : w.IsRead := isRead_of_parse h
  exact hread.rereads_iff

/-- A watch file that is not written as it was read. -/
def looseText : Text :=
  "# one\nversion = 04\nopts=\"a b , c\"\nopts=d\n  https://x/\\\n  y-(.*).tar debian up more\n".toList

/-- What is read from it. -/
def looseFile : WatchFile where
  version := 4
  options := ["a b".toList, ['c'], ['d']]
  entries := [{
    url := "https://x/".toList
    pattern := "y-(.*).tar".toList
    version := "debian".toList
    script := "up".toList }]

theorem parse_render_looseFile :
    parse looseText = .ok (some looseFile) ∧ parse looseFile.render = .ok (some looseFile) ∧
      looseFile.render ≠ looseText := by
  have hparse : parse looseText = .ok (some looseFile) := by decide +kernel
  have hrereadable : looseFile.IsRereadable := by decide +kernel
  exact ⟨hparse, (parse_render_iff_isRereadable hparse).mpr hrereadable, by decide +kernel⟩

/-- An indented location that looks like a comment. -/
def indentedText : Text := "version=4\n #https://example.com/ foo\n".toList

/-- What is read from it. -/
def indentedFile : WatchFile where
  entries := [{ url := "#https://example.com/".toList, pattern := "foo".toList }]

/-- Written without its indent it is a comment, and the entry is lost. -/
theorem parse_render_indentedFile :
    parse indentedText = .ok (some indentedFile) ∧ parse indentedFile.render = .ok (some {}) := by
  decide +kernel

end Packaging.WatchFile
