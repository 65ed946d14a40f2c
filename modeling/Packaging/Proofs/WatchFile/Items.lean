import Mathlib.Data.List.Forall2
import Packaging.Proofs.Success
import Packaging.Proofs.WatchFile.Options

/-!
# What the lines of a watch file say

Every logical line says one thing, an entry or options for all entries, no matter what stands around
it.

## What is proved

* `readLines_eq_ok_iff`, `foldl_addItem` — reading lines collects what each of them says.
* `readItem_entry` — what is read as an entry can be written, with no more ink than there was.
* `readItem_render_iff` — an entry that is written says itself, unless it has no options and its
  location looks as if it had.
* `IsRead.foldl_addItem` — so with all that lines say there is no more ink to write than in the lines.
-/

namespace Packaging.WatchFile

open Text Options

/-! ### Items -/

/-- What a line says. -/
inductive Item where
  | options (options : Options)
  | entry (entry : Entry)
  deriving DecidableEq, Repr

namespace Item

/-- The options for all entries, if the line says some. -/
def fileOptions : Item → Options
  | .options o => o
  | .entry _ => []

/-- The entry, if the line says one. -/
def entry? : Item → Option Entry
  | .options _ => none
  | .entry e => some e

@[simp] theorem filterMap_entry (e : Entry) (items : List Item) :
    (entry e :: items).filterMap entry? = e :: items.filterMap entry? := List.filterMap_cons_some rfl

@[simp] theorem filterMap_options (o : Options) (items : List Item) :
    (options o :: items).filterMap entry? = items.filterMap entry? := List.filterMap_cons_none rfl

end Item

/-- Reads what a logical line says. -/
def readItem (line : Text) : Except ParseError Item :=
  (takeOptions line).map fun (options, rest) =>
    match Entry.ofWords? options (words rest) with
    | some e => .entry e
    | none => .options options

/-- A watch file with one more item. -/
def addItem (w : WatchFile) : Item → WatchFile
  | .options o => { w with options := w.options ++ o }
  | .entry e => w.push e

theorem readLine_eq (w : WatchFile) (line : Text) : w.readLine line = (readItem line).map w.addItem := by
  unfold readLine readItem
  cases takeOptions line with
  | error e => rfl
  | ok parts =>
    obtain ⟨options, rest⟩ := parts
    simp only [Except.map]
    cases Entry.ofWords? options (words rest) <;> rfl

/-- **Reading lines** adds what each of them says. -/
theorem readLines_eq_ok_iff {w w' : WatchFile} {ls : List Text} :
    w.readLines ls = .ok w' ↔
      ∃ items, List.Forall₂ (fun l i => readItem l = .ok i) ls items ∧ items.foldl addItem w = w' := by
  induction ls generalizing w with
  | nil =>
    constructor
    · rintro ⟨⟩
      exact ⟨[], .nil, rfl⟩
    · rintro ⟨items, hitems, rfl⟩
      cases hitems
      rfl
  | cons l ls ih =>
    have hstep : w.readLines (l :: ls) = .ok w' ↔
        ∃ i, readItem l = .ok i ∧ (w.addItem i).readLines ls = .ok w' := by
      rw [readLines, readLine_eq]
      cases readItem l <;> simp [Except.map]
    rw [hstep]
    constructor
    · rintro ⟨i, hi, hrest⟩
      obtain ⟨items, hitems, hadd⟩ := ih.mp hrest
      exact ⟨i :: items, .cons hi hitems, hadd⟩
    · rintro ⟨items, hitems, hadd⟩
      cases hitems with
      | @cons _ i _ items hi hitems => exact ⟨i, hi, ih.mpr ⟨items, hitems, hadd⟩⟩

theorem foldl_addItem (w : WatchFile) (items : List Item) :
    items.foldl addItem w =
      { w with
        options := w.options ++ items.flatMap Item.fileOptions
        entries := w.entries ++ items.filterMap Item.entry? } := by
  induction items generalizing w with
  | nil => simp
  | cons i items ih =>
    rw [List.foldl_cons, ih]
    cases i with
    | options o =>
      rw [Item.filterMap_options, List.flatMap_cons, ← List.append_assoc]
      rfl
    | entry e =>
      rw [Item.filterMap_entry, List.flatMap_cons, addItem, push, List.append_assoc]
      rfl

/-! ### Entries -/

namespace Entry

/-- Entries as they are read. -/
structure IsRead (e : Entry) : Prop where
  words : ∀ w ∈ e.wordList, IsWord w
  url : splitPattern? e.url = none
  version : e.version.isSome → e.pattern.isSome
  script : e.script.isSome → e.version.isSome
  options : e.options.IsRead
  quotable : e.options.IsQuotable

variable {e : Entry}

/-- A location that was taken apart is not taken apart again. -/
theorem splitPattern?_eq_some {word url pattern : Text} (h : splitPattern? word = some (url, pattern)) :
    word = url ++ pattern ∧ url ≠ [] ∧ pattern ≠ [] ∧ splitPattern? url = none := by
  unfold splitPattern? at h
  simp only [Option.bind_eq_bind, Option.bind_eq_some_iff] at h
  obtain ⟨⟨before, last⟩, hcut, ⟨_, inside⟩, hlast, h⟩ := h
  split at h
  · cases h
    obtain ⟨-, hword⟩ := cutLast?_eq_some_iff.mp hcut
    refine ⟨by simp [hword], by simp, ?_, ?_⟩
    · rintro rfl
      cases hlast
    · simp [splitPattern?, cutLast?_append, cut?]
  · cases h

/-- An entry is made of its words again. -/
theorem IsRead.ofWords?_wordList (he : e.IsRead) : ofWords? e.options e.wordList = some e := by
  obtain ⟨url, pattern, version, script, options⟩ := e
  have hurl := he.url
  have hversion := he.version
  have hscript := he.script
  simp only at hurl hversion hscript
  cases pattern with
  | none =>
    cases version with
    | some v => simp at hversion
    | none =>
      cases script with
      | some s => simp at hscript
      | none => simp [wordList, ofWords?, hurl]
  | some p =>
    cases version with
    | none =>
      cases script with
      | some s => simp at hscript
      | none => simp [wordList, ofWords?, hurl]
    | some v => cases script <;> simp [wordList, ofWords?, hurl]

theorem inkAll_getElem?_le (ws : List Text) :
    inkAll ws[0]?.toList + inkAll ws[1]?.toList + inkAll ws[2]?.toList ≤ inkAll ws := by
  rcases ws with _ | ⟨a, _ | ⟨b, _ | ⟨c, ws⟩⟩⟩ <;> simp
  omega

theorem inkAll_wordList (e : Entry) :
    inkAll e.wordList = ink e.url + (inkAll e.pattern.toList + inkAll e.version.toList +
      inkAll e.script.toList) := by
  simp [wordList, Nat.add_assoc]

/-- An entry that was made of words has words for its parts, and no more ink than they. -/
theorem ofWords?_eq_some {options : Options} {ws : List Text} (hws : ∀ w ∈ ws, IsWord w)
    (h : ofWords? options ws = some e) :
    e.options = options ∧ (∀ w ∈ e.wordList, IsWord w) ∧ splitPattern? e.url = none ∧
      (e.version.isSome → e.pattern.isSome) ∧ (e.script.isSome → e.version.isSome) ∧
      inkAll e.wordList ≤ inkAll ws := by
  cases ws with
  | nil => cases h
  | cons word more =>
    obtain ⟨hword, hmore⟩ := List.forall_mem_cons.mp hws
    have hget : ∀ i, ∀ w ∈ more[i]?.toList, IsWord w := fun i w hw =>
      hmore w (List.mem_of_getElem? (by simpa using hw))
    have hinc : ∀ i, more[i + 1]?.isSome → more[i]?.isSome := by
      intro i hi
      obtain ⟨hlt, -⟩ := List.getElem?_eq_some_iff.mp (Option.some_get hi).symm
      rw [List.getElem?_eq_getElem (by omega)]
      rfl
    have hink := inkAll_getElem?_le more
    simp only [ofWords?] at h
    split at h
    · rename_i url pattern hsplit
      cases h
      obtain ⟨rfl, hurl, hpattern, hnone⟩ := splitPattern?_eq_some hsplit
      have hblank := List.forall_mem_append.mp hword.noBlank
      refine ⟨rfl, ?_, hnone, fun _ => rfl, hinc 0, ?_⟩
      · simp only [wordList, Option.toList_some, List.cons_append, List.nil_append,
          List.forall_mem_cons, List.forall_mem_append]
        exact ⟨⟨hurl, hblank.1⟩, ⟨hpattern, hblank.2⟩, hget 0, hget 1⟩
      · rw [inkAll_wordList, inkAll_cons, ink_append]
        simp only [Option.toList_some, inkAll_cons, inkAll_nil]
        omega
    · rename_i hsplit
      cases h
      refine ⟨rfl, ?_, hsplit, hinc 0, hinc 1, ?_⟩
      · simp only [wordList, List.forall_mem_cons, List.forall_mem_append]
        exact ⟨hword, ⟨hget 0, hget 1⟩, hget 2⟩
      · rw [inkAll_wordList, inkAll_cons]
        dsimp only
        omega

theorem render_eq (e : Entry) :
    e.render = if e.options.isEmpty then join [' '] e.wordList
      else e.options.render ++ ' ' :: join [' '] e.wordList := by
  unfold Entry.render
  split <;> simp

theorem ink_render (e : Entry) : ink e.render = e.options.inkOf + inkAll e.wordList := by
  have hspace : ink [' '] = 0 := by decide
  rw [render_eq, inkOf]
  split
  · rw [ink_join_space, Nat.zero_add]
  · rw [ink_append, ink_cons, hspace, Nat.zero_add, ink_join_space]

/-- An entry whose line does not look as if it began with options, if there are none. -/
def ShowsOptions (e : Entry) : Prop := e.options = [] → startsWith optionsStart e.url = false

theorem IsRead.words_join (he : e.IsRead) : Text.words (join [' '] e.wordList) = e.wordList :=
  Text.words_join he.words

theorem startsWith_join_wordList (e : Entry) :
    startsWith optionsStart (join [' '] e.wordList) = startsWith optionsStart e.url := by
  have hstart : ∀ c ∈ optionsStart, isBlank c = false := by
    have hall : optionsStart.all (!isBlank ·) = true := by decide
    intro c hc
    simpa using List.all_eq_true.mp hall c hc
  unfold wordList
  cases hmore : e.pattern.toList ++ e.version.toList ++ e.script.toList with
  | nil => rw [join_singleton]
  | cons w ws =>
    rw [join_cons_cons, List.append_assoc]
    refine startsWith_append_of_blank hstart ?_
    have hspace : isBlank ' ' = true := by decide
    simpa using hspace

end Entry

variable {line : Text} {e : Entry}

/-- **What is read as an entry** can be written, with no more ink than there was. -/
theorem readItem_entry (hline : '\n' ∉ line) (h : readItem line = .ok (.entry e)) :
    e.IsRead ∧ ink e.render ≤ ink line ∧ (startsWith optionsStart line = true → e.options ≠ []) := by
  unfold readItem at h
  obtain ⟨⟨options, rest⟩, htake, hitem⟩ := map_eq_ok_iff.mp h
  obtain ⟨⟨hread, hquotable, hink⟩, hshows⟩ := takeOptions_eq_ok hline htake
  dsimp only at hitem
  split at hitem
  · rename_i e' hwords
    cases hitem
    obtain ⟨rfl, hall, hurl, hversion, hscript, hle⟩ :=
      Entry.ofWords?_eq_some (fun w hw => isWord_of_mem_words hw) hwords
    rw [inkAll_words] at hle
    refine ⟨⟨hall, hurl, hversion, hscript, hread, hquotable⟩, ?_, hshows⟩
    rw [Entry.ink_render]
    omega
  · cases hitem

/-- **What is read as options** for all entries is the rest of the line when it is blank. -/
theorem readItem_options {options : Options} (hline : '\n' ∉ line)
    (h : readItem line = .ok (.options options)) :
    options.IsRead ∧ inkOf options ≤ ink line ∧
      ∃ rest, takeOptions line = .ok (options, rest) ∧ words rest = [] := by
  unfold readItem at h
  obtain ⟨⟨options', rest⟩, htake, hitem⟩ := map_eq_ok_iff.mp h
  obtain ⟨⟨hread, -, hink⟩, -⟩ := takeOptions_eq_ok hline htake
  dsimp only at hitem
  split at hitem
  · cases hitem
  · rename_i hwords
    cases hitem
    refine ⟨hread, by omega, rest, htake, ?_⟩
    cases hrest : words rest with
    | nil => rfl
    | cons w ws =>
      rw [hrest] at hwords
      simp only [Entry.ofWords?] at hwords
      split at hwords <;> cases hwords

theorem Entry.IsRead.newline_not_mem_render (he : e.IsRead) : '\n' ∉ e.render := by
  have hwords := newline_not_mem_join he.words
  have hoptions := he.options.newline_not_mem_render
  rw [Entry.render_eq]
  split <;> simp [hwords, hoptions]

/-- **An entry that is written** is read as the same entry, if it shows whether it has options. -/
theorem readItem_render_iff (he : e.IsRead) : readItem e.render = .ok (.entry e) ↔ e.ShowsOptions := by
  have hitem : ∀ rest, words rest = e.wordList → takeOptions e.render = .ok (e.options, rest) →
      readItem e.render = .ok (.entry e) := by
    intro rest hrest htake
    rw [readItem, htake]
    simp only [Except.map, hrest, he.ofWords?_wordList]
  have hspace : isBlank ' ' = true := by decide
  constructor
  · intro h hnone
    obtain ⟨-, -, hshows⟩ := readItem_entry he.newline_not_mem_render h
    rw [Entry.render_eq, hnone] at hshows
    rw [← Entry.startsWith_join_wordList]
    by_contra hstarts
    exact hshows (by simpa using hstarts) rfl
  · intro h
    by_cases hnone : e.options = []
    · refine hitem _ he.words_join ?_
      have hstarts := h hnone
      rw [← Entry.startsWith_join_wordList, startsWith_eq_false_iff] at hstarts
      rw [Entry.render_eq, hnone, takeOptions]
      simp [hstarts]
    · have hne : e.options.isEmpty = false := by simpa using hnone
      refine hitem (' ' :: join [' '] e.wordList) ?_ ?_
      · rw [words_cons_blank hspace, he.words_join]
      · rw [Entry.render_eq, hne]
        exact takeOptions_render he.options he.quotable hnone (by simpa using hspace)

/-! ### All items -/

/-- What is known of a watch file that was read. -/
structure IsRead (w : WatchFile) : Prop where
  version : w.version < 0x100000000
  options : w.options.IsRead
  entries : ∀ e ∈ w.entries, e.IsRead

theorem isRead_of_version {version : Nat} (h : version < 0x100000000) : IsRead { version } :=
  ⟨h, isRead_nil, by simp⟩

theorem inkAll_renderLines (w : WatchFile) :
    inkAll w.renderLines = ink ("version=".toList ++ ofNat w.version) +
      (w.options.inkOf + inkAll (w.entries.map Entry.render)) := by
  unfold renderLines inkOf
  split <;> simp

/-- **Reading a line** adds something to a watch file that takes no more ink than the line. -/
theorem IsRead.addItem {w : WatchFile} {i : Item} (hw : w.IsRead) (hline : '\n' ∉ line)
    (h : readItem line = .ok i) :
    (w.addItem i).IsRead ∧ inkAll (w.addItem i).renderLines ≤ inkAll w.renderLines + ink line := by
  cases i with
  | options o =>
    obtain ⟨hread, hink, -⟩ := readItem_options hline h
    refine ⟨⟨hw.version, hw.options.append hread, hw.entries⟩, ?_⟩
    have hle := inkOf_append w.options o
    rw [inkAll_renderLines, inkAll_renderLines]
    simp only [WatchFile.addItem]
    omega
  | entry e =>
    obtain ⟨hread, hink, -⟩ := readItem_entry hline h
    refine ⟨⟨hw.version, hw.options, List.forall_mem_append.mpr ⟨hw.entries,
      List.forall_mem_singleton.mpr hread⟩⟩, ?_⟩
    rw [inkAll_renderLines, inkAll_renderLines]
    simp only [WatchFile.addItem, push, List.map_append, List.map_cons, List.map_nil, inkAll_append,
      inkAll_cons, inkAll_nil]
    omega

theorem IsRead.foldl_addItem {w : WatchFile} {ls : List Text} {items : List Item} (hw : w.IsRead)
    (hls : ∀ l ∈ ls, '\n' ∉ l) (h : List.Forall₂ (fun l i => readItem l = .ok i) ls items) :
    (items.foldl WatchFile.addItem w).IsRead ∧
      inkAll (items.foldl WatchFile.addItem w).renderLines ≤ inkAll w.renderLines + inkAll ls := by
  induction h generalizing w with
  | nil => exact ⟨hw, Nat.le_refl _⟩
  | @cons l i ls items hl _ ih =>
    obtain ⟨hline, hls⟩ := List.forall_mem_cons.mp hls
    obtain ⟨hstep, hink⟩ := hw.addItem hline hl
    obtain ⟨hrun, hle⟩ := ih hstep hls
    refine ⟨hrun, ?_⟩
    rw [List.foldl_cons, inkAll_cons]
    omega

end Packaging.WatchFile
