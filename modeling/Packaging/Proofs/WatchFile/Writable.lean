import Packaging.Proofs.WatchFile.RoundTrip

/-!
# Watch files that can be written

A watch file that is put together, rather than read, may have parts for which there is no way to
write them: a location with white space in it, an option with a comma. `IsWritable` says of each part
what it has to be, without looking at the lines that are written.

## What is proved

* `Options.isWritable_iff`, `Entry.isWritable_iff`, `isWritable_iff` — a part is writable exactly if it
  is as such parts are read, and its line is read again.
* `parse_render_iff_isWritable` — so the watch files that are written and read again are the writable
  ones, and no others.
-/

namespace Packaging.WatchFile

open Text

/-! ### Options -/

namespace Options

/-- Options that can be written. They are put between quotes if one of them has white space in it. -/
structure IsWritable (options : Options) : Prop where
  each : ∀ o ∈ options, IsOption o
  /-- A quote would end the options too early. -/
  quoted : (∃ o ∈ options, o.any isBlank = true) → ∀ o ∈ options, '"' ∉ o
  /-- Without quotes around them, the first one does not look as if there were. -/
  bare : (∀ o ∈ options, o.any isBlank = false) → options.head?.bind List.head? ≠ some '"'

variable {options : Options}

theorem hasBlank_iff : options.hasBlank = true ↔ ∃ o ∈ options, o.any isBlank = true := by
  rw [hasBlank, list, any_join_comma isBlank (by decide), List.any_eq_true]

theorem hasBlank_eq_false_iff : options.hasBlank = false ↔ ∀ o ∈ options, o.any isBlank = false := by
  rw [hasBlank, list, any_join_comma isBlank (by decide), List.any_eq_false]
  simp only [Bool.not_eq_true]

theorem quote_not_mem_list_iff : '"' ∉ options.list ↔ ∀ o ∈ options, '"' ∉ o := by
  rw [mem_list_iff (by decide)]
  simp only [not_exists, not_and]

/-- The list begins with what the first option begins with, or with a comma. -/
theorem head?_list {c : Char} (hc : c ≠ ',') :
    options.list.head? = some c ↔ options.head?.bind List.head? = some c := by
  rcases options with _ | ⟨o, _ | ⟨u, us⟩⟩
  · simp [list, join]
  · rw [list, join_singleton, List.head?_cons, Option.bind_some]
  · rw [list, join_cons_cons, List.head?_cons, Option.bind_some]
    cases o with
    | nil => simpa using hc.symm
    | cons d o => rfl

/-- The list ends with what the last option ends with, or with a comma. -/
theorem getLast?_list {c : Char} (hc : c ≠ ',') :
    options.list.getLast? = some c ↔ options.getLast?.bind List.getLast? = some c := by
  rcases List.eq_nil_or_concat' options with rfl | ⟨init, o, rfl⟩
  · simp [list, join]
  · rw [List.getLast?_concat, Option.bind_some]
    by_cases hinit : init = []
    · rw [hinit, List.nil_append, list, join_singleton]
    · rw [list, join_append hinit (by simp), join_singleton]
      cases o with
      | nil => simpa using hc.symm
      | cons d o => rw [List.getLast?_append_of_ne_nil _ (List.cons_ne_nil d o)]

/-- Options are writable exactly if they are as options are read and no quote ends them too early. -/
theorem isWritable_iff : options.IsWritable ↔ options.IsRead ∧ options.IsQuotable := by
  constructor
  · rintro ⟨heach, hquoted, hbare⟩
    have hquotable : options.IsQuotable := fun hblank =>
      quote_not_mem_list_iff.mpr (hquoted (hasBlank_iff.mp hblank))
    refine ⟨⟨heach, ?_⟩, hquotable⟩
    cases hblank : options.hasBlank with
    | true => exact fun hhead => hquotable hblank (List.mem_of_head? hhead)
    | false => rw [ne_eq, head?_list (by decide)]; exact hbare (hasBlank_eq_false_iff.mp hblank)
  · rintro ⟨⟨heach, hhead⟩, hquotable⟩
    refine ⟨heach, fun hblank => ?_, fun _ => ?_⟩
    · exact quote_not_mem_list_iff.mp (hquotable (hasBlank_iff.mpr hblank))
    · rwa [ne_eq, head?_list (by decide)] at hhead

end Options

/-! ### Entries -/

/-- An entry that can be written. -/
structure Entry.IsWritable (e : Entry) : Prop where
  /-- The parts are not empty and have no white space in them. -/
  words : ∀ w ∈ e.wordList, IsWord w
  /-- The location is not taken apart. -/
  url : splitPattern? e.url = none
  /-- A location that stands first on the line does not look like a comment or like options. -/
  comment : e.options = [] → e.url.head? ≠ some '#'
  start : e.options = [] → startsWith optionsStart e.url = false
  /-- No part is missing in front of another one. -/
  version : e.version.isSome → e.pattern.isSome
  script : e.script.isSome → e.version.isSome
  /-- The line does not go on. -/
  last : e.wordList.getLast?.bind List.getLast? ≠ some '\\'
  options : e.options.IsWritable

theorem Entry.isWritable_iff {e : Entry} : e.IsWritable ↔ e.IsRead ∧ e.IsRereadable := by
  constructor
  · intro h
    obtain ⟨hread, hquotable⟩ := Options.isWritable_iff.mp h.options
    exact ⟨⟨h.words, h.url, h.version, h.script, hread, hquotable⟩, ⟨h.comment, h.start, h.last⟩⟩
  · rintro ⟨hread, hagain⟩
    exact ⟨hread.words, hread.url, hagain.comment, hagain.options, hread.version, hread.script,
      hagain.last, Options.isWritable_iff.mpr ⟨hread.options, hread.quotable⟩⟩

/-! ### Watch files -/

/-- A watch file that can be written. -/
structure IsWritable (w : WatchFile) : Prop where
  version : w.version < 0x100000000
  options : w.options.IsWritable
  /-- Without quotes around them, the options for all entries stand at the end of their line. -/
  last : (∀ o ∈ w.options, o.any isBlank = false) →
    w.options.getLast?.bind List.getLast? ≠ some '\\'
  entries : ∀ e ∈ w.entries, e.IsWritable

variable {w : WatchFile}

theorem isWritable_iff : w.IsWritable ↔ w.IsRead ∧ w.IsRereadable := by
  constructor
  · intro h
    obtain ⟨hread, hquotable⟩ := Options.isWritable_iff.mp h.options
    refine ⟨⟨h.version, hread, fun e he => (Entry.isWritable_iff.mp (h.entries e he)).1⟩,
      ⟨hquotable, fun hblank => ?_, fun e he => (Entry.isWritable_iff.mp (h.entries e he)).2⟩⟩
    rw [ne_eq, Options.getLast?_list (by decide)]
    exact h.last (Options.hasBlank_eq_false_iff.mp hblank)
  · rintro ⟨hread, hagain⟩
    refine ⟨hread.version, Options.isWritable_iff.mpr ⟨hread.options, hagain.quotable⟩,
      fun hblank => ?_, fun e he => Entry.isWritable_iff.mpr ⟨hread.entries e he, hagain.entries e he⟩⟩
    have hlast := hagain.last (Options.hasBlank_eq_false_iff.mpr hblank)
    rwa [ne_eq, Options.getLast?_list (by decide)] at hlast

/-- **What is written is read again exactly if it is writable**, whatever the version and however many
options and entries there are. -/
theorem parse_render_iff_isWritable (w : WatchFile) :
    parse w.render = .ok (some w) ↔ w.IsWritable := by
  rw [isWritable_iff]
  constructor
  · intro h
    have hread : w.IsRead := isRead_of_parse h
    exact ⟨hread, hread.rereads_iff.mp h⟩
  · rintro ⟨hread, hagain⟩
    exact hread.rereads_iff.mpr hagain

/-- An option with a comma in it is read as two. -/
example : parse (render { options := ["a,b".toList] }) = .ok (some { options := [['a'], ['b']] }) := by
  decide +kernel

end Packaging.WatchFile
