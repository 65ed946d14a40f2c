import Packaging.Proofs.Stanza.Lines
import Packaging.Proofs.Success
import Packaging.Proofs.Text.Trim

/-!
# What can be read from a stanza file

Not every document can come of reading a text: a name is cut at its colon, an indent in front of a
value is passed over, and a blank line ends the paragraph. `Paragraph.IsReadable` says what is left.

## What is proved

* `Reader.Readable.takeLine` — taking a line keeps the paragraphs of a reader readable.
* `readable_of_parse` — so the paragraphs that are read from a text have fields and are readable,
  whatever the text.
-/

namespace Packaging.Stanza

open Text

/-! ### Readable names, values and paragraphs -/

/-- A name that a line can give a field. -/
structure IsName (name : Text) : Prop where
  ne_nil : name ≠ []
  no_blank : ∀ c ∈ name, isBlank c = false
  no_colon : ':' ∉ name
  no_hash : name.head? ≠ some '#'

/-- A value that lines can give a field: the first one is not indented, and those after it are
indented and not blank. -/
structure IsValue (value : Text) : Prop where
  first : ∀ line ∈ (value.splitOn '\n').head?, line.head?.any isIndent = false
  further : ∀ line ∈ (value.splitOn '\n').tail,
    line.head?.any isIndent = true ∧ isBlankLine line = false

/-- A field that lines can give a paragraph. -/
structure Field.IsReadable (f : Field) : Prop where
  name : IsName f.name
  value : IsValue f.value

/-- A paragraph that lines can give a document. -/
structure Paragraph.IsReadable (p : Paragraph) : Prop where
  nodup : p.names.Nodup
  fields : ∀ f ∈ p.fields, f.IsReadable

/-- The value of one line. -/
theorem isValue_of_line {line : Text} (hnew : '\n' ∉ line) (h : line.head?.any isIndent = false) :
    IsValue line := by
  constructor <;> simp [List.splitOn_eq_singleton hnew, h]

/-- A continuation line is the last line of the value that it goes to. -/
theorem IsValue.append {value line : Text} (h : IsValue value) (hnew : '\n' ∉ line)
    (hindent : line.head?.any isIndent = true) (hblank : isBlankLine line = false) :
    IsValue (value ++ '\n' :: line) := by
  obtain ⟨first, further, hsplit⟩ :=
    List.exists_cons_of_ne_nil (List.splitOn_ne_nil '\n' value)
  obtain ⟨hfirst, hfurther⟩ := h
  rw [hsplit] at hfirst hfurther
  constructor <;> rw [splitOn_append_newline value hnew, hsplit]
  · exact hfirst
  · exact List.forall_mem_append.mpr ⟨hfurther, List.forall_mem_singleton.mpr ⟨hindent, hblank⟩⟩

theorem isReadable_empty : Paragraph.IsReadable {} := ⟨List.nodup_nil, by simp⟩

/-! ### Setting fields -/

namespace Paragraph

/-- A change of the first field of a name that keeps its name keeps all names. -/
theorem map_name_updateFirst {name : Text} {change : Field → Field}
    (h : ∀ f, (change f).name = f.name) (fs : List Field) :
    (updateFirst name change fs).map Field.name = fs.map Field.name := by
  induction fs with
  | nil => rfl
  | cons f fs ih =>
    unfold updateFirst
    split
    · simp [h]
    · simp [ih]

theorem mem_updateFirst {name : Text} {change : Field → Field} {f : Field} {fs : List Field}
    (h : f ∈ updateFirst name change fs) : f ∈ fs ∨ ∃ g ∈ fs, f = change g := by
  induction fs with
  | nil => simp [updateFirst] at h
  | cons g fs ih =>
    unfold updateFirst at h
    split at h
    · rcases List.mem_cons.mp h with rfl | h
      · exact .inr ⟨g, List.mem_cons_self, rfl⟩
      · exact .inl (List.mem_cons_of_mem _ h)
    · rcases List.mem_cons.mp h with rfl | h
      · exact .inl List.mem_cons_self
      · rcases ih h with h | ⟨k, hk, rfl⟩
        · exact .inl (List.mem_cons_of_mem _ h)
        · exact .inr ⟨k, List.mem_cons_of_mem _ hk, rfl⟩

theorem contains_iff {p : Paragraph} {name : Text} : p.contains name = true ↔ name ∈ p.names := by
  simp [contains, names, List.any_eq_true]

/-- Setting a field keeps the names of a paragraph apart. -/
theorem nodup_set {p : Paragraph} (h : p.names.Nodup) (name value : Text) :
    (p.set name value).names.Nodup := by
  unfold set
  split
  · rw [names, map_name_updateFirst (fun f => rfl : ∀ f : Field, ({ f with value } : Field).name = f.name)]
    exact h
  · rename_i hnew
    have hnew : name ∉ p.names := fun hmem => hnew (contains_iff.mpr hmem)
    have hnames : p.names ++ [name] = (⟨p.fields ++ [⟨name, value⟩]⟩ : Paragraph).names := by
      simp [names]
    rw [← hnames, List.nodup_append]
    exact ⟨h, by simp, fun a ha b hb e => hnew (List.mem_singleton.mp hb ▸ e ▸ ha)⟩

theorem mem_set {p : Paragraph} {name value : Text} {f : Field}
    (h : f ∈ (p.set name value).fields) :
    f ∈ p.fields ∨ f = ⟨name, value⟩ ∨ ∃ g ∈ p.fields, f = { g with value } := by
  unfold set at h
  split at h
  · rcases mem_updateFirst h with h | h
    · exact .inl h
    · exact .inr (.inr h)
  · rcases List.mem_append.mp h with h | h
    · exact .inl h
    · exact .inr (.inl (List.mem_singleton.mp h))

theorem IsReadable.set {p : Paragraph} (h : p.IsReadable) {name value : Text} (hname : IsName name)
    (hvalue : IsValue value) : (p.set name value).IsReadable := by
  refine ⟨nodup_set h.nodup name value, fun f hf => ?_⟩
  rcases mem_set hf with hf | rfl | ⟨g, hg, rfl⟩
  · exact h.fields f hf
  · exact ⟨hname, hvalue⟩
  · exact ⟨(h.fields g hg).name, hvalue⟩

end Paragraph

/-! ### Lines -/

theorem ofText_eq_continuation {line text : Text} (h : Line.ofText line = .continuation text) :
    text = line ∧ line.head?.any isIndent = true ∧ isBlankLine line = false := by
  unfold Line.ofText at h
  split at h
  · cases h
  rename_i hblank
  split at h
  · cases h
  split at h
  · rename_i hindent
    cases h
    exact ⟨rfl, hindent, by simpa using hblank⟩
  · unfold Line.ofUnindented at h
    split at h
    · split at h <;> cases h
    · cases h

theorem ofText_eq_field {line name value : Text} (h : Line.ofText line = .field name value)
    (hnew : '\n' ∉ line) : IsName name ∧ IsValue value := by
  unfold Line.ofText at h
  split at h
  · cases h
  split at h
  · cases h
  rename_i hhash
  split at h
  · cases h
  unfold Line.ofUnindented at h
  split at h
  · rename_i cutName text hcut
    split at h
    · rename_i hkey
      obtain ⟨hcolon, rfl⟩ := cut?_eq_some_iff.mp hcut
      cases h
      simp only [Token.isKey, Bool.and_eq_true, Bool.not_eq_true', List.isEmpty_eq_false_iff,
        List.any_eq_false, Bool.not_eq_true] at hkey
      have hnewText : '\n' ∉ text := fun hmem => hnew (by simp [hmem])
      refine ⟨⟨hkey.1, hkey.2, hcolon, fun hhead => hhash ?_⟩, isValue_of_line ?_ ?_⟩
      · obtain ⟨rest, rfl⟩ := List.head?_eq_some_iff.mp hhead
        simp [startsWith]
      · exact fun hmem => hnewText ((List.dropWhile_sublist _).subset hmem)
      · exact head?_dropWhile isIndent text
    · cases h
  · cases h

namespace Reader

/-- The paragraphs of a reader are readable, and those that are finished have fields. -/
structure Readable (r : Reader) : Prop where
  done : ∀ p ∈ r.done, p.isEmpty = false ∧ p.IsReadable
  current : r.current.IsReadable

theorem readable_empty : Readable {} := ⟨by simp, isReadable_empty⟩

variable {r r' : Reader}

theorem Readable.closeParagraph (h : r.Readable) : r.closeParagraph.Readable := by
  unfold Reader.closeParagraph
  split
  · exact h
  · rename_i hcurrent
    exact ⟨List.forall_mem_append.mpr ⟨h.done, List.forall_mem_singleton.mpr
      ⟨by simpa using hcurrent, h.current⟩⟩, isReadable_empty⟩

theorem Readable.changeValue (h : r.Readable) {change : Text → Text}
    (hchange : ∀ value, IsValue value → IsValue (change value)) (i : Nat) :
    (r.changeValue i change).Readable := by
  refine ⟨h.done, ?_, fun f hf => ?_⟩
  · have hnames : (r.changeValue i change).current.names = r.current.names := by
      simp only [Reader.changeValue, Paragraph.names]
      refine List.ext_getElem? fun j => ?_
      by_cases hj : i = j <;> simp [hj, Function.comp_def]
    rw [hnames]
    exact h.current.nodup
  · obtain ⟨j, hj⟩ := List.mem_iff_getElem?.mp hf
    simp only [Reader.changeValue, List.getElem?_modify] at hj
    obtain ⟨g, hg, hgf⟩ := Option.map_eq_some_iff.mp hj
    have hread := h.current.fields g (List.mem_of_getElem? hg)
    subst hgf
    split
    · exact ⟨hread.name, hchange _ hread.value⟩
    · exact hread

/-- Taking a line of a text keeps the paragraphs readable. -/
theorem Readable.takeLine (h : r.Readable) {line : Text} (hnew : '\n' ∉ line)
    (htake : r.takeLine (.ofText line) = .ok r') : r'.Readable := by
  unfold Reader.takeLine at htake
  rw [map_eq_ok_iff] at htake
  obtain ⟨s, hread, rfl⟩ := htake
  suffices hs : s.Readable from ⟨hs.done, hs.current⟩
  cases hline : Line.ofText line with
  | blank =>
    rw [hline] at hread
    cases hread
    exact h.closeParagraph
  | comment =>
    rw [hline] at hread
    cases hread
    exact h
  | continuation text =>
    obtain ⟨rfl, hindent, hblank⟩ := ofText_eq_continuation hline
    rw [hline, readLine] at hread
    split at hread
    · cases hread
    · rename_i i _
      cases hread
      exact h.changeValue (fun value hvalue => hvalue.append hnew hindent hblank) i
  | field name value =>
    obtain ⟨hname, hvalue⟩ := ofText_eq_field hline hnew
    rw [hline] at hread
    cases hread
    exact ⟨h.done, h.current.set hname hvalue⟩
  | bad text =>
    rw [hline] at hread
    cases hread

theorem Readable.takeLines (h : r.Readable) {ls : List Text} (hnew : ∀ l ∈ ls, '\n' ∉ l)
    (htake : r.takeLines ls = .ok r') : r'.Readable := by
  induction ls generalizing r with
  | nil => cases htake; exact h
  | cons line ls ih =>
    obtain ⟨hline, hls⟩ := List.forall_mem_cons.mp hnew
    unfold Reader.takeLines at htake
    split at htake
    · rename_i s hs
      exact ih (h.takeLine (fun hmem => hline (mem_of_mem_dropReturn hmem)) hs) hls htake
    · cases htake

end Reader

/-- **What is read from a text is readable**, and has no paragraph without fields. -/
theorem readable_of_parse {t : Text} {d : Document} (h : Document.parse t = .ok d) :
    ∀ p ∈ d.paragraphs, p.isEmpty = false ∧ p.IsReadable := by
  rw [Document.parse_eq_takeLines, map_eq_ok_iff] at h
  obtain ⟨r, hr, rfl⟩ := h
  have hread := Reader.readable_empty.takeLines (fun _ => not_mem_of_mem_splitOn) hr
  unfold Reader.document
  split
  · exact hread.done
  · rename_i hcurrent
    exact List.forall_mem_append.mpr ⟨hread.done, List.forall_mem_singleton.mpr
      ⟨by simpa using hcurrent, hread.current⟩⟩

end Packaging.Stanza
