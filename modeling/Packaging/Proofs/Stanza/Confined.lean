import Packaging.Proofs.Stanza.Canonical
import Packaging.Proofs.Stanza.Names

/-!
# Values that stay in their field

Any text can be made the value of a field. When it is written, its further lines are indented, so that
they are read as lines of the same field and not as fields of their own. A blank line is blank with an
indent, too: it ends the paragraph, and what comes behind it belongs to no field.

## What is proved

* `Reader.IsIn.takeLines_text`, `Reader.IsIn.takeLine_blank` — in a field, a further line goes on with
  the field, or it is blank and ends the paragraph.
* `agreesBut_render_set_iff` — a value stays in its field exactly if it has no blank line behind its first
  line, or only such lines at its end in the last field of a paragraph.
-/

namespace Packaging.Stanza

open Text

/-! ### Values and documents -/

/-- The lines of a value behind the first. -/
def furtherLines (value : Text) : List Text := (value.splitOn '\n').tail

/-- No line behind the first is blank. -/
def IsUnbroken (value : Text) : Prop := ∀ line ∈ furtherLines value, isBlankLine line = false

/-- From the first blank line on, if there is one behind the first line, all lines are blank. -/
def EndsBlank (value : Text) : Prop :=
  ∀ line ∈ (furtherLines value).dropWhile (!isBlankLine ·), isBlankLine line = true

/-- The documents have as many paragraphs with the same names, and the same values but for one field. -/
structure Document.AgreesBut (d' d : Document) (i : Nat) (name : Text) : Prop where
  names : d'.paragraphs.map Paragraph.names = d.paragraphs.map Paragraph.names
  values : ∀ j other, (j, other) ≠ (i, name) →
    (d'.get? j).bind (·.get? other) = (d.get? j).bind (·.get? other)

/-! ### Reading the lines of a value -/

theorem head?_furtherLine (line : Text) : (Field.furtherLine line).head?.any isIndent = true := by
  unfold Field.furtherLine
  split
  · assumption
  · rfl

theorem furtherLine_furtherLine (line : Text) :
    Field.furtherLine (Field.furtherLine line) = Field.furtherLine line := by
  rw [Field.furtherLine, if_pos (head?_furtherLine line)]

theorem isBlankLine_furtherLine (line : Text) : isBlankLine (Field.furtherLine line) = isBlankLine line := by
  unfold Field.furtherLine
  split
  · rfl
  · have hspace : isBlank ' ' = true := by decide
    simp [isBlankLine, hspace]

theorem ofText_furtherLine_of_text {line : Text} (h : isBlankLine line = false) :
    Line.ofText (dropReturn (Field.furtherLine line)) =
      .continuation (dropReturn (Field.furtherLine line)) := by
  have hblank : isBlankLine (Field.furtherLine line) = false := (isBlankLine_furtherLine line).trans h
  have hagain := ofText_furtherLine (head?_furtherLine line) hblank
  rwa [furtherLine_furtherLine] at hagain

theorem ofText_of_blank {line : Text} (h : isBlankLine line = true) :
    Line.ofText (dropReturn line) = .blank := by
  rw [Line.ofText, isBlankLine_dropReturn, if_pos h]

namespace Reader

/-- The reader is in a paragraph with these fields and one more, which goes on. -/
structure IsIn (r : Reader) (done : List Paragraph) (fs : List Field) (name : Text) : Prop where
  done : r.done = done
  current : ∃ value, r.current = ⟨fs ++ [⟨name, value⟩]⟩
  last : r.last = some fs.length

/-- The reader is behind these paragraphs. -/
structure IsBehind (r : Reader) (done : List Paragraph) : Prop where
  done : r.done = done
  current : r.current = {}
  last : r.last = none

variable {r : Reader} {done : List Paragraph} {fs : List Field} {name : Text}

/-- A field begins behind the fields there are. -/
theorem exists_isIn (hname : IsName name) (hdone : r.done = done) (hcurrent : r.current = ⟨fs⟩)
    (hnew : name ∉ fs.map Field.name) (first : Text) :
    ∃ r', r.takeLines [Field.firstLine name first] = .ok r' ∧ r'.IsIn done fs name := by
  have hnew : name ∉ r.current.names := by rwa [hcurrent]
  have hset := setField_of_not_mem hnew ((dropReturn first).dropWhile isIndent)
  rw [hcurrent] at hset
  refine ⟨_, takeLines_cons (ofText_firstLine hname first) rfl [], hdone,
    ⟨(dropReturn first).dropWhile isIndent, ?_⟩, ?_⟩
  · rw [hset]
  · rw [hset]

/-- **A further line that is not blank** goes on with the field. -/
theorem IsIn.takeLines_text (h : r.IsIn done fs name) {text : List Text}
    (htext : ∀ line ∈ text, isBlankLine line = false) :
    ∃ r', r.takeLines (text.map Field.furtherLine) = .ok r' ∧ r'.IsIn done fs name := by
  induction text generalizing r with
  | nil => exact ⟨r, rfl, h⟩
  | cons line text ih =>
    obtain ⟨hline, htext⟩ := List.forall_mem_cons.mp htext
    obtain ⟨hdone, ⟨value, hcurrent⟩, hlast⟩ := h
    have htake : r.takeLine (.continuation (dropReturn (Field.furtherLine line))) = .ok
        { r with
          current := ⟨fs ++ [⟨name, value ++ '\n' :: dropReturn (Field.furtherLine line)⟩]⟩
          line := r.line + 1 } := by
      simp [takeLine, readLine, hlast, Except.map, changeValue, hcurrent, modify_concat]
    rw [List.map_cons, takeLines_cons (ofText_furtherLine_of_text hline) htake]
    exact ih ⟨hdone, ⟨_, rfl⟩, hlast⟩ htext

/-- **A blank line** ends the paragraph that the field is in. -/
theorem IsIn.takeLine_blank (h : r.IsIn done fs name) :
    ∃ r' value, r.takeLine .blank = .ok r' ∧ r'.IsBehind (done ++ [⟨fs ++ [⟨name, value⟩]⟩]) := by
  obtain ⟨hdone, ⟨value, hcurrent⟩, -⟩ := h
  have hclose : r.closeParagraph =
      { r with done := done ++ [⟨fs ++ [⟨name, value⟩]⟩], current := {}, last := none } := by
    simp [closeParagraph, hcurrent, Paragraph.isEmpty, hdone]
  exact ⟨_, value, by rw [takeLine, readLine, hclose]; rfl, rfl, rfl, rfl⟩

theorem IsBehind.takeLine_blank (h : r.IsBehind done) :
    ∃ r', r.takeLine .blank = .ok r' ∧ r'.IsBehind done := by
  obtain ⟨hdone, hcurrent, hlast⟩ := h
  have hclose : r.closeParagraph = r := by
    rw [closeParagraph, hcurrent]
    rfl
  exact ⟨{ r with line := r.line + 1 }, by rw [takeLine, readLine, hclose]; rfl, hdone, hcurrent, hlast⟩

theorem IsBehind.takeLines_blank (h : r.IsBehind done) {blanks : List Text}
    (hblanks : ∀ line ∈ blanks, isBlankLine line = true) :
    ∃ r', r.takeLines blanks = .ok r' ∧ r'.IsBehind done := by
  induction blanks generalizing r with
  | nil => exact ⟨r, rfl, h⟩
  | cons line blanks ih =>
    obtain ⟨hline, hblanks⟩ := List.forall_mem_cons.mp hblanks
    obtain ⟨r', htake, h'⟩ := h.takeLine_blank
    rw [takeLines_cons (ofText_of_blank hline) htake]
    exact ih h' hblanks

/-- A further line behind a paragraph goes on with nothing. -/
theorem IsBehind.takeLines_error (h : r.IsBehind done) {further : List Text}
    (hfurther : ∃ line ∈ further, isBlankLine line = false) (rest : List Text) :
    ∃ e, r.takeLines (further.map Field.furtherLine ++ rest) = .error e := by
  induction further generalizing r with
  | nil => simp at hfurther
  | cons line further ih =>
    rw [List.map_cons, List.cons_append]
    by_cases hline : isBlankLine line = true
    · obtain ⟨r', htake, h'⟩ := h.takeLine_blank
      have hkind := ofText_of_blank ((isBlankLine_furtherLine line).trans hline)
      rw [takeLines_cons hkind htake]
      refine ih h' ?_
      simpa [hline] using hfurther
    · have hkind := ofText_furtherLine_of_text (by simpa using hline)
      refine ⟨.continuationWithoutField r.line, ?_⟩
      rw [takeLines, hkind, takeLine, readLine, h.last]
      rfl

/-- The lines of a field, whatever its value. -/
theorem renderLines_eq (name value : Text) : ∃ first, Field.renderLines ⟨name, value⟩ =
    [Field.firstLine name first] ++ (furtherLines value).map Field.furtherLine := by
  obtain ⟨first, further, hsplit⟩ := List.exists_cons_of_ne_nil (List.splitOn_ne_nil '\n' value)
  exact ⟨first, by rw [Field.renderLines, furtherLines, hsplit]; rfl⟩

/-! ### Reading what comes before and behind -/

/-- Canonical paragraphs are read as they are. -/
theorem takeLines_canonical {ps : List Paragraph} (hps : ∀ p ∈ ps, p.isEmpty = false ∧ p.IsCanonical)
    (hr : r.current = {}) :
    ∃ r', r.takeLines (linesOf ps) = .ok r' ∧ r'.done = r.done ++ ps ∧ r'.current = {} := by
  obtain ⟨r', htake, hdone, hcurrent⟩ :=
    takeLines_paragraphs (fun p hp => ⟨(hps p hp).1, (hps p hp).2.toIsReadable⟩) hr
  have hsame : ps.map (Paragraph.mapValues dropReturns) = ps :=
    map_eq_self_iff.mpr fun p hp => mapValues_dropReturns_eq_self_iff.mpr (hps p hp).2.noReturns
  exact ⟨r', htake, by rw [hdone, hsame], hcurrent⟩

variable {after : List Field} {ps : List Paragraph}

/-- Behind a field, the fields that follow are of its paragraph. -/
theorem IsIn.takeLines_rest (h : r.IsIn done fs name) (hafter : Paragraph.IsCanonical ⟨after⟩)
    (hnodup : (fs.map Field.name ++ name :: after.map Field.name).Nodup)
    (hps : ∀ p ∈ ps, p.isEmpty = false ∧ p.IsCanonical) :
    ∃ r' value, r.takeLines ((after.flatMap Field.renderLines ++ [[]]) ++ linesOf ps) = .ok r' ∧
      r'.document = ⟨done ++ ⟨fs ++ ⟨name, value⟩ :: after⟩ :: ps⟩ := by
  obtain ⟨hdone, ⟨value, hcurrent⟩, -⟩ := h
  obtain ⟨s, hs, hsdone, hscurrent⟩ := takeLines_fields_nil (r := r) hafter.fields
    (by simpa [hcurrent, Paragraph.names] using hnodup) (by simp [hcurrent])
  obtain ⟨r', hr', hrdone, hrcurrent⟩ := takeLines_canonical hps hscurrent
  have hsame : after.map rereadField = after :=
    congrArg Paragraph.fields (mapValues_dropReturns_eq_self_iff.mpr hafter.noReturns)
  refine ⟨r', value, by rw [takeLines_append hs, hr'], ?_⟩
  simp [Reader.document, hrcurrent, hrdone, hsdone, hsame, hcurrent, hdone, Paragraph.isEmpty]

/-- Behind a paragraph, the fields that follow are a paragraph of their own. -/
theorem IsBehind.takeLines_rest (h : r.IsBehind done) (hafter : Paragraph.IsCanonical ⟨after⟩)
    (hps : ∀ p ∈ ps, p.isEmpty = false ∧ p.IsCanonical) :
    ∃ r', r.takeLines ((after.flatMap Field.renderLines ++ [[]]) ++ linesOf ps) = .ok r' ∧
      r'.document = ⟨done ++ (if after = [] then ps else ⟨after⟩ :: ps)⟩ := by
  by_cases hnil : after = []
  · obtain ⟨s, hs, hs'⟩ := h.takeLine_blank
    obtain ⟨r', hr', hrdone, hrcurrent⟩ := takeLines_canonical hps hs'.current
    refine ⟨r', ?_, ?_⟩
    · rw [hnil]
      exact (takeLines_cons (ofText_of_blank rfl) hs _).trans hr'
    · simp [Reader.document, hrcurrent, hrdone, hs'.done, hnil, Paragraph.isEmpty]
  · have hall : ∀ p ∈ (⟨after⟩ :: ps : List Paragraph), p.isEmpty = false ∧ p.IsCanonical :=
      List.forall_mem_cons.mpr ⟨⟨by simpa [Paragraph.isEmpty] using hnil, hafter⟩, hps⟩
    obtain ⟨r', hr', hrdone, hrcurrent⟩ := takeLines_canonical hall h.current
    refine ⟨r', hr', ?_⟩
    simp [Reader.document, hrcurrent, hrdone, h.done, hnil, Paragraph.isEmpty]

end Reader

/-! ### The place of a field -/

/-- The place of a field in a document, with everything around it. -/
structure Place where
  above : List Paragraph
  before : List Field
  name : Text
  after : List Field
  below : List Paragraph

namespace Place

/-- The document with this value in the place. -/
def fill (s : Place) (value : Text) : Document :=
  ⟨s.above ++ ⟨s.before ++ ⟨s.name, value⟩ :: s.after⟩ :: s.below⟩

/-- Everything around the place is read as it is written. -/
structure IsCanonical (s : Place) : Prop where
  above : ∀ p ∈ s.above, p.isEmpty = false ∧ p.IsCanonical
  before : Paragraph.IsCanonical ⟨s.before⟩
  name : IsName s.name
  after : Paragraph.IsCanonical ⟨s.after⟩
  below : ∀ p ∈ s.below, p.isEmpty = false ∧ p.IsCanonical
  nodup : (s.before.map Field.name ++ s.name :: s.after.map Field.name).Nodup

/-- A field that is there has a place, and setting it fills the place. -/
theorem exists_place {d : Document} {i : Nat} {p : Paragraph} {name : Text} (hp : d.get? i = some p)
    (hname : name ∈ p.names) :
    ∃ s : Place, s.name = name ∧ s.above.length = i ∧ (∃ old, d = s.fill old) ∧
      p.names = s.before.map Field.name ++ name :: s.after.map Field.name ∧
      ∀ value, d.modify i (·.set name value) = s.fill value := by
  obtain ⟨hlt, hget⟩ := List.getElem?_eq_some_iff.mp hp
  obtain ⟨before, f, after, hfields, hf, hupdate⟩ := Paragraph.exists_updateFirst hname
  have hsplit : d.paragraphs = d.paragraphs.take i ++ p :: d.paragraphs.drop (i + 1) := by
    rw [← hget, List.cons_getElem_drop_succ, List.take_append_drop]
  have hset : ∀ value, p.set name value = ⟨before ++ ⟨name, value⟩ :: after⟩ := fun value => by
    rw [Paragraph.set, if_pos (Paragraph.contains_iff.mpr hname), hupdate, hf]
  have hp' : p = ⟨before ++ ⟨name, f.value⟩ :: after⟩ := by
    rw [← hf]
    exact congrArg Paragraph.mk hfields
  refine ⟨⟨d.paragraphs.take i, before, name, after, d.paragraphs.drop (i + 1)⟩, rfl, by simp [hlt.le],
    ⟨f.value, ?_⟩, by simp [hp', Paragraph.names], fun value => ?_⟩
  · rw [fill, ← hp', ← hsplit]
  · rw [Document.modify, fill, ← hset, List.modify_eq_take_drop, ← hget, List.drop_eq_getElem_cons hlt]
    rfl

variable {s : Place}

theorem isCanonical_of_sublist {p : Paragraph} (h : p.IsCanonical) {fs : List Field}
    (hfs : fs.Sublist p.fields) : Paragraph.IsCanonical ⟨fs⟩ :=
  ⟨⟨(hfs.map Field.name).nodup h.nodup, fun f hf => h.fields f (hfs.subset hf)⟩,
    fun f hf => h.noReturns f (hfs.subset hf)⟩

theorem isCanonical_of_parse_fill {old : Text}
    (h : Document.parse (s.fill old).render = .ok (s.fill old)) : s.IsCanonical := by
  have hread := readable_of_parse h
  have hcompact : (s.fill old).compact = s.fill old :=
    congrArg Document.mk (List.filter_eq_self.mpr fun p hp => by simp [(hread p hp).1])
  have hcanonical := isCanonical_of_parse_render (h.trans (congrArg Except.ok hcompact.symm))
  rw [hcompact] at hcanonical
  have hall : ∀ p ∈ (s.fill old).paragraphs, p.isEmpty = false ∧ p.IsCanonical :=
    fun p hp => ⟨(hread p hp).1, hcanonical p hp⟩
  obtain ⟨habove, hrest⟩ := List.forall_mem_append.mp hall
  obtain ⟨⟨-, hp⟩, hbelow⟩ := List.forall_mem_cons.mp hrest
  refine ⟨habove, isCanonical_of_sublist hp (List.sublist_append_left _ _), ?_,
    isCanonical_of_sublist hp ?_, hbelow, by simpa [Paragraph.names] using hp.nodup⟩
  · exact (hp.fields ⟨s.name, old⟩ (by simp)).name
  · exact (List.sublist_cons_self _ _).trans (List.sublist_append_right _ _)

/-- What is written for the document, from the second line of the field on. -/
def linesBehind (s : Place) (value : Text) : List Text :=
  (furtherLines value).map Field.furtherLine ++
    ((s.after.flatMap Field.renderLines ++ [[]]) ++ linesOf s.below)

theorem linesOf_fill (s : Place) (value : Text) : ∃ first, linesOf (s.fill value).paragraphs =
    linesOf s.above ++ (s.before.flatMap Field.renderLines ++
      ([Field.firstLine s.name first] ++ s.linesBehind value)) := by
  obtain ⟨first, hfirst⟩ := Reader.renderLines_eq s.name value
  exact ⟨first, by simp [fill, linesOf, Paragraph.renderLines, linesBehind, hfirst]⟩

/-- The lines that are written are the lines of the document: no paragraph is left out, and no name has
a newline in it. -/
theorem IsCanonical.splitOn_render (h : s.IsCanonical) (value : Text) :
    (s.fill value).render.splitOn '\n' = linesOf (s.fill value).paragraphs := by
  have hcompact : (s.fill value).compact = s.fill value := by
    refine congrArg Document.mk (List.filter_eq_self.mpr ?_)
    refine List.forall_mem_append.mpr ⟨fun p hp => by simp [(h.above p hp).1],
      List.forall_mem_cons.mpr ⟨by simp [Paragraph.isEmpty], fun p hp => by simp [(h.below p hp).1]⟩⟩
  have hnames : ∀ p ∈ (s.fill value).paragraphs, ∀ f ∈ p.fields, '\n' ∉ f.name := by
    refine List.forall_mem_append.mpr ⟨fun p hp f hf => ?_, List.forall_mem_cons.mpr
      ⟨List.forall_mem_append.mpr ⟨fun f hf => ?_, List.forall_mem_cons.mpr ⟨?_, fun f hf => ?_⟩⟩,
        fun p hp f hf => ?_⟩⟩
    · exact ((h.above p hp).2.fields f hf).name.newline_not_mem
    · exact (h.before.fields f hf).name.newline_not_mem
    · exact h.name.newline_not_mem
    · exact (h.after.fields f hf).name.newline_not_mem
    · exact ((h.below p hp).2.fields f hf).name.newline_not_mem
  have hlines := Stanza.splitOn_render (d := s.fill value) (by rwa [hcompact])
    (by rw [hcompact]; simp [fill])
  rwa [hcompact] at hlines

/-- **Reading the document** comes to reading what is behind the first line of the field. -/
theorem IsCanonical.parse_fill (h : s.IsCanonical) (value : Text) :
    ∃ r : Reader, r.IsIn s.above s.before s.name ∧ Document.parse (s.fill value).render =
      (r.takeLines (s.linesBehind value)).map Reader.document := by
  obtain ⟨first, hlines⟩ := linesOf_fill s value
  obtain ⟨r₁, hr₁, hdone₁, hcurrent₁⟩ := Reader.takeLines_canonical (r := {}) h.above rfl
  obtain ⟨r₂, hr₂, hdone₂, hcurrent₂⟩ := Reader.takeLines_fields (r := r₁) h.before.fields
    (by simpa [hcurrent₁, Paragraph.names] using h.before.nodup)
  have hsame : s.before.map rereadField = s.before :=
    congrArg Paragraph.fields (mapValues_dropReturns_eq_self_iff.mpr h.before.noReturns)
  have hdone : r₂.done = s.above := by simp [hdone₂, hdone₁]
  have hcurrent : r₂.current = ⟨s.before⟩ := by simp [hcurrent₂, hcurrent₁, hsame]
  have hnew : s.name ∉ s.before.map Field.name := fun hmem =>
    (List.nodup_append.mp h.nodup).2.2 _ hmem _ List.mem_cons_self rfl
  obtain ⟨r, hr, hin⟩ := Reader.exists_isIn h.name hdone hcurrent hnew first
  refine ⟨r, hin, ?_⟩
  rw [Document.parse_eq_takeLines, h.splitOn_render, hlines, Reader.takeLines_append hr₁,
    Reader.takeLines_append hr₂, Reader.takeLines_append hr]

variable {value : Text}

/-- A value without blank lines stays in its field. -/
theorem IsCanonical.parse_fill_of_isUnbroken (h : s.IsCanonical) (hvalue : IsUnbroken value) :
    ∃ read, Document.parse (s.fill value).render = .ok (s.fill read) := by
  obtain ⟨r, hin, hparse⟩ := h.parse_fill value
  obtain ⟨r₁, hr₁, hin₁⟩ := hin.takeLines_text hvalue
  obtain ⟨r₂, read, hr₂, hdocument⟩ := hin₁.takeLines_rest h.after h.nodup h.below
  refine ⟨read, ?_⟩
  rw [hparse, linesBehind, Reader.takeLines_append hr₁, hr₂]
  exact congrArg Except.ok hdocument

/-- The first blank line of a value ends the paragraph, and what is behind it is read from there. -/
theorem IsCanonical.parse_fill_of_blank (h : s.IsCanonical) {text more : List Text} {blank : Text}
    (hvalue : furtherLines value = text ++ blank :: more)
    (htext : ∀ line ∈ text, isBlankLine line = false) (hblank : isBlankLine blank = true) :
    ∃ (r : Reader) (read : Text), r.IsBehind (s.above ++ [⟨s.before ++ [⟨s.name, read⟩]⟩]) ∧
      Document.parse (s.fill value).render = (r.takeLines (more.map Field.furtherLine ++
        ((s.after.flatMap Field.renderLines ++ [[]]) ++ linesOf s.below))).map Reader.document := by
  obtain ⟨r, hin, hparse⟩ := h.parse_fill value
  obtain ⟨r₁, hr₁, hin₁⟩ := hin.takeLines_text htext
  obtain ⟨r₂, read, hr₂, hbehind⟩ := hin₁.takeLine_blank
  have hkind := Reader.takeLines_cons (ofText_of_blank ((isBlankLine_furtherLine blank).trans hblank)) hr₂
  refine ⟨r₂, read, hbehind, ?_⟩
  rw [hparse, linesBehind, hvalue, List.map_append, List.map_cons, List.append_assoc, List.cons_append,
    Reader.takeLines_append hr₁, hkind]

/-- If only blank lines follow, the fields behind the value are a paragraph of their own. -/
theorem IsCanonical.parse_fill_of_blanks (h : s.IsCanonical) {text blanks : List Text} {blank : Text}
    (hvalue : furtherLines value = text ++ blank :: blanks)
    (htext : ∀ line ∈ text, isBlankLine line = false) (hblank : isBlankLine blank = true)
    (hblanks : ∀ line ∈ blanks, isBlankLine line = true) :
    ∃ read, Document.parse (s.fill value).render =
      .ok ⟨(s.above ++ [⟨s.before ++ [⟨s.name, read⟩]⟩]) ++
        (if s.after = [] then s.below else ⟨s.after⟩ :: s.below)⟩ := by
  have hindented : ∀ line ∈ blanks.map Field.furtherLine, isBlankLine line = true := by
    intro line hline
    obtain ⟨l, hl, rfl⟩ := List.mem_map.mp hline
    exact (isBlankLine_furtherLine l).trans (hblanks l hl)
  obtain ⟨r, read, hbehind, hparse⟩ := h.parse_fill_of_blank hvalue htext hblank
  obtain ⟨r₁, hr₁, hbehind₁⟩ := hbehind.takeLines_blank hindented
  obtain ⟨r₂, hr₂, hdocument⟩ := hbehind₁.takeLines_rest h.after h.below
  refine ⟨read, ?_⟩
  rw [hparse, Reader.takeLines_append hr₁, hr₂]
  exact congrArg Except.ok hdocument

/-- If a line with text follows, it cannot be read. -/
theorem IsCanonical.parse_fill_of_text (h : s.IsCanonical) {text more : List Text} {blank : Text}
    (hvalue : furtherLines value = text ++ blank :: more)
    (htext : ∀ line ∈ text, isBlankLine line = false) (hblank : isBlankLine blank = true)
    (hmore : ∃ line ∈ more, isBlankLine line = false) :
    ∃ e, Document.parse (s.fill value).render = .error e := by
  obtain ⟨r, read, hbehind, hparse⟩ := h.parse_fill_of_blank hvalue htext hblank
  obtain ⟨e, he⟩ := hbehind.takeLines_error hmore
    ((s.after.flatMap Field.renderLines ++ [[]]) ++ linesOf s.below)
  refine ⟨e, ?_⟩
  rw [hparse, he]
  rfl

end Place

/-! ### Setting a field -/

/-- The further lines of a value are all text, or some text, a blank line and more. -/
theorem isUnbroken_or (value : Text) : IsUnbroken value ∨
    ∃ text blank more, furtherLines value = text ++ blank :: more ∧
      (∀ line ∈ text, isBlankLine line = false) ∧ isBlankLine blank = true ∧
      (furtherLines value).dropWhile (!isBlankLine ·) = blank :: more := by
  have hsplit : (furtherLines value).takeWhile (!isBlankLine ·) ++
      (furtherLines value).dropWhile (!isBlankLine ·) = furtherLines value :=
    List.takeWhile_append_dropWhile
  have htext : ∀ line ∈ (furtherLines value).takeWhile (!isBlankLine ·), isBlankLine line = false :=
    fun line hline => by simpa using List.mem_takeWhile_imp hline
  cases hrest : (furtherLines value).dropWhile (!isBlankLine ·) with
  | nil =>
    rw [hrest, List.append_nil] at hsplit
    exact .inl fun line hline => htext line (hsplit.symm ▸ hline)
  | cons blank more =>
    rw [hrest] at hsplit
    have hblank : isBlankLine blank = true := by
      have hhead := List.head?_dropWhile_not (!isBlankLine ·) (furtherLines value)
      simpa [hrest] using hhead
    exact .inr ⟨_, blank, more, hsplit.symm, htext, hblank, rfl⟩

theorem not_isUnbroken {value blank : Text} {text more : List Text}
    (h : furtherLines value = text ++ blank :: more) (hblank : isBlankLine blank = true) :
    ¬ IsUnbroken value := fun hvalue => by
  have hfalse := hvalue blank (by simp [h])
  simp [hblank] at hfalse

/-- Setting a field that is there changes nothing else. -/
theorem agreesBut_modify {d : Document} {i : Nat} {p : Paragraph} {name : Text} (hp : d.get? i = some p)
    (hname : name ∈ p.names) (value : Text) : (d.modify i (·.set name value)).AgreesBut d i name := by
  have hget : ∀ j, (d.modify i (·.set name value)).get? j =
      if i = j then some (p.set name value) else d.get? j := by
    intro j
    by_cases hj : i = j
    · subst hj
      have hp : d.paragraphs[i]? = some p := hp
      simp [Document.get?, Document.modify, hp]
    · simp [Document.get?, Document.modify, hj]
  constructor
  · refine List.ext_getElem? fun j => ?_
    rw [List.getElem?_map, List.getElem?_map]
    have hj := hget j
    rw [Document.get?] at hj
    rw [hj]
    by_cases hij : i = j
    · subst hij
      have hp : d.paragraphs[i]? = some p := hp
      simp [hp, Paragraph.names_set, hname]
    · rw [if_neg hij, Document.get?]
  · intro j other hother
    rw [hget]
    by_cases hij : i = j
    · subst hij
      have hne : name ≠ other := fun hsame => hother (by rw [hsame])
      rw [if_pos rfl, hp, Option.bind_some, Option.bind_some, Paragraph.get?_set_of_ne hne]
    · rw [if_neg hij]

theorem getLast?_eq_some_iff {before after : List Text} {name : Text}
    (h : (before ++ name :: after).Nodup) :
    (before ++ name :: after).getLast? = some name ↔ after = [] := by
  constructor
  · intro hlast
    by_contra hne
    rw [List.getLast?_append_of_ne_nil _ (List.cons_ne_nil _ _), ← List.singleton_append,
      List.getLast?_append_of_ne_nil _ hne] at hlast
    have hcons := (List.nodup_append.mp h).2.1
    exact (List.nodup_cons.mp hcons).1 (List.mem_of_getLast? hlast)
  · rintro rfl
    exact List.getLast?_concat

/-- A document with another number of paragraphs does not agree. -/
theorem not_agreesBut {d' d : Document} {i : Nat} {name : Text}
    (h : d'.paragraphs.length ≠ d.paragraphs.length) : ¬ d'.AgreesBut d i name := fun hagrees => by
  have hlength := congrArg List.length hagrees.names
  rw [List.length_map, List.length_map] at hlength
  exact h hlength

/-- **When a value stays in its field.** In a document that is read as it is written, a field that is there
is set to any text. What is written then is read with the same paragraphs and names, and with the same
values in all other fields, exactly if no line of the text behind its first is blank, or only lines at its
end are and the field is the last one of its paragraph. -/
theorem agreesBut_render_set_iff {d : Document} {i : Nat} {p : Paragraph} {name : Text}
    (h : Document.parse d.render = .ok d) (hp : d.get? i = some p) (hname : name ∈ p.names)
    (value : Text) :
    (∃ d', Document.parse (d.modify i (·.set name value)).render = .ok d' ∧ d'.AgreesBut d i name) ↔
      IsUnbroken value ∨ EndsBlank value ∧ p.names.getLast? = some name := by
  obtain ⟨s, rfl, rfl, ⟨old, hold⟩, hnames, hfill⟩ := Place.exists_place hp hname
  have hs : s.IsCanonical := Place.isCanonical_of_parse_fill (hold ▸ h)
  have hagrees : ∀ read, (s.fill read).AgreesBut d s.above.length s.name := fun read =>
    hfill read ▸ agreesBut_modify hp hname read
  have hlast : p.names.getLast? = some s.name ↔ s.after = [] := by
    rw [hnames, getLast?_eq_some_iff hs.nodup, List.map_eq_nil_iff]
  rw [hfill, hlast]
  rcases isUnbroken_or value with hvalue | ⟨text, blank, more, hvalue, htext, hblank, htail⟩
  · obtain ⟨read, hread⟩ := hs.parse_fill_of_isUnbroken hvalue
    exact ⟨fun _ => .inl hvalue, fun _ => ⟨_, hread, hagrees read⟩⟩
  · have hbroken := not_isUnbroken hvalue hblank
    by_cases hmore : ∀ line ∈ more, isBlankLine line = true
    · have hends : EndsBlank value := by
        rw [EndsBlank, htail]
        exact List.forall_mem_cons.mpr ⟨hblank, hmore⟩
      obtain ⟨read, hread⟩ := hs.parse_fill_of_blanks hvalue htext hblank hmore
      by_cases hafter : s.after = []
      · have hread : Document.parse (s.fill value).render = .ok (s.fill read) := by
          rw [hread, if_pos hafter]
          simp [Place.fill, hafter]
        exact ⟨fun _ => .inr ⟨hends, hafter⟩, fun _ => ⟨_, hread, hagrees read⟩⟩
      · -- the fields behind are one paragraph more
        refine iff_of_false ?_ (by simp [hbroken, hafter])
        rintro ⟨d', hd', hagrees'⟩
        obtain rfl := Except.ok.inj (hread.symm.trans hd')
        exact not_agreesBut (by simp [hafter, hold, Place.fill]) hagrees'
    · have hends : ¬ EndsBlank value := by
        rw [EndsBlank, htail]
        exact fun hall => hmore (List.forall_mem_cons.mp hall).2
      obtain ⟨e, he⟩ := hs.parse_fill_of_text hvalue htext hblank (by simpa using hmore)
      simp [he, hbroken, hends]

/-- Two fields in one paragraph. -/
def twoFields : Document := ⟨[⟨[⟨['A'], ['1']⟩, ⟨['B'], ['2']⟩]⟩]⟩

theorem agreesBut_render_set_twoFields :
    Document.parse twoFields.render = .ok twoFields ∧
      twoFields.get? 0 = some ⟨[⟨['A'], ['1']⟩, ⟨['B'], ['2']⟩]⟩ ∧
      ∃ d', Document.parse (twoFields.modify 0 (·.set ['A'] "x\nB: y".toList)).render = .ok d' ∧
        d'.AgreesBut twoFields 0 ['A'] := by
  have hparse : Document.parse twoFields.render = .ok twoFields := by decide +kernel
  have hvalue : IsUnbroken "x\nB: y".toList := by
    unfold IsUnbroken furtherLines
    decide +kernel
  exact ⟨hparse, rfl, (agreesBut_render_set_iff hparse rfl (by decide) _).mpr (.inl hvalue)⟩

/-- Behind a blank line in a value, the rest of the value cannot be read. -/
theorem not_agreesBut_render_set_twoFields :
    Document.parse twoFields.render = .ok twoFields ∧
      twoFields.get? 0 = some ⟨[⟨['A'], ['1']⟩, ⟨['B'], ['2']⟩]⟩ ∧
      Document.parse (twoFields.modify 0 (·.set ['A'] "x\n\ny".toList)).render =
        .error (.continuationWithoutField 3) := by
  decide +kernel

end Packaging.Stanza
