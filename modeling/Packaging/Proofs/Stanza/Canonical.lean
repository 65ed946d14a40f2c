import Packaging.Proofs.Stanza.Readable
import Packaging.Stanza.Printer

/-!
# Documents that read back as they are written

Writing a document makes every paragraph readable: it indents further lines and keeps nothing apart
that a reader cannot tell apart. So a document reads back, without its empty paragraphs, exactly if
nothing had to be made so, and if no line of a value ends with a carriage return, which is taken for
a part of the line break.

## What is proved

* `parse_render_of_readable` — a readable document reads back, but for the carriage returns at the
  ends of the lines of its values.
* `parse_render_iff` — a document reads back as it is, without its empty paragraphs, if and only if
  its other paragraphs are canonical.
-/

namespace Packaging.Stanza

open Text

/-! ### Canonical paragraphs -/

/-- No line of the value ends with a carriage return. -/
def HasNoReturns (value : Text) : Prop := ∀ line ∈ value.splitOn '\n', line.getLast? ≠ some '\r'

/-- A paragraph that is readable and has no carriage return at the end of a line. -/
structure Paragraph.IsCanonical (p : Paragraph) : Prop extends p.IsReadable where
  noReturns : ∀ f ∈ p.fields, HasNoReturns f.value

/-- The value without one carriage return at the end of each line. -/
def dropReturns (value : Text) : Text := join ['\n'] ((value.splitOn '\n').map dropReturn)

theorem map_eq_self_iff {α : Type} {f : α → α} {as : List α} : as.map f = as ↔ ∀ a ∈ as, f a = a := by
  have h : as.map f = as ↔ as.map f = as.map id := by rw [List.map_id]
  rw [h]
  exact List.map_inj_left

theorem dropReturns_eq_self_iff {value : Text} : dropReturns value = value ↔ HasNoReturns value := by
  have hnew : ∀ l ∈ (value.splitOn '\n').map dropReturn, '\n' ∉ l := by
    intro l hl
    obtain ⟨piece, hpiece, rfl⟩ := List.mem_map.mp hl
    exact fun hmem => not_mem_of_mem_splitOn hpiece (mem_of_mem_dropReturn hmem)
  have hlines : dropReturns value = value ↔
      (value.splitOn '\n').map dropReturn = value.splitOn '\n' := by
    constructor
    · intro h
      rw [← splitOn_join hnew (by simp [List.splitOn_ne_nil]), ← dropReturns, h]
    · intro h
      rw [dropReturns, h, join_splitOn]
  rw [hlines, map_eq_self_iff]
  exact forall₂_congr fun _ _ => dropReturn_eq_self_iff

/-- The field that comes of writing a field and reading it. -/
def rereadField (f : Field) : Field := { f with value := dropReturns f.value }

/-! ### The lines of a document -/

/-- The lines of a paragraph. -/
def Paragraph.renderLines (p : Paragraph) : List Text := p.fields.flatMap Field.renderLines

theorem Paragraph.render_eq_unlines (p : Paragraph) : p.render = unlines p.renderLines := by
  rw [render, renderLines, unlines, List.flatMap_assoc]
  rfl

/-- The lines of paragraphs, each with an empty line behind it. -/
def linesOf (ps : List Paragraph) : List Text := ps.flatMap fun p => p.renderLines ++ [[]]

/-- The newline that separates two paragraphs makes an empty line between them, and the end of the
last paragraph one behind it. -/
theorem join_render {ps : List Paragraph} (h : ps ≠ []) :
    join ['\n'] (ps.map Paragraph.render) = join ['\n'] (linesOf ps) := by
  induction ps with
  | nil => exact absurd rfl h
  | cons p ps ih =>
    cases ps with
    | nil => simp [join, linesOf, Paragraph.render_eq_unlines, unlines_eq_join]
    | cons q qs =>
      have hlines : linesOf (p :: q :: qs) = (p.renderLines ++ [[]]) ++ linesOf (q :: qs) := rfl
      rw [hlines, join_append (by simp) (by simp [linesOf]), ← ih (by simp), ← unlines_eq_join,
        ← Paragraph.render_eq_unlines, List.map_cons, List.map_cons, join_cons_cons]

/-! ### Reading a line back -/

theorem head?_dropReturn {p : Char → Bool} {line : Text} (h : line.head?.any p = false) :
    (dropReturn line).head?.any p = false := by
  cases line with
  | nil => rfl
  | cons c t =>
    by_cases ht : t = []
    · subst ht
      unfold dropReturn
      split
      · rfl
      · exact h
    · rw [dropReturn_cons c ht]
      simpa using h

theorem isBlankLine_dropReturn (line : Text) : isBlankLine (dropReturn line) = isBlankLine line := by
  by_cases h : line.getLast? = some '\r'
  · obtain ⟨body, rfl⟩ := List.getLast?_eq_some_iff.mp h
    have hreturn : isBlank '\r' = true := by decide
    simp [dropReturn, isBlankLine, hreturn]
  · rw [dropReturn_eq_self h]

theorem ofText_field {name : Text} (hname : IsName name) (text : Text) :
    Line.ofText (name ++ ':' :: text) = .field name (text.dropWhile isIndent) := by
  obtain ⟨hne, hblank, hcolon, hhash⟩ := hname
  obtain ⟨c, rest, rfl⟩ := List.exists_cons_of_ne_nil hne
  have hc : isBlank c = false := hblank c List.mem_cons_self
  have hindent : isIndent c = false := by
    cases h : isIndent c with
    | false => rfl
    | true =>
      have : c = ' ' ∨ c = '\t' := by simpa [isIndent] using h
      rcases this with rfl | rfl <;> exact absurd hc (by decide)
  have hc' : '#' ≠ c := fun e => hhash (by rw [← e]; rfl)
  have hkey : Token.isKey (c :: rest) = true := by
    simpa [Token.isKey] using hblank
  unfold Line.ofText Line.ofUnindented
  rw [cut?_eq_some_iff.mpr ⟨hcolon, rfl⟩]
  simp [isBlankLine, startsWith, hc, hc', hindent, hkey]

/-- The first line of a field gives its name and the first line of its value, without its indent. -/
theorem ofText_firstLine {name : Text} (hname : IsName name) (first : Text) :
    Line.ofText (dropReturn (Field.firstLine name first)) =
      .field name ((dropReturn first).dropWhile isIndent) := by
  unfold Field.firstLine
  by_cases h : first = []
  · rw [h, List.isEmpty_nil, if_pos rfl, dropReturn_eq_self (by simp), ofText_field hname]
    rfl
  · have hspace : ∀ text, name ++ [':', ' '] ++ text = name ++ ':' :: ' ' :: text := by simp
    have hindent : isIndent ' ' = true := by decide
    rw [if_neg (by simpa using h), dropReturn_append h, hspace, ofText_field hname,
      List.dropWhile_cons_of_pos hindent]

/-- A further line of a value continues it. -/
theorem ofText_furtherLine {line : Text} (hindent : line.head?.any isIndent = true)
    (hblank : isBlankLine line = false) :
    Line.ofText (dropReturn (Field.furtherLine line)) = .continuation (dropReturn line) := by
  obtain ⟨c, rest, rfl⟩ : ∃ c rest, line = c :: rest := by
    cases line with
    | nil => simp at hindent
    | cons c rest => exact ⟨c, rest, rfl⟩
  have hc : c = ' ' ∨ c = '\t' := by simpa [isIndent] using hindent
  have hrest : rest ≠ [] := by
    rintro rfl
    rcases hc with rfl | rfl <;> exact absurd hblank (by decide)
  rw [Field.furtherLine, if_pos hindent, Line.ofText, isBlankLine_dropReturn, hblank,
    dropReturn_cons c hrest]
  rcases hc with rfl | rfl <;> simp [startsWith, isIndent]

/-! ### Reading a document back -/

namespace Reader

variable {r r' : Reader}

theorem takeLines_cons {line : Text} {l : Line} (hl : Line.ofText (dropReturn line) = l)
    (h : r.takeLine l = .ok r') (ls : List Text) :
    r.takeLines (line :: ls) = r'.takeLines ls := by
  rw [takeLines, hl, h]

theorem takeLines_append {ls : List Text} (h : r.takeLines ls = .ok r') (ls' : List Text) :
    r.takeLines (ls ++ ls') = r'.takeLines ls' := by
  induction ls generalizing r with
  | nil => cases h; rfl
  | cons line ls ih =>
    rw [takeLines] at h
    rw [List.cons_append, takeLines]
    split at h
    · exact ih h
    · cases h

/-- Further lines go to the field that is continued, one after the other. -/
theorem takeLines_further {fs : List Field} {name : Text} {further : List Text}
    (h : ∀ line ∈ further, line.head?.any isIndent = true ∧ isBlankLine line = false)
    {read : List Text} (hread : read ≠ [])
    (hcurrent : r.current = ⟨fs ++ [⟨name, join ['\n'] read⟩]⟩) (hlast : r.last = some fs.length) :
    ∃ n, r.takeLines (further.map Field.furtherLine) = .ok { r with
      current := ⟨fs ++ [⟨name, join ['\n'] (read ++ further.map dropReturn)⟩]⟩, line := n } := by
  induction further generalizing r read with
  | nil => exact ⟨r.line, by simp [takeLines, ← hcurrent]⟩
  | cons line further ih =>
    obtain ⟨⟨hindent, hblank⟩, hfurther⟩ := List.forall_mem_cons.mp h
    have hline := ofText_furtherLine hindent hblank
    have htake : r.takeLine (.continuation (dropReturn line)) = .ok { r with
        current := ⟨fs ++ [⟨name, join ['\n'] (read ++ [dropReturn line])⟩]⟩
        line := r.line + 1 } := by
      simp [takeLine, readLine, hlast, Except.map, changeValue, hcurrent, modify_concat,
        join_append hread]
      simp [join]
    obtain ⟨n, hn⟩ := ih hfurther (r := { r with
        current := ⟨fs ++ [⟨name, join ['\n'] (read ++ [dropReturn line])⟩]⟩
        line := r.line + 1 }) (by simp) rfl hlast
    refine ⟨n, ?_⟩
    rw [List.map_cons, takeLines_cons hline htake, hn]
    simp

/-- A field of a new name goes behind the others. -/
theorem setField_of_not_mem {name : Text} (hnew : name ∉ r.current.names) (value : Text) :
    r.setField name value = { r with
      current := ⟨r.current.fields ++ [⟨name, value⟩]⟩, last := some r.current.fields.length } := by
  have hindex : r.current.fields.findIdx? (·.name == name) = none := by
    rw [List.findIdx?_eq_none_iff]
    intro g hg
    simpa using fun e => hnew (List.mem_map.mpr ⟨g, hg, e⟩)
  have hset : r.current.set name value = ⟨r.current.fields ++ [⟨name, value⟩]⟩ := by
    rw [Paragraph.set, if_neg (by rwa [Paragraph.contains_iff])]
  rw [setField, hindex, hset]
  rfl

theorem takeLines_field {f : Field} (hf : f.IsReadable) (hnew : f.name ∉ r.current.names) :
    ∃ r', r.takeLines f.renderLines = .ok r' ∧ r'.done = r.done ∧
      r'.current = ⟨r.current.fields ++ [rereadField f]⟩ := by
  obtain ⟨first, further, hsplit⟩ :=
    List.exists_cons_of_ne_nil (List.splitOn_ne_nil '\n' f.value)
  obtain ⟨hname, hfirst, hfurther⟩ := hf
  rw [hsplit] at hfirst hfurther
  have hline := ofText_firstLine hname first
  rw [dropWhile_eq_self (head?_dropReturn (hfirst first rfl))] at hline
  have hset := setField_of_not_mem hnew (dropReturn first)
  have hfields : dropReturns f.value = join ['\n'] ([dropReturn first] ++ further.map dropReturn) := by
    rw [dropReturns, hsplit]
    rfl
  have hlines : f.renderLines = Field.firstLine f.name first :: further.map Field.furtherLine := by
    rw [Field.renderLines, hsplit]
  have hcurrent : (r.setField f.name (dropReturn first)).current =
      ⟨r.current.fields ++ [⟨f.name, join ['\n'] [dropReturn first]⟩]⟩ := by
    rw [hset, join_singleton]
  obtain ⟨n, hn⟩ := takeLines_further
    (r := { r.setField f.name (dropReturn first) with line := r.line + 1 }) hfurther
    (List.cons_ne_nil _ _) hcurrent (by rw [hset])
  have hrun := (takeLines_cons hline rfl (further.map Field.furtherLine)).trans hn
  rw [← hlines] at hrun
  exact ⟨_, hrun, rfl, by rw [rereadField, hfields]; rfl⟩

/-- The fields of a paragraph are read one after the other. -/
theorem takeLines_fields {fs : List Field} (hfs : ∀ f ∈ fs, f.IsReadable)
    (hnodup : (r.current.names ++ fs.map Field.name).Nodup) :
    ∃ r', r.takeLines (fs.flatMap Field.renderLines) = .ok r' ∧ r'.done = r.done ∧
      r'.current = ⟨r.current.fields ++ fs.map rereadField⟩ := by
  induction fs generalizing r with
  | nil => exact ⟨r, rfl, rfl, by simp⟩
  | cons f fs ih =>
    obtain ⟨hf, hfs⟩ := List.forall_mem_cons.mp hfs
    have hnew : f.name ∉ r.current.names := fun hmem =>
      (List.nodup_append.mp hnodup).2.2 f.name hmem f.name (by simp) rfl
    obtain ⟨s, hs, hsdone, hscurrent⟩ := takeLines_field hf hnew
    have hnames : s.current.names = r.current.names ++ [f.name] := by
      simp [hscurrent, Paragraph.names, rereadField]
    obtain ⟨r', hr', hdone, hcurrent⟩ := ih (r := s) hfs (by simpa [hnames] using hnodup)
    refine ⟨r', ?_, hdone.trans hsdone, ?_⟩
    · rw [List.flatMap_cons, takeLines_append hs, hr']
    · simp [hcurrent, hscurrent]

/-- The empty line behind fields ends the paragraph. -/
theorem takeLines_fields_nil {fs : List Field} (hfs : ∀ f ∈ fs, f.IsReadable)
    (hnodup : (r.current.names ++ fs.map Field.name).Nodup) (hne : r.current.fields ++ fs ≠ []) :
    ∃ r', r.takeLines (fs.flatMap Field.renderLines ++ [[]]) = .ok r' ∧
      r'.done = r.done ++ [⟨r.current.fields ++ fs.map rereadField⟩] ∧ r'.current = {} := by
  obtain ⟨s, hs, hdone, hcurrent⟩ := takeLines_fields hfs hnodup
  have hfields : s.current.isEmpty = false := by
    simpa [hcurrent, Paragraph.isEmpty] using hne
  refine ⟨{ s.closeParagraph with line := s.line + 1 }, ?_, ?_, ?_⟩
  · rw [takeLines_append hs]
    rfl
  · rw [closeParagraph, hfields, if_neg Bool.false_ne_true, hcurrent, hdone]
  · rw [closeParagraph, hfields, if_neg Bool.false_ne_true]

theorem takeLines_paragraph {p : Paragraph} (hp : p.IsReadable) (hne : p.isEmpty = false)
    (hr : r.current = {}) :
    ∃ r', r.takeLines (p.renderLines ++ [[]]) = .ok r' ∧
      r'.done = r.done ++ [p.mapValues dropReturns] ∧ r'.current = {} := by
  obtain ⟨r', htake, hdone, hcurrent⟩ := takeLines_fields_nil (r := r) hp.fields
    (by simpa [hr, Paragraph.names] using hp.nodup) (by simpa [hr, Paragraph.isEmpty] using hne)
  refine ⟨r', htake, ?_, hcurrent⟩
  rw [hdone, hr]
  rfl

theorem takeLines_paragraphs {ps : List Paragraph}
    (hps : ∀ p ∈ ps, p.isEmpty = false ∧ p.IsReadable) (hr : r.current = {}) :
    ∃ r', r.takeLines (linesOf ps) = .ok r' ∧
      r'.done = r.done ++ ps.map (Paragraph.mapValues dropReturns) ∧ r'.current = {} := by
  induction ps generalizing r with
  | nil => exact ⟨r, rfl, by simp, hr⟩
  | cons p ps ih =>
    obtain ⟨hp, hps⟩ := List.forall_mem_cons.mp hps
    obtain ⟨s, hs, hsdone, hscurrent⟩ := takeLines_paragraph hp.2 hp.1 hr
    obtain ⟨r', hr', hdone, hcurrent⟩ := ih hps hscurrent
    refine ⟨r', ?_, ?_, hcurrent⟩
    · rw [linesOf, List.flatMap_cons, takeLines_append hs, ← linesOf, hr']
    · simp [hdone, hsdone]

end Reader

theorem IsName.newline_not_mem {name : Text} (h : IsName name) : '\n' ∉ name :=
  fun hmem => absurd (h.no_blank _ hmem) (by decide)

/-- No line that is written has a newline in it. -/
theorem newline_not_mem_renderLines {f : Field} (hname : '\n' ∉ f.name) :
    ∀ line ∈ f.renderLines, '\n' ∉ line := by
  obtain ⟨first, further, hsplit⟩ :=
    List.exists_cons_of_ne_nil (List.splitOn_ne_nil '\n' f.value)
  have hpieces : ∀ piece ∈ first :: further, '\n' ∉ piece := fun piece hpiece =>
    not_mem_of_mem_splitOn (hsplit ▸ hpiece)
  obtain ⟨hfirst, hfurther⟩ := List.forall_mem_cons.mp hpieces
  rw [Field.renderLines, hsplit]
  refine List.forall_mem_cons.mpr ⟨?_, fun line hline => ?_⟩
  · unfold Field.firstLine
    split <;> simp [hname, hfirst]
  · obtain ⟨piece, hpiece, rfl⟩ := List.mem_map.mp hline
    unfold Field.furtherLine
    split <;> simp [hfurther piece hpiece]

theorem splitOn_render {d : Document}
    (h : ∀ p ∈ d.compact.paragraphs, ∀ f ∈ p.fields, '\n' ∉ f.name)
    (hne : d.compact.paragraphs ≠ []) :
    d.render.splitOn '\n' = linesOf d.compact.paragraphs := by
  rw [Document.render, join_render hne]
  refine splitOn_join (fun line hline => ?_) ?_
  · obtain ⟨p, hp, hline⟩ := List.mem_flatMap.mp hline
    rcases List.mem_append.mp hline with hline | hline
    · obtain ⟨f, hf, hline⟩ := List.mem_flatMap.mp hline
      exact newline_not_mem_renderLines (h p hp f hf) line hline
    · simp [List.mem_singleton.mp hline]
  · obtain ⟨p, ps, hps⟩ := List.exists_cons_of_ne_nil hne
    simp [hps, linesOf]

theorem mem_compact_iff {d : Document} {p : Paragraph} :
    p ∈ d.compact.paragraphs ↔ p ∈ d.paragraphs ∧ p.isEmpty = false := by
  simp [Document.compact, List.mem_filter]

/-- **A readable document reads back**, without its empty paragraphs and without a carriage return
at the end of each line of its values. -/
theorem parse_render_of_readable {d : Document}
    (h : ∀ p ∈ d.compact.paragraphs, p.IsReadable) :
    Document.parse d.render =
      .ok ⟨d.compact.paragraphs.map (Paragraph.mapValues dropReturns)⟩ := by
  by_cases hne : d.compact.paragraphs = []
  · rw [Document.render, hne]
    rfl
  · obtain ⟨r, hr, hdone, hcurrent⟩ := Reader.takeLines_paragraphs (r := {})
      (fun p hp => ⟨(mem_compact_iff.mp hp).2, h p hp⟩) rfl
    rw [Document.parse_eq_takeLines,
      splitOn_render (fun p hp f hf => ((h p hp).fields f hf).name.newline_not_mem) hne, hr]
    simp [Except.map, Reader.document, hcurrent, hdone, Paragraph.isEmpty]

/-- The values of a paragraph stay as they are exactly if none of their lines ends with a carriage
return. -/
theorem mapValues_dropReturns_eq_self_iff {p : Paragraph} :
    p.mapValues dropReturns = p ↔ ∀ f ∈ p.fields, HasNoReturns f.value := by
  have hfields : p.mapValues dropReturns = p ↔ p.fields.map rereadField = p.fields :=
    ⟨fun h => congrArg Paragraph.fields h, fun h => congrArg Paragraph.mk h⟩
  rw [hfields, map_eq_self_iff]
  refine forall₂_congr fun f _ => ?_
  rw [← dropReturns_eq_self_iff]
  exact ⟨fun h => congrArg Field.value h, fun h => by rw [rereadField, h]⟩

/-- The paragraphs of a document that reads back as it is are canonical. -/
theorem isCanonical_of_parse_render {d : Document} (h : Document.parse d.render = .ok d.compact) :
    ∀ p ∈ d.compact.paragraphs, p.IsCanonical := by
  intro p hp
  have hread : ∀ q ∈ d.compact.paragraphs, q.IsReadable := fun q hq => (readable_of_parse h q hq).2
  -- Two things are known now that the document reads back as, so no return can have been dropped.
  rw [parse_render_of_readable hread] at h
  have hmap : d.compact.paragraphs.map (Paragraph.mapValues dropReturns) = d.compact.paragraphs :=
    congrArg Document.paragraphs (Except.ok.inj h)
  exact ⟨hread p hp, mapValues_dropReturns_eq_self_iff.mp (map_eq_self_iff.mp hmap p hp)⟩

/-- **A document reads back as it is**, without its empty paragraphs, if and only if its other
paragraphs are canonical. -/
theorem parse_render_iff (d : Document) :
    Document.parse d.render = .ok d.compact ↔
      ∀ p ∈ d.paragraphs, p.isEmpty = false → p.IsCanonical := by
  constructor
  · exact fun h p hp hne => isCanonical_of_parse_render h p (mem_compact_iff.mpr ⟨hp, hne⟩)
  · intro h
    have hcanonical : ∀ p ∈ d.compact.paragraphs, p.IsCanonical := fun p hp =>
      h p (mem_compact_iff.mp hp).1 (mem_compact_iff.mp hp).2
    have hmap : d.compact.paragraphs.map (Paragraph.mapValues dropReturns) = d.compact.paragraphs :=
      map_eq_self_iff.mpr fun p hp =>
        mapValues_dropReturns_eq_self_iff.mpr (hcanonical p hp).noReturns
    rw [parse_render_of_readable fun p hp => (hcanonical p hp).toIsReadable, hmap]

/-- A carriage return at the end of a value does not come back. -/
example : Document.parse (Document.render ⟨[⟨[⟨"A".toList, "x\r".toList⟩]⟩]⟩) =
    .ok ⟨[⟨[⟨"A".toList, "x".toList⟩]⟩]⟩ := by rfl

end Packaging.Stanza
