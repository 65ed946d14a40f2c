import Mathlib.Data.List.Induction
import Packaging.Proofs.Stanza.Names

/-!
# What a stanza file says

A reader that goes over a file once has to remember the paragraph it is in and the field that goes on.
What the file says can be told from its lines without such a memory. Blank lines divide them into
groups, and a group with fields in it is a paragraph. A field goes on with the continuation lines up to
the next one, comments between them or not; of the fields of one name, the first gives the place and
the last the value.

## What is proved

* `Paragraph.foldl_set_eq` — setting fields one after the other makes this paragraph.
* `Reader.takeLine_within`, `takeLines_within` — what a line does to a reader is told by the lines of
  its group.
* `Document.parse_eq_readByLines` — so reading a text is reading it line by line, and what is wrong is
  the first line that is wrong.
-/

namespace Packaging.Stanza

open Text

/-! ### Lines -/

namespace Line

/-- The lines of a text, each without its newline and one carriage return in front of that. -/
def all (t : Text) : List Line := (t.splitOn '\n').map fun line => .ofText (dropReturn line)

/-- A line of white space. -/
def isBlank : Line → Bool
  | .blank => true
  | _ => false

/-- A line with a name. -/
def isField : Line → Bool
  | .field .. => true
  | _ => false

/-- The lines after the last blank one. -/
def sinceBlank (ls : List Line) : List Line := (ls.reverse.takeWhile (!·.isBlank)).reverse

/-- What is wrong with a line that comes after the lines `before`. -/
def error? (before : List Line) : Line → Option ParseError
  | .bad text => some (.missingColon (before.length + 1) text)
  | .continuation _ =>
    if (sinceBlank before).any isField then none
    else some (.continuationWithoutField (before.length + 1))
  | .blank | .comment | .field .. => none

/-- What is wrong with the first wrong line of those that come after the lines `before`. -/
def errorAfter? (before : List Line) : List Line → Option ParseError
  | [] => none
  | line :: ls => (line.error? before).or (errorAfter? (before ++ [line]) ls)

/-- The continuation lines up to the next field, each behind a newline. -/
def furtherText : List Line → Text
  | [] => []
  | .field .. :: _ => []
  | .continuation text :: ls => '\n' :: text ++ furtherText ls
  | _ :: ls => furtherText ls

/-- The fields in lines, each one as often as it occurs. -/
def occurrences : List Line → List Field
  | [] => []
  | .field name value :: ls => ⟨name, value ++ furtherText ls⟩ :: occurrences ls
  | _ :: ls => occurrences ls

end Line

/-- The value of the last field of a name. -/
def Paragraph.lastValue (fs : List Field) (name : Text) : Text :=
  ((fs.reverse.find? (·.name == name)).map Field.value).getD []

/-- The paragraph that fields make. A name stands where it occurs first and has the value that it has
last. -/
def Paragraph.ofOccurrences (fs : List Field) : Paragraph :=
  ⟨(fs.map Field.name).eraseDups.map fun name => ⟨name, lastValue fs name⟩⟩

/-- The document that lines make. -/
def Document.ofLines (ls : List Line) : Document :=
  ⟨((ls.splitOnP Line.isBlank).filter (·.any Line.isField)).map fun group =>
    .ofOccurrences (Line.occurrences group)⟩

/-- Reads a document line by line. -/
def Document.readByLines (t : Text) : Except ParseError Document :=
  match Line.errorAfter? [] (Line.all t) with
  | some e => .error e
  | none => .ok (.ofLines (Line.all t))

/-! ### Fields of a group -/

namespace Line

theorem eq_blank_of_isBlank {line : Line} (h : line.isBlank = true) : line = .blank := by
  cases line with
  | blank => rfl
  | comment | continuation | field | bad => cases h

theorem sinceBlank_concat (ls : List Line) (line : Line) :
    sinceBlank (ls ++ [line]) = if line.isBlank then [] else sinceBlank ls ++ [line] := by
  unfold sinceBlank
  rw [List.reverse_concat, List.takeWhile_cons]
  cases line.isBlank <;> simp

theorem isBlank_of_mem_sinceBlank {ls : List Line} : ∀ line ∈ sinceBlank ls, line.isBlank = false := by
  intro line hline
  simpa using List.mem_takeWhile_imp (List.mem_reverse.mp hline)

theorem occurrences_eq_nil_iff {ls : List Line} : occurrences ls = [] ↔ ls.any isField = false := by
  induction ls with
  | nil => simp [occurrences]
  | cons line ls ih => cases line <;> simp [occurrences, isField, ih]

theorem furtherText_append {ls : List Line} (h : ls.any isField = true) (ls' : List Line) :
    furtherText (ls ++ ls') = furtherText ls := by
  induction ls with
  | nil => cases h
  | cons line ls ih =>
    cases line with
    | field name value => rfl
    | continuation text => exact congrArg ('\n' :: text ++ ·) (ih h)
    | blank | comment | bad => exact ih h

theorem furtherText_concat_continuation {ls : List Line} (h : ls.any isField = false) (text : Text) :
    furtherText (ls ++ [.continuation text]) = furtherText ls ++ '\n' :: text := by
  induction ls with
  | nil => simp [furtherText]
  | cons line ls ih =>
    cases line with
    | field name value => cases h
    | continuation text' =>
      rw [List.cons_append, furtherText, ih h, furtherText, List.append_assoc]
    | blank | comment | bad => exact ih h

theorem furtherText_concat {ls : List Line} {line : Line} (h : ∀ text, line ≠ .continuation text) :
    furtherText (ls ++ [line]) = furtherText ls := by
  induction ls with
  | nil =>
    cases line with
    | continuation text => exact absurd rfl (h text)
    | blank | comment | field | bad => rfl
  | cons l ls ih => cases l <;> simp [furtherText, ih]

theorem occurrences_concat_field (ls : List Line) (name value : Text) :
    occurrences (ls ++ [.field name value]) = occurrences ls ++ [⟨name, value⟩] := by
  induction ls with
  | nil => simp [occurrences, furtherText]
  | cons line ls ih =>
    have hfurther : furtherText (ls ++ [.field name value]) = furtherText ls :=
      furtherText_concat (by simp)
    cases line <;> simp [occurrences, ih, hfurther]

theorem occurrences_concat_comment (ls : List Line) :
    occurrences (ls ++ [.comment]) = occurrences ls := by
  induction ls with
  | nil => rfl
  | cons line ls ih =>
    have hfurther : furtherText (ls ++ [.comment]) = furtherText ls := furtherText_concat (by simp)
    cases line <;> simp [occurrences, ih, hfurther]

/-- A continuation line goes to the last field of its group. -/
theorem occurrences_concat_continuation {ls : List Line} {init : List Field} {f : Field}
    (h : occurrences ls = init ++ [f]) (text : Text) :
    occurrences (ls ++ [.continuation text]) = init ++ [{ f with value := f.value ++ '\n' :: text }] := by
  induction ls generalizing init with
  | nil => simp [occurrences] at h
  | cons line ls ih =>
    cases line with
    | field name value =>
      rw [occurrences] at h
      rw [List.cons_append, occurrences]
      cases hany : ls.any isField with
      | false =>
        have hnone := occurrences_eq_nil_iff.mpr hany
        have hnone' : occurrences (ls ++ [.continuation text]) = [] :=
          occurrences_eq_nil_iff.mpr (by simp [hany, isField])
        rw [hnone] at h
        obtain ⟨rfl, rfl⟩ : init = [] ∧ f = ⟨name, value ++ furtherText ls⟩ := by
          cases init <;> simp_all
        rw [hnone', furtherText_concat_continuation hany]
        simp
      | true =>
        cases init with
        | nil =>
          have hnone : occurrences ls = [] := (List.cons.inj h).2
          rw [occurrences_eq_nil_iff, hany] at hnone
          cases hnone
        | cons g init =>
          obtain ⟨rfl, hrest⟩ := List.cons.inj h
          rw [ih hrest, furtherText_append hany, List.cons_append]
    | blank | comment | continuation | bad => exact ih h

end Line

/-! ### Paragraphs -/

namespace Paragraph

theorem lastValue_concat (fs : List Field) (f : Field) (name : Text) :
    lastValue (fs ++ [f]) name = if f.name = name then f.value else lastValue fs name := by
  unfold lastValue
  rw [List.reverse_concat]
  by_cases hname : f.name = name
  · rw [if_pos hname, List.find?_cons_of_pos (by simpa using hname)]
    rfl
  · rw [if_neg hname, List.find?_cons_of_neg (by simpa using hname)]

theorem eraseDups_concat (names : List Text) (name : Text) :
    (names ++ [name]).eraseDups =
      if name ∈ names.eraseDups then names.eraseDups else names.eraseDups ++ [name] := by
  rw [List.eraseDups_append]
  by_cases hmem : name ∈ names
  · simp [hmem, List.removeAll]
  · simp [hmem, List.removeAll, List.eraseDups_cons]

/-- **Fields that are set one after the other** stand where their names occur first and have the values
that they have last. -/
theorem foldl_set_eq (fs : List Field) :
    fs.foldl (fun p f => p.set f.name f.value) {} = ofOccurrences fs ∧
      (ofOccurrences fs).names.Nodup := by
  induction fs using List.reverseRecOn with
  | nil => exact ⟨rfl, List.nodup_nil⟩
  | append_singleton fs f ih =>
    obtain ⟨ih, hnodup⟩ := ih
    have hnames : ∀ gs, (ofOccurrences gs).names = (gs.map Field.name).eraseDups := by
      simp [ofOccurrences, names, Function.comp_def]
    have hset : (ofOccurrences fs).set f.name f.value = ofOccurrences (fs ++ [f]) := by
      have hsame : ((ofOccurrences fs).set f.name f.value).names = (ofOccurrences (fs ++ [f])).names := by
        rw [names_set, hnames, hnames, List.map_append, List.map_singleton, eraseDups_concat]
      have hvalues : ∀ g ∈ ((ofOccurrences fs).set f.name f.value).fields,
          g = ⟨g.name, lastValue (fs ++ [f]) g.name⟩ := by
        intro g hg
        rw [lastValue_concat]
        rcases (mem_set_iff hnodup).mp hg with rfl | ⟨hg, hname⟩
        · rw [if_pos rfl]
        · obtain ⟨name, -, rfl⟩ := List.mem_map.mp hg
          rw [if_neg (Ne.symm hname)]
      rw [hnames] at hsame
      refine congrArg Paragraph.mk ?_
      rw [← hsame, names, List.map_map]
      exact ((List.map_congr_left fun g hg => (hvalues g hg).symm).trans (List.map_id _)).symm
    rw [List.foldl_concat, ih, hset]
    exact ⟨rfl, hset ▸ nodup_set hnodup f.name f.value⟩

theorem isEmpty_ofOccurrences (ls : List Line) :
    (ofOccurrences (Line.occurrences ls)).isEmpty = !ls.any Line.isField := by
  cases hany : ls.any Line.isField with
  | false =>
    rw [Line.occurrences_eq_nil_iff.mpr hany]
    rfl
  | true =>
    cases hfields : Line.occurrences ls with
    | nil =>
      rw [Line.occurrences_eq_nil_iff, hany] at hfields
      cases hfields
    | cons f fs =>
      simp [ofOccurrences, isEmpty, List.eraseDups_cons]

end Paragraph

/-! ### Documents -/

/-- The paragraph of a group, if there are fields in it. -/
def paragraphsOf (group : List Line) : List Paragraph :=
  if group.any Line.isField then [.ofOccurrences (Line.occurrences group)] else []

theorem ofLines_of_group {group : List Line} (h : ∀ line ∈ group, line.isBlank = false) :
    (Document.ofLines group).paragraphs = paragraphsOf group := by
  unfold Document.ofLines paragraphsOf
  rw [List.splitOnP_eq_singleton h]
  cases hany : group.any Line.isField <;> simp [hany]

theorem ofLines_group_append {group : List Line} (h : ∀ line ∈ group, line.isBlank = false)
    (ls : List Line) :
    (Document.ofLines (group ++ .blank :: ls)).paragraphs =
      paragraphsOf group ++ (Document.ofLines ls).paragraphs := by
  have hblank : Line.isBlank .blank = true := rfl
  rw [← ofLines_of_group h]
  unfold Document.ofLines
  rw [List.splitOnP_append_cons group ls hblank, List.filter_append, List.map_append]

/-- What lines come to after the lines `before`, where `done` are the paragraphs before the group that
they go on. -/
def readAfter (done : List Paragraph) (before ls : List Line) : Except ParseError Document :=
  match Line.errorAfter? before ls with
  | some e => .error e
  | none => .ok ⟨done ++ (Document.ofLines (Line.sinceBlank before ++ ls)).paragraphs⟩

section ReadAfter

variable {done : List Paragraph} {before ls : List Line} {line : Line}

/-- A line of the group that is not wrong is one more line of it. -/
theorem readAfter_cons (hblank : line.isBlank = false) (herror : line.error? before = none) :
    readAfter done before (line :: ls) = readAfter done (before ++ [line]) ls := by
  rw [readAfter, readAfter, Line.errorAfter?, herror, Option.none_or, Line.sinceBlank_concat, hblank,
    if_neg Bool.false_ne_true, List.append_assoc, List.singleton_append]

/-- A blank line ends the group. -/
theorem readAfter_blank :
    readAfter done before (.blank :: ls) =
      readAfter (done ++ paragraphsOf (Line.sinceBlank before)) (before ++ [.blank]) ls := by
  have hblank : Line.isBlank .blank = true := rfl
  rw [readAfter, readAfter, Line.errorAfter?, Line.error?, Option.none_or, Line.sinceBlank_concat,
    hblank, if_pos rfl, ofLines_group_append Line.isBlank_of_mem_sinceBlank, List.append_assoc,
    List.nil_append]

theorem readAfter_of_error {e : ParseError} (h : line.error? before = some e) :
    readAfter done before (line :: ls) = .error e := by
  rw [readAfter, Line.errorAfter?, h, Option.some_or]

end ReadAfter

/-! ### Readers -/

namespace Reader

/-- Sets fields one after the other. -/
def setFields (r : Reader) (fs : List Field) : Reader := fs.foldl (fun r f => r.setField f.name f.value) r

theorem setFields_concat (r : Reader) (fs : List Field) (f : Field) :
    r.setFields (fs ++ [f]) = (r.setFields fs).setField f.name f.value := by
  rw [setFields, List.foldl_concat, ← setFields]

theorem current_setFields (r : Reader) (fs : List Field) :
    (r.setFields fs).current = fs.foldl (fun p f => p.set f.name f.value) r.current := by
  induction fs generalizing r with
  | nil => rfl
  | cons f fs ih => exact ih (r.setField f.name f.value)

/-- Nothing else changes. -/
theorem setFields_eq (r : Reader) (fs : List Field) :
    r.setFields fs = { r with current := (r.setFields fs).current, last := (r.setFields fs).last } := by
  induction fs generalizing r with
  | nil => rfl
  | cons f fs ih => exact ih (r.setField f.name f.value)

/-- The reader before line `n`, with the lines of the group that it is in. -/
def within (done : List Paragraph) (group : List Line) (n : Nat) : Reader :=
  { ({ done } : Reader).setFields (Line.occurrences group) with line := n }

variable {done : List Paragraph} {group : List Line} {n : Nat}

theorem current_within : (within done group n).current = .ofOccurrences (Line.occurrences group) :=
  (current_setFields { done } _).trans (Paragraph.foldl_set_eq _).1

theorem done_within : (within done group n).done = done := by
  rw [within, setFields_eq]

theorem document_within : (within done group n).document = ⟨done ++ paragraphsOf group⟩ := by
  rw [Reader.document, current_within, done_within, Paragraph.isEmpty_ofOccurrences, paragraphsOf]
  cases group.any Line.isField <;> simp

/-- A blank line ends the group. -/
theorem takeLine_blank_within :
    (within done group n).takeLine .blank = .ok (within (done ++ paragraphsOf group) [] (n + 1)) := by
  have hempty := Paragraph.isEmpty_ofOccurrences group
  rw [← @current_within done group n] at hempty
  rw [takeLine, readLine, Except.map, closeParagraph, hempty, paragraphsOf]
  cases hany : group.any Line.isField with
  | true =>
    rw [current_within, done_within, within, setFields_eq]
    rfl
  | false =>
    rw [within, Line.occurrences_eq_nil_iff.mpr hany]
    simp [within, Line.occurrences, setFields]

/-- A field begins. -/
theorem takeLine_field_within (name value : Text) :
    (within done group n).takeLine (.field name value) =
      .ok (within done (group ++ [.field name value]) (n + 1)) := by
  rw [within, within, Line.occurrences_concat_field, setFields_concat]
  rfl

theorem takeLine_comment_within :
    (within done group n).takeLine .comment = .ok (within done (group ++ [.comment]) (n + 1)) := by
  rw [within, within, Line.occurrences_concat_comment]
  rfl

/-- A continuation line goes to the last field of the group, if there is one. -/
theorem takeLine_continuation_within (text : Text) :
    (within done group n).takeLine (.continuation text) =
      if group.any Line.isField then .ok (within done (group ++ [.continuation text]) (n + 1))
      else .error (.continuationWithoutField n) := by
  rcases List.eq_nil_or_concat' (Line.occurrences group) with hnone | ⟨init, f, hfields⟩
  · rw [Line.occurrences_eq_nil_iff.mp hnone, within, hnone]
    rfl
  · have hany : group.any Line.isField = true := by
      rw [← Bool.not_eq_false, ← Line.occurrences_eq_nil_iff, hfields]
      simp
    have hchange := changeValue_setField (({ done } : Reader).setFields init) f.name f.value
      (· ++ '\n' :: text)
    rw [hany, if_pos rfl, within, within, hfields, Line.occurrences_concat_continuation hfields,
      setFields_concat, setFields_concat]
    exact congrArg (fun r : Reader => Except.ok { r with line := n + 1 }) hchange

variable {before : List Line} {line : Line}

/-- A line that is not wrong is one more line of the group. -/
theorem takeLine_within (hblank : line.isBlank = false) (herror : line.error? before = none) :
    (within done (Line.sinceBlank before) n).takeLine line =
      .ok (within done (Line.sinceBlank before ++ [line]) (n + 1)) := by
  cases line with
  | blank => cases hblank
  | comment => exact takeLine_comment_within
  | field name value => exact takeLine_field_within name value
  | continuation text =>
    rw [takeLine_continuation_within]
    cases hany : (Line.sinceBlank before).any Line.isField with
    | true => rw [if_pos rfl]
    | false => simp [Line.error?, hany] at herror
  | bad text => cases herror

theorem takeLine_within_of_error {e : ParseError} (h : line.error? before = some e) :
    (within done (Line.sinceBlank before) (before.length + 1)).takeLine line = .error e := by
  cases line with
  | blank | comment | field => cases h
  | continuation text =>
    rw [takeLine_continuation_within]
    cases hany : (Line.sinceBlank before).any Line.isField with
    | true => simp [Line.error?, hany] at h
    | false =>
      rw [Line.error?, hany, if_neg Bool.false_ne_true, Option.some.injEq] at h
      rw [if_neg Bool.false_ne_true, h]
  | bad text =>
    cases h
    rfl

/-- **Taking lines** comes to what they say together with the lines of the group that they go on. -/
theorem takeLines_within (ls : List Text) (done : List Paragraph) (before : List Line) :
    ((within done (Line.sinceBlank before) (before.length + 1)).takeLines ls).map document =
      readAfter done before (ls.map fun line => .ofText (dropReturn line)) := by
  induction ls generalizing done before with
  | nil =>
    have hgroup := ofLines_of_group (@Line.isBlank_of_mem_sinceBlank before)
    rw [takeLines, Except.map, document_within, List.map_nil, readAfter, Line.errorAfter?,
      List.append_nil, hgroup]
  | cons line ls ih =>
    rw [List.map_cons, takeLines]
    generalize Line.ofText (dropReturn line) = l
    have hlength : (before ++ [l]).length + 1 = before.length + 1 + 1 := by simp
    have hsince := Line.sinceBlank_concat before l
    cases herror : l.error? before with
    | some e =>
      rw [takeLine_within_of_error herror, readAfter_of_error herror]
      rfl
    | none =>
      cases hblank : l.isBlank with
      | true =>
        obtain rfl := Line.eq_blank_of_isBlank hblank
        have hrest := ih (done ++ paragraphsOf (Line.sinceBlank before)) (before ++ [.blank])
        rw [hlength, hsince] at hrest
        rw [takeLine_blank_within, readAfter_blank]
        exact hrest
      | false =>
        have hrest := ih done (before ++ [l])
        rw [hlength, hsince, hblank, if_neg Bool.false_ne_true] at hrest
        rw [takeLine_within hblank herror, readAfter_cons hblank herror]
        exact hrest

end Reader

/-- **Reading a document** is reading it line by line. -/
theorem Document.parse_eq_readByLines (t : Text) : Document.parse t = Document.readByLines t := by
  have hstart : Reader.within [] (Line.sinceBlank []) 1 = {} := rfl
  rw [Document.parse_eq_takeLines, ← hstart, Document.readByLines]
  exact Reader.takeLines_within (t.splitOn '\n') [] []

/-- A comment does not end a field, and a field that comes again has its first place and its last
value. -/
example : Document.readByLines "A: 1\r\n# x\n y\n\nB:2\nC: 3\n# x\n 4\nB: 5\n".toList =
    .ok ⟨[⟨[⟨['A'], "1\n y".toList⟩]⟩, ⟨[⟨['B'], ['5']⟩, ⟨['C'], "3\n 4".toList⟩]⟩]⟩ := by
  decide +kernel

end Packaging.Stanza
