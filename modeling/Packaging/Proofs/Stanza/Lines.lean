import Packaging.Proofs.Text.Split
import Packaging.Stanza.Parser

/-!
# Stanza files, line by line

The reader of a stanza file goes over tokens. Here it is read by lines: a `Line` is what a line of the
file is as a whole, and `Reader.takeLine` is what taking it comes to.

## What is proved

* `runsTo_ofLineWithReturn` — taking the tokens of a line and its newline is taking the line.
* `parse_eq_takeLines` — so reading a text is taking its lines, each without one carriage return at
  its end.
-/

namespace Packaging.Stanza

open Text

/-! ### Lines -/

/-- What a line is, as a whole. -/
inductive Line where
  /-- A line of white space. -/
  | blank
  /-- A line that begins with `#`. -/
  | comment
  /-- An indented line, with its indent. -/
  | continuation (text : Text)
  /-- A name and the text after the colon. -/
  | field (name value : Text)
  /-- Any other line. -/
  | bad (text : Text)
  deriving DecidableEq, Repr

/-- What a line is that begins with no white space and no `#`. -/
def Line.ofUnindented (line : Text) : Line :=
  match cut? ':' line with
  | some (name, text) =>
    if Token.isKey name then .field name (text.dropWhile isIndent) else .bad line
  | none => .bad line

/-- What a line without its line break is. -/
def Line.ofText (line : Text) : Line :=
  if isBlankLine line then .blank
  else if startsWith ['#'] line then .comment
  else if line.head?.any isIndent then .continuation line
  else .ofUnindented line

namespace Reader

/-- Ends the paragraph, if there is one. -/
def closeParagraph (r : Reader) : Reader :=
  if r.current.isEmpty then r
  else { r with done := r.done ++ [r.current], current := {}, last := none }

/-- Changes the value of the field at an index, and nothing else. -/
def changeValue (r : Reader) (index : Nat) (change : Text → Text) : Reader :=
  { r with
    current := ⟨r.current.fields.modify index fun f => { f with value := change f.value }⟩ }

/-- Gives a field of the paragraph a value, and makes it the one that is continued. -/
def setField (r : Reader) (name value : Text) : Reader :=
  { r with
    current := r.current.set name value
    last := some ((r.current.fields.findIdx? (·.name == name)).getD r.current.size) }

/-- Takes a line, apart from its number. -/
def readLine (r : Reader) : Line → Except ParseError Reader
  | .blank => .ok r.closeParagraph
  | .comment => .ok r
  | .continuation text =>
    match r.last with
    | none => .error (.continuationWithoutField r.line)
    | some i => .ok (r.changeValue i (· ++ '\n' :: text))
  | .field name value => .ok (r.setField name value)
  | .bad text => .error (.missingColon r.line text)

/-- Takes a line. -/
def takeLine (r : Reader) (line : Line) : Except ParseError Reader :=
  (r.readLine line).map fun r' => { r' with line := r.line + 1 }

/-- Takes lines one after the other, up to the first error. -/
def takeLines (r : Reader) : List Text → Except ParseError Reader
  | [] => .ok r
  | line :: lines =>
    match r.takeLine (.ofText (dropReturn line)) with
    | .ok r' => takeLines r' lines
    | .error e => .error e

/-! ### Fields -/

theorem modify_concat (fs : List Field) (f : Field) (change : Field → Field) :
    (fs ++ [f]).modify fs.length change = fs ++ [change f] := by
  simp [List.modify_eq_take_drop]

/-- The first field of a name is the one that is found by its index. -/
theorem modify_updateFirst {name : Text} {fs : List Field} {change change' : Field → Field}
    {i : Nat} (hi : fs.findIdx? (·.name == name) = some i) :
    (Paragraph.updateFirst name change fs).modify i change' =
      Paragraph.updateFirst name (change' ∘ change) fs := by
  induction fs generalizing i with
  | nil => simp at hi
  | cons f fs ih =>
    by_cases h : f.name == name
    · simp only [List.findIdx?_cons, h, if_true, Option.some.injEq] at hi
      subst hi
      simp [Paragraph.updateFirst, h]
    · simp only [List.findIdx?_cons, h, Bool.false_eq_true, if_false, Option.map_eq_some_iff] at hi
      obtain ⟨j, hj, rfl⟩ := hi
      simp [Paragraph.updateFirst, h, ih hj]

/-- A field that gets a value and then has it changed has the changed value. -/
theorem changeValue_setField (r : Reader) (name value : Text) (change : Text → Text) :
    (r.setField name value).changeValue
        ((r.current.fields.findIdx? (·.name == name)).getD r.current.size) change =
      r.setField name (change value) := by
  unfold setField changeValue Paragraph.set Paragraph.contains
  cases hi : r.current.fields.findIdx? (·.name == name) with
  | none =>
    have hany : r.current.fields.any (·.name == name) = false := by
      simpa [List.findIdx?_eq_none_iff] using hi
    simp [hany, Paragraph.size, modify_concat]
  | some i =>
    have hany : r.current.fields.any (·.name == name) = true := by
      rw [List.any_eq_true]
      obtain ⟨hlt, hname, -⟩ := List.findIdx?_eq_some_iff_getElem.mp hi
      exact ⟨_, List.getElem_mem hlt, hname⟩
    simp only [hany, if_true, Option.getD_some, modify_updateFirst hi]
    rfl

/-! ### Tokens -/

/-- The reader is at the start of a line. -/
def AtStart (r : Reader) : Prop := r.blank = true ∧ r.expecting = .anything

theorem atStart_empty : AtStart {} := ⟨rfl, rfl⟩

theorem run_append (ts us : List Token) : ∀ r : Reader,
    r.run (ts ++ us) = (r.run ts).bind (·.run us) := by
  induction ts with
  | nil => intro r; rfl
  | cons t ts ih =>
    intro r
    rw [List.cons_append, run, run]
    cases r.step t with
    | error e => rfl
    | ok r' => exact ih r'

/-- `s` has the tokens of a line, and the end of this line makes it `r`. -/
structure Ends (s r : Reader) : Prop where
  endLine : s.endLine = r
  document : s.document = r.document
  notColon : ∀ i, s.expecting ≠ .colon i

/-- Some state has read tokens from `r`, and the end of the line makes of it what is expected; or the
expected error came up. -/
def RunsTo (r : Reader) (ts : List Token) : Except ParseError Reader → Prop
  | .ok r' => ∃ s, r.run ts = .ok s ∧ Ends s r'
  | .error e => r.run ts = .error e

variable {r : Reader}

/-- The end of a line that has nothing on it ends the paragraph. -/
theorem ends_of_atStart (hr : r.AtStart) : Ends r { r.closeParagraph with line := r.line + 1 } := by
  obtain ⟨done, current, last, line, blank, expecting⟩ := r
  obtain ⟨rfl, rfl⟩ : blank = true ∧ expecting = .anything := hr
  by_cases h : current.isEmpty = true
  · exact ⟨by simp [endLine, closeParagraph, h], by simp [Reader.document, closeParagraph, h], by simp⟩
  · exact ⟨by simp [endLine, closeParagraph, h],
      by simp [Reader.document, closeParagraph, h, show ({} : Paragraph).isEmpty = true from rfl],
      by simp⟩

/-- The reader in a line that has something on it. -/
def busy (r : Reader) (expecting : Expectation) : Reader := { r with blank := false, expecting }

/-- The end of a line that has something on it leaves the paragraph open. -/
theorem ends_busy (hr : r.AtStart) {e : Expectation} (he : ∀ i, e ≠ .colon i) :
    Ends (r.busy e) { r with line := r.line + 1 } := by
  obtain ⟨done, current, last, n, blank, expecting⟩ := r
  obtain ⟨rfl, rfl⟩ : blank = true ∧ expecting = .anything := hr
  exact ⟨by simp [busy, endLine], rfl, he⟩

@[simp] theorem anything_ne_colon (i : Nat) : Expectation.anything ≠ .colon i := by simp

@[simp] theorem value_ne_colon (i j : Nat) : Expectation.value i ≠ .colon j := by simp

theorem runsTo_blank (hr : r.AtStart) (line : Text) :
    r.RunsTo (if line.isEmpty then [] else [⟨.whitespace, line⟩]) (r.takeLine .blank) := by
  refine ⟨r, ?_, ends_of_atStart hr⟩
  obtain ⟨done, current, last, n, blank, expecting⟩ := r
  obtain ⟨rfl, rfl⟩ : blank = true ∧ expecting = .anything := hr
  split <;> rfl

theorem runsTo_comment (hr : r.AtStart) (line : Text) :
    r.RunsTo [⟨.comment, line⟩] (r.takeLine .comment) :=
  ⟨r.busy .anything, by simp [run, step, hr.2, begin, busy], ends_busy hr anything_ne_colon⟩

theorem runsTo_bad (hr : r.AtStart) (line : Text) :
    r.RunsTo [⟨.error, line⟩] (r.takeLine (.bad line)) := by
  simp [takeLine, readLine, Except.map, RunsTo, run, step, hr.2, begin]

theorem changeValue_changeValue (r : Reader) (i : Nat) (f g : Text → Text) :
    (r.changeValue i f).changeValue i g = r.changeValue i (g ∘ f) := by
  simp [changeValue, List.modify_modify_eq, Function.comp_def]

/-- The indent and the rest of a continuation line go to the value together. -/
theorem runsTo_continuation (hr : r.AtStart) (line : Text) :
    r.RunsTo [⟨.indent, line.takeWhile isIndent⟩, ⟨.value, line.dropWhile isIndent⟩]
      (r.takeLine (.continuation line)) := by
  unfold takeLine readLine
  cases hlast : r.last with
  | none => simp [Except.map, RunsTo, run, step, hr.2, begin, hlast]
  | some i =>
    have hindent : r.step ⟨.indent, line.takeWhile isIndent⟩ =
        .ok ((r.changeValue i (· ++ '\n' :: line.takeWhile isIndent)).busy (.continuation i)) := by
      simp only [step, hr.2, begin, hlast]
      rfl
    have hline : (· ++ line.dropWhile isIndent) ∘ (· ++ '\n' :: line.takeWhile isIndent) =
        (· ++ '\n' :: line) := by
      funext value
      simp [List.takeWhile_append_dropWhile]
    refine ⟨(r.changeValue i (· ++ '\n' :: line)).busy .anything, ?_,
      ends_busy (r := r.changeValue i (· ++ '\n' :: line)) hr anything_ne_colon⟩
    rw [run, hindent, ← hline, ← changeValue_changeValue]
    rfl

/-- The name and the colon of a field start it with an empty value. -/
theorem run_fieldStart (hr : r.AtStart) (name : Text) (ts : List Token) :
    r.run (⟨.key, name⟩ :: ⟨.colon, [':']⟩ :: ts) =
      ((r.setField name []).busy
        (.value ((r.current.fields.findIdx? (·.name == name)).getD r.current.size))).run ts := by
  rw [run]
  simp only [step, hr.2, begin]
  rfl

/-- White space after the colon of a field is passed over. -/
theorem run_fieldSpace (r : Reader) (i : Nat) (space : Text) (ts : List Token) :
    (r.busy (.value i)).run (Token.ofNonempty .whitespace space ++ ts) =
      (r.busy (.value i)).run ts := by
  unfold Token.ofNonempty
  split <;> rfl

/-- The tokens of a field give it its value, which is empty if there is no token for one. -/
theorem runsTo_field (hr : r.AtStart) (name text : Text) :
    r.RunsTo (⟨.key, name⟩ :: ⟨.colon, [':']⟩ :: Token.ofFieldText text)
      (r.takeLine (.field name (text.dropWhile isIndent))) := by
  simp only [RunsTo, takeLine, readLine, Except.map]
  rw [run_fieldStart hr, Token.ofFieldText, run_fieldSpace]
  by_cases hvalue : text.dropWhile isIndent = []
  · rw [hvalue]
    exact ⟨_, rfl, ends_busy (r := r.setField name []) hr (value_ne_colon _)⟩
  · refine ⟨(r.setField name (text.dropWhile isIndent)).busy .anything, ?_,
      ends_busy (r := r.setField name (text.dropWhile isIndent)) hr anything_ne_colon⟩
    rw [← changeValue_setField r name [] fun _ => text.dropWhile isIndent, Token.ofNonempty,
      if_neg (by simpa using hvalue)]
    rfl

/-- Reading the tokens of a line is taking the line, up to its end. -/
theorem runsTo_ofLine (hr : r.AtStart) (line : Text) :
    r.RunsTo (Token.ofLine line) (r.takeLine (.ofText line)) := by
  unfold Token.ofLine Line.ofText
  by_cases hempty : line.isEmpty
  · rw [List.isEmpty_iff.mp hempty]
    exact runsTo_blank hr []
  rw [if_neg hempty]
  split
  · simpa [hempty] using runsTo_blank hr line
  split
  · exact runsTo_comment hr line
  split
  · exact runsTo_continuation hr line
  unfold Line.ofUnindented
  cases cut? ':' line with
  | none => exact runsTo_bad hr line
  | some parts =>
    obtain ⟨name, text⟩ := parts
    by_cases hkey : Token.isKey name
    · simpa [hkey] using runsTo_field hr name text
    · simpa [hkey] using runsTo_bad hr line

/-! ### Line breaks -/

/-- White space after the tokens of a line changes nothing that the end of the line looks at. -/
theorem ends_whitespace {s : Reader} (hs : Ends s r) (text : Text) :
    ∃ s', s.run [⟨.whitespace, text⟩] = .ok s' ∧ Ends s' r := by
  obtain ⟨hend, hdoc, hcolon⟩ := hs
  cases he : s.expecting with
  | colon i => exact absurd he (hcolon i)
  | value i => exact ⟨s, by simp [run, step, he], hend, hdoc, hcolon⟩
  | anything | continuation i =>
    refine ⟨{ s with expecting := .anything }, by simp [run, step, he, begin], ?_, ?_, by simp⟩
    · rw [← hend]; rfl
    · rw [← hdoc]; rfl

theorem runsTo_ofLineWithReturn (hr : r.AtStart) (line : Text) :
    r.RunsTo (Token.ofLineWithReturn line) (r.takeLine (.ofText (dropReturn line))) := by
  unfold Token.ofLineWithReturn
  cases hreturn : dropEnd? ['\r'] line with
  | none =>
    rw [dropEnd?_return_eq_none hreturn]
    exact runsTo_ofLine hr line
  | some body =>
    rw [dropReturn_eq_of_dropEnd? hreturn]
    have h := runsTo_ofLine hr body
    cases htake : r.takeLine (.ofText body) with
    | error e =>
      rw [htake] at h
      simp only [RunsTo] at h ⊢
      rw [run_append, h]
      rfl
    | ok r' =>
      rw [htake] at h
      obtain ⟨s, hrun, hends⟩ := h
      obtain ⟨s', hrun', hends'⟩ := ends_whitespace hends ['\r']
      refine ⟨s', ?_, hends'⟩
      rw [run_append, hrun]
      exact hrun'

theorem run_newline {s : Reader} (hs : Ends s r) (ts : List Token) :
    s.run (⟨.newline, ['\n']⟩ :: ts) = r.run ts := by
  rw [run]
  cases he : s.expecting with
  | colon i => exact absurd he (hs.notColon i)
  | anything | value i | continuation i => simp [step, he, begin, hs.endLine]

/-- Taking a line ends at the start of the next one. -/
theorem AtStart.takeLine (hr : r.AtStart) {line : Line} {r' : Reader}
    (h : r.takeLine line = .ok r') : r'.AtStart := by
  unfold Reader.takeLine at h
  cases line with
  | blank =>
    cases h
    unfold AtStart closeParagraph
    split <;> exact hr
  | comment | field => cases h; exact hr
  | continuation text =>
    cases hlast : r.last with
    | none => simp [readLine, hlast, Except.map] at h
    | some i => simp only [readLine, hlast, Except.map, Except.ok.injEq] at h; subst h; exact hr
  | bad text => simp [readLine, Except.map] at h

/-- Reading the tokens of lines is taking the lines. -/
theorem run_ofLines (ls : List Text) : ∀ {r : Reader}, r.AtStart →
    ((r.run (Token.ofLines ls)).map Reader.document) = (r.takeLines ls).map Reader.document := by
  induction ls with
  | nil => intro r _; rfl
  | cons line ls ih =>
    intro r hr
    have h := runsTo_ofLineWithReturn hr line
    rw [takeLines]
    cases htake : r.takeLine (.ofText (dropReturn line)) with
    | error e =>
      rw [htake] at h
      simp only [RunsTo] at h
      cases ls with
      | nil => simp [Token.ofLines, h]
      | cons l ls => simp [Token.ofLines, run_append, h, Except.bind]
    | ok r' =>
      rw [htake] at h
      obtain ⟨s, hrun, hends⟩ := h
      cases ls with
      | nil => simp [Token.ofLines, hrun, takeLines, Except.map, hends.document]
      | cons l ls =>
        simp only [Token.ofLines, run_append, hrun, Except.bind, run_newline hends]
        exact ih (hr.takeLine htake)

end Reader

/-- **Reading a text is taking its lines**, each without one carriage return at its end. -/
theorem Document.parse_eq_takeLines (t : Text) :
    Document.parse t = (Reader.takeLines {} (t.splitOn '\n')).map Reader.document := by
  rw [← Reader.run_ofLines _ Reader.atStart_empty]
  unfold Document.parse Token.ofText
  cases Reader.run {} (Token.ofLines (t.splitOn '\n')) <;> rfl

end Packaging.Stanza
