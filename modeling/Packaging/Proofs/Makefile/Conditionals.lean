import Packaging.Proofs.Makefile.Continuation
import Packaging.Proofs.Makefile.Reading
import Packaging.Proofs.Text.Words

/-!
# Conditionals of a makefile

The lines that open and close conditionals are the brackets of a makefile. Its other lines are none,
and recipe lines, blank lines and comments never are, whatever they look like.

## What is proved

* `nest_append`, `nest_add` — brackets are counted piece by piece, and a piece does the same inside
  conditionals that are open around it.
* `brackets_contentLines_render` — a makefile whose lines are logical lines has their brackets when it
  is written and read again.
* `keptUp_isOpen` — the reader keeps count of the conditionals that are open in the open rule.
* `isRead_of_parse` — in the body of a rule that was read no conditional is closed that was not opened
  there. One that was opened need not be closed.
-/

namespace Packaging.Makefile

open Text

/-! ### Brackets -/

/-- What a line does to the conditionals that are open. -/
inductive Bracket where
  | opening
  | closing
  deriving DecidableEq, Repr

/-- What a line does, if it does something. -/
def bracket? (line : Text) : Option Bracket :=
  if isRecipe line || Reader.isLoose line then none
  else if opensConditional line then some .opening
  else if closesConditional line then some .closing
  else none

/-- The brackets of lines, in order. -/
def brackets (ls : List Text) : List Bracket := ls.filterMap bracket?

/-- How many conditionals are open after brackets, if `n` were open before them; `none` if one is
closed that is not open. -/
def nest : Nat → List Bracket → Option Nat
  | n, [] => some n
  | n, .opening :: bs => nest (n + 1) bs
  | n + 1, .closing :: bs => nest n bs
  | 0, .closing :: _ => none

@[simp] theorem brackets_nil : brackets [] = [] := rfl

@[simp] theorem brackets_append (ls ms : List Text) : brackets (ls ++ ms) = brackets ls ++ brackets ms :=
  List.filterMap_append

theorem brackets_cons (l : Text) (ls : List Text) :
    brackets (l :: ls) = (bracket? l).toList ++ brackets ls := by
  unfold brackets
  cases h : bracket? l with
  | none => rw [List.filterMap_cons_none h]; rfl
  | some b => rw [List.filterMap_cons_some h]; rfl

theorem brackets_of_forall {ls : List Text} (h : ∀ l ∈ ls, bracket? l = none) : brackets ls = [] :=
  List.filterMap_eq_nil_iff.mpr h

theorem brackets_singleton_of_none {line : Text} (h : bracket? line = none) : brackets [line] = [] :=
  brackets_of_forall (List.forall_mem_singleton.mpr h)

section

variable {line : Text}

theorem bracket?_of_text (h : (isRecipe line || Reader.isLoose line) = true) : bracket? line = none := by
  rw [bracket?, if_pos h]

theorem bracket?_of_isLoose (h : Reader.isLoose line = true) : bracket? line = none :=
  bracket?_of_text (by rw [h, Bool.or_true])

theorem bracket?_of_opens (htext : (isRecipe line || Reader.isLoose line) = false)
    (hopens : opensConditional line = true) : bracket? line = some .opening := by
  simp [bracket?, htext, hopens]

theorem bracket?_of_closes (htext : (isRecipe line || Reader.isLoose line) = false)
    (hopens : opensConditional line = false) (hcloses : closesConditional line = true) :
    bracket? line = some .closing := by
  simp [bracket?, htext, hopens, hcloses]

theorem bracket?_of_neither (hopens : opensConditional line = false)
    (hcloses : closesConditional line = false) : bracket? line = none := by
  simp [bracket?, hopens, hcloses]

end

/-- Brackets are counted piece by piece. -/
theorem nest_append (n : Nat) (as bs : List Bracket) :
    nest n (as ++ bs) = (nest n as).bind (nest · bs) := by
  fun_induction nest n as with
  | case1 n => rfl
  | case2 n as ih => exact ih
  | case3 n as ih => exact ih
  | case4 as => rfl

/-- Brackets do the same inside conditionals that are open around them. -/
theorem nest_add {n m : Nat} {bs : List Bracket} (h : nest n bs = some m) (k : Nat) :
    nest (n + k) bs = some (m + k) := by
  fun_induction nest n bs with
  | case1 n =>
    cases h
    rfl
  | case2 n bs ih =>
    have hstep := ih h
    rwa [Nat.add_right_comm] at hstep
  | case3 n bs ih =>
    have hstep : nest (n + k + 1) (.closing :: bs) = nest (n + k) bs := rfl
    rw [Nat.succ_add, hstep]
    exact ih h
  | case4 bs => cases h

/-! ### Texts -/

/-- The logical lines of a text, whether or not its last newline is there. -/
def contentLines (t : Text) : List Text := logicalLines ((dropEnd? ['\n'] t).getD t)

/-- Every conditional of the text is closed after it was opened. -/
def IsBalanced (t : Text) : Prop := nest 0 (brackets (contentLines t)) = some 0

instance (t : Text) : Decidable (IsBalanced t) :=
  inferInstanceAs (Decidable (nest 0 (brackets (contentLines t)) = some 0))

theorem startsWith_singleton_cons (c d : Char) (t : Text) : startsWith [c] (d :: t) = (c == d) := by
  simp [startsWith, List.isPrefixOf]

theorem startsWith_singleton_append {c : Char} {t u : Text} (hu : startsWith [c] u = false) :
    startsWith [c] (t ++ u) = startsWith [c] t := by
  cases t with
  | nil => exact hu
  | cons d t => rw [List.cons_append, startsWith_singleton_cons, startsWith_singleton_cons]

/-- A newline at the end of a line changes nothing about what it is. -/
theorem bracket?_append_newline (line : Text) : bracket? (line ++ ['\n']) = bracket? line := by
  have hnewline : isBlank '\n' = true := by decide
  have hrecipe : isRecipe (line ++ ['\n']) = isRecipe line := startsWith_singleton_append (by decide)
  have hwords : firstWord (line ++ ['\n']) = firstWord line := by
    rw [firstWord, words_append_blank hnewline, words_nil, List.append_nil, firstWord]
  have hcomment : isComment (line ++ ['\n']) = isComment line := by
    rw [isComment, isComment, hrecipe, trimStart, trimStartOf, List.dropWhile_append]
    split
    · rename_i hempty
      rw [trimStart, trimStartOf, List.isEmpty_iff.mp hempty]
      rfl
    · rw [startsWith_singleton_append (by decide)]
      rfl
  have hloose : Reader.isLoose (line ++ ['\n']) = Reader.isLoose line := by
    rw [Reader.isLoose, Reader.isLoose, hcomment]
    simp [isBlankLine, hnewline]
  rw [bracket?, bracket?, hrecipe, hloose, opensConditional, opensConditional, closesConditional,
    closesConditional, hwords]

/-- With one more newline the last line is followed by an empty one, or goes on with it. -/
theorem joinContinued_concat_nil {ls : List Text} (hne : ls ≠ []) :
    joinContinued (ls ++ [[]]) = joinContinued ls ++ [[]] ∨
      ∃ init last, joinContinued ls = init ++ [last] ∧
        joinContinued (ls ++ [[]]) = init ++ [last ++ ['\n']] := by
  cases hend : ls.getLast?.any isContinued with
  | false => exact .inl (joinContinued_append hend [[]])
  | true =>
    right
    induction ls with
    | nil => exact absurd rfl hne
    | cons l ls ih =>
      cases ls with
      | nil =>
        have hl : isContinued l = true := by simpa using hend
        exact ⟨[], l, joinContinued_singleton l, joinContinued_of_isContinued hl (joinContinued_singleton [])⟩
      | cons l' ls =>
        obtain ⟨init, last, hlast, hnext⟩ := ih (by simp) (by simpa using hend)
        rw [List.cons_append]
        cases hl : isContinued l with
        | false =>
          rw [joinContinued_of_not_isContinued hl, joinContinued_of_not_isContinued hl, hlast, hnext]
          exact ⟨l :: init, last, rfl, rfl⟩
        | true =>
          cases init with
          | nil =>
            rw [joinContinued_of_isContinued hl hlast, joinContinued_of_isContinued hl hnext]
            exact ⟨[], l ++ '\n' :: last, rfl, by simp⟩
          | cons i init =>
            rw [joinContinued_of_isContinued hl hlast, joinContinued_of_isContinued hl hnext]
            exact ⟨(l ++ '\n' :: i) :: init, last, rfl, rfl⟩

theorem brackets_logicalLines_append_newline (t : Text) :
    brackets (logicalLines (t ++ ['\n'])) = brackets (logicalLines t) := by
  have hpieces : (t ++ ['\n']).splitOn '\n' = t.splitOn '\n' ++ [[]] :=
    splitOn_append_newline t (by simp)
  have hempty : bracket? [] = none := by decide
  rw [logicalLines, logicalLines, hpieces]
  rcases joinContinued_concat_nil (List.splitOn_ne_nil '\n' t) with h | ⟨init, last, hlast, h⟩
  · rw [h, brackets_append, brackets_singleton_of_none hempty, List.append_nil]
  · rw [h, hlast, brackets_append, brackets_append, brackets_cons, brackets_cons, bracket?_append_newline]

/-- A makefile that is written and read again has the brackets of its lines. -/
theorem brackets_contentLines_render {mk : Makefile} (h : AllLogical mk.lines) :
    brackets (contentLines mk.render) = brackets mk.lines := by
  have hempty : bracket? [] = none := by decide
  rw [contentLines, render]
  by_cases hne : mk.lines = []
  · rw [hne]
    exact brackets_of_forall (by simpa [join, dropEnd?, dropStart?, logicalLines, joinContinued] using hempty)
  · have hlines : mk.lines.isEmpty = false := by simpa using hne
    rw [hlines, Bool.false_or]
    cases mk.lacksFinalNewline with
    | false =>
      have hbody : dropEnd? ['\n'] (join ['\n'] mk.lines ++ ['\n']) = some (join ['\n'] mk.lines) :=
        dropEnd?_eq_some_iff.mpr rfl
      simp only [Bool.false_eq_true, if_false, hbody, Option.getD_some]
      rw [logicalLines_join h hne]
    | true =>
      simp only [if_true, List.append_nil]
      cases hend : dropEnd? ['\n'] (join ['\n'] mk.lines) with
      | none => rw [Option.getD_none, logicalLines_join h hne]
      | some body =>
        rw [Option.getD_some, ← brackets_logicalLines_append_newline,
          ← dropEnd?_eq_some_iff.mp hend, logicalLines_join h hne]

/-! ### Rules -/

namespace Rule

/-- All conditionals that are opened in the body of the rule are closed there. -/
def EndsConditionals (r : Rule) : Prop := nest 0 (brackets r.body) = some 0

instance (r : Rule) : Decidable r.EndsConditionals :=
  inferInstanceAs (Decidable (nest 0 (brackets r.body) = some 0))

/-- What is known of a rule that was read: its parts are those of its header, the lines before it are
comments, and in its body no conditional is closed that was not opened there. -/
structure IsRead (r : Rule) : Prop where
  header : isRuleHeader r.header = true
  targets : r.targets = (ofHeader r.header).targets
  prerequisites : r.prerequisites = (ofHeader r.header).prerequisites
  precomment : ∀ l ∈ r.precomment, isComment l = true
  body : ∃ depth, nest 0 (brackets r.body) = some depth

variable {r : Rule} {depth depth' : Nat} {line : Text}

theorem IsRead.withBody (hr : r.IsRead) {body : List Text} (h : nest 0 (brackets body) = some depth) :
    IsRead { r with body } :=
  ⟨hr.header, hr.targets, hr.prerequisites, hr.precomment, depth, h⟩

/-- What is known of a rule while it is read, with so many conditionals open in it. -/
structure IsOpen (r : Rule) (depth : Nat) : Prop extends r.IsRead where
  depth : nest 0 (brackets r.body) = some depth

/-- A line that the rule takes is counted. -/
theorem IsOpen.addLine (h : r.IsOpen depth) (hline : nest depth (bracket? line).toList = some depth') :
    (r.addLine line).IsOpen depth' := by
  have hbody : nest 0 (brackets (r.body ++ [line])) = some depth' := by
    rw [brackets_append, nest_append, h.depth, brackets_cons, brackets_nil, List.append_nil]
    exact hline
  exact ⟨h.withBody hbody, hbody⟩

end Rule

/-- **The depth that a reader keeps** is that of the conditionals that are opened in the open rule. -/
theorem keptUp_isOpen : Reader.KeptUp Rule.IsOpen where
  opened header comment hheader hcomment :=
    ⟨⟨hheader, rfl, rfl, fun l hl => (Bool.and_eq_true _ _ ▸ hcomment l hl).1, 0, rfl⟩, rfl⟩
  text r depth line h htext := by
    apply h.addLine
    rw [bracket?_of_text htext]
    rfl
  opening r depth line h htext hopens := by
    apply h.addLine
    rw [bracket?_of_opens htext hopens]
    rfl
  middle r depth line h _ hopens _ hcloses := by
    apply h.addLine
    rw [bracket?_of_neither hopens hcloses]
    rfl
  closing r depth line h htext hopens hcloses := by
    apply h.addLine
    rw [bracket?_of_closes htext hopens hcloses]
    rfl

/-- Only loose lines are taken off the end of a body, and they are no brackets. -/
theorem brackets_firmPart (body : List Text) : brackets (Reader.firmPart body) = brackets body := by
  have hloose : brackets (body.rtakeWhile Reader.isLoose) = [] :=
    brackets_of_forall fun l hl => bracket?_of_isLoose (List.mem_rtakeWhile_imp hl)
  calc brackets (Reader.firmPart body)
      = brackets (Reader.firmPart body) ++ brackets (body.rtakeWhile Reader.isLoose) := by
        rw [hloose, List.append_nil]
    _ = brackets body := by
        rw [← brackets_append, Reader.firmPart, List.rdropWhile_append_rtakeWhile]

/-- In a rule that was read no conditional is closed that was not opened in it. -/
theorem isRead_of_parse (t : Text) : ∀ r, .rule r ∈ (parse t).entries → r.IsRead := by
  intro r hr
  obtain ⟨whole, depth, hwhole, rfl⟩ := exists_whole_of_parse keptUp_isOpen t r hr
  have hfirm : nest 0 (brackets (Reader.firmPart whole.body)) = some depth := by
    rw [brackets_firmPart]
    exact hwhole.depth
  exact hwhole.withBody hfirm

/-- A text is read into entries with its logical lines. -/
theorem linesOf_parse {t : Text} (h : t ≠ []) : linesOf (parse t).entries = contentLines t := by
  have hempty : t.isEmpty = false := by simpa using h
  rw [parse, hempty, contentLines]
  cases hend : dropEnd? ['\n'] t with
  | none => exact (entries_closeRule (logicalLines t)).1
  | some body => exact (entries_closeRule (logicalLines body)).1

theorem allLogical_linesOf_parse (t : Text) : AllLogical (linesOf (parse t).entries) := by
  by_cases h : t = []
  · rw [h]
    exact allLogical_nil
  · rw [linesOf_parse h]
    exact allLogical_logicalLines _

theorem brackets_linesOf_parse (t : Text) :
    brackets (linesOf (parse t).entries) = brackets (contentLines t) := by
  by_cases h : t = []
  · rw [h]
    decide
  · rw [linesOf_parse h]

end Packaging.Makefile
