import Mathlib.Logic.Relation
import Packaging.Proofs.WatchFile.Lines

/-!
# Folded lines of a watch file

From version 4 on, a line behind the version line can be broken before any character that is not white
space: a backslash is put at its end, and the next line is indented at will. The reader puts the two lines
together again before it looks at quotes, blanks or a `#`.

## What is proved

* `Joiner.feed_feed_fold` — a reader is after the two lines where it would be after the one.
* `Joiner.version_foldl` — behind the first logical line the version stays.
* `logicalLines_of_folds`, `parse_of_folds` — so a folded text is read like the text itself, or refused with
  the same error, however often it is folded.
-/

namespace Packaging.WatchFile

open Text Relation

variable {a b s t t' ws : Text} {j : Joiner}

/-- The text begins with a character that is not white space. -/
def BeginsSolid (t : Text) : Prop := ∃ c rest, t = c :: rest ∧ isBlank c = false

namespace BeginsSolid

theorem ne_nil (h : BeginsSolid b) : b ≠ [] := by
  obtain ⟨c, rest, rfl, -⟩ := h
  exact List.cons_ne_nil c rest

/-- The character is kept where a carriage return at the end goes. -/
theorem dropReturn_eq (h : BeginsSolid b) :
    ∃ c rest rest', b = c :: rest ∧ Text.dropReturn b = c :: rest' ∧ isBlank c = false := by
  obtain ⟨c, rest, rfl, hc⟩ := h
  cases rest with
  | nil =>
    have hne : [c].getLast? ≠ some '\r' := by
      intro heq
      cases heq
      exact absurd hc (by decide)
    exact ⟨c, [], [], rfl, dropReturn_eq_self hne, hc⟩
  | cons d rest => exact ⟨c, d :: rest, _, rfl, dropReturn_cons c (List.cons_ne_nil d rest), hc⟩

theorem dropReturn (h : BeginsSolid b) : BeginsSolid (dropReturn b) := by
  obtain ⟨c, -, rest, -, heq, hc⟩ := h.dropReturn_eq
  exact ⟨c, rest, heq, hc⟩

theorem trimStart_append (h : BeginsSolid b) (a : Text) : trimStart (a ++ b) = trimStart a ++ b := by
  obtain ⟨c, rest, rfl, hc⟩ := h
  have hrest : (c :: rest).dropWhile isBlank = c :: rest := dropWhile_eq_self (by simp [hc])
  rw [trimStart, trimStartOf, List.dropWhile_append, hrest, trimStart, trimStartOf]
  split
  · rename_i hnil
    rw [List.isEmpty_iff.mp hnil, List.nil_append]
  · rfl

theorem isBlankLine_append (h : BeginsSolid b) (a : Text) : isBlankLine (a ++ b) = false := by
  obtain ⟨c, rest, rfl, hc⟩ := h
  exact List.all_eq_false.mpr ⟨c, by simp, by simp [hc]⟩

end BeginsSolid

/-! ### The reader -/

namespace Joiner

theorem beginsSolid_backslash : BeginsSolid ['\\'] := ⟨'\\', [], rfl, by decide⟩

/-- What the line is put behind: the pending line, and the line itself up to a solid part. -/
def start (j : Joiner) (a : Text) : Text :=
  match j.pending with
  | some p => p ++ if j.dropsIndent then trimStart a else a
  | none => a

theorem joined_append (hb : BeginsSolid b) (a : Text) : j.joined (a ++ b) = j.start a ++ b := by
  unfold joined start
  cases j.pending with
  | none => rfl
  | some p =>
    dsimp only
    split
    · rw [hb.trimStart_append, List.append_assoc]
    · rw [List.append_assoc]

/-- The first part of a folded line is not passed over if the line was not. -/
theorem isSkipped_backslash (hb : BeginsSolid b) (h : isSkipped (a ++ b) = false) :
    isSkipped (a ++ ['\\']) = false := by
  rw [isSkipped, hb.isBlankLine_append, Bool.or_false] at h
  rw [isSkipped, beginsSolid_backslash.isBlankLine_append, Bool.or_false]
  cases a with
  | nil => rfl
  | cons c a => exact h

/-- The line is taken: it continues another one, or is neither a comment nor blank. -/
def Takes (j : Joiner) (line : Text) : Prop := j.pending.isSome = true ∨ isSkipped line = false

theorem feed_of_takes {line : Text} (h : j.Takes line) :
    j.feed line = match dropEnd? ['\\'] (trimEnd (j.joined line)) with
      | some start => { j with pending := some start }
      | none => j.push (j.joined line) := by
  have htaken : (j.pending.isNone && isSkipped line) = false := by
    rcases h with h | h
    · rw [← Option.not_isSome, h]
      rfl
    · rw [h, Bool.and_false]
  rw [feed, htaken]
  rfl

theorem feed_backslash (h : j.Takes (a ++ ['\\'])) :
    j.feed (a ++ ['\\']) = { j with pending := some (j.start a) } := by
  have htrim : trimEnd (j.start a ++ ['\\']) = j.start a ++ ['\\'] :=
    trimEnd_eq_self (by rw [List.getLast?_concat]; decide)
  rw [feed_of_takes h, joined_append beginsSolid_backslash, htrim, dropEnd?_eq_some_iff.mpr rfl]

/-- **A folded line** leaves the reader where the line does. -/
theorem feed_feed_fold (hdrops : j.dropsIndent = true) (hb : BeginsSolid b)
    (hws : ∀ c ∈ ws, isBlank c = true) (h : j.Takes (a ++ b)) :
    (j.feed (a ++ ['\\'])).feed (ws ++ b) = j.feed (a ++ b) := by
  have hfirst : j.Takes (a ++ ['\\']) := h.imp_right (isSkipped_backslash hb)
  have hstart : start { j with pending := some (j.start a) } ws = j.start a := by
    have hdrops' : dropsIndent { j with pending := some (j.start a) } = true := hdrops
    have hnil : trimStart ws = [] := List.dropWhile_eq_nil_iff.mpr hws
    rw [start]
    dsimp only
    rw [if_pos hdrops', hnil, List.append_nil]
  rw [feed_backslash hfirst, feed_of_takes h, feed_of_takes (.inl rfl), joined_append hb, joined_append hb,
    hstart]
  rfl

/-- A carriage return behind a solid part does not matter to what is taken. -/
theorem takes_dropReturn (hb : BeginsSolid b) (h : j.Takes (a ++ b)) : j.Takes (a ++ dropReturn b) := by
  refine h.imp_right fun h => ?_
  rw [isSkipped, hb.isBlankLine_append, Bool.or_false] at h
  rw [isSkipped, hb.dropReturn.isBlankLine_append, Bool.or_false]
  obtain ⟨c, rest, rest', rfl, heq, -⟩ := hb.dropReturn_eq
  rw [heq]
  cases a <;> exact h

/-- Behind the first logical line the version stays. -/
theorem version_foldl (hne : j.lines ≠ []) (ls : List Text) : (ls.foldl feed j).version = j.version := by
  induction ls generalizing j with
  | nil => rfl
  | cons l ls ih =>
    have hstep : (j.feed l).version = j.version := by
      unfold feed
      split
      · rfl
      · dsimp only
        split
        · rfl
        · exact version_push hne _
    have hkept : (j.feed l).lines ≠ [] := fun hnil =>
      hne (List.prefix_nil.mp (hnil ▸ lines_prefix_foldl j [l]))
    rw [List.foldl_cons, ih hkept, hstep]

/-- The reader behind a text. -/
def after (t : Text) : Joiner := (Text.lines t).foldl feed {}

end Joiner

theorem logicalLines_eq (t : Text) : logicalLines t = ((Joiner.after t).version, (Joiner.after t).finish) := rfl

/-! ### Folding -/

/-- The second text is the first one with one of its lines folded. The line stands behind the first logical
line, which gives the version, and is taken. It is broken before a character that is not white space, by a
backslash, the end of the line and an indent. -/
inductive Folds : Text → Text → Prop
  | fold {before a b rest eol indent : Text} (hbefore : before.getLast? = some '\n')
      (hversion : (Joiner.after before).lines ≠ []) (hline : '\n' ∉ a ++ b)
      (hrest : rest = [] ∨ rest.head? = some '\n') (htaken : (Joiner.after before).Takes (a ++ b))
      (hb : BeginsSolid b) (heol : eol = ['\n'] ∨ eol = ['\r', '\n'])
      (hindent : ∀ c ∈ indent, isIndent c = true) :
      Folds (before ++ (a ++ b ++ rest)) (before ++ (a ++ '\\' :: eol ++ (indent ++ b ++ rest)))

/-- A line at the start of a text, and the lines behind it. -/
theorem exists_lines (hb : BeginsSolid b) (hline : '\n' ∉ b) {rest : Text}
    (hrest : rest = [] ∨ rest.head? = some '\n') :
    ∃ b' ls, (b' = b ∨ b' = dropReturn b) ∧ ∀ a, '\n' ∉ a → lines (a ++ b ++ rest) = (a ++ b') :: ls := by
  have hall : ∀ a, '\n' ∉ a → '\n' ∉ a ++ b := fun a ha => mt List.mem_append.mp (not_or.mpr ⟨ha, hline⟩)
  rcases hrest with rfl | hrest
  · refine ⟨b, [], .inl rfl, fun a ha => ?_⟩
    rw [List.append_nil, lines_line (hall a ha) (List.append_ne_nil_of_right_ne_nil a hb.ne_nil)]
  · obtain ⟨rest, rfl⟩ := List.head?_eq_some_iff.mp hrest
    refine ⟨dropReturn b, lines rest, .inr rfl, fun a ha => ?_⟩
    rw [lines_line_append (hall a ha), dropReturn_append hb.ne_nil]

theorem lines_fold {eol : Text} (ha : '\n' ∉ a) (heol : eol = ['\n'] ∨ eol = ['\r', '\n']) (u : Text) :
    lines (a ++ '\\' :: eol ++ u) = (a ++ ['\\']) :: lines u := by
  rcases heol with rfl | rfl
  · have htext : a ++ '\\' :: ['\n'] ++ u = (a ++ ['\\']) ++ '\n' :: u := by simp
    rw [htext, lines_line_append (by simp [ha]), dropReturn_append (List.cons_ne_nil _ _)]
    rfl
  · have htext : a ++ '\\' :: ['\r', '\n'] ++ u = (a ++ ['\\', '\r']) ++ '\n' :: u := by simp
    rw [htext, lines_line_append (by simp [ha]), dropReturn_append (List.cons_ne_nil _ _)]
    rfl

/-- **A folded line changes no logical line.** -/
theorem logicalLines_of_folds (h : Folds t t') {v : Nat} (hv : (logicalLines t).1 = some v) (hle : 4 ≤ v) :
    logicalLines t' = logicalLines t := by
  obtain @⟨before, a, b, rest, eol, indent, hbefore, hfirst, hline, hrest, htaken, hb, heol, hindent⟩ := h
  obtain ⟨ha, hb'⟩ := not_or.mp (mt List.mem_append.mpr hline)
  have hblank : ∀ c ∈ indent, isBlank c = true := by
    intro c hc
    have hc' : c = ' ' ∨ c = '\t' := by simpa [isIndent] using hindent c hc
    rcases hc' with rfl | rfl <;> decide
  have hnew : '\n' ∉ indent := fun hmem => absurd (hindent '\n' hmem) (by decide)
  have hdrops : (Joiner.after before).dropsIndent = true := by
    have hversion : (Joiner.after before).version = some v := by
      rw [logicalLines_eq, Joiner.after, lines_append_of_getLast? hbefore, List.foldl_append,
        ← Joiner.after] at hv
      rwa [Joiner.version_foldl hfirst] at hv
    rw [Joiner.dropsIndent, hversion]
    simpa using hle
  obtain ⟨b', ls, hsame, hlines⟩ := exists_lines hb hb' hrest
  have hfold : ((Joiner.after before).feed (a ++ ['\\'])).feed (indent ++ b') =
      (Joiner.after before).feed (a ++ b') := by
    rcases hsame with rfl | rfl
    · exact Joiner.feed_feed_fold hdrops hb hblank htaken
    · exact Joiner.feed_feed_fold hdrops hb.dropReturn hblank (Joiner.takes_dropReturn hb htaken)
  have hafter : Joiner.after (before ++ (a ++ '\\' :: eol ++ (indent ++ b ++ rest))) =
      Joiner.after (before ++ (a ++ b ++ rest)) := by
    rw [Joiner.after, Joiner.after, lines_append_of_getLast? hbefore, lines_append_of_getLast? hbefore,
      lines_fold ha heol, hlines a ha, hlines indent hnew, List.foldl_append, List.foldl_append,
      ← Joiner.after, List.foldl_cons, List.foldl_cons, List.foldl_cons, hfold]
  rw [logicalLines_eq, logicalLines_eq, hafter]

/-- **Folding does not matter from version 4 on.** However often its lines are folded, a watch file is read
as the same, or refused with the same error. -/
theorem parse_of_folds {v : Nat} (hv : (logicalLines t).1 = some v) (hle : 4 ≤ v)
    (h : ReflTransGen Folds t t') : parse t' = parse t := by
  have hlogical : logicalLines t' = logicalLines t := by
    induction h with
    | refl => rfl
    | tail _ hstep ih => rw [logicalLines_of_folds hstep (ih ▸ hv) hle, ih]
  rw [parse, parse, hlogical]

/-- A watch file with quoted options, and a location with a `#` in it. -/
def quotedText : Text := "version=4\nopts=\"a=1, b\" https://example.com/#x foo\n".toList

/-- The text folded between the quotes and, in the line that continues it, before the `#`. -/
def foldedText : Text := "version=4\nopts=\"a=1, \\\n\tb\" https://example.com/\\\r\n#x foo\n".toList

theorem parse_of_folds_quotedText :
    (logicalLines quotedText).1 = some 4 ∧ ReflTransGen Folds quotedText foldedText ∧
      parse foldedText =
        .ok (some { entries := [{ url := "https://example.com/#x".toList, pattern := some "foo".toList,
                                  options := ["a=1".toList, "b".toList] }] }) := by
  have hversion : (logicalLines quotedText).1 = some 4 := by decide +kernel
  have hquotes : Folds
      ("version=4\n".toList ++ ("opts=\"a=1, ".toList ++ "b\" https://example.com/#x foo".toList ++ ['\n']))
      ("version=4\n".toList ++ ("opts=\"a=1, ".toList ++ '\\' :: ['\n'] ++
        (['\t'] ++ "b\" https://example.com/#x foo".toList ++ ['\n']))) :=
    .fold (by decide) (by decide +kernel) (by decide) (.inr rfl) (.inr (by decide +kernel))
      ⟨'b', _, rfl, by decide⟩ (.inl rfl) (by simp [isIndent])
  have hlocation : Folds
      ("version=4\nopts=\"a=1, \\\n".toList ++
        ("\tb\" https://example.com/".toList ++ "#x foo".toList ++ ['\n']))
      ("version=4\nopts=\"a=1, \\\n".toList ++
        ("\tb\" https://example.com/".toList ++ '\\' :: ['\r', '\n'] ++ ([] ++ "#x foo".toList ++ ['\n']))) :=
    .fold (by decide) (by decide +kernel) (by decide) (.inr rfl) (.inl (by decide +kernel))
      ⟨'#', _, rfl, by decide⟩ (.inr rfl) nofun
  have htext : quotedText = "version=4\n".toList ++
      ("opts=\"a=1, ".toList ++ "b\" https://example.com/#x foo".toList ++ ['\n']) := by decide +kernel
  have hmiddle : "version=4\n".toList ++ ("opts=\"a=1, ".toList ++ '\\' :: ['\n'] ++
        (['\t'] ++ "b\" https://example.com/#x foo".toList ++ ['\n'])) =
      "version=4\nopts=\"a=1, \\\n".toList ++
        ("\tb\" https://example.com/".toList ++ "#x foo".toList ++ ['\n']) := by decide +kernel
  have hfolded : foldedText = "version=4\nopts=\"a=1, \\\n".toList ++
      ("\tb\" https://example.com/".toList ++ '\\' :: ['\r', '\n'] ++
        ([] ++ "#x foo".toList ++ ['\n'])) := by decide +kernel
  have hfolds : ReflTransGen Folds quotedText foldedText := by
    rw [hmiddle] at hquotes
    rw [htext, hfolded]
    exact .head hquotes (.single hlocation)
  exact ⟨hversion, hfolds, (parse_of_folds hversion le_rfl hfolds).trans (by decide +kernel)⟩

end Packaging.WatchFile
