import Packaging.Makefile.Parser
import Packaging.Makefile.Printer
import Packaging.Proofs.Text.Split

/-!
# Makefiles: every line is kept

The reader of a makefile puts each logical line in one of three places: the open rule, the comment
before it, or the list of entries; and it moves lines from one to another when a rule is opened or
closed. `Reader.lines` are the lines of all three places in order.

## What is proved

* `Reader.lines_feed` — a line that is taken is added at the end and no other line is lost or moved,
  as long as the reader is `Sound`: a conditional is open only in an open rule, and every rule has a
  header. `Sound.feed` says that it stays so.
* `lines_of_intact` — writing entries without cleared rules writes all of their lines.
* `render_parse` — so what was read is written as it was, whatever the text.
-/

namespace Packaging.Makefile

open Text

/-! ### Logical lines -/

theorem joinContinued_ne_nil {ls : List Text} (h : ls ≠ []) : joinContinued ls ≠ [] := by
  cases ls with
  | nil => exact absurd rfl h
  | cons l ls =>
    unfold joinContinued
    split
    · split <;> simp
    · simp

/-- Joining lines at a backslash keeps the newlines between them. -/
theorem join_joinContinued (ls : List Text) : join ['\n'] (joinContinued ls) = join ['\n'] ls := by
  induction ls with
  | nil => rfl
  | cons l ls ih =>
    cases ls with
    | nil => simp [joinContinued]
    | cons l' ls =>
      have hne : joinContinued (l' :: ls) ≠ [] := joinContinued_ne_nil (by simp)
      have hstep : join ['\n'] (l :: l' :: ls) = l ++ '\n' :: join ['\n'] (joinContinued (l' :: ls)) := by
        rw [ih, join, List.intercalate_cons_cons, join]
        simp
      rw [hstep, joinContinued]
      obtain ⟨next, rest, hrest⟩ := List.exists_cons_of_ne_nil hne
      rw [hrest]
      split
      · -- the line goes on, and the newline is a part of the joined line
        cases rest <;> simp [join, List.intercalate_cons_cons]
      · simp [join, List.intercalate_cons_cons]

theorem join_logicalLines (t : Text) : join ['\n'] (logicalLines t) = t := by
  rw [logicalLines, join_joinContinued, join_splitOn]

theorem logicalLines_ne_nil (t : Text) : logicalLines t ≠ [] :=
  joinContinued_ne_nil (List.splitOn_ne_nil '\n' t)

/-! ### The lines of entries -/

/-- The lines of a rule, with the comment before it. -/
def Rule.allLines (r : Rule) : List Text := r.precomment ++ r.lines

/-- The lines that an entry stands for. -/
def Entry.lines : Entry → List Text
  | .line l => [l]
  | .rule r => r.allLines

/-- The lines of entries, in order. -/
def linesOf (entries : List Entry) : List Text := entries.flatMap Entry.lines

theorem linesOf_cons (e : Entry) (es : List Entry) : linesOf (e :: es) = e.lines ++ linesOf es :=
  List.flatMap_cons

@[simp] theorem linesOf_append (es es' : List Entry) :
    linesOf (es ++ es') = linesOf es ++ linesOf es' := by simp [linesOf]

@[simp] theorem linesOf_map_line (ls : List Text) : linesOf (ls.map .line) = ls := by
  induction ls with
  | nil => rfl
  | cons l ls ih => simpa [linesOf, Entry.lines] using ih

@[simp] theorem Rule.allLines_addLine (r : Rule) (line : Text) :
    (r.addLine line).allLines = r.allLines ++ [line] := by
  by_cases h : r.header = [] <;> simp [allLines, lines, addLine, h]

/-! ### Reading -/

namespace Reader

/-- The lines that a reader holds, in the order in which it took them. -/
def lines (s : Reader) : List Text :=
  linesOf s.entries ++ (s.current.map Rule.allLines).getD []

/-- Conditionals are open only in an open rule, and no rule is without a header. -/
structure Sound (s : Reader) : Prop where
  open_of_depth : 0 < s.depth → s.current.isSome
  header_current : ∀ r, s.current = some r → r.header ≠ []
  header_entries : ∀ r, .rule r ∈ s.entries → r.header ≠ []

theorem sound_empty : Sound {} := ⟨by simp, by simp, by simp⟩

variable {s : Reader}

@[simp] theorem lines_addLine (s : Reader) (line : Text) :
    (s.addLine line).lines = s.lines ++ [line] := by
  unfold addLine lines
  cases s.current <;> simp [linesOf, Entry.lines]

@[simp] theorem lines_withDepth (s : Reader) (depth : Nat) : { s with depth }.lines = s.lines := rfl

theorem addRuleLine_eq_addLine (h : s.current.isSome) (line : Text) :
    s.addRuleLine line = s.addLine line := by
  obtain ⟨r, hr⟩ := Option.isSome_iff_exists.mp h
  simp [addRuleLine, addLine, hr]

/-- Closing a rule only moves the loose lines at its end behind it. -/
theorem linesOf_closedEntries (r : Rule) : linesOf (closedEntries r) = r.allLines := by
  have hbody : (r.body.reverse.dropWhile isLoose).reverse ++
      (r.body.reverse.takeWhile isLoose).reverse = r.body := by
    rw [← List.reverse_append, List.takeWhile_append_dropWhile, List.reverse_reverse]
  unfold closedEntries
  rw [← List.singleton_append, linesOf_append, linesOf_map_line]
  by_cases h : r.header = [] <;>
    simp [linesOf, Entry.lines, Rule.allLines, Rule.lines, h, hbody]

@[simp] theorem lines_closeRule (s : Reader) : s.closeRule.lines = s.lines := by
  unfold closeRule lines
  cases s.current with
  | none => rfl
  | some r => simp [linesOf_closedEntries]

theorem current_closeRule (s : Reader) : s.closeRule.current = none := by
  unfold closeRule
  split <;> simp_all

/-- The comment at the end of entries is taken off them as it is. -/
theorem splitComment_eq (es : List Entry) :
    (splitComment es).1 ++ (splitComment es).2.map .line = es := by
  induction es with
  | nil => rfl
  | cons e es ih =>
    unfold splitComment
    cases hsplit : splitComment es with
    | mk before comment =>
      rw [hsplit] at ih
      subst ih
      cases before with
      | nil =>
        cases e with
        | line l => by_cases h : isRuleComment l <;> simp [h]
        | rule r => simp
      | cons b before => simp

theorem linesOf_splitComment (es : List Entry) :
    linesOf (splitComment es).1 ++ (splitComment es).2 = linesOf es := by
  rw [← linesOf_map_line (splitComment es).2, ← linesOf_append, splitComment_eq]

/-- A header comes after all lines, and takes the comment before it into its rule. -/
theorem lines_openRule {header : Text} (h : header ≠ []) :
    (s.openRule header).lines = s.lines ++ [header] := by
  have hs : s.lines = linesOf s.closeRule.entries := by
    rw [← lines_closeRule, lines, current_closeRule]
    simp
  rw [hs, ← linesOf_splitComment s.closeRule.entries]
  simp [openRule, lines, Rule.allLines, Rule.lines, Rule.ofHeader, h]

theorem ne_nil_of_isRuleHeader {line : Text} (h : isRuleHeader line = true) : line ≠ [] := by
  rintro rfl
  simp [isRuleHeader, cut?] at h

/-- **A line that is taken is added after all others.** A branch or the end of a conditional is taken
for the open rule, and this is open. -/
theorem lines_feed (hs : s.Sound) (line : Text) : (s.feed line).lines = s.lines ++ [line] := by
  unfold feed
  split
  · exact lines_addLine s line
  split
  · rw [lines_withDepth, lines_addLine]
  split
  · rename_i hbranch
    have hopen : s.current.isSome := hs.open_of_depth (by simp at hbranch; exact hbranch.2)
    rw [lines_withDepth, addRuleLine_eq_addLine hopen, lines_addLine]
  split
  · rename_i hheader
    exact lines_openRule (ne_nil_of_isRuleHeader (Bool.and_eq_true _ _ ▸ hheader).1)
  · rw [lines_addLine, lines_closeRule]

/-! ### Soundness -/

theorem Sound.addLine (hs : s.Sound) (line : Text) : (s.addLine line).Sound := by
  unfold Reader.addLine
  split
  · rename_i r hr
    refine ⟨fun _ => rfl, ?_, hs.header_entries⟩
    rintro r' ⟨⟩
    exact hs.header_current r hr
  · refine ⟨hs.open_of_depth, hs.header_current, fun r hr => ?_⟩
    exact hs.header_entries r (by simpa using hr)

theorem Sound.withDepth (hs : s.Sound) {depth : Nat} (h : 0 < depth → s.current.isSome) :
    Sound { s with depth } := ⟨h, hs.header_current, hs.header_entries⟩

theorem Sound.closeRule (hs : s.Sound) : s.closeRule.Sound := by
  unfold Reader.closeRule
  split
  · rename_i hnone
    exact ⟨by simp, hs.header_current, hs.header_entries⟩
  · rename_i r hr
    refine ⟨by simp, by simp, fun r' hr' => ?_⟩
    rcases List.mem_append.mp hr' with hr' | hr'
    · exact hs.header_entries r' hr'
    · simp only [closedEntries, List.mem_cons, Entry.rule.injEq, List.mem_map, reduceCtorEq,
        and_false, exists_false, or_false] at hr'
      subst hr'
      exact hs.header_current r hr

theorem Sound.openRule (hs : s.Sound) {header : Text} (h : header ≠ []) :
    (s.openRule header).Sound := by
  refine ⟨fun _ => rfl, ?_, fun r hr => hs.closeRule.header_entries r ?_⟩
  · rintro r ⟨⟩
    exact h
  · rw [← splitComment_eq s.closeRule.entries]
    exact List.mem_append_left _ hr

theorem isSome_addLine (h : s.current.isSome) (line : Text) : (s.addLine line).current.isSome := by
  obtain ⟨r, hr⟩ := Option.isSome_iff_exists.mp h
  simp [addLine, hr]

theorem Sound.feed (hs : s.Sound) (line : Text) : (s.feed line).Sound := by
  unfold Reader.feed
  split
  · exact hs.addLine line
  split
  · refine (hs.addLine line).withDepth fun hdepth => ?_
    by_cases hopen : s.current.isSome
    · exact isSome_addLine hopen line
    · simp only [hopen, Bool.false_eq_true, if_false] at hdepth
      exact absurd (hs.open_of_depth hdepth) hopen
  split
  · rename_i hbranch
    have hopen : s.current.isSome := hs.open_of_depth (by simp at hbranch; exact hbranch.2)
    rw [addRuleLine_eq_addLine hopen]
    exact (hs.addLine line).withDepth fun _ => isSome_addLine hopen line
  split
  · rename_i hheader
    exact hs.openRule (ne_nil_of_isRuleHeader (Bool.and_eq_true _ _ ▸ hheader).1)
  · exact hs.closeRule.addLine line

/-- Taking lines one after the other adds them all, in order. -/
theorem foldl_feed (ls : List Text) : ∀ {s : Reader}, s.Sound →
    (ls.foldl feed s).Sound ∧ (ls.foldl feed s).lines = s.lines ++ ls := by
  induction ls with
  | nil => intro s hs; exact ⟨hs, by simp⟩
  | cons l ls ih =>
    intro s hs
    obtain ⟨hsound, hlines⟩ := ih (hs.feed l)
    refine ⟨hsound, ?_⟩
    rw [List.foldl_cons, hlines, lines_feed hs, List.append_assoc, List.singleton_append]

end Reader

/-! ### Writing -/

/-- No rule is cleared. -/
def Intact (entries : List Entry) : Prop := ∀ r, .rule r ∈ entries → r.isCleared = false

/-- Entries without cleared rules are written line by line, and no blank line is left out. -/
theorem foldl_add {es : List Entry} (h : Intact es) (ls : List Text) :
    es.foldl Writer.add ⟨ls, false, false⟩ = ⟨ls ++ linesOf es, false, false⟩ := by
  induction es generalizing ls with
  | nil => simp [linesOf]
  | cons e es ih =>
    have hrest : Intact es := fun r hr => h r (List.mem_cons_of_mem _ hr)
    rw [List.foldl_cons]
    cases e with
    | line l => simp [Writer.add, ih hrest, linesOf, Entry.lines]
    | rule r =>
      have hr : r.isCleared = false := h r List.mem_cons_self
      simp [Writer.add, hr, ih hrest, linesOf, Entry.lines, Rule.allLines]

theorem lines_of_intact {mk : Makefile} (h : Intact mk.entries) : mk.lines = linesOf mk.entries := by
  unfold Makefile.lines
  rw [foldl_add h]
  simp [Writer.finish]

/-! ### Reading and writing -/

/-- The entries of a text have its logical lines, and none of their rules is cleared. -/
theorem entries_closeRule (ls : List Text) :
    linesOf (ls.foldl Reader.feed {}).closeRule.entries = ls ∧
      Intact (ls.foldl Reader.feed {}).closeRule.entries := by
  obtain ⟨hsound, hlines⟩ := Reader.foldl_feed ls Reader.sound_empty
  constructor
  · have h := Reader.lines_closeRule (ls.foldl Reader.feed {})
    rw [Reader.lines, Reader.current_closeRule, hlines] at h
    simpa [Reader.lines, linesOf] using h
  · intro r hr
    simp [Rule.isCleared, hsound.closeRule.header_entries r hr]

theorem intact_parse (t : Text) : Intact (parse t).entries := by
  unfold parse
  split
  · nofun
  · exact (entries_closeRule _).2

/-- What is written for the entries of logical lines is these lines. -/
theorem render_closeRule (body : Text) (lacksFinalNewline : Bool) :
    render ⟨((logicalLines body).foldl Reader.feed {}).closeRule.entries, lacksFinalNewline⟩ =
      body ++ if lacksFinalNewline then [] else ['\n'] := by
  obtain ⟨hlines, hintact⟩ := entries_closeRule (logicalLines body)
  have hlines : lines ⟨((logicalLines body).foldl Reader.feed {}).closeRule.entries,
      lacksFinalNewline⟩ = logicalLines body := (lines_of_intact hintact).trans hlines
  have hne : (logicalLines body).isEmpty = false :=
    Bool.eq_false_iff.mpr (mt List.isEmpty_iff.mp (logicalLines_ne_nil body))
  rw [render, hlines, join_logicalLines, hne, Bool.false_or]

/-- **Every text is written back as it was read.** -/
theorem render_parse (t : Text) : (parse t).render = t := by
  unfold parse
  split
  · rename_i h
    rw [List.isEmpty_iff.mp h]
    rfl
  · cases h : dropEnd? ['\n'] t with
    | none => simpa using render_closeRule t true
    | some body => simpa [dropEnd?_eq_some_iff.mp h] using render_closeRule body false

end Packaging.Makefile
