import Packaging.Proofs.Makefile.Clearing
import Packaging.Proofs.Makefile.Reading

/-!
# Another header in the place of one

Where a rule was opened can be told from what was read: the lines before its header are those of the
entries before the rule and those of its comment. If another header stands there instead, and opens a rule
wherever the old one does, then all lines after it are read as they were, and only the rule changes.

## What is proved

* `traced_run` — every rule was opened by its header, after just these lines.
* `Alike.takes` — readers that differ in the header of one rule take a line alike.
* `parse_exchange` — what is read from a text with another header for one of its rules.
-/

namespace Packaging.Makefile

open Text

/-- The rule with everything that comes from another header. -/
def Rule.exchangeHeader (header : Text) (r : Rule) : Rule :=
  { ofHeader header with body := r.body, precomment := r.precomment }

namespace Reader

/-! ### Where a rule was opened -/

/-- The rule was opened by its header when the reader had taken the lines of the entries before it and
those of its comment. -/
structure Opened (es : List Entry) (r : Rule) : Prop where
  opens : ((linesOf es ++ r.precomment).foldl feed {}).Opens r.header
  before : splitComment ((linesOf es ++ r.precomment).foldl feed {}).closeRule.entries =
    (es, r.precomment)

/-- All rules were opened so, the open rule included. -/
structure Traced (s : Reader) : Prop where
  current : ∀ r, s.current = some r → Opened s.entries r
  entries : ∀ es r, es ++ [.rule r] <+: s.entries → Opened es r

variable {s s' u : Reader} {line : Text} {es : List Entry} {r : Rule}

theorem Opened.addLine (h : Opened es r) (line : Text) : Opened es (r.addLine line) :=
  ⟨h.opens, h.before⟩

theorem rule_prefix_append_lines {before : List Entry} (ls : List Text)
    (h : before ++ [.rule r] <+: es ++ ls.map Entry.line) : before ++ [.rule r] <+: es := by
  induction ls using List.reverseRecOn with
  | nil => simpa using h
  | append_singleton ls l ih =>
    rw [List.map_append, ← List.append_assoc, List.map_singleton] at h
    rcases List.prefix_concat_iff.mp h with heq | hpre
    · cases (List.append_inj' heq rfl).2
    · exact ih hpre

theorem append_closedEntries (es : List Entry) (r : Rule) : es ++ closedEntries r =
    es ++ [.rule { r with body := firmPart r.body }] ++
      (r.body.reverse.takeWhile isLoose).reverse.map Entry.line := by
  simp [closedEntries, firmPart, List.rdropWhile]

theorem Traced.closeRule (h : s.Traced) : s.closeRule.Traced := by
  refine ⟨fun r hr => ?_, fun es r hpre => ?_⟩
  · rw [current_closeRule] at hr
    cases hr
  · unfold Reader.closeRule at hpre
    split at hpre
    · exact h.entries es r hpre
    · rename_i whole hopen
      dsimp only at hpre
      rw [append_closedEntries] at hpre
      rcases List.prefix_concat_iff.mp (rule_prefix_append_lines _ hpre) with heq | hpre
      · obtain ⟨rfl, hlast⟩ := List.append_inj' heq rfl
        cases hlast
        have hwhole := h.current whole hopen
        exact ⟨hwhole.opens, hwhole.before⟩
      · exact h.entries es r hpre

theorem Traced.addOutside {depth depth' : Nat} (h : Traced ⟨es, none, depth⟩) (line : Text) :
    Traced ⟨es ++ [.line line], none, depth'⟩ :=
  ⟨nofun, fun before r hpre => h.entries before r (rule_prefix_append_lines [line] hpre)⟩

/-- A header opens its rule when the reader has taken all lines before it. -/
theorem opened_openRule {ls : List Text} (hrun : ls.foldl feed {} = s) (hline : s.Opens line) :
    Opened (splitComment s.closeRule.entries).1
      { Rule.ofHeader line with precomment := (splitComment s.closeRule.entries).2 } := by
  have hlines : linesOf (splitComment s.closeRule.entries).1 ++ (splitComment s.closeRule.entries).2 =
      ls := by
    have hls := (foldl_feed ls sound_empty).2
    rw [hrun, ← lines_closeRule, lines, current_closeRule] at hls
    rw [linesOf_splitComment]
    simpa [lines, linesOf] using hls
  refine ⟨?_, ?_⟩
  · dsimp only
    rw [hlines, hrun]
    exact hline
  · dsimp only
    rw [hlines, hrun]

/-- **Every rule was opened by its header**, after the lines before it. -/
theorem traced_run (ls : List Text) : (ls.foldl feed {}).Traced := by
  have hstart : Traced {} := by
    refine ⟨nofun, fun es r hpre => ?_⟩
    cases es <;> cases List.prefix_nil.mp hpre
  refine (run_induction (fun s ls => ls.foldl feed {} = s ∧ s.Traced) ⟨rfl, hstart⟩ ?_ ls).2
  rintro s s' ls line ⟨hrun, htraced⟩ hline
  have hstep : (ls ++ [line]).foldl feed {} = s' := by
    rw [List.foldl_append, hrun]
    exact hline.feed_eq
  refine ⟨hstep, ?_⟩
  cases hline with
  | text | opening | middle | closing =>
    refine ⟨?_, htraced.entries⟩
    rintro _ ⟨⟩
    exact (htraced.current _ rfl).addLine line
  | outside => exact htraced.addOutside line
  | header hopens =>
    refine ⟨?_, fun es r hpre => htraced.closeRule.entries es r (hpre.trans ?_)⟩
    · rintro _ ⟨⟩
      exact opened_openRule hrun hopens
    · rw [← splitComment_eq s.closeRule.entries]
      exact List.prefix_append _ _
  | other hends =>
    have hclosed := htraced.closeRule
    have hnone := current_closeRule s
    generalize s.closeRule = s' at hclosed hnone
    obtain ⟨es, current, depth⟩ := s'
    obtain rfl : current = none := hnone
    exact hclosed.addOutside line

/-! ### Two readers -/

/-- The readers differ in one rule only, which comes after these entries and has another header in the
second of them. -/
inductive Alike (es : List Entry) (header : Text) : Reader → Reader → Prop
  /-- The rule is open, -/
  | opened {r : Rule} {depth : Nat} :
      Alike es header ⟨es, some r, depth⟩ ⟨es, some (r.exchangeHeader header), depth⟩
  /-- or it was closed. -/
  | closed {r : Rule} {after : List Entry} {current : Option Rule} {depth : Nat} :
      Alike es header ⟨es ++ .rule r :: after, current, depth⟩
        ⟨es ++ .rule (r.exchangeHeader header) :: after, current, depth⟩

theorem closedEntries_exchangeHeader (header : Text) (r : Rule) :
    ∃ r' ls, closedEntries r = .rule r' :: ls ∧
      closedEntries (r.exchangeHeader header) = .rule (r'.exchangeHeader header) :: ls :=
  ⟨_, _, rfl, rfl⟩

/-- A rule ends the comment that is looked for before the next one. -/
theorem splitComment_append_rule (es : List Entry) (r : Rule) (after : List Entry) :
    splitComment (es ++ .rule r :: after) =
      (es ++ .rule r :: (splitComment after).1, (splitComment after).2) := by
  generalize hafter : splitComment after = parts
  obtain ⟨before, comment⟩ := parts
  induction es with
  | nil =>
    rw [List.nil_append]
    unfold splitComment
    rw [hafter]
    cases before <;> rfl
  | cons e es ih =>
    rw [List.cons_append]
    unfold splitComment
    rw [ih]
    cases e <;> cases es <;> rfl

variable {header : Text}

/-- The rule is among the entries when both are closed. -/
theorem Alike.closeRule_eq (h : Alike es header s u) :
    ∃ r after, s.closeRule = ⟨es ++ .rule r :: after, none, 0⟩ ∧
      u.closeRule = ⟨es ++ .rule (r.exchangeHeader header) :: after, none, 0⟩ := by
  cases h with
  | @opened r depth =>
    obtain ⟨r', ls, hr, hr'⟩ := closedEntries_exchangeHeader header r
    exact ⟨r', ls, by simp only [Reader.closeRule, hr], by simp only [Reader.closeRule, hr']⟩
  | @closed r after current depth =>
    cases current with
    | none => exact ⟨r, after, rfl, rfl⟩
    | some whole =>
      refine ⟨r, after ++ closedEntries whole, ?_, ?_⟩ <;>
        simp only [Reader.closeRule, List.append_assoc, List.cons_append]

theorem Alike.depth_eq (h : Alike es header s u) : u.depth = s.depth := by cases h <;> rfl

/-- **Such readers take a line alike.** -/
theorem Alike.takes (h : Alike es header s u) (hline : s.Takes line s') :
    ∃ u', u.Takes line u' ∧ Alike es header s' u' := by
  cases hline with
  | text htext => cases h <;> exact ⟨_, .text htext, by constructor⟩
  | opening htext hopens => cases h <;> exact ⟨_, .opening htext hopens, by constructor⟩
  | middle htext hopens helse hcloses =>
    cases h <;> exact ⟨_, .middle htext hopens helse hcloses, by constructor⟩
  | closing htext hopens hcloses => cases h <;> exact ⟨_, .closing htext hopens hcloses, by constructor⟩
  | outside hline =>
    cases h
    refine ⟨_, .outside hline, ?_⟩
    simp only [List.append_assoc, List.cons_append]
    exact .closed
  | header hopens =>
    obtain ⟨r, after, hs, hu⟩ := h.closeRule_eq
    have hopens' : u.Opens line :=
      ⟨hopens.noText, hopens.noOpening, h.depth_eq ▸ hopens.noBranch, hopens.header, hopens.noInclude⟩
    refine ⟨_, .header hopens', ?_⟩
    simp only [openRule, hs, hu, splitComment_append_rule]
    exact .closed
  | other hends =>
    obtain ⟨r, after, hs, hu⟩ := h.closeRule_eq
    have hends' : u.EndsRule line :=
      ⟨hends.noText, hends.noOpening, h.depth_eq ▸ hends.noBranch, hends.noHeader⟩
    refine ⟨_, .other hends', ?_⟩
    simp only [addLine, hs, hu, List.append_assoc, List.cons_append]
    exact .closed

/-- A run keeps them alike. -/
theorem Alike.run (ls : List Text) (h : Alike es header s u) (hs : s.Sound) :
    Alike es header (ls.foldl feed s) (ls.foldl feed u) := by
  induction ls generalizing s u with
  | nil => exact h
  | cons line ls ih =>
    obtain ⟨u', hu, halike⟩ := h.takes (takes_feed hs line)
    rw [List.foldl_cons, List.foldl_cons, hu.feed_eq]
    exact ih halike (hs.feed line)

end Reader

/-! ### Texts -/

theorem entries_parse (t : Text) :
    (parse t).entries = ((textLines t).foldl Reader.feed {}).closeRule.entries := by
  unfold parse textLines contentLines
  split
  · rfl
  · cases dropEnd? ['\n'] t <;> rfl

theorem lines_split {es es' : List Entry} {r : Rule} {ls : List Text}
    (h : (ls.foldl Reader.feed {}).closeRule.entries = es ++ .rule r :: es') (hheader : r.header ≠ []) :
    ls = linesOf es ++ r.precomment ++ r.header :: (r.body ++ linesOf es') := by
  have hlines := (entries_closeRule ls).1
  rw [h, linesOf_append, linesOf_cons, Entry.lines, Rule.allLines, Rule.lines,
    if_neg (by simpa using hheader)] at hlines
  rw [← hlines]
  simp only [List.append_assoc, List.cons_append]

/-- **With another header for one of its rules** a list of lines is read as it was, but for this rule. -/
theorem entries_exchange {es es' : List Entry} {r : Rule} {ls : List Text}
    (h : (ls.foldl Reader.feed {}).closeRule.entries = es ++ .rule r :: es') {header : Text}
    (hopens : ∀ s : Reader, s.Opens r.header → s.Opens header) :
    ls = linesOf es ++ r.precomment ++ r.header :: (r.body ++ linesOf es') ∧
      ((linesOf es ++ r.precomment ++ header :: (r.body ++ linesOf es')).foldl
        Reader.feed {}).closeRule.entries = es ++ .rule (r.exchangeHeader header) :: es' := by
  have hopened : Reader.Opened es r :=
    (Reader.traced_run ls).closeRule.entries es r (by rw [h]; exact ⟨es', by simp⟩)
  have hsplit := lines_split h (Reader.ne_nil_of_isRuleHeader hopened.opens.header)
  refine ⟨hsplit, ?_⟩
  have hsound := (Reader.foldl_feed (linesOf es ++ r.precomment) Reader.sound_empty).1
  obtain ⟨hheader, hbefore⟩ := hopened
  rw [hsplit, List.foldl_append, List.foldl_cons, (Reader.Takes.header hheader).feed_eq] at h
  rw [List.foldl_append, List.foldl_cons, (Reader.Takes.header (hopens _ hheader)).feed_eq]
  generalize (linesOf es ++ r.precomment).foldl Reader.feed {} = s at *
  have halike : Reader.Alike es header (s.openRule r.header) (s.openRule header) := by
    simp only [Reader.openRule, hbefore]
    exact .opened
  obtain ⟨r', after, hs, hu⟩ := (halike.run (r.body ++ linesOf es') (hsound.openRule
    (Reader.ne_nil_of_isRuleHeader hheader.header))).closeRule_eq
  rw [hs] at h
  obtain ⟨hr, rfl⟩ := List.cons.inj (List.append_cancel_left h)
  cases hr
  rw [hu]

/-- A makefile is read again if its lines are read as its entries, and show where they end. -/
theorem parse_render {mk : Makefile} (hlogical : AllLogical mk.lines) (hne : mk.lines ≠ [])
    (hend : mk.lacksFinalNewline = true → mk.lines.getLast?.all showsEnd = true)
    (hentries : (mk.lines.foldl Reader.feed {}).closeRule.entries = mk.entries) :
    parse mk.render = mk := by
  have hread : textLines mk.render = mk.lines ∧
      (parse mk.render).lacksFinalNewline = mk.lacksFinalNewline := by
    cases hlacks : mk.lacksFinalNewline with
    | false =>
      obtain ⟨hlines, hnewline⟩ := textLines_render hlogical hlacks
      refine ⟨hlines, Bool.eq_false_iff.mpr fun h => ?_⟩
      obtain ⟨hrender, hnot⟩ := (lacksFinalNewline_parse _).mp h
      exact hnot (hnewline hrender)
    | true =>
      obtain ⟨hlines, hnot⟩ := textLines_render_of_lacks hlogical hlacks (hend hlacks)
      refine ⟨hlines, (lacksFinalNewline_parse _).mpr ⟨fun hnil => ?_, hnot⟩⟩
      exact hne (by rw [← hlines, hnil]; rfl)
  have hread' : (parse mk.render).entries = mk.entries := by rw [entries_parse, hread.1, hentries]
  calc parse mk.render = ⟨(parse mk.render).entries, (parse mk.render).lacksFinalNewline⟩ := rfl
    _ = mk := by rw [hread', hread.2]

theorem showsEnd_parse {t : Text} (h : (parse t).lacksFinalNewline = true) :
    (parse t).lines.getLast?.all showsEnd = true := by
  obtain ⟨hne, hlast⟩ := (lacksFinalNewline_parse t).mp h
  by_contra hnot
  rcases render_of_not_showsEnd h hnot with ⟨hnil, -⟩ | hnewline
  · exact hne (by rwa [render_parse] at hnil)
  · exact hlast (by rwa [render_parse] at hnewline)

theorem render_of_lines {mk : Makefile} {ls ms : List Text} {l : Text}
    (h : mk.lines = ls ++ l :: ms) : mk.render =
      unlines ls ++ (l ++ (ms.flatMap ('\n' :: ·) ++ if mk.lacksFinalNewline then [] else ['\n'])) := by
  simp [render, h, join_eq_unlines_append]

/-- **With another header for one of its rules** a text is read as it was, but for this rule. -/
theorem parse_exchange {t : Text} {es es' : List Entry} {r : Rule}
    (h : (parse t).entries = es ++ .rule r :: es') {header : Text} (hlogical : IsLogical header)
    (hlast : header.getLast? = r.header.getLast?)
    (hopens : ∀ s : Reader, s.Opens r.header → s.Opens header) :
    ∃ after, t = unlines (linesOf es ++ r.precomment) ++ (r.header ++ after) ∧
      parse (unlines (linesOf es ++ r.precomment) ++ (header ++ after)) =
        { parse t with entries := es ++ .rule (r.exchangeHeader header) :: es' } := by
  rw [entries_parse] at h
  obtain ⟨hlines, hexchange⟩ := entries_exchange h hopens
  generalize hafter : r.body ++ linesOf es' = after at hlines hexchange
  have hold : (parse t).lines = linesOf es ++ r.precomment ++ r.header :: after := by
    rw [lines_of_intact (intact_parse t), linesOf_parse_eq_textLines, hlines]
  have hnew : lines { parse t with entries := es ++ .rule (r.exchangeHeader header) :: es' } =
      linesOf es ++ r.precomment ++ header :: after := by
    obtain ⟨hread, hintact⟩ := entries_closeRule (linesOf es ++ r.precomment ++ header :: after)
    rw [hexchange] at hread hintact
    rw [lines_of_intact hintact, hread]
  have hall : AllLogical (linesOf es ++ r.precomment ++ r.header :: after) := by
    rw [← hlines, ← linesOf_parse_eq_textLines]
    exact allLogical_linesOf_parse t
  refine ⟨after.flatMap ('\n' :: ·) ++ if (parse t).lacksFinalNewline then [] else ['\n'], ?_, ?_⟩
  · rw [← render_of_lines hold, render_parse]
  · have hrender := render_of_lines hnew
    dsimp only at hrender
    rw [← hrender]
    refine parse_render ?_ (by rw [hnew]; simp) (fun hlacks => ?_) (by rw [hnew, hexchange])
    · rw [hnew]
      exact hall.exchange hlogical hlast
    · have hshows := showsEnd_parse hlacks
      rw [hold] at hshows
      rw [hnew]
      cases hmore : after.getLast? with
      | some last => simpa [List.getLast?_append, List.getLast?_cons, hmore] using hshows
      | none =>
        simpa [List.getLast?_append, List.getLast?_cons, hmore, showsEnd, hlast] using hshows

end Packaging.Makefile
