import Mathlib.Data.List.Chain
import Packaging.Proofs.Makefile.Conditionals
import Packaging.Proofs.Makefile.Reading
import Packaging.Proofs.Makefile.Rules

/-!
# The shape of what was read

The reader appends lines first and moves some of them back later, and of the conditionals it keeps only
how many are open. Still every rule it gives has a body of recipe lines, text and whole conditionals or
beginnings of conditionals, and no comment is left in front of a rule that could belong to it.

## What is proved

* `Nested.concat` — a line keeps a body nested, if it is no branch or end, or a conditional is open.
* `keptUp_isShaped` — the number that the reader keeps is that of the conditionals that are open in the
  body of the open rule.
* `takesComments_of_parse` — the comment before a rule is taken into it up to its first line.
* `isWellShaped_of_parse` — the shape of every rule that was read, and of what stands before it.
-/

namespace Packaging.Makefile

open Text

/-! ### Lines of a body -/

/-- The line is a part of a conditional, by its first word. -/
def isDirective (line : Text) : Bool :=
  opensConditional line || isElse line || closesConditional line

/-- A line that can stand in the body of a rule. -/
def IsBodyLine (line : Text) : Prop :=
  isRecipe line = true ∨ isBlankLine line = true ∨ isComment line = true ∨ isDirective line = true

/-- The line begins another branch of a conditional, or ends it. -/
def isBranch (line : Text) : Bool :=
  !(isRecipe line || Reader.isLoose line) && (isElse line || closesConditional line)

/-- How many lines open a conditional. -/
def openings (ls : List Text) : Nat := ls.countP fun l => bracket? l == some .opening

/-- How many lines end a conditional. -/
def closings (ls : List Text) : Nat := ls.countP fun l => bracket? l == some .closing

/-- Conditionals are ended, and have branches, only after they were opened. -/
structure Nested (ls : List Text) : Prop where
  balance : ∀ before, before <+: ls → closings before ≤ openings before
  branches : ∀ before line, before ++ [line] <+: ls → isBranch line = true →
    closings before < openings before

theorem isBodyLine_of_text {line : Text} (h : (isRecipe line || Reader.isLoose line) = true) :
    IsBodyLine line := by
  rw [Reader.isLoose, Bool.or_eq_true, Bool.or_eq_true] at h
  rcases h with h | h | h
  · exact .inl h
  · exact .inr (.inl h)
  · exact .inr (.inr (.inl h))

theorem isBodyLine_of_directive {line : Text} (h : isDirective line = true) : IsBodyLine line :=
  .inr (.inr (.inr h))

@[simp] theorem openings_concat (ls : List Text) (line : Text) :
    openings (ls ++ [line]) = openings ls + if bracket? line = some .opening then 1 else 0 := by
  rw [openings, openings, List.countP_append, List.countP_singleton]
  simp

@[simp] theorem closings_concat (ls : List Text) (line : Text) :
    closings (ls ++ [line]) = closings ls + if bracket? line = some .closing then 1 else 0 := by
  rw [closings, closings, List.countP_append, List.countP_singleton]
  simp

theorem isBranch_of_closing {line : Text} (h : bracket? line = some .closing) : isBranch line = true := by
  unfold bracket? at h
  split at h
  · cases h
  rename_i htext
  split at h
  · cases h
  split at h
  · rename_i hcloses
    simp [isBranch, htext, hcloses]
  · cases h

theorem isBranch_of_opensConditional {line : Text} (h : opensConditional line = true) :
    isBranch line = false := by
  have hwords : ∀ w ∈ openingWords, (w == "else".toList || w == "endif".toList) = false := by decide
  have hword : (isElse line || closesConditional line) = false :=
    hwords (firstWord line) (List.contains_iff_mem.mp h)
  rw [isBranch, hword, Bool.and_false]

theorem nested_nil : Nested [] := by
  refine ⟨fun before h => ?_, fun before line h => ?_⟩
  · rw [List.prefix_nil.mp h]
    exact Nat.le_refl _
  · exact absurd (List.prefix_nil.mp h) (by simp)

theorem Nested.of_prefix {ls ms : List Text} (h : Nested ms) (hpre : ls <+: ms) : Nested ls :=
  ⟨fun before hbefore => h.balance before (hbefore.trans hpre),
    fun before line hbefore => h.branches before line (hbefore.trans hpre)⟩

/-- One more line, which is no branch or end unless a conditional is open. -/
theorem Nested.concat {ls : List Text} (h : Nested ls) {line : Text}
    (hline : isBranch line = true → closings ls < openings ls) : Nested (ls ++ [line]) := by
  refine ⟨fun before hbefore => ?_, fun before branch hbefore hbranch => ?_⟩
  · rcases List.prefix_concat_iff.mp hbefore with rfl | hbefore
    · have hle := h.balance ls (List.prefix_refl ls)
      rw [openings_concat, closings_concat]
      by_cases hcloses : bracket? line = some .closing
      · have hlt := hline (isBranch_of_closing hcloses)
        rw [if_pos hcloses]
        omega
      · rw [if_neg hcloses]
        omega
    · exact h.balance before hbefore
  · rcases List.prefix_concat_iff.mp hbefore with heq | hbefore
    · obtain ⟨rfl, hlast⟩ := List.append_inj' heq rfl
      rw [List.singleton_inj.mp hlast] at hbranch
      exact hline hbranch
    · exact h.branches before branch hbefore hbranch

/-! ### Rules -/

namespace Rule

/-- The shape of a rule while it is read, with so many conditionals open in it. -/
structure IsShaped (r : Rule) (depth : Nat) : Prop where
  header : isRuleHeader r.header = true
  lines : ∀ l ∈ r.body, IsBodyLine l
  nested : Nested r.body
  depth : openings r.body = closings r.body + depth
  precomment : ∀ l ∈ r.precomment, Reader.isRuleComment l = true

variable {r : Rule} {depth depth' : Nat} {line : Text}

theorem IsShaped.addLine (h : r.IsShaped depth) (hline : IsBodyLine line)
    (hbranch : isBranch line = true → 0 < depth)
    (hdepth : openings [line] + depth = closings [line] + depth') : (r.addLine line).IsShaped depth' where
  header := h.header
  lines := List.forall_mem_append.mpr ⟨h.lines, List.forall_mem_singleton.mpr hline⟩
  nested := h.nested.concat fun hb => by
    have hpos := hbranch hb
    have hcount := h.depth
    omega
  depth := by
    have hcount := h.depth
    change openings (r.body ++ [line]) = closings (r.body ++ [line]) + depth'
    rw [openings, closings, List.countP_append, List.countP_append]
    unfold openings closings at hcount hdepth
    omega
  precomment := h.precomment

end Rule

/-- **The reader counts the conditionals** that are open in the body of the open rule. -/
theorem keptUp_isShaped : Reader.KeptUp Rule.IsShaped where
  opened header comment hheader hcomment :=
    ⟨hheader, by simp [Rule.ofHeader], nested_nil, rfl, hcomment⟩
  text r depth line h htext := by
    refine h.addLine (isBodyLine_of_text htext) (fun hbranch => ?_) ?_
    · rw [isBranch, htext] at hbranch
      cases hbranch
    · simp [openings, closings, bracket?_of_text htext]
  opening r depth line h htext hopens := by
    have hbracket := bracket?_of_opens htext hopens
    refine h.addLine (isBodyLine_of_directive (by simp [isDirective, hopens])) (fun hbranch => ?_) ?_
    · rw [isBranch_of_opensConditional hopens] at hbranch
      cases hbranch
    · simp [openings, closings, hbracket]
      omega
  middle r depth line h _ hopens helse hcloses := by
    have hbracket := bracket?_of_neither hopens hcloses
    refine h.addLine (isBodyLine_of_directive (by simp [isDirective, helse])) (fun _ => by omega) ?_
    simp [openings, closings, hbracket]
  closing r depth line h htext hopens hcloses := by
    have hbracket := bracket?_of_closes htext hopens hcloses
    refine h.addLine (isBodyLine_of_directive (by simp [isDirective, hcloses])) (fun _ => by omega) ?_
    simp [openings, closings, hbracket]
    omega

/-! ### What stands before a rule -/

/-- No comment that belongs to the rule behind it. -/
def NotLeft (e e' : Entry) : Prop :=
  ∀ l r, e = .line l → e' = .rule r → Reader.isRuleComment l = false

theorem notLeft_line (e : Entry) (l : Text) : NotLeft e (.line l) := fun _ _ _ h => by cases h

namespace Reader

/-- No comment is left in front of a rule, be it closed or open. -/
structure TakesComments (s : Reader) : Prop where
  entries : s.entries.IsChain NotLeft
  current : s.current.isSome → ∀ l, s.entries.getLast? = some (.line l) → isRuleComment l = false

variable {s s' : Reader} {line : Text}

theorem isChain_append_lines {es : List Entry} (h : es.IsChain NotLeft) (ls : List Text) :
    (es ++ ls.map Entry.line).IsChain NotLeft := by
  induction ls using List.reverseRecOn with
  | nil => simpa using h
  | append_singleton ls l ih =>
    rw [List.map_append, ← List.append_assoc]
    refine List.isChain_append.mpr ⟨ih, List.isChain_singleton _, fun e _ e' he' => ?_⟩
    obtain rfl : Entry.line l = e' := by simpa using he'
    exact notLeft_line e l

theorem TakesComments.closeRule (h : s.TakesComments) : s.closeRule.TakesComments := by
  refine ⟨?_, fun hsome => ?_⟩
  · unfold Reader.closeRule
    cases hopen : s.current with
    | none => exact h.entries
    | some r =>
      have hlast := h.current (by rw [hopen]; rfl)
      dsimp only
      rw [closedEntries, ← List.singleton_append, ← List.append_assoc]
      refine isChain_append_lines ?_ _
      refine List.isChain_append.mpr ⟨h.entries, List.isChain_singleton _, fun e he e' he' => ?_⟩
      rintro l r' rfl -
      exact hlast l he
  · rw [current_closeRule] at hsome
    cases hsome

theorem getLast?_splitComment {es : List Entry} {l : Text}
    (h : (splitComment es).1.getLast? = some (.line l)) : isRuleComment l = false := by
  induction es with
  | nil => cases h
  | cons e es ih =>
    unfold splitComment at h
    cases hsplit : splitComment es with
    | mk before comment =>
      rw [hsplit] at h ih
      cases before with
      | cons b before => exact ih (by simpa [List.getLast?_cons] using h)
      | nil =>
        cases e with
        | rule r => simp at h
        | line l' =>
          dsimp only at h
          split at h
          · cases h
          · rename_i hnot
            obtain rfl : l' = l := by simpa using h
            simpa using hnot

theorem TakesComments.takes (h : s.TakesComments) (hline : s.Takes line s') : s'.TakesComments := by
  cases hline with
  | text | opening | middle | closing => exact ⟨h.entries, fun _ => h.current rfl⟩
  | outside =>
    exact ⟨isChain_append_lines h.entries [line], nofun⟩
  | header hopens =>
    refine ⟨?_, fun _ l hl => getLast?_splitComment hl⟩
    have hchain := h.closeRule.entries
    rw [← splitComment_eq s.closeRule.entries] at hchain
    exact (List.isChain_append.mp hchain).1
  | other hends =>
    have hclosed := h.closeRule
    have hnone := current_closeRule s
    generalize s.closeRule = s' at hclosed hnone
    obtain ⟨es, current, depth⟩ := s'
    obtain rfl : current = none := hnone
    exact ⟨isChain_append_lines hclosed.entries [line], nofun⟩

end Reader

/-- The comment before a rule is taken into it, but for a line that begins a script. -/
theorem takesComments_of_parse (t : Text) : (parse t).entries.IsChain NotLeft := by
  unfold parse
  split
  · exact List.isChain_nil
  · have hrun := Reader.run_induction (fun s _ => s.TakesComments) ⟨List.isChain_nil, nofun⟩
      fun h hline => h.takes hline
    exact (hrun _).closeRule.entries

/-! ### All rules -/

/-- The shape of a rule that was read. -/
structure Rule.IsWellShaped (r : Rule) : Prop where
  /-- The body has recipe lines, blank lines, comments and the lines of conditionals. -/
  lines : ∀ l ∈ r.body, IsBodyLine l
  /-- It does not end with a blank line or a comment. -/
  last : ∀ l, r.body.getLast? = some l → isBlankLine l = false ∧ isComment l = false
  /-- No more conditionals have been ended in it than opened at any point, and there is no other
  branch or end where none is open. -/
  nested : Nested r.body
  /-- The lines before it are comments, and none of them begins a script. -/
  precomment : ∀ l ∈ r.precomment, isComment l = true ∧ startsWith ['#', '!'] l = false

/-- **The shape of what was read**, whatever the text: every rule is well shaped, and directly before a
rule no comment is left but a line that begins a script. -/
theorem isWellShaped_of_parse (t : Text) :
    (∀ r ∈ (parse t).rules, r.IsWellShaped) ∧
      ∀ before l r after, (parse t).entries = before ++ .line l :: .rule r :: after →
        isComment l = true → startsWith ['#', '!'] l = true := by
  refine ⟨fun r hr => ?_, fun before l r after hentries hcomment => ?_⟩
  · have hmem := mem_rules_iff.mp hr
    obtain ⟨whole, depth, hwhole, rfl⟩ := exists_whole_of_parse keptUp_isShaped t r hmem
    have hpre : Reader.firmPart whole.body <+: whole.body := List.rdropWhile_prefix _ _
    refine ⟨fun l hl => hwhole.lines l (hpre.subset hl), fun l hl => ?_, hwhole.nested.of_prefix hpre,
      fun l hl => ?_⟩
    · have hloose := isLoose_body_of_parse t _ hmem
      rw [hl, Option.any_some, Reader.isLoose, Bool.or_eq_false_iff] at hloose
      exact hloose
    · simpa [Reader.isRuleComment] using hwhole.precomment l hl
  · have hchain := takesComments_of_parse t
    rw [hentries] at hchain
    have hleft := (List.isChain_cons_cons.mp (List.isChain_append.mp hchain).2.1).1 l r rfl rfl
    simpa [Reader.isRuleComment, hcomment] using hleft

end Packaging.Makefile
