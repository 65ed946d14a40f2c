import Mathlib.Data.List.DropRight
import Packaging.Proofs.Makefile.Lines

/-!
# What a line does to the reader of a makefile

`Reader.Takes` has a case for each thing that can become of a line. Which it is depends on the line, on
whether a rule is open, and on whether a conditional is open in that rule. What is said of rules that
were read goes by these cases: a rule is opened by its header, takes lines one by one, and loses the
loose lines at its end when it is closed.

## What is proved

* `Reader.takes_feed` — one of these cases it is.
* `Reader.run_induction` — what holds at the start and is kept up in each of them holds after a run.
* `exists_whole_of_parse` — what holds of a rule that was just opened, and is kept up by each line that
  the rule takes, holds of every rule that was read, before its loose end was cut off.
* `isLoose_body_of_parse` — so the body of a rule that was read does not end with a blank line or a
  comment.
-/

namespace Packaging.Makefile

open Text

namespace Reader

/-! ### One line -/

/-- The line opens a rule: it is a header, and nothing that an open rule takes. -/
structure Opens (s : Reader) (line : Text) : Prop where
  noText : (isRecipe line || isLoose line) = false
  noOpening : opensConditional line = false
  noBranch : (isElse line || closesConditional line) = true → s.depth = 0
  header : isRuleHeader line = true
  noInclude : isInclude line = false

/-- The line is no header, and nothing that an open rule takes. -/
structure EndsRule (s : Reader) (line : Text) : Prop where
  noText : (isRecipe line || isLoose line) = false
  noOpening : opensConditional line = false
  noBranch : (isElse line || closesConditional line) = true → s.depth = 0
  noHeader : (isRuleHeader line && !isInclude line) = false

/-- What becomes of a reader that takes a line. -/
inductive Takes : Reader → (line : Text) → Reader → Prop
  /-- A recipe line, a blank line or a comment goes to the open rule. -/
  | text {es : List Entry} {r : Rule} {depth : Nat} {line : Text}
      (hline : (isRecipe line || isLoose line) = true) :
      Takes ⟨es, some r, depth⟩ line ⟨es, some (r.addLine line), depth⟩
  /-- So does the start of a conditional, -/
  | opening {es : List Entry} {r : Rule} {depth : Nat} {line : Text}
      (hline : (isRecipe line || isLoose line) = false) (hopens : opensConditional line = true) :
      Takes ⟨es, some r, depth⟩ line ⟨es, some (r.addLine line), depth + 1⟩
  /-- and, if one is open there, what is between its branches -/
  | middle {es : List Entry} {r : Rule} {depth : Nat} {line : Text}
      (hline : (isRecipe line || isLoose line) = false) (hopens : opensConditional line = false)
      (helse : isElse line = true) (hcloses : closesConditional line = false) :
      Takes ⟨es, some r, depth + 1⟩ line ⟨es, some (r.addLine line), depth + 1⟩
  /-- or at its end. -/
  | closing {es : List Entry} {r : Rule} {depth : Nat} {line : Text}
      (hline : (isRecipe line || isLoose line) = false) (hopens : opensConditional line = false)
      (hcloses : closesConditional line = true) :
      Takes ⟨es, some r, depth + 1⟩ line ⟨es, some (r.addLine line), depth⟩
  /-- If no rule is open, text and the start of a conditional stay outside of rules. -/
  | outside {es : List Entry} {depth : Nat} {line : Text}
      (hline : (isRecipe line || isLoose line || opensConditional line) = true) :
      Takes ⟨es, none, depth⟩ line ⟨es ++ [.line line], none, depth⟩
  /-- A header opens a rule. -/
  | header {s : Reader} {line : Text} (hline : s.Opens line) : Takes s line (s.openRule line)
  /-- Any other line closes the open rule and stays outside. -/
  | other {s : Reader} {line : Text} (hline : s.EndsRule line) :
      Takes s line (s.closeRule.addLine line)

variable {s s' : Reader} {line : Text}

/-- A branch or an end goes to no rule if no conditional is open in one. -/
theorem branch_eq_false (h : (isElse line || closesConditional line) = true → s.depth = 0) :
    ((isElse line || closesConditional line) && decide (0 < s.depth)) = false := by
  cases hword : isElse line || closesConditional line with
  | false => rfl
  | true => simp [h hword]

theorem Takes.feed_eq (h : s.Takes line s') : s.feed line = s' := by
  cases h with
  | text hline => simp [feed, hline, addLine]
  | opening hline hopens => simp [feed, hline, hopens, addLine]
  | middle hline hopens helse hcloses => simp [feed, hline, hopens, helse, hcloses, addRuleLine]
  | closing hline hopens hcloses => simp [feed, hline, hopens, hcloses, addRuleLine]
  | outside hline =>
    rcases Bool.or_eq_true _ _ ▸ hline with htext | hopens
    · simp [feed, htext, addLine]
    · cases htext : isRecipe line || isLoose line <;> simp [feed, htext, hopens, addLine]
  | header hline =>
    rw [feed, hline.noText, hline.noOpening, branch_eq_false hline.noBranch, hline.header,
      hline.noInclude]
    rfl
  | other hline =>
    rw [feed, hline.noText, hline.noOpening, branch_eq_false hline.noBranch, hline.noHeader]
    rfl

/-- A line that a rule takes because of its conditionals finds one open, and with it the rule. -/
theorem Sound.exists_eq (hs : s.Sound) (hdepth : 0 < s.depth) :
    ∃ es r depth, s = ⟨es, some r, depth + 1⟩ := by
  obtain ⟨es, current, depth⟩ := s
  obtain ⟨r, hr⟩ := Option.isSome_iff_exists.mp (hs.open_of_depth hdepth)
  obtain ⟨n, hn⟩ := Nat.exists_eq_succ_of_ne_zero hdepth.ne'
  exact ⟨es, r, n, by simp_all⟩

/-- **One of these cases it is**, whatever the line. -/
theorem takes_feed (hs : s.Sound) (line : Text) : s.Takes line (s.feed line) := by
  suffices h : ∃ s', s.Takes line s' by
    obtain ⟨s', h⟩ := h
    rwa [h.feed_eq]
  cases htext : isRecipe line || isLoose line with
  | true =>
    obtain ⟨es, _ | r, depth⟩ := s
    · exact ⟨_, .outside (by rw [htext, Bool.true_or])⟩
    · exact ⟨_, .text htext⟩
  | false =>
    cases hopens : opensConditional line with
    | true =>
      obtain ⟨es, _ | r, depth⟩ := s
      · exact ⟨_, .outside (by rw [hopens, Bool.or_true])⟩
      · exact ⟨_, .opening htext hopens⟩
    | false =>
      by_cases hbranch : (isElse line || closesConditional line) = true ∧ 0 < s.depth
      · obtain ⟨hword, hdepth⟩ := hbranch
        obtain ⟨es, r, depth, rfl⟩ := hs.exists_eq hdepth
        cases hcloses : closesConditional line with
        | true => exact ⟨_, .closing htext hopens hcloses⟩
        | false => exact ⟨_, .middle htext hopens (by simpa [hcloses] using hword) hcloses⟩
      · have hnone : (isElse line || closesConditional line) = true → s.depth = 0 := fun hword =>
          Nat.eq_zero_of_not_pos fun hdepth => hbranch ⟨hword, hdepth⟩
        cases hheader : isRuleHeader line && !isInclude line with
        | true =>
          have hparts : isRuleHeader line = true ∧ isInclude line = false := by simpa using hheader
          exact ⟨_, .header ⟨htext, hopens, hnone, hparts.1, hparts.2⟩⟩
        | false => exact ⟨_, .other ⟨htext, hopens, hnone, hheader⟩⟩

/-! ### Runs -/

/-- **What every line keeps up, a run keeps up.** The invariant is about a reader and the lines that it
has taken. -/
theorem run_induction (Inv : Reader → List Text → Prop) (hstart : Inv {} [])
    (htakes : ∀ {s s' : Reader} {ls : List Text} {line : Text}, Inv s ls → s.Takes line s' →
      Inv s' (ls ++ [line])) (ls : List Text) : Inv (ls.foldl feed {}) ls := by
  induction ls using List.reverseRecOn with
  | nil => exact hstart
  | append_singleton ls line ih =>
    rw [List.foldl_append]
    exact htakes ih (takes_feed (foldl_feed ls sound_empty).1 line)

/-! ### Rules -/

theorem isRuleComment_of_mem_splitComment {es : List Entry} {l : Text} (h : l ∈ (splitComment es).2) :
    isRuleComment l = true := by
  induction es with
  | nil => cases h
  | cons e es ih =>
    unfold splitComment at h
    cases hsplit : splitComment es with
    | mk before comment =>
      rw [hsplit] at h ih
      cases before with
      | cons b before => exact ih h
      | nil =>
        cases e with
        | rule r => exact ih h
        | line l' =>
          dsimp only at h
          split at h
          · rename_i hcomment
            rcases List.mem_cons.mp h with rfl | h
            · exact hcomment
            · exact ih h
          · exact ih h

/-- What remains of a body when its rule is closed. -/
def firmPart (body : List Text) : List Text := body.rdropWhile isLoose

theorem isLoose_firmPart (body : List Text) : (firmPart body).getLast?.any isLoose = false := by
  by_cases hne : firmPart body = []
  · rw [hne]
    rfl
  · rw [List.getLast?_eq_getLast_of_ne_nil hne, Option.any_some, Bool.eq_false_iff]
    exact List.rdropWhile_last_not _ _ hne

theorem rule_mem_closedEntries {r whole : Rule} (h : .rule r ∈ closedEntries whole) :
    r = { whole with body := firmPart whole.body } := by
  simpa [closedEntries, firmPart, List.rdropWhile] using h

/-- What holds of a rule that was just opened, and is kept up by each line that the rule takes. The
number is that of the conditionals that are open in it. -/
structure KeptUp (P : Rule → Nat → Prop) : Prop where
  opened : ∀ header comment, isRuleHeader header = true → (∀ l ∈ comment, isRuleComment l = true) →
    P { Rule.ofHeader header with precomment := comment } 0
  text : ∀ r depth line, P r depth → (isRecipe line || isLoose line) = true → P (r.addLine line) depth
  opening : ∀ r depth line, P r depth → (isRecipe line || isLoose line) = false →
    opensConditional line = true → P (r.addLine line) (depth + 1)
  middle : ∀ r depth line, P r (depth + 1) → (isRecipe line || isLoose line) = false →
    opensConditional line = false → isElse line = true → closesConditional line = false →
      P (r.addLine line) (depth + 1)
  closing : ∀ r depth line, P r (depth + 1) → (isRecipe line || isLoose line) = false →
    opensConditional line = false → closesConditional line = true → P (r.addLine line) depth

/-- It holds of the open rule, and held of every other rule when that was closed. -/
structure Holds (P : Rule → Nat → Prop) (s : Reader) : Prop where
  current : ∀ r, s.current = some r → P r s.depth
  entries : ∀ r, .rule r ∈ s.entries →
    ∃ whole depth, P whole depth ∧ r = { whole with body := firmPart whole.body }

variable {P : Rule → Nat → Prop}

theorem depth_closeRule (s : Reader) : s.closeRule.depth = 0 := by
  unfold Reader.closeRule
  split <;> rfl

theorem Holds.closeRule (h : s.Holds P) : s.closeRule.Holds P := by
  refine ⟨fun r hr => ?_, fun r hr => ?_⟩
  · rw [current_closeRule] at hr
    cases hr
  · unfold Reader.closeRule at hr
    split at hr
    · exact h.entries r hr
    · rename_i whole hopen
      rcases List.mem_append.mp hr with hr | hr
      · exact h.entries r hr
      · exact ⟨whole, s.depth, h.current whole hopen, rule_mem_closedEntries hr⟩

theorem Holds.addOutside {es : List Entry} {depth depth' : Nat} (h : Holds P ⟨es, none, depth⟩)
    (line : Text) : Holds P ⟨es ++ [.line line], none, depth'⟩ :=
  ⟨nofun, fun r hr => h.entries r (by simpa using hr)⟩

/-- **Each line keeps it up.** -/
theorem Holds.takes (hP : KeptUp P) (h : s.Holds P) (hline : s.Takes line s') : s'.Holds P := by
  cases hline with
  | text htext =>
    refine ⟨?_, h.entries⟩
    rintro _ ⟨⟩
    exact hP.text _ _ line (h.current _ rfl) htext
  | opening htext hopens =>
    refine ⟨?_, h.entries⟩
    rintro _ ⟨⟩
    exact hP.opening _ _ line (h.current _ rfl) htext hopens
  | middle htext hopens helse hcloses =>
    refine ⟨?_, h.entries⟩
    rintro _ ⟨⟩
    exact hP.middle _ _ line (h.current _ rfl) htext hopens helse hcloses
  | closing htext hopens hcloses =>
    refine ⟨?_, h.entries⟩
    rintro _ ⟨⟩
    exact hP.closing _ _ line (h.current _ rfl) htext hopens hcloses
  | outside => exact h.addOutside line
  | header hopens =>
    refine ⟨?_, fun r hr => h.closeRule.entries r ?_⟩
    · rintro _ ⟨⟩
      change P _ s.closeRule.depth
      rw [depth_closeRule]
      exact hP.opened line _ hopens.header fun l hl => isRuleComment_of_mem_splitComment hl
    · rw [← splitComment_eq s.closeRule.entries]
      exact List.mem_append_left _ hr
  | other hends =>
    have hclosed := h.closeRule
    have hnone := current_closeRule s
    generalize s.closeRule = s' at hclosed hnone
    obtain ⟨es, current, depth⟩ := s'
    obtain rfl : current = none := hnone
    exact hclosed.addOutside line

end Reader

/-- **Every rule that was read** is, but for the loose lines at its end, a rule of which everything
holds that is kept up. -/
theorem exists_whole_of_parse {P : Rule → Nat → Prop} (hP : Reader.KeptUp P) (t : Text) :
    ∀ r, .rule r ∈ (parse t).entries →
      ∃ whole depth, P whole depth ∧ r = { whole with body := Reader.firmPart whole.body } := by
  unfold parse
  split
  · nofun
  · have hrun := Reader.run_induction (fun s _ => s.Holds P) ⟨nofun, nofun⟩
      fun h hline => h.takes hP hline
    exact (hrun _).closeRule.entries

theorem isLoose_body_of_parse (t : Text) :
    ∀ r, .rule r ∈ (parse t).entries → r.body.getLast?.any Reader.isLoose = false := by
  intro r hr
  have hany : Reader.KeptUp fun _ _ => True := by constructor <;> intros <;> trivial
  obtain ⟨whole, -, -, rfl⟩ := exists_whole_of_parse hany t r hr
  exact Reader.isLoose_firmPart whole.body

end Packaging.Makefile
