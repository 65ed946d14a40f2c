import Packaging.Makefile.Edit
import Packaging.Proofs.Makefile.Clearing
import Packaging.Proofs.Makefile.Shape

/-!
# Assignments and where they are looked up

The value of a variable is looked up outside of rules only. That is enough: a line that assigns is no
header, no text and no part of a conditional, so the reader never puts it into a rule, wherever it stands
and whatever is open there.

## What is proved

* `assignment?_eq_some_iff` — what is looked for on a line is an assignment as it is written.
* `Assigns.not_isRuleLine` — an assignment is none of the lines that a rule can have.
* `valueOf?_parse` — the value of a variable is the one that the first assignment to it in the text
  gives it, and no rule has an assignment to it.
-/

namespace Packaging.Makefile

open Text

/-! ### Assignments -/

/-- The words that conditionals are made of. -/
def directiveWords : List Text := openingWords ++ ["else".toList, "endif".toList]

/-- A name of variables: it is not empty, has no white space and none of the characters that end it, and
is no word of conditionals. -/
structure IsVariableName (name : Text) : Prop where
  ne_nil : name ≠ []
  noBlank : ∀ c ∈ name, isBlank c = false
  noMark : '#' ∉ name ∧ ':' ∉ name ∧ '=' ∉ name
  noDirective : name ∉ directiveWords

theorem IsVariableName.isWord {name : Text} (h : IsVariableName name) : IsWord name :=
  ⟨h.ne_nil, h.noBlank⟩

/-- What stands between a name and its value, apart from white space. -/
def assignmentSigns : List Text := [['='], [':', '='], ['?', '=']]

/-- The text begins with the name, a sign of assignment follows, maybe after white space, and then the
value, of which the white space at its ends is no part. -/
def AssignsAtStart (name t value : Text) : Prop :=
  ∃ gap sign rest, t = name ++ (gap ++ (sign ++ rest)) ∧ (∀ c ∈ gap, isBlank c = true) ∧
    sign ∈ assignmentSigns ∧ value = trim rest

/-- The line gives the name a value; `export` and white space may stand before the name. -/
def Assigns (name line value : Text) : Prop :=
  AssignsAtStart name line value ∨ ∃ blanks t, blanks ≠ [] ∧ (∀ c ∈ blanks, isBlank c = true) ∧
    line = "export".toList ++ (blanks ++ t) ∧ AssignsAtStart name t value

theorem mem_assignmentSigns {sign : Text} (h : sign ∈ assignmentSigns) :
    sign = ['='] ∨ sign = [':', '='] ∨ sign = ['?', '='] := by
  simpa [assignmentSigns] using h

/-- A sign of assignment begins with a character that is neither white space nor a letter. -/
theorem exists_cons_of_mem_assignmentSigns {sign : Text} (h : sign ∈ assignmentSigns) :
    ∃ c cs, sign = c :: cs ∧ isBlank c = false ∧ c ∉ "export".toList := by
  rcases mem_assignmentSigns h with rfl | rfl | rfl
  · exact ⟨'=', [], rfl, by decide, by decide⟩
  · exact ⟨':', ['='], rfl, by decide, by decide⟩
  · exact ⟨'?', ['='], rfl, by decide, by decide⟩

theorem head?_sign_append {sign : Text} (h : sign ∈ assignmentSigns) (rest : Text) :
    (sign ++ rest).head?.any isBlank = false := by
  obtain ⟨c, cs, rfl, hc, -⟩ := exists_cons_of_mem_assignmentSigns h
  simp [hc]

section

variable {name t line value : Text}

theorem assignedTo?_eq_some_iff : assignedTo? name t = some value ↔ AssignsAtStart name t value := by
  unfold assignedTo? AssignsAtStart
  simp only [Option.bind_eq_bind, Option.bind_eq_some_iff, Option.pure_def, Option.some.injEq,
    dropStart?_eq_some_iff]
  constructor
  · rintro ⟨u, rfl, rest, hrest, rfl⟩
    have hu : u = u.takeWhile isBlank ++ trimStart u := List.takeWhile_append_dropWhile.symm
    have hgap : ∀ c ∈ u.takeWhile isBlank, isBlank c = true := fun c hc => List.mem_takeWhile_imp hc
    split at hrest
    · rename_i hmark
      exact ⟨_, [':', '='], rest, by rw [List.cons_append, ← hrest, ← hmark, ← hu], hgap,
        by decide, rfl⟩
    · rename_i hmark
      exact ⟨_, ['?', '='], rest, by rw [List.cons_append, ← hrest, ← hmark, ← hu], hgap,
        by decide, rfl⟩
    · exact ⟨_, ['='], rest, by rw [← hrest, ← hu], hgap, by decide, rfl⟩
  · rintro ⟨gap, sign, rest, rfl, hgap, hsign, rfl⟩
    have htrim : trimStart (gap ++ (sign ++ rest)) = sign ++ rest :=
      dropWhile_append_rest hgap (head?_sign_append hsign rest)
    refine ⟨gap ++ (sign ++ rest), rfl, rest, ?_, rfl⟩
    rw [htrim]
    rcases mem_assignmentSigns hsign with rfl | rfl | rfl <;> rfl

/-- The places after white space at the start of a text. -/
theorem mem_afterBlanks_iff {u : Text} :
    u ∈ afterBlanks t ↔ ∃ blanks, blanks ≠ [] ∧ (∀ c ∈ blanks, isBlank c = true) ∧ t = blanks ++ u := by
  induction t with
  | nil => simp [afterBlanks]
  | cons c t ih =>
    unfold afterBlanks
    split
    · rename_i hc
      rw [List.mem_append, List.mem_singleton, ih]
      constructor
      · rintro (⟨blanks, -, hblanks, rfl⟩ | rfl)
        · exact ⟨c :: blanks, by simp, List.forall_mem_cons.mpr ⟨hc, hblanks⟩, rfl⟩
        · exact ⟨[c], by simp, by simpa using hc, rfl⟩
      · rintro ⟨blanks, hne, hblanks, heq⟩
        obtain ⟨d, blanks, rfl⟩ := List.exists_cons_of_ne_nil hne
        obtain ⟨rfl, rfl⟩ := List.cons.inj heq
        cases blanks with
        | nil => exact .inr rfl
        | cons b blanks => exact .inl ⟨b :: blanks, by simp, (List.forall_mem_cons.mp hblanks).2, rfl⟩
    · rename_i hc
      constructor
      · rintro ⟨⟩
      · rintro ⟨blanks, hne, hblanks, heq⟩
        obtain ⟨d, blanks, rfl⟩ := List.exists_cons_of_ne_nil hne
        obtain ⟨rfl, -⟩ := List.cons.inj heq
        exact absurd (hblanks c List.mem_cons_self) hc

theorem AssignsAtStart.head (hname : IsWord name) (h : AssignsAtStart name t value) :
    t.head?.any isBlank = false := by
  obtain ⟨gap, sign, rest, rfl, -⟩ := h
  obtain ⟨c, cs, rfl⟩ := List.exists_cons_of_ne_nil hname.ne_nil
  simp [hname.noBlank c List.mem_cons_self]

/-- A name begins where the white space before it ends, so of the places after white space only one
counts. -/
theorem findSome?_afterBlanks_eq_some_iff (hname : IsWord name) :
    (afterBlanks t).findSome? (assignedTo? name) = some value ↔
      ∃ blanks u, blanks ≠ [] ∧ (∀ c ∈ blanks, isBlank c = true) ∧ t = blanks ++ u ∧
        AssignsAtStart name u value := by
  constructor
  · intro h
    obtain ⟨u, hu, hvalue⟩ := List.exists_of_findSome?_eq_some h
    obtain ⟨blanks, hne, hblanks, rfl⟩ := mem_afterBlanks_iff.mp hu
    exact ⟨blanks, u, hne, hblanks, rfl, assignedTo?_eq_some_iff.mp hvalue⟩
  · rintro ⟨blanks, u, hne, hblanks, rfl, hassigns⟩
    have hmem : u ∈ afterBlanks (blanks ++ u) := mem_afterBlanks_iff.mpr ⟨blanks, hne, hblanks, rfl⟩
    have hsome : ((afterBlanks (blanks ++ u)).findSome? (assignedTo? name)).isSome :=
      List.findSome?_isSome_iff.mpr ⟨u, hmem, by rw [assignedTo?_eq_some_iff.mpr hassigns]; rfl⟩
    obtain ⟨value', hvalue'⟩ := Option.isSome_iff_exists.mp hsome
    obtain ⟨u', hu', hfound⟩ := List.exists_of_findSome?_eq_some hvalue'
    obtain ⟨blanks', -, hblanks', heq⟩ := mem_afterBlanks_iff.mp hu'
    have hsame : u = u' := by
      rw [← dropWhile_append_rest hblanks (hassigns.head hname), heq,
        dropWhile_append_rest hblanks' ((assignedTo?_eq_some_iff.mp hfound).head hname)]
    rw [hvalue', ← hfound, ← hsame, assignedTo?_eq_some_iff.mpr hassigns]

theorem isBlank_of_mem_export {c : Char} (h : c ∈ "export".toList) : isBlank c = false :=
  noBlank_iff.mpr (by decide : "export".toList.all (!isBlank ·) = true) c h

/-- A name that white space and a sign follow is all of `export`, if the text begins with that and goes on
with white space. -/
theorem eq_export_of_append_eq (hname : IsWord name) {blanks gap sign rest : Text} (hne : blanks ≠ [])
    (hblanks : ∀ c ∈ blanks, isBlank c = true) (hgap : ∀ c ∈ gap, isBlank c = true)
    (hsign : sign ∈ assignmentSigns)
    (heq : "export".toList ++ (blanks ++ t) = name ++ (gap ++ (sign ++ rest))) :
    name = "export".toList ∧ blanks ++ t = gap ++ (sign ++ rest) := by
  obtain ⟨c, cs, rfl, -, hletter⟩ := exists_cons_of_mem_assignmentSigns hsign
  obtain ⟨b, bs, rfl⟩ := List.exists_cons_of_ne_nil hne
  have hb : isBlank b = true := hblanks b List.mem_cons_self
  rcases List.append_eq_append_iff.mp heq with ⟨more, hmore, hrest⟩ | ⟨more, hmore, hrest⟩
  -- The name is longer: it has the white space in it.
  · cases more with
    | nil => exact ⟨by rw [hmore, List.append_nil], hrest⟩
    | cons d more =>
      have hmem : b ∈ name := by simp [hmore, (List.cons.inj hrest).1]
      rw [hname.noBlank b hmem] at hb
      cases hb
  -- The name is shorter: a letter of `export` is white space or begins the sign.
  · cases more with
    | nil => exact ⟨by rw [hmore, List.append_nil], hrest.symm⟩
    | cons d more =>
      have hd : d ∈ "export".toList := by simp [hmore]
      cases gap with
      | nil =>
        have hc : c = d := (List.cons.inj hrest).1
        exact absurd (hc ▸ hd) hletter
      | cons g gap =>
        have hg := hgap g List.mem_cons_self
        rw [(List.cons.inj hrest).1, isBlank_of_mem_export hd] at hg
        cases hg

/-- After `export` and white space a line has an assignment or begins with one, not both: what begins
with a sign is no name. -/
theorem not_assignsAtStart_export (hname : IsWord name) {blanks : Text} (hne : blanks ≠ [])
    (hblanks : ∀ c ∈ blanks, isBlank c = true) {value' : Text} (ht : AssignsAtStart name t value') :
    ¬AssignsAtStart name ("export".toList ++ (blanks ++ t)) value := by
  rintro ⟨gap, sign, rest, heq, hgap, hsign, -⟩
  obtain ⟨hexport, hrest⟩ := eq_export_of_append_eq hname hne hblanks hgap hsign heq
  have hsame : t = sign ++ rest := by
    rw [← dropWhile_append_rest hblanks (ht.head hname), hrest,
      dropWhile_append_rest hgap (head?_sign_append hsign rest)]
  obtain ⟨c, cs, rfl, -, hletter⟩ := exists_cons_of_mem_assignmentSigns hsign
  obtain ⟨gap', sign', rest', htname, -⟩ := ht
  rw [hexport, hsame, List.cons_append] at htname
  obtain ⟨rfl, -⟩ := List.cons.inj htname
  exact hletter (by decide)

/-- **What is looked for is an assignment.** -/
theorem assignment?_eq_some_iff (hname : IsWord name) :
    assignment? name line = some value ↔ Assigns name line value := by
  have hexport : ∀ value, ((dropStart? "export".toList line).bind fun rest =>
      (afterBlanks rest).findSome? (assignedTo? name)) = some value ↔
        ∃ blanks t, blanks ≠ [] ∧ (∀ c ∈ blanks, isBlank c = true) ∧
          line = "export".toList ++ (blanks ++ t) ∧ AssignsAtStart name t value := by
    intro value
    simp only [Option.bind_eq_some_iff, dropStart?_eq_some_iff,
      findSome?_afterBlanks_eq_some_iff hname]
    constructor
    · rintro ⟨rest, rfl, blanks, t, hne, hblanks, rfl, ht⟩
      exact ⟨blanks, t, hne, hblanks, rfl, ht⟩
    · rintro ⟨blanks, t, hne, hblanks, rfl, ht⟩
      exact ⟨_, rfl, blanks, t, hne, hblanks, rfl, ht⟩
  rw [assignment?, Option.or_eq_some_iff, hexport, assignedTo?_eq_some_iff, Assigns]
  constructor
  · rintro (h | ⟨-, h⟩)
    · exact .inr h
    · exact .inl h
  · rintro (h | h)
    · refine .inr ⟨Option.eq_none_iff_forall_ne_some.mpr fun value' hvalue' => ?_, h⟩
      obtain ⟨blanks, t, hne, hblanks, rfl, ht⟩ := (hexport value').mp hvalue'
      exact not_assignsAtStart_export hname hne hblanks ht h
    · exact .inl h

/-! ### Lines of rules -/

/-- A line that a rule can have: its header, or a line of its body or of the comment before it. -/
def IsRuleLine (line : Text) : Prop := isRuleHeader line = true ∨ IsBodyLine line

theorem isRuleLine_of_parse (t : Text) {r : Rule} (hr : r ∈ (parse t).rules) {l : Text}
    (hl : l ∈ r.allLines) : IsRuleLine l := by
  obtain ⟨whole, depth, hwhole, rfl⟩ := exists_whole_of_parse keptUp_isShaped t r (mem_rules_iff.mp hr)
  have hbody : ∀ l ∈ Reader.firmPart whole.body, IsRuleLine l := fun l hl =>
    .inr (hwhole.lines l ((List.rdropWhile_prefix _ _).subset hl))
  rcases List.mem_append.mp hl with hl | hl
  · have hcomment := hwhole.precomment l hl
    rw [Reader.isRuleComment, Bool.and_eq_true] at hcomment
    exact .inr (.inr (.inr (.inl hcomment.1)))
  · unfold Rule.lines at hl
    split at hl
    · exact hbody l hl
    · rcases List.mem_cons.mp hl with rfl | hl
      · exact .inl hwhole.header
      · exact hbody l hl

/-- A line that begins with neither white space nor `#` is no text of a rule. -/
theorem isText_eq_false {c : Char} (hc : isBlank c = false) (hmark : c ≠ '#') (rest : Text) :
    (isRecipe (c :: rest) || Reader.isLoose (c :: rest)) = false := by
  have htab : c ≠ '\t' := by
    rintro rfl
    cases hc
  have hrecipe : isRecipe (c :: rest) = false := by
    simpa [isRecipe, startsWith_singleton_cons] using htab.symm
  have hstart : trimStart (c :: rest) = c :: rest := trimStart_eq_self (by simpa using hc)
  have hcomment : isComment (c :: rest) = false := by
    simpa [isComment, hrecipe, hstart, startsWith_singleton_cons] using hmark.symm
  simp [Reader.isLoose, isBlankLine, hrecipe, hcomment, hc]

/-- The first word of a line that begins with a word, and maybe goes on with it. -/
theorem firstWord_append {w : Text} (hw : IsWord w) (rest : Text) :
    firstWord (w ++ rest) = w ++ rest.takeWhile (!isBlank ·) := by
  have hword : IsWord (w ++ rest.takeWhile (!isBlank ·)) := by
    refine ⟨List.append_ne_nil_of_left_ne_nil hw.ne_nil _, List.forall_mem_append.mpr ⟨hw.noBlank, ?_⟩⟩
    intro c hc
    simpa using List.mem_takeWhile_imp hc
  have hends : (rest.dropWhile (!isBlank ·)).head?.all isBlank = true := by
    have hhead := head?_dropWhile (!isBlank ·) rest
    cases hrest : rest.dropWhile (!isBlank ·) with
    | nil => rfl
    | cons c cs =>
      rw [hrest] at hhead
      simpa using hhead
  have hwords := hword.words_append hends
  rw [List.append_assoc, List.takeWhile_append_dropWhile] at hwords
  rw [firstWord, hwords, List.headD_cons]

theorem takeWhile_blanks_append {blanks : Text} (hne : blanks ≠ [])
    (hblanks : ∀ c ∈ blanks, isBlank c = true) (t : Text) :
    (blanks ++ t).takeWhile (!isBlank ·) = [] := by
  obtain ⟨b, bs, rfl⟩ := List.exists_cons_of_ne_nil hne
  simp [hblanks b List.mem_cons_self]

/-! ### Assignments are no lines of rules -/

theorem Assigns.exists_cons (hname : IsVariableName name) (h : Assigns name line value) :
    ∃ c rest, line = c :: rest ∧ isBlank c = false ∧ c ≠ '#' := by
  rcases h with ⟨gap, sign, rest, rfl, -⟩ | ⟨blanks, t, -, -, rfl, -⟩
  · obtain ⟨c, cs, rfl⟩ := List.exists_cons_of_ne_nil hname.ne_nil
    refine ⟨c, _, rfl, hname.noBlank c List.mem_cons_self, ?_⟩
    rintro rfl
    exact hname.noMark.1 List.mem_cons_self
  · exact ⟨'e', _, rfl, by decide, by decide⟩

/-- The first word of a line that assigns is `export` or the name, or has a sign of assignment in it. -/
theorem Assigns.firstWord_not_mem (hname : IsVariableName name) (h : Assigns name line value) :
    firstWord line ∉ directiveWords := by
  rcases h with ⟨gap, sign, rest, rfl, hgap, hsign, -⟩ | ⟨blanks, t, hne, hblanks, rfl, -⟩
  · rw [firstWord_append hname.isWord]
    by_cases hnil : gap = []
    · have heq : '=' ∈ (sign ++ rest).takeWhile (!isBlank ·) := by
        have hblank : ∀ c ∈ [':', '?', '='], isBlank c = false := noBlank_iff.mpr (by decide)
        rcases mem_assignmentSigns hsign with rfl | rfl | rfl <;> simp [hblank]
      have hwords : ∀ w ∈ directiveWords, '=' ∉ w := by decide
      intro hmem
      refine hwords _ hmem (List.mem_append_right name ?_)
      rwa [hnil, List.nil_append]
    · rw [takeWhile_blanks_append hnil hgap, List.append_nil]
      exact hname.noDirective
  · have hexport : IsWord "export".toList := ⟨by decide, fun _ hc => isBlank_of_mem_export hc⟩
    rw [firstWord_append hexport, takeWhile_blanks_append hne hblanks, List.append_nil]
    decide

/-- There is no colon before the sign of assignment. -/
theorem Assigns.exists_sign (hname : IsVariableName name) (h : Assigns name line value) :
    ∃ start sign rest, line = start ++ (sign ++ rest) ∧ ':' ∉ start ∧ sign ∈ assignmentSigns := by
  have hcolon : ∀ blanks : Text, (∀ c ∈ blanks, isBlank c = true) → ':' ∉ blanks := by
    intro blanks hblanks hmem
    cases hblanks ':' hmem
  rcases h with ⟨gap, sign, rest, rfl, hgap, hsign, -⟩ |
    ⟨blanks, t, -, hblanks, rfl, gap, sign, rest, rfl, hgap, hsign, -⟩
  · exact ⟨name ++ gap, sign, rest, by simp only [List.append_assoc],
      by simp [hname.noMark.2.1, hcolon gap hgap], hsign⟩
  · exact ⟨"export".toList ++ (blanks ++ (name ++ gap)), sign, rest, by simp only [List.append_assoc],
      by simp [hname.noMark.2.1, hcolon gap hgap, hcolon blanks hblanks], hsign⟩

/-- What stands before the first colon, of a text that begins without one. -/
theorem prefix_of_cut? {start rest before after : Text} (hstart : ':' ∉ start)
    (hcut : cut? ':' (start ++ rest) = some (before, after)) : start <+: before := by
  have heq := (cut?_eq_some_iff.mp hcut).2
  rcases List.append_eq_append_iff.mp heq with ⟨more, rfl, -⟩ | ⟨more, rfl, hmore⟩
  · exact List.prefix_append start more
  · cases more with
    | nil => simp
    | cons c more =>
      obtain ⟨rfl, -⟩ := List.cons.inj hmore
      simp at hstart

/-- The first colon of a line that assigns comes after `=` or is followed by it. -/
theorem Assigns.isRuleHeader_eq (hname : IsVariableName name) (h : Assigns name line value) :
    isRuleHeader line = false := by
  obtain ⟨start, sign, rest, rfl, hstart, hsign⟩ := h.exists_sign hname
  unfold isRuleHeader
  cases hcut : cut? ':' (start ++ (sign ++ rest)) with
  | none => simp
  | some parts =>
    obtain ⟨before, after⟩ := parts
    suffices h : '=' ∈ before ∨ startsWith ['='] after = true by
      rcases h with h | h <;> simp [h]
    rcases mem_assignmentSigns hsign with rfl | rfl | rfl
    · rw [← List.append_assoc] at hcut
      exact .inl ((prefix_of_cut? (by simp [hstart]) hcut).subset (by simp))
    · have hcolon : cut? ':' (start ++ ':' :: '=' :: rest) = some (start, '=' :: rest) :=
        cut?_eq_some_iff.mpr ⟨hstart, rfl⟩
      obtain ⟨rfl, rfl⟩ : start = before ∧ '=' :: rest = after := by
        simpa using hcolon.symm.trans hcut
      exact .inr rfl
    · rw [← List.append_assoc] at hcut
      exact .inl ((prefix_of_cut? (by simp [hstart]) hcut).subset (by simp))

theorem isDirective_iff : isDirective line = true ↔ firstWord line ∈ directiveWords := by
  simp [isDirective, opensConditional, isElse, closesConditional, directiveWords, or_assoc]

/-- **An assignment is no line of a rule.** -/
theorem Assigns.not_isRuleLine (hname : IsVariableName name) (h : Assigns name line value) :
    ¬IsRuleLine line := by
  have hword := h.firstWord_not_mem hname
  obtain ⟨c, rest, rfl, hc, hmark⟩ := h.exists_cons hname
  have htext := isText_eq_false hc hmark rest
  rw [Reader.isLoose, Bool.or_eq_false_iff, Bool.or_eq_false_iff] at htext
  rintro (hheader | hrecipe | hblank | hcomment | hdirective)
  · rw [h.isRuleHeader_eq hname] at hheader
    cases hheader
  · rw [htext.1] at hrecipe
    cases hrecipe
  · rw [htext.2.1] at hblank
    cases hblank
  · rw [htext.2.2] at hcomment
    cases hcomment
  · exact hword (isDirective_iff.mp hdirective)

end

/-! ### Looking up -/

/-- Looking at all lines comes to the same as looking at those outside of rules, if there is nothing to
be found in rules. -/
theorem findSome?_linesOf {α : Type} {f : Text → Option α} {mk : Makefile}
    (h : ∀ r ∈ mk.rules, ∀ l ∈ r.allLines, f l = none) :
    (linesOf mk.entries).findSome? f = mk.globalLines.findSome? f := by
  obtain ⟨es, lacks⟩ := mk
  unfold rules at h
  unfold globalLines
  dsimp only at h ⊢
  induction es with
  | nil => rfl
  | cons e es ih =>
    rw [linesOf_cons, List.findSome?_append]
    cases e with
    | line l =>
      have hline : [l].findSome? f = f l := by cases hl : f l <;> simp [hl]
      rw [ih h, Entry.lines, hline, List.filterMap_cons]
      cases hl : f l <;> simp [hl]
    | rule r =>
      simp only [List.filterMap_cons, Entry.rule?] at h
      obtain ⟨hr, hes⟩ := List.forall_mem_cons.mp h
      rw [ih hes, Entry.lines, List.findSome?_eq_none_iff.mpr hr, Option.none_or,
        List.filterMap_cons]

/-- **The value of a variable** is the one that the first logical line of the text that assigns to it
gives it. No line of a rule assigns to it, be it in the header, in the body or before it. -/
theorem valueOf?_parse {name : Text} (hname : IsVariableName name) (t : Text) :
    (∀ value, (parse t).valueOf? name = some value ↔
      ∃ before line after, textLines t = before ++ line :: after ∧ Assigns name line value ∧
        ∀ l ∈ before, ∀ value', ¬Assigns name l value') ∧
    ((parse t).valueOf? name = none ↔ ∀ l ∈ textLines t, ∀ value, ¬Assigns name l value) ∧
    ∀ r ∈ (parse t).rules, ∀ l ∈ r.allLines, ∀ value, ¬Assigns name l value := by
  have hrules : ∀ r ∈ (parse t).rules, ∀ l ∈ r.allLines, ∀ value, ¬Assigns name l value :=
    fun r hr l hl value hassigns => hassigns.not_isRuleLine hname (isRuleLine_of_parse t hr hl)
  have hnone : ∀ l, assignment? name l = none ↔ ∀ value, ¬Assigns name l value := fun l => by
    rw [Option.eq_none_iff_forall_ne_some]
    exact forall_congr' fun value => not_congr (assignment?_eq_some_iff hname.isWord)
  have hvalue : (parse t).valueOf? name = (textLines t).findSome? (assignment? name) := by
    rw [← linesOf_parse_eq_textLines,
      findSome?_linesOf fun r hr l hl => (hnone l).mpr (hrules r hr l hl)]
    rfl
  refine ⟨fun value => ?_, ?_, hrules⟩
  · rw [hvalue, List.findSome?_eq_some_iff]
    simp only [assignment?_eq_some_iff hname.isWord, hnone]
  · rw [hvalue, List.findSome?_eq_none_iff]
    simp only [hnone]

/-- The only assignment comes after a rule in which a conditional is open. -/
def assignmentAfterRule : Text := "all:\nifdef V\n\tx\nexport CFLAGS := -O2 \\\n -g \n".toList

theorem valueOf?_assignmentAfterRule :
    (parse assignmentAfterRule).valueOf? "CFLAGS".toList = some "-O2 \\\n -g".toList ∧
      ∃ before line after, textLines assignmentAfterRule = before ++ line :: after ∧
        Assigns "CFLAGS".toList line "-O2 \\\n -g".toList ∧
        ∀ l ∈ before, ∀ value, ¬Assigns "CFLAGS".toList l value := by
  have hname : IsVariableName "CFLAGS".toList := ⟨by decide, noBlank_iff.mpr (by decide), by decide, by decide⟩
  have hvalue : (parse assignmentAfterRule).valueOf? "CFLAGS".toList = some "-O2 \\\n -g".toList := by
    decide +kernel
  exact ⟨hvalue, ((valueOf?_parse hname assignmentAfterRule).1 _).mp hvalue⟩

end Packaging.Makefile
