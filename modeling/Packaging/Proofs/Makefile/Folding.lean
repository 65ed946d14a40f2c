import Packaging.Proofs.Makefile.Exchange

/-!
# Headers over several lines

A header may be folded: a backslash at the end of a line continues it, and a word that is only a backslash
is no target and no prerequisite. So a line can be broken anywhere behind white space. A backslash that
comes directly after a word stays on it, though, and the rule gets another target or prerequisite.

## What is proved

* `headerWords_gap` — what becomes of the words on both sides of a gap.
* `opens_gap` — a header opens a rule however it is folded.
* `parse_folded` — what is read from a text in which a header is folded at another place, or in another
  way: the words of the rule are the same if and only if the gap does not begin with a backslash.
-/

namespace Packaging.Makefile

open Text

/-! ### Gaps -/

/-- A gap between words: white space, and backslashes at the ends of lines. -/
inductive IsGap : Text → Prop
  | nil : IsGap []
  | blank {c : Char} {gap : Text} (hc : isBlank c = true) (hline : c ≠ '\n') :
      IsGap gap → IsGap (c :: gap)
  | fold {gap : Text} : IsGap gap → IsGap ('\\' :: '\n' :: gap)

/-- What a gap adds to the word before it. -/
def gapMark (gap : Text) : Text := if startsWith ['\\'] gap then ['\\'] else []

/-- A gap of at least one character has white space after what it adds to the word before it. -/
theorem IsGap.exists_eq {gap : Text} (h : IsGap gap) (hne : gap ≠ []) :
    ∃ c rest, gap = gapMark gap ++ c :: rest ∧ isBlank c = true ∧ IsGap rest := by
  cases h with
  | nil => exact absurd rfl hne
  | @blank c rest hc hline hrest =>
    have hmark : gapMark (c :: rest) = [] := by
      have hc' : c ≠ '\\' := by
        rintro rfl
        cases hc
      simp [gapMark, startsWith_singleton_cons, hc'.symm]
    exact ⟨c, rest, by rw [hmark, List.nil_append], hc, hrest⟩
  | @fold rest hrest => exact ⟨'\n', rest, by simp [gapMark, startsWith_singleton_cons], by decide, hrest⟩

theorem IsGap.mem {gap : Text} (h : IsGap gap) {c : Char} (hc : c ∈ gap) :
    isBlank c = true ∨ c = '\\' := by
  induction h with
  | nil => cases hc
  | blank hblank hline hgap ih =>
    rcases List.mem_cons.mp hc with rfl | hc
    · exact .inl hblank
    · exact ih hc
  | fold hgap ih =>
    rcases List.mem_cons.mp hc with rfl | hc
    · exact .inr rfl
    rcases List.mem_cons.mp hc with rfl | hc
    · exact .inl (by decide)
    · exact ih hc

theorem IsGap.not_mem {gap : Text} (h : IsGap gap) {c : Char} (hblank : isBlank c = false)
    (hbackslash : c ≠ '\\') : c ∉ gap := by
  intro hmem
  rcases h.mem hmem with hc | heq
  · rw [hblank] at hc
    cases hc
  · exact hbackslash heq

theorem isChain_joins_cons {t : Text} (h : t.IsChain Joins) (hstart : t.head? ≠ some '\n') (c : Char) :
    (c :: t).IsChain Joins := by
  cases t with
  | nil => exact List.isChain_singleton c
  | cons d t =>
    refine List.isChain_cons_cons.mpr ⟨fun heq => ?_, h⟩
    rw [heq] at hstart
    exact absurd rfl hstart

/-- Gaps have a backslash before each newline. -/
theorem IsGap.isChain {gap : Text} (h : IsGap gap) : gap.IsChain Joins ∧ gap.head? ≠ some '\n' := by
  induction h with
  | nil => exact ⟨List.isChain_nil, by simp⟩
  | blank hc hline hgap ih => exact ⟨isChain_joins_cons ih.1 ih.2 _, by simpa using hline⟩
  | fold hgap ih =>
    have hline := isChain_joins_cons ih.1 ih.2 '\n'
    exact ⟨List.isChain_cons_cons.mpr ⟨fun _ => rfl, hline⟩, by simp⟩

/-! ### Words around a gap -/

/-- The text ends with a word. -/
def EndsWithWord (t : Text) : Prop := ∃ c, t.getLast? = some c ∧ isBlank c = false

/-- The text begins with a word. -/
def BeginsWithWord (t : Text) : Prop := ∃ c, t.head? = some c ∧ isBlank c = false

theorem isWord_cons {c : Char} {u : Text} (hc : isBlank c = false) (hu : ∀ d ∈ u, isBlank d = false) :
    IsWord (c :: u) := ⟨List.cons_ne_nil c u, List.forall_mem_cons.mpr ⟨hc, hu⟩⟩

/-- The last word of a text, and the words before it. Characters behind the text make it longer. -/
theorem exists_lastWord {t : Text} (h : EndsWithWord t) :
    ∃ ws w, IsWord w ∧ ∀ u, (∀ c ∈ u, isBlank c = false) → words (t ++ u) = ws ++ [w ++ u] := by
  obtain ⟨c, hlast, hc⟩ := h
  obtain ⟨init, rfl⟩ := List.getLast?_eq_some_iff.mp hlast
  clear hlast
  induction init using List.reverseRecOn generalizing c with
  | nil => exact ⟨[], [c], isWord_cons hc (by simp), fun u hu => (isWord_cons hc hu).words_eq⟩
  | append_singleton init b ih =>
    cases hb : isBlank b with
    | true =>
      refine ⟨words init, [c], isWord_cons hc (by simp), fun u hu => ?_⟩
      have hsplit := words_append_blank hb init (c :: u)
      rw [(isWord_cons hc hu).words_eq] at hsplit
      simpa using hsplit
    | false =>
      obtain ⟨ws, w, hw, hwords⟩ := ih b hb
      refine ⟨ws, w ++ [c], hw.append (isWord_cons hc (by simp)), fun u hu => ?_⟩
      simpa using hwords (c :: u) (List.forall_mem_cons.mpr ⟨hc, hu⟩)

/-- White space and folds have no words but the backslashes, which do not count. -/
theorem IsGap.headerWords_append {gap : Text} (h : IsGap gap) (t : Text) :
    Rule.headerWords (gap ++ t) = Rule.headerWords t := by
  induction h with
  | nil => rfl
  | blank hc hline hgap ih => rwa [List.cons_append, Rule.headerWords, words_cons_blank hc]
  | @fold gap hgap ih =>
    have hbackslash : IsWord ['\\'] := isWord_cons (by decide) (by simp)
    have hfold : words ('\\' :: '\n' :: (gap ++ t)) = ['\\'] :: words (gap ++ t) := by
      have hsplit := words_append_blank (by decide : isBlank '\n' = true) ['\\'] (gap ++ t)
      rwa [hbackslash.words_eq] at hsplit
    rw [List.cons_append, List.cons_append, Rule.headerWords, hfold, ← ih, Rule.headerWords]
    rfl

theorem append_gap {left gap right rest : Text} {c : Char} (h : gap = gapMark gap ++ c :: rest) :
    left ++ (gap ++ right) = left ++ gapMark gap ++ c :: (rest ++ right) := by
  calc left ++ (gap ++ right) = left ++ (gapMark gap ++ c :: rest ++ right) := by rw [← h]
    _ = left ++ gapMark gap ++ c :: (rest ++ right) := by simp

/-- The words of a header on both sides of a gap, of which the first goes up to the gap. -/
theorem headerWords_gap {gap : Text} (hgap : IsGap gap) (hne : gap ≠ []) (left right : Text) :
    Rule.headerWords (left ++ (gap ++ right)) =
      Rule.headerWords (left ++ gapMark gap) ++ Rule.headerWords right := by
  obtain ⟨c, rest, heq, hc, hrest⟩ := hgap.exists_eq hne
  rw [append_gap heq, Rule.headerWords, words_append_blank hc, List.filter_append,
    ← Rule.headerWords, ← Rule.headerWords, hrest.headerWords_append]

/-- A backslash behind the last word changes the words. -/
theorem headerWords_gapMark_iff {left gap : Text} (h : EndsWithWord left) :
    Rule.headerWords (left ++ gapMark gap) = Rule.headerWords left ↔ startsWith ['\\'] gap = false := by
  obtain ⟨ws, w, hw, hwords⟩ := exists_lastWord h
  cases hmark : startsWith ['\\'] gap with
  | false => simp [gapMark, hmark]
  | true =>
    have hbare := hwords [] (by simp)
    have hlonger := hwords ['\\'] (by simp; decide)
    rw [List.append_nil, List.append_nil] at hbare
    rw [gapMark, if_pos hmark, Rule.headerWords, Rule.headerWords, hbare, hlonger, List.filter_append,
      List.filter_append]
    refine iff_of_false (fun heq => ?_) (by simp)
    have hkept : [w ++ ['\\']].filter (· != ['\\']) = [w ++ ['\\']] := by simp [hw.ne_nil]
    have hlast := List.append_cancel_left heq
    rw [hkept] at hlast
    cases hw' : w != ['\\'] <;> simp [hw'] at hlast

/-! ### Headers -/

/-- The parts of a header before and after a gap between two targets or between two prerequisites. It is
not the gap behind a colon, before which there is no prerequisite. -/
structure IsAround (left right : Text) : Prop where
  ends : EndsWithWord left
  begins : BeginsWithWord right
  noColon : ∀ targets rest, left = targets ++ ':' :: rest → ':' ∉ targets → rest ≠ [] ∧ rest ≠ [':']

variable {left right gap : Text}

theorem colon_not_mem_gap (h : IsGap gap) : ':' ∉ gap := h.not_mem (by decide) (by decide)

theorem equals_not_mem_gap (h : IsGap gap) : '=' ∉ gap := h.not_mem (by decide) (by decide)

theorem cut?_append_of_not_mem {sep : Char} {start : Text} (h : sep ∉ start) (t : Text) :
    cut? sep (start ++ t) = (cut? sep t).map fun (before, after) => (start ++ before, after) := by
  induction start with
  | nil => simp
  | cons c start ih =>
    obtain ⟨hc, hstart⟩ := not_or.mp (mt List.mem_cons.mpr h)
    rw [List.cons_append, cut?, if_neg (Ne.symm hc), ih hstart, Option.map_map]
    rfl

theorem cut?_append_of_mem {sep : Char} {t before after : Text} (h : cut? sep t = some (before, after))
    (u : Text) : cut? sep (t ++ u) = some (before, after ++ u) := by
  obtain ⟨hbefore, rfl⟩ := cut?_eq_some_iff.mp h
  exact cut?_eq_some_iff.mpr ⟨hbefore, by simp⟩

theorem EndsWithWord.of_append {start t : Text} (h : EndsWithWord (start ++ t)) (hne : t ≠ []) :
    EndsWithWord t := by
  obtain ⟨c, hlast, hc⟩ := h
  exact ⟨c, by rwa [List.getLast?_append_of_ne_nil start hne] at hlast, hc⟩

/-- The words of a rule come from two texts, and the gap is in one of them. -/
inductive HasSides (left right : Text) : Prop
  | targets {front back : Text} {side : List Text} (hfront : EndsWithWord front)
      (h : ∀ gap, IsGap gap →
        (Rule.ofHeader (left ++ (gap ++ right))).targets = Rule.headerWords (front ++ (gap ++ back)) ∧
        (Rule.ofHeader (left ++ (gap ++ right))).prerequisites = side)
  | prerequisites {front back : Text} {side : List Text} (hfront : EndsWithWord front)
      (h : ∀ gap, IsGap gap →
        (Rule.ofHeader (left ++ (gap ++ right))).targets = side ∧
        (Rule.ofHeader (left ++ (gap ++ right))).prerequisites =
          Rule.headerWords (front ++ (gap ++ back)))

theorem IsAround.hasSides (h : IsAround left right) : HasSides left right := by
  cases hcut : cut? ':' left with
  | none =>
    have hstart : ∀ gap, IsGap gap → ':' ∉ left ++ gap := fun gap hgap =>
      (mt List.mem_append.mp (not_or.mpr ⟨cut?_eq_none_iff.mp hcut, colon_not_mem_gap hgap⟩))
    cases hright : cut? ':' right with
    | none =>
      refine @HasSides.targets left right left right [] h.ends fun gap hgap => ?_
      rw [Rule.ofHeader, ← List.append_assoc, cut?_append_of_not_mem (hstart gap hgap), hright]
      exact ⟨by rw [List.append_assoc]; rfl, rfl⟩
    | some parts =>
      obtain ⟨before, after⟩ := parts
      refine @HasSides.targets left right left before (Rule.headerWords
        ((dropStart? [':'] after).getD after)) h.ends fun gap hgap => ?_
      rw [Rule.ofHeader, ← List.append_assoc, cut?_append_of_not_mem (hstart gap hgap), hright]
      exact ⟨by rw [← List.append_assoc]; rfl, rfl⟩
  | some parts =>
    obtain ⟨targets, rest⟩ := parts
    obtain ⟨htargets, hleft⟩ := cut?_eq_some_iff.mp hcut
    obtain ⟨hne, hcolon⟩ := h.noColon targets rest hleft htargets
    have hends : EndsWithWord rest := by
      have hall := h.ends
      rw [hleft, ← List.singleton_append, ← List.append_assoc] at hall
      exact hall.of_append hne
    obtain ⟨d, more, rfl⟩ := List.exists_cons_of_ne_nil hne
    by_cases hd : d = ':'
    · subst hd
      have hmore : more ≠ [] := by simpa using hcolon
      refine @HasSides.prerequisites left right more right (Rule.headerWords targets)
        (@EndsWithWord.of_append [':'] more hends hmore) fun gap hgap => ?_
      rw [Rule.ofHeader, cut?_append_of_mem hcut]
      exact ⟨rfl, rfl⟩
    · refine @HasSides.prerequisites left right (d :: more) right (Rule.headerWords targets) hends
        fun gap hgap => ?_
      rw [Rule.ofHeader, cut?_append_of_mem hcut]
      exact ⟨rfl, by simp [dropStart?, Ne.symm hd]⟩

/-- **The words of a header with another gap** in it are the same if and only if the gap does not begin
with a backslash, if the one before it did not. -/
theorem sameWords_iff (h : IsAround left right) {old : Text} (hold : IsGap old) (hne : old ≠ [])
    (hblank : startsWith ['\\'] old = false) (hgap : IsGap gap) (hnew : gap ≠ []) :
    (Rule.ofHeader (left ++ (gap ++ right))).targets = (Rule.ofHeader (left ++ (old ++ right))).targets ∧
      (Rule.ofHeader (left ++ (gap ++ right))).prerequisites =
        (Rule.ofHeader (left ++ (old ++ right))).prerequisites ↔
      startsWith ['\\'] gap = false := by
  have hwords : ∀ front back, EndsWithWord front → (Rule.headerWords (front ++ (gap ++ back)) =
      Rule.headerWords (front ++ (old ++ back)) ↔ startsWith ['\\'] gap = false) := by
    intro front back hfront
    rw [headerWords_gap hgap hnew, headerWords_gap hold hne, List.append_cancel_right_eq,
      (headerWords_gapMark_iff hfront).mpr hblank, headerWords_gapMark_iff hfront]
  cases h.hasSides with
  | targets hfront hsides =>
    rw [(hsides gap hgap).1, (hsides old hold).1, (hsides gap hgap).2, (hsides old hold).2,
      hwords _ _ hfront]
    exact and_iff_left rfl
  | prerequisites hfront hsides =>
    rw [(hsides gap hgap).1, (hsides old hold).1, (hsides gap hgap).2, (hsides old hold).2,
      hwords _ _ hfront]
    exact and_iff_right rfl

/-! ### Opening a rule -/

section

variable {old : Text}

/-- The first word of a header is the same with another gap, or has a backslash then. -/
theorem firstWord_gap (h : EndsWithWord left) (hold : IsGap old) (hne : old ≠ [])
    (hblank : startsWith ['\\'] old = false) (hgap : IsGap gap) (hnew : gap ≠ []) :
    firstWord (left ++ (gap ++ right)) = firstWord (left ++ (old ++ right)) ∨
      '\\' ∈ firstWord (left ++ (gap ++ right)) := by
  obtain ⟨ws, w, hw, hwords⟩ := exists_lastWord h
  have hfirst : ∀ g, IsGap g → g ≠ [] →
      firstWord (left ++ (g ++ right)) = (ws ++ [w ++ gapMark g]).headD [] := by
    intro g hg hgne
    obtain ⟨c, rest, heq, hc, -⟩ := hg.exists_eq hgne
    have hmark : ∀ d ∈ gapMark g, isBlank d = false := by
      rw [noBlank_iff, gapMark]
      split <;> decide
    rw [firstWord, append_gap heq, words_append_blank hc, hwords _ hmark]
    cases ws <;> rfl
  rw [hfirst gap hgap hnew, hfirst old hold hne]
  cases ws with
  | cons v ws => exact .inl rfl
  | nil =>
    cases hmark : startsWith ['\\'] gap with
    | false =>
      left
      simp [gapMark, hmark, hblank]
    | true =>
      right
      simp [gapMark, hmark]

/-- A first word with a backslash is none that stands for a directive. -/
theorem contains_firstWord_eq_false {line : Text} (h : '\\' ∈ firstWord line) {ws : List Text}
    (hws : ∀ w ∈ ws, '\\' ∉ w) : ws.contains (firstWord line) = false := by
  rw [Bool.eq_false_iff, Ne, List.contains_iff_mem]
  exact fun hmem => hws _ hmem h

theorem isBlankLine_append (h : EndsWithWord left) (t : Text) : isBlankLine (left ++ t) = false := by
  obtain ⟨c, hlast, hc⟩ := h
  rw [isBlankLine, List.all_eq_false]
  exact ⟨c, List.mem_append_left t (List.mem_of_getLast? hlast), by simp [hc]⟩

theorem isRecipe_append (h : EndsWithWord left) (t : Text) : isRecipe (left ++ t) = isRecipe left := by
  obtain ⟨c, hlast, -⟩ := h
  obtain ⟨d, start, rfl⟩ := List.exists_cons_of_ne_nil (List.ne_nil_of_mem (List.mem_of_getLast? hlast))
  rw [isRecipe, isRecipe, List.cons_append, startsWith_singleton_cons, startsWith_singleton_cons]

theorem isComment_append (h : EndsWithWord left) (t : Text) : isComment (left ++ t) = isComment left := by
  have hstart : left.dropWhile isBlank ≠ [] := by
    intro hnil
    have hblank := isBlankLine_append h []
    rw [List.append_nil, ← Bool.not_eq_true, isBlankLine, List.all_eq_true] at hblank
    exact hblank (List.dropWhile_eq_nil_iff.mp hnil)
  obtain ⟨c, rest, hcons⟩ := List.exists_cons_of_ne_nil hstart
  have hleft : trimStart left = c :: rest := hcons
  have hall : trimStart (left ++ t) = c :: (rest ++ t) := by
    rw [trimStart, trimStartOf, List.dropWhile_append, if_neg (mt List.isEmpty_iff.mp hstart), hcons]
    rfl
  rw [isComment, isComment, isRecipe_append h, hall, hleft, startsWith_singleton_cons,
    startsWith_singleton_cons]

theorem startsWith_append_of_head {p t u : Text} {c : Char} (hu : u.head? = some c) (hc : c ∉ p) :
    startsWith p (t ++ u) = startsWith p t := by
  obtain ⟨more, rfl⟩ := List.head?_eq_some_iff.mp hu
  induction p generalizing t with
  | nil => rfl
  | cons a p ih =>
    obtain ⟨ha, hp⟩ := not_or.mp (mt List.mem_cons.mpr hc)
    cases t with
    | nil => simp [startsWith, List.isPrefixOf, Ne.symm ha]
    | cons d t =>
      have hrest := @ih t hp
      rw [startsWith, startsWith] at hrest
      rw [startsWith, startsWith, List.cons_append, List.isPrefixOf, List.isPrefixOf, hrest]

/-- The gap does not go on with what is an assignment behind a colon. -/
theorem startsWith_gap {p : Text} (hgap : IsGap gap) (hne : gap ≠ []) (hp : ∀ c ∈ p, c = ':' ∨ c = '=')
    (t u : Text) : startsWith p (t ++ (gap ++ u)) = startsWith p t := by
  obtain ⟨c, more, rfl⟩ := List.exists_cons_of_ne_nil hne
  refine @startsWith_append_of_head p t (c :: more ++ u) c rfl fun hc => ?_
  rcases hp c hc with rfl | rfl
  · exact colon_not_mem_gap hgap List.mem_cons_self
  · exact equals_not_mem_gap hgap List.mem_cons_self

/-- Whether a line is a header is decided by what stands around the gap. -/
theorem exists_isRuleHeader_eq (h : IsAround left right) :
    ∃ value, ∀ gap, IsGap gap → gap ≠ [] → isRuleHeader (left ++ (gap ++ right)) = value := by
  cases hcut : cut? ':' left with
  | none =>
    have hcolon : ∀ gap, IsGap gap → cut? ':' (left ++ (gap ++ right)) =
        (cut? ':' right).map fun (before, after) => (left ++ gap ++ before, after) := by
      intro gap hgap
      rw [← List.append_assoc, cut?_append_of_not_mem]
      exact mt List.mem_append.mp (not_or.mpr ⟨cut?_eq_none_iff.mp hcut, colon_not_mem_gap hgap⟩)
    cases hright : cut? ':' right with
    | none =>
      refine ⟨false, fun gap hgap hne => ?_⟩
      rw [isRuleHeader, hcolon gap hgap, hright]
      simp
    | some parts =>
      obtain ⟨before, after⟩ := parts
      refine ⟨isRuleHeader (left ++ ':' :: after) && !before.contains '=', fun gap hgap hne => ?_⟩
      have hleft : cut? ':' (left ++ ':' :: after) = some (left, after) :=
        cut?_eq_some_iff.mpr ⟨cut?_eq_none_iff.mp hcut, rfl⟩
      have hequals : (left ++ gap ++ before).contains '=' = (left.contains '=' || before.contains '=') := by
        have hnot := equals_not_mem_gap hgap
        rw [Bool.eq_iff_iff]
        simp [hnot]
      rw [isRuleHeader, isRuleHeader, hcolon gap hgap, hright, hleft, isRecipe_append h.ends,
        isRecipe_append h.ends, isComment_append h.ends, isComment_append h.ends]
      dsimp only [Option.map_some]
      rw [hequals, Bool.not_or]
      ac_rfl
  | some parts =>
    obtain ⟨targets, rest⟩ := parts
    refine ⟨isRuleHeader left, fun gap hgap hne => ?_⟩
    rw [isRuleHeader, isRuleHeader, cut?_append_of_mem hcut, hcut, isRecipe_append h.ends,
      isComment_append h.ends]
    dsimp only
    rw [startsWith_gap hgap hne (by simp), startsWith_gap hgap hne (by simp),
      startsWith_gap hgap hne (by simp)]

/-- **A header opens a rule** wherever it does with another gap. -/
theorem opens_gap (h : IsAround left right) (hold : IsGap old) (hne : old ≠ [])
    (hblank : startsWith ['\\'] old = false) (hgap : IsGap gap) (hnew : gap ≠ []) {s : Reader}
    (hs : s.Opens (left ++ (old ++ right))) : s.Opens (left ++ (gap ++ right)) := by
  have hheader : isRuleHeader (left ++ (gap ++ right)) = isRuleHeader (left ++ (old ++ right)) := by
    obtain ⟨value, hvalue⟩ := exists_isRuleHeader_eq h
    rw [hvalue gap hgap hnew, hvalue old hold hne]
  have htext : (isRecipe (left ++ (gap ++ right)) || Reader.isLoose (left ++ (gap ++ right))) = false := by
    have hold := hs.noText
    rwa [Reader.isLoose, isRecipe_append h.ends, isBlankLine_append h.ends, isComment_append h.ends]
      at hold ⊢
  rcases firstWord_gap h.ends hold hne hblank hgap hnew with hword | hword
  · refine ⟨htext, ?_, ?_, hheader ▸ hs.header, ?_⟩
    · rw [opensConditional, hword]
      exact hs.noOpening
    · rw [isElse, closesConditional, hword]
      exact hs.noBranch
    · rw [isInclude, hword]
      exact hs.noInclude
  · refine ⟨htext, contains_firstWord_eq_false hword (by decide), fun hbranch => ?_, hheader ▸ hs.header,
      contains_firstWord_eq_false hword (by decide)⟩
    rcases Bool.or_eq_true _ _ ▸ hbranch with hbranch | hbranch
    · rw [eq_of_beq hbranch] at hword
      exact absurd hword (by decide)
    · rw [eq_of_beq hbranch] at hword
      exact absurd hword (by decide)

end

/-! ### Texts -/

/-- Another gap in a logical line leaves it one. -/
theorem isLogical_gap (h : BeginsWithWord right) {old : Text}
    (hlogical : IsLogical (left ++ (old ++ right))) (hgap : IsGap gap) :
    IsLogical (left ++ (gap ++ right)) := by
  obtain ⟨c, hhead, hc⟩ := h
  have hnewline : c ≠ '\n' := by
    rintro rfl
    cases hc
  have hspace : ' ' ≠ '\\' := by decide
  rw [isLogical_iff_isChain hspace, ← List.cons_append, List.isChain_append] at hlogical ⊢
  obtain ⟨hleft, hrest, -⟩ := hlogical
  obtain ⟨-, hright, -⟩ := List.isChain_append.mp hrest
  obtain ⟨hchain, hstart⟩ := hgap.isChain
  refine ⟨hleft, List.isChain_append.mpr ⟨hchain, hright, fun a _ b hb heq => ?_⟩,
    fun a _ b hb heq => ?_⟩
  · rw [hhead, Option.mem_some_iff] at hb
    exact absurd (hb.trans heq) hnewline
  · rw [heq] at hb
    cases gap with
    | nil =>
      rw [List.nil_append, hhead, Option.mem_some_iff] at hb
      exact absurd hb hnewline
    | cons d gap => exact absurd hb hstart

theorem isLogical_header {t : Text} {es es' : List Entry} {r : Rule}
    (h : (parse t).entries = es ++ .rule r :: es') : IsLogical r.header := by
  have hheader := (isRead_of_parse t r (by rw [h]; simp)).header
  refine (allLogical_linesOf_parse t).logical r.header ?_
  rw [h, linesOf_append, linesOf_cons, Entry.lines, Rule.allLines, Rule.lines,
    if_neg (by simpa using Reader.ne_nil_of_isRuleHeader hheader)]
  simp

/-- Rules with the same words are edited alike. -/
theorem Rule.exchangeHeader_eq {header : Text} {r : Rule}
    (htargets : (r.exchangeHeader header).targets = r.targets)
    (hprerequisites : (r.exchangeHeader header).prerequisites = r.prerequisites) :
    r.exchangeHeader header = { r with header } := by
  obtain ⟨header', targets, prerequisites, body, precomment⟩ := r
  simpa [Rule.exchangeHeader, Rule.ofHeader] using ⟨htargets, hprerequisites⟩

/-- **A header that is folded in another way.** A text with another gap between two targets or two
prerequisites of a rule is read as it was, but for this rule, whose header is the new one. Its words are
the same if and only if the gap does not begin with a backslash. Only the text of the header is another one
then, and nothing is left of that in a header which is made anew. -/
theorem parse_folded {t : Text} {es es' : List Entry} {r : Rule} {old : Text}
    (hentries : (parse t).entries = es ++ .rule r :: es') (hheader : r.header = left ++ (old ++ right))
    (h : IsAround left right) (hold : IsGap old) (hne : old ≠ [])
    (hblank : startsWith ['\\'] old = false) (hgap : IsGap gap) (hnew : gap ≠ []) :
    ∃ after r', t = unlines (linesOf es ++ r.precomment) ++ (left ++ (old ++ right) ++ after) ∧
      parse (unlines (linesOf es ++ r.precomment) ++ (left ++ (gap ++ right) ++ after)) =
        { parse t with entries := es ++ .rule r' :: es' } ∧
      (r'.targets = r.targets ∧ r'.prerequisites = r.prerequisites ↔
        startsWith ['\\'] gap = false) ∧
      (startsWith ['\\'] gap = false → r' = { r with header := left ++ (gap ++ right) } ∧
        (∀ target, r'.hasTarget target = r.hasTarget target) ∧
        (∀ word, r.hasPrerequisite word = true →
          r'.removePrerequisite word = r.removePrerequisite word) ∧
        r'.withHeader = r.withHeader) := by
  have hread : r.IsRead := isRead_of_parse t r (by rw [hentries]; simp)
  have hlogical := isLogical_header hentries
  obtain ⟨c, hright, -⟩ := h.begins
  have hlast : (left ++ (gap ++ right)).getLast? = r.header.getLast? := by
    have hright' : right ≠ [] := by
      rintro rfl
      cases hright
    rw [hheader, ← List.append_assoc, ← List.append_assoc, List.getLast?_append_of_ne_nil _ hright',
      List.getLast?_append_of_ne_nil _ hright']
  rw [hheader] at hlogical
  obtain ⟨after, ht, hparse⟩ := parse_exchange hentries (isLogical_gap h.begins hlogical hgap) hlast
    fun s hs => opens_gap h hold hne hblank hgap hnew (hheader ▸ hs)
  have hwords : (r.exchangeHeader (left ++ (gap ++ right))).targets = r.targets ∧
      (r.exchangeHeader (left ++ (gap ++ right))).prerequisites = r.prerequisites ↔
        startsWith ['\\'] gap = false := by
    rw [hread.targets, hread.prerequisites, hheader]
    exact sameWords_iff h hold hne hblank hgap hnew
  refine ⟨after, _, by rw [← hheader, ← ht], hparse, hwords, fun hmark => ?_⟩
  rw [Rule.exchangeHeader_eq (hwords.mpr hmark).1 (hwords.mpr hmark).2]
  refine ⟨rfl, fun _ => rfl, fun word hword => ?_, rfl⟩
  have hword' : { r with header := left ++ (gap ++ right) }.hasPrerequisite word = true := hword
  rw [Rule.removePrerequisite, Rule.removePrerequisite, if_pos hword, if_pos hword']
  rfl

/-! ### One header -/

/-- The target and the first of two prerequisites of a rule. -/
def allOfA : Text := "all: a".toList

theorem isAround_allOfA : IsAround allOfA ['b'] := by
  refine ⟨⟨'a', rfl, by decide⟩, ⟨'b', rfl, by decide⟩, fun targets rest heq htargets => ?_⟩
  have hcut : cut? ':' allOfA = some (targets, rest) := cut?_eq_some_iff.mpr ⟨htargets, heq⟩
  have hparts : cut? ':' allOfA = some ("all".toList, " a".toList) := by decide
  rw [hparts, Option.some.injEq, Prod.mk.injEq] at hcut
  rw [← hcut.2]
  decide

/-- Behind white space the line can be broken. -/
theorem parse_folded_allOfA : ∃ after r',
    "all: a b\n".toList = unlines [] ++ (allOfA ++ ([' '] ++ ['b']) ++ after) ∧
      parse (unlines [] ++ (allOfA ++ (" \\\n\t".toList ++ ['b']) ++ after)) =
        { parse "all: a b\n".toList with entries := [.rule r'] } ∧
      r'.targets = ["all".toList] ∧ r'.prerequisites = [['a'], ['b']] := by
  have hentries : (parse "all: a b\n".toList).entries =
      [] ++ .rule (Rule.ofHeader "all: a b".toList) :: [] := by decide
  have hold : IsGap [' '] := .blank (by decide) (by decide) .nil
  have hgap : IsGap " \\\n\t".toList :=
    .blank (by decide) (by decide) (.fold (.blank (by decide) (by decide) .nil))
  obtain ⟨after, r', htext, hparse, hwords, -⟩ := parse_folded hentries rfl isAround_allOfA hold
    (by simp) (by decide) hgap (by simp)
  obtain ⟨htargets, hprerequisites⟩ := hwords.mpr (by decide)
  exact ⟨after, r', htext, hparse, htargets.trans (by decide), hprerequisites.trans (by decide)⟩

/-- Directly behind a word it cannot: the rule has a prerequisite that is not `a`. -/
theorem prerequisites_folded_allOfA :
    IsAround allOfA ['b'] ∧ IsGap "\\\n ".toList ∧
      (parse (allOfA ++ ([' '] ++ ['b']))).rules.map Rule.prerequisites = [[['a'], ['b']]] ∧
      (parse (allOfA ++ ("\\\n ".toList ++ ['b']))).rules.map Rule.prerequisites =
        [[['a', '\\'], ['b']]] :=
  ⟨isAround_allOfA, .fold (.blank (by decide) (by decide) .nil), by decide, by decide⟩

end Packaging.Makefile
