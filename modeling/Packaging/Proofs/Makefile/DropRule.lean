import Packaging.Proofs.Makefile.Conditionals
import Packaging.Proofs.Makefile.Rules

/-!
# Conditionals and dropped rules

With a rule the conditionals go that were opened in its body. Those that are closed there as well can
go; but a line that is no part of a rule closes the rule even while a conditional is open in it, and
the end of that conditional then stands outside of the rule and stays.

## What is proved

* `Rule.IsRead.bracket?_header` — a header is no bracket as long as its targets are no words of
  conditionals.
* `Rule.Shrinks` — what can become of a rule, whichever target is dropped.
* `nest_linesOf`, `nest_linesKept` — where a rule goes that does not end its conditionals, their ends
  have nothing left to close; where the others go, what is left is counted as before.
* `isBalanced_dropRule_iff` — so dropping a rule leaves a balanced makefile balanced if and only if all
  rules that go end their conditionals.
-/

namespace Packaging.Makefile

open Text

/-! ### Headers -/

/-- A word that opens or closes a conditional. -/
def isConditionalWord (w : Text) : Bool := openingWords.contains w || w == "endif".toList

theorem isConditionalWord_of_bracket? {line : Text} (h : bracket? line ≠ none) :
    isConditionalWord (firstWord line) = true := by
  unfold bracket? at h
  split at h
  · exact absurd rfl h
  split at h
  · rename_i hopens
    exact Bool.or_eq_true _ _ ▸ .inl hopens
  split at h
  · rename_i hcloses
    exact Bool.or_eq_true _ _ ▸ .inr hcloses
  · exact absurd rfl h

theorem colon_not_mem_of_isConditionalWord {w : Text} (h : isConditionalWord w = true) : ':' ∉ w := by
  have hwords : ∀ v ∈ openingWords ++ ["endif".toList], ':' ∉ v := by decide
  refine hwords w ?_
  simpa [isConditionalWord] using h

/-- The first word of a text with a colon has the colon in it or stands before it. -/
theorem firstWord_append_colon (left right : Text) :
    ':' ∈ firstWord (left ++ ':' :: right) ∨ firstWord (left ++ ':' :: right) ∈ words left := by
  have hcolon : isBlank ':' = false := by decide
  obtain ⟨v, rest, hright, hv, hmem, hrest⟩ : ∃ v rest, ':' :: right = v ++ rest ∧ IsWord v ∧ ':' ∈ v ∧
      rest.head?.all isBlank = true := by
    rcases exists_word (':' :: right) with hall | ⟨blanks, v, rest, heq, hblanks, hv, hrest⟩
    · rw [hall ':' List.mem_cons_self] at hcolon
      cases hcolon
    · cases blanks with
      | cons c blanks =>
        obtain rfl : ':' = c := (List.cons.inj heq).1
        rw [hblanks ':' List.mem_cons_self] at hcolon
        cases hcolon
      | nil =>
        obtain ⟨c, v, rfl⟩ := List.exists_cons_of_ne_nil hv.ne_nil
        obtain rfl : ':' = c := (List.cons.inj heq).1
        exact ⟨_, rest, heq, hv, List.mem_cons_self, hrest⟩
  rw [hright]
  rcases exists_word left with hall | ⟨blanks, w, more, rfl, hblanks, hw, hmore⟩
  · left
    rw [firstWord, words_blanks_append hall, hv.words_append hrest]
    exact hmem
  · rw [firstWord, List.append_assoc, List.append_assoc, words_blanks_append hblanks,
      words_blanks_append hblanks, hw.words_append hmore]
    cases more with
    | nil =>
      left
      rw [List.nil_append, ← List.append_assoc, (hw.append hv).words_append hrest]
      exact List.mem_append_right w hmem
    | cons c more =>
      right
      have hblank : (c :: more ++ (v ++ rest)).head?.all isBlank = true := by simpa using hmore
      rw [hw.words_append hblank]
      exact List.mem_cons_self

theorem bracket?_of_colon {left right : Text} (h : ∀ w ∈ words left, isConditionalWord w = false) :
    bracket? (left ++ ':' :: right) = none := by
  by_contra hne
  have hword := isConditionalWord_of_bracket? hne
  rcases firstWord_append_colon left right with hcolon | hmem
  · exact colon_not_mem_of_isConditionalWord hword hcolon
  · rw [h _ hmem] at hword
    cases hword

namespace Rule

/-- No target is a word of conditionals, and no prerequisite ends with a backslash. -/
structure IsOrdinary (r : Rule) : Prop where
  targets : ∀ w ∈ r.targets, isConditionalWord w = false
  prerequisites : ∀ w ∈ r.prerequisites, isContinued w = false

instance (r : Rule) : Decidable r.IsOrdinary :=
  decidable_of_iff
    ((∀ w ∈ r.targets, isConditionalWord w = false) ∧ ∀ w ∈ r.prerequisites, isContinued w = false)
    ⟨fun h => ⟨h.1, h.2⟩, fun h => ⟨h.targets, h.prerequisites⟩⟩

variable {r : Rule}

/-- A header is no bracket as long as its targets are no words of conditionals. -/
theorem IsRead.bracket?_header (hr : r.IsRead) (hordinary : r.IsOrdinary) : bracket? r.header = none := by
  have hheader := hr.header
  have htargets := hr.targets
  unfold isRuleHeader at hheader
  cases hcut : cut? ':' r.header with
  | none => simp [hcut] at hheader
  | some parts =>
    obtain ⟨left, right⟩ := parts
    have htargets : r.targets = headerWords left := by rw [htargets, ofHeader, hcut]; rfl
    rw [(cut?_eq_some_iff.mp hcut).2]
    refine bracket?_of_colon fun w hw => ?_
    by_cases hslash : w = ['\\']
    · rw [hslash]
      decide
    · refine hordinary.targets w ?_
      rw [htargets, headerWords]
      exact List.mem_filter.mpr ⟨hw, by simpa using hslash⟩

theorem IsRead.isWord (hr : r.IsRead) : (∀ w ∈ r.targets, IsWord w) ∧ ∀ w ∈ r.prerequisites, IsWord w := by
  have hside : ∀ side, ∀ w ∈ headerWords side, IsWord w := fun side w hw =>
    isWord_of_mem_words (List.mem_filter.mp hw).1
  rw [hr.targets, hr.prerequisites]
  exact ⟨hside _, hside _⟩

theorem headerText_eq (targets prerequisites : List Text) :
    headerText targets prerequisites = join [' '] targets ++ ':' ::
      if prerequisites.isEmpty then [] else ' ' :: join [' '] prerequisites := by
  unfold headerText
  split <;> simp

theorem isContinued_join {ws : List Text} (h : ∀ w ∈ ws, IsWord w ∧ isContinued w = false) :
    isContinued (join [' '] ws) = false := by
  cases hlast : ws.getLast? with
  | none =>
    rw [List.getLast?_eq_none_iff.mp hlast]
    rfl
  | some last =>
    obtain ⟨hword, hend⟩ := h last (List.mem_of_getLast? hlast)
    rw [← Bool.not_eq_true, isContinued_iff] at hend ⊢
    rwa [getLast?_join hlast hword.ne_nil]

/-- A header that is made from words is one line, which no other line belongs to, and no bracket. -/
theorem headerText_spec {ts ps : List Text} (hts : ∀ w ∈ ts, IsWord w ∧ isConditionalWord w = false)
    (hps : ∀ w ∈ ps, IsWord w ∧ isContinued w = false) :
    bracket? (headerText ts ps) = none ∧ '\n' ∉ headerText ts ps ∧
      isContinued (headerText ts ps) = false := by
  have hwords : words (join [' '] ts) = ts := words_join fun w hw => (hts w hw).1
  have hleft : '\n' ∉ join [' '] ts := newline_not_mem_join fun w hw => (hts w hw).1
  have hright : '\n' ∉ join [' '] ps := newline_not_mem_join fun w hw => (hps w hw).1
  rw [headerText_eq]
  refine ⟨bracket?_of_colon fun w hw => ?_, ?_, ?_⟩
  · rw [hwords] at hw
    exact (hts w hw).2
  · split <;> simp [hleft, hright]
  · have hcolon : isContinued [':'] = false := by decide
    split
    · rwa [isContinued_append (by simp)]
    · rename_i hne
      have hjoin : join [' '] ps ≠ [] := fun hnil => by
        have hnone : words (join [' '] ps) = ps := words_join fun w hw => (hps w hw).1
        rw [hnil, words_nil] at hnone
        simp [← hnone] at hne
      have hcut : join [' '] ts ++ ':' :: ' ' :: join [' '] ps =
          (join [' '] ts ++ [':', ' ']) ++ join [' '] ps := by simp
      rw [hcut, isContinued_append hjoin]
      exact isContinued_join hps

/-- What dropping a rule leaves of a rule: all of it, nothing, or the rule with a header that names
fewer targets and prerequisites. -/
inductive Shrinks (r : Rule) : Rule → Prop
  | all : Shrinks r r
  | gone : Shrinks r .cleared
  | header {ts ps : List Text} (hts : ts ⊆ r.targets) (hps : ps ⊆ r.prerequisites) :
      Shrinks r { r with header := headerText ts ps, targets := ts, prerequisites := ps }

theorem shrinks_dropTarget (target : Text) (r : Rule) : Shrinks r (r.dropTarget target) := by
  unfold dropTarget removeTarget
  split
  · split
    · exact .header (List.filter_subset_self _) (List.Subset.refl _)
    · exact .all
  · exact .gone

theorem Shrinks.dropPrerequisite {r' : Rule} (h : Shrinks r r') (prerequisite : Text) :
    Shrinks r (r'.dropPrerequisite prerequisite) := by
  unfold Rule.dropPrerequisite removePrerequisite
  split
  · rename_i hhas
    dsimp only
    split
    · exact .gone
    · cases h with
      | all => exact .header (List.Subset.refl _) (List.filter_subset_self _)
      | gone => cases hhas
      | header hts hps => exact .header hts (List.Subset.trans (List.filter_subset_self _) hps)
  · exact h

end Rule

/-- Dropping a rule shrinks each rule by itself. -/
theorem exists_dropRule_eq (mk : Makefile) (target : Text) :
    ∃ f : Rule → Rule, mk.dropRule target = mk.mapRules f ∧ ∀ r, Rule.Shrinks r (f r) := by
  rw [dropRule_eq_mapRules]
  split
  · refine ⟨_, rfl, fun r => ?_⟩
    have hphony : ∀ r', Rule.Shrinks r r' → Rule.Shrinks r (r'.dropPhony target) := by
      intro r' h
      unfold Rule.dropPhony
      split
      · exact h.dropPrerequisite target
      · exact h
    refine hphony _ ?_
    split
    · exact Rule.shrinks_dropTarget target r
    · exact .all
  · exact ⟨id, (mapRules_eq_self fun _ _ => rfl).symm, fun r => .all⟩

/-! ### What is written -/

/-- The lines of entries that are written, before any blank lines are left out. -/
def linesKept (es : List Entry) : List Text :=
  es.flatMap fun
    | .line l => [l]
    | .rule r => if r.isCleared then [] else r.allLines

theorem linesKept_cons (e : Entry) (es : List Entry) :
    linesKept (e :: es) = linesKept [e] ++ linesKept es := by simp [linesKept]

theorem bracket?_of_isBlankLine {line : Text} (h : isBlankLine line = true) : bracket? line = none :=
  bracket?_of_isLoose (by simp [Reader.isLoose, h])

/-- The lines that are not blank. -/
def filled (ls : List Text) : List Text := ls.filter (!isBlankLine ·)

@[simp] theorem filled_append (ls ms : List Text) : filled (ls ++ ms) = filled ls ++ filled ms :=
  List.filter_append ls ms

theorem filled_of_blank {line : Text} (h : isBlankLine line = true) : filled [line] = [] := by
  simp [filled, h]

/-- No blank line is a bracket. -/
theorem brackets_filled (ls : List Text) : brackets (filled ls) = brackets ls := by
  rw [brackets, brackets, filled, List.filterMap_filter]
  refine List.filterMap_congr fun l _ => ?_
  cases hblank : isBlankLine l with
  | true => simp [bracket?_of_isBlankLine hblank]
  | false => rfl

/-- Only blank lines are left out. -/
theorem add_keeps (w : Writer) (e : Entry) :
    ∃ ls, (w.add e).lines = w.lines ++ ls ∧ ls.Sublist (linesKept [e]) ∧
      filled ls = filled (linesKept [e]) := by
  cases e with
  | line l =>
    simp only [Writer.add]
    split
    · rename_i hblank
      exact ⟨[], by simp, List.nil_sublist _, (filled_of_blank (Bool.and_eq_true _ _ ▸ hblank).2).symm⟩
    · exact ⟨[l], rfl, List.Sublist.refl _, rfl⟩
  | rule r =>
    simp only [Writer.add]
    split
    · rename_i hcleared
      exact ⟨[], by simp, List.nil_sublist _, by simp [linesKept, hcleared]⟩
    · rename_i hkept
      have hkept : linesKept [.rule r] = r.precomment ++ r.lines := by
        simp [linesKept, hkept, Rule.allLines]
      exact ⟨r.precomment ++ r.lines, by simp, hkept ▸ List.Sublist.refl _, by rw [hkept]⟩

theorem foldl_add_keeps (es : List Entry) (w : Writer) :
    ∃ ls, (es.foldl Writer.add w).lines = w.lines ++ ls ∧ ls.Sublist (linesKept es) ∧
      filled ls = filled (linesKept es) := by
  induction es generalizing w with
  | nil => exact ⟨[], by simp, .slnil, rfl⟩
  | cons e es ih =>
    obtain ⟨first, hfirst, hsub, hfilled⟩ := add_keeps w e
    obtain ⟨rest, hrest, hsub', hfilled'⟩ := ih (w.add e)
    refine ⟨first ++ rest, by rw [List.foldl_cons, hrest, hfirst, List.append_assoc], ?_, ?_⟩
    · rw [linesKept_cons]
      exact hsub.append hsub'
    · rw [linesKept_cons, filled_append, filled_append, hfilled, hfilled']

/-- Of the lines that are kept only blank ones are not written. -/
theorem lines_filled (mk : Makefile) :
    mk.lines.Sublist (linesKept mk.entries) ∧ filled mk.lines = filled (linesKept mk.entries) := by
  obtain ⟨ls, hlines, hsub, hfilled⟩ := foldl_add_keeps mk.entries {}
  rw [List.nil_append] at hlines
  rw [Makefile.lines, Writer.finish, ← hfilled, hlines]
  split
  · -- the last line is left out if it is blank
    rename_i hlast
    have hblank : ls.getLast?.any isBlankLine = true := (Bool.and_eq_true _ _ ▸ hlast).2
    refine ⟨ls.dropLast_sublist.trans hsub, ?_⟩
    cases hend : ls.getLast? with
    | none => rw [List.getLast?_eq_none_iff.mp hend, List.dropLast_nil]
    | some last =>
      obtain ⟨init, rfl⟩ := List.getLast?_eq_some_iff.mp hend
      rw [List.dropLast_concat, filled_append, filled_of_blank (by simpa [hend] using hblank),
        List.append_nil]
  · exact ⟨hsub, rfl⟩

theorem lines_keeps (mk : Makefile) :
    mk.lines.Sublist (linesKept mk.entries) ∧ brackets mk.lines = brackets (linesKept mk.entries) := by
  obtain ⟨hsub, hfilled⟩ := lines_filled mk
  exact ⟨hsub, by rw [← brackets_filled, hfilled, brackets_filled]⟩

/-! ### What dropping a rule leaves -/

theorem Rule.IsRead.header_ne_nil {r : Rule} (hr : r.IsRead) : r.header ≠ [] :=
  Reader.ne_nil_of_isRuleHeader hr.header

theorem Rule.IsRead.allLines_eq {r : Rule} (hr : r.IsRead) :
    r.allLines = r.precomment ++ r.header :: r.body := by
  simp [Rule.allLines, Rule.lines, hr.header_ne_nil]

/-- A rule that shrinks goes, or its header becomes a line that no other one belongs to and that is no
bracket. -/
theorem Rule.Shrinks.linesKept_eq {r r' : Rule} (h : Rule.Shrinks r r') (hr : r.IsRead)
    (hordinary : r.IsOrdinary) :
    r'.isCleared = true ∧ linesKept [.rule r'] = [] ∨
      r'.isCleared = false ∧ ∃ header, linesKept [.rule r'] = r.precomment ++ header :: r.body ∧
        bracket? header = none ∧ (header = r.header ∨ IsLogical header ∧ isContinued header = false) := by
  cases h with
  | all =>
    right
    have hkept : r.isCleared = false := by simp [Rule.isCleared, hr.header_ne_nil]
    refine ⟨hkept, r.header, ?_, hr.bracket?_header hordinary, .inl rfl⟩
    simp [linesKept, hkept, hr.allLines_eq]
  | gone => exact .inl ⟨rfl, rfl⟩
  | @header ts ps hts hps =>
    right
    obtain ⟨htargets, hprerequisites⟩ := hr.isWord
    have hts' : ∀ w ∈ ts, IsWord w ∧ isConditionalWord w = false := fun w hw =>
      ⟨htargets w (hts hw), hordinary.targets w (hts hw)⟩
    have hps' : ∀ w ∈ ps, IsWord w ∧ isContinued w = false := fun w hw =>
      ⟨hprerequisites w (hps hw), hordinary.prerequisites w (hps hw)⟩
    obtain ⟨hnew, hline, hend⟩ := Rule.headerText_spec hts' hps'
    have hne' : Rule.headerText ts ps ≠ [] := by simp [Rule.headerText_eq]
    refine ⟨by simp [Rule.isCleared, hne'], Rule.headerText ts ps, ?_, hnew,
      .inr ⟨isLogical_of_newline_not_mem hline, hend⟩⟩
    simp [linesKept, Rule.isCleared, hne', Rule.allLines, Rule.lines]

theorem brackets_of_precomment {r : Rule} (hr : r.IsRead) : brackets r.precomment = [] :=
  brackets_of_forall fun l hl => bracket?_of_isLoose (by simp [Reader.isLoose, hr.precomment l hl])

section Shrinking

variable {f : Rule → Rule} {es : List Entry}

/-- What is kept of entries that shrink is logical lines again. -/
theorem allLogical_linesKept (hf : ∀ r, Rule.Shrinks r (f r))
    (hes : ∀ r, .rule r ∈ es → r.IsRead ∧ r.IsOrdinary) (h : AllLogical (linesOf es)) :
    AllLogical (linesKept (es.map (Entry.mapRule f))) ∧
      (linesKept (es.map (Entry.mapRule f)) ≠ [] → linesOf es ≠ []) := by
  induction es with
  | nil => exact ⟨allLogical_nil, id⟩
  | cons e es ih =>
    rw [linesOf_cons] at h ⊢
    obtain ⟨hfirst, hrest, hseparate⟩ := allLogical_append.mp h
    obtain ⟨hkept, hne⟩ := ih (fun r hr => hes r (List.mem_cons_of_mem e hr)) hrest
    -- the entry as it was read can stand before what is kept of the others
    have hall : AllLogical (e.lines ++ linesKept (es.map (Entry.mapRule f))) :=
      allLogical_append.mpr ⟨hfirst, hkept, fun h => hseparate (hne h)⟩
    rw [List.map_cons, linesKept_cons]
    cases e with
    | line l => exact ⟨hall, by simp [Entry.lines]⟩
    | rule r =>
      obtain ⟨hr, hordinary⟩ := hes r List.mem_cons_self
      rw [Entry.lines, hr.allLines_eq, List.append_assoc, List.cons_append] at hall
      refine ⟨?_, by simp [Entry.lines, hr.allLines_eq]⟩
      rw [Entry.mapRule]
      rcases (hf r).linesKept_eq hr hordinary with ⟨-, hgone⟩ | ⟨-, header, hheader, -, hnew⟩
      · rw [hgone]
        exact hkept
      · rw [hheader, List.append_assoc, List.cons_append]
        rcases hnew with rfl | ⟨hlogical, hend⟩
        · exact hall
        · exact hall.replace hlogical hend

theorem Rule.IsRead.brackets_allLines {r : Rule} (hr : r.IsRead) (hordinary : r.IsOrdinary) :
    brackets r.allLines = brackets r.body := by
  rw [hr.allLines_eq, brackets_append, brackets_cons, brackets_of_precomment hr,
    hr.bracket?_header hordinary]
  rfl

/-- Of the brackets of a rule that shrinks all are kept or none. -/
theorem brackets_linesKept (hf : ∀ r, Rule.Shrinks r (f r)) {r : Rule} (hr : r.IsRead)
    (hordinary : r.IsOrdinary) :
    brackets (linesKept [.rule (f r)]) = if (f r).isCleared then [] else brackets r.body := by
  rcases (hf r).linesKept_eq hr hordinary with
    ⟨hcleared, hgone⟩ | ⟨hcleared, header, hheader, hnew, -⟩
  · rw [hgone, hcleared]
    rfl
  · rw [hheader, hcleared, brackets_append, brackets_cons, brackets_of_precomment hr, hnew]
    rfl

/-- Where rules go that do not end their conditionals, more conditionals were open at the end than are
open without them. -/
theorem nest_linesOf (hf : ∀ r, Rule.Shrinks r (f r))
    (hes : ∀ r, .rule r ∈ es → r.IsRead ∧ r.IsOrdinary) {n m : Nat}
    (h : nest n (brackets (linesKept (es.map (Entry.mapRule f)))) = some m) :
    ∃ k, nest n (brackets (linesOf es)) = some (m + k) ∧
      (k = 0 → ∀ r, .rule r ∈ es → (f r).isCleared = true → r.EndsConditionals) := by
  induction es generalizing n with
  | nil => exact ⟨0, h, nofun⟩
  | cons e es ih =>
    have hrest : ∀ r, .rule r ∈ es → r.IsRead ∧ r.IsOrdinary := fun r hr =>
      hes r (List.mem_cons_of_mem e hr)
    rw [List.map_cons, linesKept_cons, brackets_append, nest_append] at h
    rw [linesOf_cons, brackets_append, nest_append]
    cases e with
    | line l =>
      obtain ⟨n', hn, hm⟩ := Option.bind_eq_some_iff.mp h
      obtain ⟨k, hk, hends⟩ := ih hrest hm
      refine ⟨k, ?_, fun hzero r hr => hends hzero r (by simpa using hr)⟩
      exact Option.bind_eq_some_iff.mpr ⟨n', hn, hk⟩
    | rule r =>
      obtain ⟨hr, hordinary⟩ := hes r List.mem_cons_self
      rw [Entry.mapRule, brackets_linesKept hf hr hordinary] at h
      rw [Entry.lines, hr.brackets_allLines hordinary]
      cases hcleared : (f r).isCleared with
      | true =>
        -- the conditionals that the body leaves open are open around everything after it
        rw [hcleared, if_pos rfl] at h
        obtain ⟨k, hk, hends⟩ := ih hrest (n := n) h
        obtain ⟨depth, hdepth⟩ := hr.body
        have hbody : nest n (brackets r.body) = some (n + depth) := by
          have hadd := nest_add hdepth n
          rwa [Nat.zero_add, Nat.add_comm] at hadd
        refine ⟨k + depth, ?_, fun hzero r' hr' hcleared' => ?_⟩
        · rw [hbody, ← Nat.add_assoc]
          exact nest_add hk depth
        · obtain ⟨hk, hdepth'⟩ := Nat.add_eq_zero_iff.mp hzero
          rcases List.mem_cons.mp hr' with heq | hr'
          · cases heq
            rw [hdepth'] at hdepth
            exact hdepth
          · exact hends hk r' hr' hcleared'
      | false =>
        rw [hcleared] at h
        obtain ⟨n', hn, hm⟩ := Option.bind_eq_some_iff.mp h
        obtain ⟨k, hk, hends⟩ := ih hrest hm
        refine ⟨k, Option.bind_eq_some_iff.mpr ⟨n', hn, hk⟩, fun hzero r' hr' hcleared' => ?_⟩
        rcases List.mem_cons.mp hr' with heq | hr'
        · cases heq
          rw [hcleared] at hcleared'
          cases hcleared'
        · exact hends hzero r' hr' hcleared'

/-- Where all rules that go end their conditionals, the others are counted as before. -/
theorem nest_linesKept (hf : ∀ r, Rule.Shrinks r (f r))
    (hes : ∀ r, .rule r ∈ es → r.IsRead ∧ r.IsOrdinary)
    (h : ∀ r, .rule r ∈ es → (f r).isCleared = true → r.EndsConditionals) (n : Nat) :
    nest n (brackets (linesKept (es.map (Entry.mapRule f)))) = nest n (brackets (linesOf es)) := by
  induction es generalizing n with
  | nil => rfl
  | cons e es ih =>
    have hrest := ih (fun r hr => hes r (List.mem_cons_of_mem e hr))
      (fun r hr => h r (List.mem_cons_of_mem e hr))
    rw [List.map_cons, linesKept_cons, linesOf_cons, brackets_append, brackets_append, nest_append,
      nest_append]
    cases e with
    | line l => exact Option.bind_congr fun n' _ => hrest n'
    | rule r =>
      obtain ⟨hr, hordinary⟩ := hes r List.mem_cons_self
      rw [Entry.mapRule, brackets_linesKept hf hr hordinary, Entry.lines,
        hr.brackets_allLines hordinary]
      cases hcleared : (f r).isCleared with
      | true =>
        have hends : nest 0 (brackets r.body) = some 0 := h r List.mem_cons_self hcleared
        have hbody : nest n (brackets r.body) = some n := by simpa using nest_add hends n
        rw [hbody]
        exact hrest n
      | false => exact Option.bind_congr fun n' _ => hrest n'

end Shrinking

/-- The rules of a makefile that are cleared in another one, which has been made from it. -/
def clearedRules (mk mk' : Makefile) : List Rule :=
  (mk.rules.zip mk'.rules).filterMap fun (r, r') => if r'.isCleared then some r else none

theorem mem_clearedRules_mapRules {mk : Makefile} {f : Rule → Rule} {r : Rule} :
    r ∈ clearedRules mk (mk.mapRules f) ↔ .rule r ∈ mk.entries ∧ (f r).isCleared = true := by
  rw [clearedRules, rules_mapRules, ← mem_rules_iff]
  have hzip : mk.rules.zip (mk.rules.map f) = mk.rules.map fun r => (r, f r) := by
    simpa using List.zip_map' (f := id) (g := f) (l := mk.rules)
  rw [hzip, List.filterMap_map]
  simp

/-- **Conditionals and dropped rules.** In a balanced makefile whose rules have ordinary names, dropping
the rules for a target leaves all conditionals balanced exactly if every rule that goes ends the
conditionals that it begins. -/
theorem isBalanced_dropRule_iff {t : Text} (ht : IsBalanced t)
    (hordinary : ∀ r ∈ (parse t).rules, r.IsOrdinary) (target : Text) :
    IsBalanced ((parse t).dropRule target).render ↔
      ∀ r ∈ clearedRules (parse t) ((parse t).dropRule target), r.EndsConditionals := by
  have hes : ∀ r, .rule r ∈ (parse t).entries → r.IsRead ∧ r.IsOrdinary := by
    intro r hr
    exact ⟨isRead_of_parse t r hr, hordinary r (mem_rules_iff.mpr hr)⟩
  obtain ⟨f, hdrop, hf⟩ := exists_dropRule_eq (parse t) target
  rw [hdrop]
  obtain ⟨hsub, hkept⟩ := lines_keeps ((parse t).mapRules f)
  have hwritten : AllLogical ((parse t).mapRules f).lines :=
    (allLogical_linesKept hf hes (allLogical_linesOf_parse t)).1.sublist hsub
  rw [IsBalanced, ← brackets_linesOf_parse] at ht
  rw [IsBalanced, brackets_contentLines_render hwritten, hkept]
  constructor
  · intro h r hr
    obtain ⟨hmem, hcleared⟩ := mem_clearedRules_mapRules.mp hr
    obtain ⟨k, hk, hends⟩ := nest_linesOf hf hes h
    rw [ht] at hk
    have hzero : k = 0 := by simpa using (Option.some.inj hk).symm
    exact hends hzero r hmem hcleared
  · intro h
    rw [mapRules, nest_linesKept hf hes, ht]
    intro r hmem hcleared
    exact h r (mem_clearedRules_mapRules.mpr ⟨hmem, hcleared⟩)

/-- A rule with a conditional for one of its commands. -/
def conditionalCommand : Text := "a:\n\tcmd\nifdef X\n\tmore\nendif\n\nb: c\n\tcmd\n".toList

theorem isBalanced_dropRule_conditionalCommand :
    IsBalanced conditionalCommand ∧ (∀ r ∈ (parse conditionalCommand).rules, r.IsOrdinary) ∧
      IsBalanced ((parse conditionalCommand).dropRule ['a']).render := by
  have ht : IsBalanced conditionalCommand := by decide +kernel
  have hordinary : ∀ r ∈ (parse conditionalCommand).rules, r.IsOrdinary := by decide +kernel
  refine ⟨ht, hordinary, (isBalanced_dropRule_iff ht hordinary ['a']).mpr ?_⟩
  decide +kernel

/-- A rule that is followed by a conditional for a variable. -/
def conditionalVariable : Text := "a:\n\tcmd\n\nifeq (x,y)\nFOO = bar\nendif\n".toList

/-- The conditional is opened in the rule, and its end is not: it stays when the rule goes. -/
theorem not_isBalanced_dropRule_conditionalVariable :
    IsBalanced conditionalVariable ∧
      ((parse conditionalVariable).dropRule ['a']).render = "FOO = bar\nendif\n".toList ∧
      ¬ IsBalanced ((parse conditionalVariable).dropRule ['a']).render := by
  decide +kernel

end Packaging.Makefile
