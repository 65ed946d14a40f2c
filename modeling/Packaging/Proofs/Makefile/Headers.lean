import Packaging.Makefile.Printer
import Packaging.Proofs.Makefile.DropRule

/-!
# Headers of edited rules

What a rule names is in it twice: as targets and prerequisites, and in the text of its header. A header that
was read may be written in many ways; one that is made anew has its words with one space between them. Every
edit that changes the words makes the header anew, and so the two always say the same.

## What is proved

* `Rule.agrees_withHeader_iff` — which words a header can be made from, so that they are read from it.
* `Rule.isHeaded_edit`, `Rule.isHeaded_run` — edits that are given such words keep the header and what the rule
  names the same.
* `exists_lines_eq` — where a header stands among the lines of a makefile.
* `Rule.says_run` — so what is written of a rule says what it names, however it was made and edited.
-/

namespace Packaging.Makefile

open Text

namespace Rule

variable {r : Rule} {header left right : Text} {ts ps : List Text}

/-! ### Words of a header -/

/-- A word that can be a prerequisite. A lone backslash would only continue the line. -/
structure IsPrerequisite (w : Text) : Prop extends IsWord w where
  notBackslash : w ≠ ['\\']

/-- A word that can be a target. A colon would end the targets. -/
structure IsTarget (w : Text) : Prop extends IsPrerequisite w where
  noColon : ':' ∉ w

theorem isPrerequisite_of_mem_headerWords {side w : Text} (h : w ∈ headerWords side) : IsPrerequisite w := by
  obtain ⟨hword, hslash⟩ := List.mem_filter.mp h
  exact ⟨isWord_of_mem_words hword, by simpa using hslash⟩

theorem isTarget_of_mem_headerWords {side w : Text} (h : w ∈ headerWords side) (hside : ':' ∉ side) :
    IsTarget w := by
  refine ⟨isPrerequisite_of_mem_headerWords h, fun hcolon => hside ?_⟩
  exact mem_of_mem_splitOnP (List.mem_filter.mp (List.mem_filter.mp h).1).1 hcolon

theorem headerWords_join {ws : List Text} (h : ∀ w ∈ ws, IsPrerequisite w) :
    headerWords (join [' '] ws) = ws := by
  rw [headerWords, words_join fun w hw => (h w hw).toIsWord, List.filter_eq_self]
  exact fun w hw => by simpa using (h w hw).notBackslash

theorem headerWords_space (side : Text) : headerWords (' ' :: side) = headerWords side := by
  rw [headerWords, words_cons_blank (by decide), ← headerWords]

/-! ### What a header names -/

theorem ofHeader_of_cut (h : cut? ':' header = some (left, right)) :
    ofHeader header =
      { header
        targets := headerWords left
        prerequisites := headerWords ((dropStart? [':'] right).getD right) } := by
  rw [ofHeader, h]
  rfl

theorem ofHeader_of_no_colon (h : ':' ∉ header) :
    ofHeader header = { header, targets := headerWords header, prerequisites := [] } := by
  have hnil : headerWords [] = [] := rfl
  rw [ofHeader, cut?_eq_none_iff.mpr h, ← hnil]
  rfl

/-- What a header names are words of which it can be made. -/
theorem forall_ofHeader (header : Text) :
    (∀ w ∈ (ofHeader header).targets, IsTarget w) ∧
      ∀ w ∈ (ofHeader header).prerequisites, IsPrerequisite w := by
  cases hcut : cut? ':' header with
  | none =>
    have hcolon := cut?_eq_none_iff.mp hcut
    rw [ofHeader_of_no_colon hcolon]
    exact ⟨fun w hw => isTarget_of_mem_headerWords hw hcolon, nofun⟩
  | some parts =>
    have hcolon := (cut?_eq_some_iff.mp hcut).1
    rw [ofHeader_of_cut hcut]
    exact ⟨fun w hw => isTarget_of_mem_headerWords hw hcolon,
      fun w hw => isPrerequisite_of_mem_headerWords hw⟩

theorem colon_not_mem_join (h : ∀ w ∈ ts, IsTarget w) : ':' ∉ join [' '] ts :=
  not_mem_join (by decide) fun w hw => (h w hw).noColon

/-- A header that is made from words names these words. -/
theorem ofHeader_headerText (hts : ∀ w ∈ ts, IsTarget w) (hps : ∀ w ∈ ps, IsPrerequisite w) :
    ofHeader (headerText ts ps) = { header := headerText ts ps, targets := ts, prerequisites := ps } := by
  have htargets := headerWords_join fun w hw => (hts w hw).toIsPrerequisite
  have hcut := cut?_eq_some_iff.mpr ⟨colon_not_mem_join hts, headerText_eq ts ps⟩
  rw [ofHeader_of_cut hcut, htargets]
  cases ps with
  | nil => rfl
  | cons p ps =>
    have hspace : dropStart? [':'] (' ' :: join [' '] (p :: ps)) = none := rfl
    rw [List.isEmpty_cons, if_neg Bool.false_ne_true, hspace, Option.getD_none, headerWords_space,
      headerWords_join hps]

/-- The header names the targets and the prerequisites of the rule. -/
structure Agrees (r : Rule) : Prop where
  targets : (ofHeader r.header).targets = r.targets
  prerequisites : (ofHeader r.header).prerequisites = r.prerequisites

/-- All targets and prerequisites are words that a header can be made from. -/
structure HasWords (r : Rule) : Prop where
  targets : ∀ w ∈ r.targets, IsTarget w
  prerequisites : ∀ w ∈ r.prerequisites, IsPrerequisite w

theorem Agrees.hasWords (h : r.Agrees) : r.HasWords := by
  obtain ⟨htargets, hprerequisites⟩ := forall_ofHeader r.header
  rw [h.targets] at htargets
  rw [h.prerequisites] at hprerequisites
  exact ⟨htargets, hprerequisites⟩

/-- **A header that is made anew** names what it was made from exactly if that are words for a header. -/
theorem agrees_withHeader_iff : r.withHeader.Agrees ↔ r.HasWords := by
  constructor
  · intro h
    exact ⟨h.hasWords.targets, h.hasWords.prerequisites⟩
  · intro h
    have hheader := ofHeader_headerText h.targets h.prerequisites
    refine ⟨?_, ?_⟩
    · rw [withHeader, hheader]
    · rw [withHeader, hheader]

/-! ### Edits -/

/-- An edit of a rule. -/
inductive Edit : Type 1 where
  /-- A target gets another name. -/
  | renameTarget (old new : Text)
  /-- A target is taken away. -/
  | removeTarget (target : Text)
  /-- A prerequisite is added. -/
  | addPrerequisite (prerequisite : Text)
  /-- A prerequisite is taken away. -/
  | removePrerequisite (prerequisite : Text)
  /-- A command is added. -/
  | addCommand (command : Text)
  /-- A line is added. -/
  | addLine (line : Text)
  /-- Other commands are put in the place of each command. -/
  | replaceCommands {σ : Type} (f : Text → List Text → StateM σ (List Text)) (s : σ)
  /-- The rule is cleared. -/
  | clear

/-- The rule after an edit. -/
def edit (r : Rule) : Edit → Rule
  | .renameTarget old new => r.renameTarget old new
  | .removeTarget target => r.removeTarget target
  | .addPrerequisite prerequisite => r.addPrerequisite prerequisite
  | .removePrerequisite prerequisite => r.removePrerequisite prerequisite
  | .addCommand command => r.addCommand command
  | .addLine line => r.addLine line
  | .replaceCommands f s => ((r.replaceCommandsM f).run s).1
  | .clear => .cleared

/-- The rule after edits. -/
def run (r : Rule) (es : List Edit) : Rule := es.foldl edit r

/-- The words that the edit puts into the header are words for a header. -/
def Edit.GivesWords : Edit → Prop
  | .renameTarget _ new => IsTarget new
  | .addPrerequisite prerequisite => IsPrerequisite prerequisite
  | .removeTarget _ | .removePrerequisite _ | .addCommand _ | .addLine _ | .replaceCommands _ _ | .clear => True

/-- The header names what the rule names, and if there is one it has a colon. -/
structure IsHeaded (r : Rule) : Prop extends Agrees r where
  colon : r.header ≠ [] → ':' ∈ r.header

theorem isHeaded_withHeader (h : r.HasWords) : r.withHeader.IsHeaded :=
  ⟨agrees_withHeader_iff.mpr h, fun _ => by simp [withHeader, headerText_eq]⟩

/-- Lines of the body are not in the header. -/
theorem IsHeaded.withBody (h : r.IsHeaded) (body : List Text) : IsHeaded { r with body } :=
  ⟨⟨h.targets, h.prerequisites⟩, h.colon⟩

theorem isHeaded_cleared : IsHeaded .cleared := ⟨⟨rfl, rfl⟩, fun h => absurd rfl h⟩

/-- **One edit** keeps the header and what the rule names the same. -/
theorem isHeaded_edit (h : r.IsHeaded) {e : Edit} (he : e.GivesWords) : (r.edit e).IsHeaded := by
  obtain ⟨htargets, hprerequisites⟩ := h.toAgrees.hasWords
  cases e with
  | renameTarget old new =>
    rw [edit, Rule.renameTarget]
    split
    · refine isHeaded_withHeader ⟨fun w hw => ?_, hprerequisites⟩
      obtain ⟨v, hv, rfl⟩ := List.mem_map.mp hw
      split
      · exact he
      · exact htargets v hv
    · exact h
  | removeTarget target =>
    rw [edit, Rule.removeTarget]
    split
    · exact isHeaded_withHeader ⟨fun w hw => htargets w (List.mem_filter.mp hw).1, hprerequisites⟩
    · exact h
  | addPrerequisite prerequisite =>
    exact isHeaded_withHeader
      ⟨htargets, List.forall_mem_append.mpr ⟨hprerequisites, List.forall_mem_singleton.mpr he⟩⟩
  | removePrerequisite prerequisite =>
    rw [edit, Rule.removePrerequisite]
    split
    · exact isHeaded_withHeader ⟨htargets, fun w hw => hprerequisites w (List.mem_filter.mp hw).1⟩
    · exact h
  | addCommand command => exact h.withBody _
  | addLine line => exact h.withBody _
  | replaceCommands f s => exact h.withBody _
  | clear => exact isHeaded_cleared

theorem isHeaded_run (h : r.IsHeaded) {es : List Edit} (hes : ∀ e ∈ es, e.GivesWords) :
    (r.run es).IsHeaded := by
  induction es generalizing r with
  | nil => exact h
  | cons e es ih =>
    obtain ⟨he, hes⟩ := List.forall_mem_cons.mp hes
    exact ih (isHeaded_edit h he) hes

/-! ### Rules that are read or made -/

/-- The rule was read, or made from words for a header. -/
inductive IsMade : Rule → Prop
  | read {t : Text} {r : Rule} (h : .rule r ∈ (parse t).entries) : IsMade r
  | make {target : Text} {ps comment : List Text} (htargets : ∀ w ∈ words target, IsTarget w)
      (hps : ∀ p ∈ ps, IsPrerequisite p) : IsMade (make target ps comment)

theorem IsMade.isHeaded (h : r.IsMade) : r.IsHeaded := by
  cases h with
  | read h =>
    have hread := isRead_of_parse _ _ h
    refine ⟨⟨hread.targets.symm, hread.prerequisites.symm⟩, fun _ => ?_⟩
    by_contra hcolon
    have hheader := hread.header
    simp [isRuleHeader, cut?_eq_none_iff.mpr hcolon] at hheader
  | make htargets hps => exact isHeaded_withHeader ⟨htargets, hps⟩

end Rule

/-! ### Headers that are written -/

namespace Writer

/-- Lines that are written stay. -/
theorem prefix_add (w : Writer) (e : Entry) : w.lines <+: (w.add e).lines := by
  cases e with
  | line l =>
    rw [add]
    split
    · exact List.prefix_refl _
    · exact List.prefix_append _ _
  | rule r =>
    rw [add]
    split
    · exact List.prefix_refl _
    · rw [List.append_assoc]
      exact List.prefix_append _ _

theorem prefix_foldl_add (w : Writer) (es : List Entry) : w.lines <+: (es.foldl add w).lines := by
  induction es generalizing w with
  | nil => exact List.prefix_refl _
  | cons e es ih => exact (prefix_add w e).trans (ih (w.add e))

/-- At the end, only a blank line is taken back. -/
theorem exists_finish_eq {w : Writer} {above below : List Text} {line : Text}
    (h : w.lines = above ++ line :: below) (hline : isBlankLine line = false) :
    ∃ below', w.finish = above ++ line :: below' := by
  unfold finish
  split
  · rename_i htaken
    obtain ⟨-, hlast⟩ := Bool.and_eq_true _ _ ▸ htaken
    have hbelow : below ≠ [] := by
      rintro rfl
      rw [h, List.getLast?_concat, Option.any_some, hline] at hlast
      cases hlast
    refine ⟨below.dropLast, ?_⟩
    rw [h, List.dropLast_append_of_ne_nil (List.cons_ne_nil line below), List.dropLast_cons_of_ne_nil hbelow]
  · exact ⟨below, h⟩

end Writer

/-- **The header of a rule is written** behind what is written of the entries before the rule, and behind the
comment that belongs to it. -/
theorem exists_lines_eq {mk : Makefile} {before after : List Entry} {r : Rule}
    (hentries : mk.entries = before ++ .rule r :: after) (hheader : isBlankLine r.header = false) :
    ∃ below, mk.lines = (before.foldl Writer.add {}).lines ++ (r.precomment ++ r.header :: below) := by
  have hempty : r.header.isEmpty = false := by
    cases hnil : r.header with
    | nil => simp [hnil, isBlankLine] at hheader
    | cons c header => rfl
  have hadd : ((before.foldl Writer.add {}).add (.rule r)).lines =
      (before.foldl Writer.add {}).lines ++ (r.precomment ++ r.header :: r.body) := by
    simp [Writer.add, Rule.isCleared, Rule.lines, hempty]
  obtain ⟨more, hmore⟩ := Writer.prefix_foldl_add ((before.foldl Writer.add {}).add (.rule r)) after
  have hwritten : (mk.entries.foldl Writer.add {}).lines =
      (before.foldl Writer.add {}).lines ++ r.precomment ++ r.header :: (r.body ++ more) := by
    rw [hentries, List.foldl_append, List.foldl_cons, ← hmore, hadd]
    simp
  obtain ⟨below, hbelow⟩ := Writer.exists_finish_eq hwritten hheader
  exact ⟨below, by rw [lines, hbelow, List.append_assoc]⟩

namespace Rule

variable {r : Rule}

/-- What is written of a rule says what it names: its header names its targets and prerequisites, and stands
among the lines of every makefile that the rule is in, at the place of the rule. A rule without a header has
neither. -/
structure Says (r : Rule) : Prop extends Agrees r where
  written : r.header ≠ [] → ∀ (mk : Makefile) (before after : List Entry),
    mk.entries = before ++ .rule r :: after →
      ∃ below, mk.lines = (before.foldl Writer.add {}).lines ++ (r.precomment ++ r.header :: below)
  nameless : r.header = [] → r.targets = [] ∧ r.prerequisites = []

theorem says_of_isHeaded (h : r.IsHeaded) : r.Says := by
  refine ⟨h.toAgrees, fun hne mk before after hentries => ?_, fun hnil => ?_⟩
  · refine exists_lines_eq hentries ?_
    rw [Bool.eq_false_iff]
    intro hblank
    exact absurd (List.all_eq_true.mp hblank ':' (h.colon hne)) (by decide)
  · rw [← h.targets, ← h.prerequisites, hnil]
    exact ⟨rfl, rfl⟩

/-- **What is written of a rule says what it names**, whether the rule was read or made, and whatever edits came
after that, as long as they were given words for a header. -/
theorem says_run (hr : r.IsMade) {es : List Edit} (hes : ∀ e ∈ es, e.GivesWords) : (r.run es).Says :=
  says_of_isHeaded (isHeaded_run hr.isHeaded hes)

/-- A rule with two colons and a folded header. -/
def foldedRule : Rule := ofHeader "a  b:: c \\\n :d".toList

/-- Its words stay apart when the header is made anew. -/
theorem says_run_foldedRule :
    foldedRule.IsMade ∧ (∀ e ∈ [.removePrerequisite ['c'], .renameTarget ['a'] "x=".toList], Edit.GivesWords e) ∧
    (foldedRule.run [.removePrerequisite ['c'], .renameTarget ['a'] "x=".toList]).Says ∧
    (foldedRule.run [.removePrerequisite ['c'], .renameTarget ['a'] "x=".toList]).header =
      "x= b: :d".toList := by
  have hr : foldedRule.IsMade := .read (t := "a  b:: c \\\n :d\n".toList) (by decide +kernel)
  have hname : IsTarget "x=".toList := ⟨⟨⟨by decide, noBlank_iff.mpr (by decide)⟩, by decide⟩, by decide⟩
  have hes : ∀ e ∈ [.removePrerequisite ['c'], .renameTarget ['a'] "x=".toList], Edit.GivesWords e :=
    List.forall_mem_cons.mpr ⟨trivial, List.forall_mem_singleton.mpr hname⟩
  exact ⟨hr, hes, says_run hr hes, by decide⟩

end Rule

end Packaging.Makefile
