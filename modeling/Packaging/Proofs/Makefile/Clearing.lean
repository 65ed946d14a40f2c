import Packaging.Proofs.Makefile.Conditionals
import Packaging.Proofs.Makefile.Rules

/-!
# Cleared rules and the blank lines beside them

A rule that is cleared goes with its comment, its header and its body. Rules are often set apart by
blank lines, so that there would be two of these where one or more rules have gone; then one of them
goes as well.

## What is proved

* `Leaves` — what is left when rules are cleared: besides their lines, at most one blank line goes for
  each run of rules that are cleared one after the other, and it stands directly before the run or
  directly after it.
* `leaves_lines_clearRules` — the lines that are written for a makefile some of whose rules are cleared
  are left in this sense.
* `isClearing_render_iff` — they are the lines of the text that is written, and its last newline is there
  if it was there before, exactly if no newline was taken off an empty line. A text without its last
  newline has no empty last line; but such a line can become the last one.
-/

namespace Packaging.Makefile

open Text

/-! ### Clearing rules -/

/-- The makefile with the rules at some places cleared. -/
def clearRules (chosen : Nat → Bool) (mk : Makefile) : Makefile :=
  { mk with
    entries := mk.entries.mapIdx fun i e => if chosen i then e.mapRule fun _ => .cleared else e }

/-- An entry of a makefile in which some rules are to be cleared. -/
inductive Part where
  /-- A line outside of rules. -/
  | line (text : Text)
  /-- A rule that stays. -/
  | kept (rule : Rule)
  /-- A rule that is to be cleared. -/
  | cleared (rule : Rule)

namespace Part

/-- A rule is to be cleared if it is chosen. -/
def ofEntry (chosen : Bool) : Entry → Part
  | .line l => .line l
  | .rule r => if chosen then .cleared r else .kept r

/-- The entry as it was. -/
def before : Part → Entry
  | .line l => .line l
  | .kept r | .cleared r => .rule r

/-- The entry as it is when the rules are cleared. -/
def after : Part → Entry
  | .line l => .line l
  | .kept r => .rule r
  | .cleared _ => .rule .cleared

theorem before_ofEntry (chosen : Bool) (e : Entry) : (ofEntry chosen e).before = e := by
  cases e <;> cases chosen <;> rfl

theorem after_ofEntry (chosen : Bool) (e : Entry) :
    (ofEntry chosen e).after = if chosen then e.mapRule fun _ => .cleared else e := by
  cases e <;> cases chosen <;> rfl

end Part

/-- The parts of entries in which the rules at some places are to be cleared. -/
def partsOf (chosen : Nat → Bool) (es : List Entry) : List Part :=
  es.mapIdx fun i e => .ofEntry (chosen i) e

theorem map_before_partsOf (chosen : Nat → Bool) (es : List Entry) :
    (partsOf chosen es).map Part.before = es := by
  refine List.ext_getElem? fun i => ?_
  simp [partsOf, Function.comp_def, Part.before_ofEntry]

theorem entries_clearRules (chosen : Nat → Bool) (mk : Makefile) :
    (mk.clearRules chosen).entries = (partsOf chosen mk.entries).map Part.after := by
  refine List.ext_getElem? fun i => ?_
  simp [clearRules, partsOf, Function.comp_def, Part.after_ofEntry]

/-! ### What is left -/

/-- No rule that is to be cleared comes first. -/
def EndsRun (ps : List Part) : Prop := ∀ r, ps.head? ≠ some (.cleared r)

/-- What is left of the lines of a makefile when rules are cleared. Every other entry keeps all its lines
in their order; but for each run of rules that are cleared one after the other, a blank line may go that
stands directly before the run or directly after it. -/
inductive Leaves : List Part → List Text → Prop
  | nil : Leaves [] []
  /-- A line outside of rules stays. -/
  | line (l : Text) {ps : List Part} {ls : List Text} (rest : Leaves ps ls) :
      Leaves (.line l :: ps) (l :: ls)
  /-- A rule that is not cleared stays. -/
  | kept (r : Rule) {ps : List Part} {ls : List Text} (rest : Leaves ps ls) :
      Leaves (.kept r :: ps) (r.allLines ++ ls)
  /-- A run goes. -/
  | run {rs : List Rule} {ps : List Part} {ls : List Text} (hrs : rs ≠ []) (hends : EndsRun ps)
      (rest : Leaves ps ls) : Leaves (rs.map .cleared ++ ps) ls
  /-- A run goes with the blank line before it. -/
  | runAndBefore {b : Text} {rs : List Rule} {ps : List Part} {ls : List Text}
      (hb : isBlankLine b = true) (hrs : rs ≠ []) (hends : EndsRun ps) (rest : Leaves ps ls) :
      Leaves (.line b :: (rs.map .cleared ++ ps)) ls
  /-- A run goes with the blank line after it. -/
  | runAndAfter {b : Text} {rs : List Rule} {ps : List Part} {ls : List Text}
      (hb : isBlankLine b = true) (hrs : rs ≠ []) (rest : Leaves ps ls) :
      Leaves (rs.map .cleared ++ .line b :: ps) ls

theorem endsRun_nil : EndsRun [] := nofun

theorem endsRun_line (l : Text) (ps : List Part) : EndsRun (.line l :: ps) := nofun

theorem endsRun_kept (r : Rule) (ps : List Part) : EndsRun (.kept r :: ps) := nofun

/-- Parts are taken one by one, but a run of rules that are to be cleared at once. -/
theorem runs_induction {P : List Part → Prop} (nil : P []) (line : ∀ l ps, P ps → P (.line l :: ps))
    (kept : ∀ r ps, P ps → P (.kept r :: ps))
    (run : ∀ rs ps, rs ≠ [] → EndsRun ps → P ps → (∀ l ps', ps = .line l :: ps' → P ps') →
      P (rs.map .cleared ++ ps)) (ps : List Part) : P ps := by
  -- the rules of the run that has begun are kept apart until it ends
  suffices h : ∀ rs : List Rule, P (rs.map .cleared ++ ps) from h []
  induction ps with
  | nil =>
    intro rs
    by_cases hrs : rs = []
    · rw [hrs]
      exact nil
    · exact run rs [] hrs endsRun_nil nil (by simp)
  | cons p ps ih =>
    have hps : P ps := ih []
    intro rs
    cases p with
    | line l =>
      by_cases hrs : rs = []
      · rw [hrs]
        exact line l ps hps
      · refine run rs _ hrs (endsRun_line l ps) (line l ps hps) ?_
        rintro l' ps' ⟨⟩
        exact hps
    | kept r =>
      by_cases hrs : rs = []
      · rw [hrs]
        exact kept r ps hps
      · exact run rs _ hrs (endsRun_kept r ps) (kept r ps hps) (by simp)
    | cleared r =>
      have hstep := ih (rs ++ [r])
      rwa [List.map_append, List.append_assoc] at hstep

/-- A blank line that is left out behind a run can stand for the one before the run, so that this one is
free to go with the next run. -/
theorem Leaves.insertRun {b b' : Text} {rs : List Rule} {ps : List Part} {ls : List Text}
    (h : Leaves (.line b :: ps) ls) (hb : isBlankLine b = true) (hb' : isBlankLine b' = true)
    (hrs : rs ≠ []) : Leaves (.line b :: (rs.map .cleared ++ .line b' :: ps)) ls := by
  generalize hps : Part.line b :: ps = whole at h
  cases h with
  | nil => cases hps
  | line l rest =>
    cases hps
    exact .line b (.runAndAfter hb' hrs rest)
  | kept => cases hps
  | @run rs' _ _ hrs' =>
    obtain ⟨r, rs', rfl⟩ := List.exists_cons_of_ne_nil hrs'
    cases hps
  | runAndBefore _ hrs' hends rest =>
    cases hps
    exact .runAndBefore hb hrs (endsRun_line b' _) (.runAndBefore hb' hrs' hends rest)
  | @runAndAfter _ rs' _ _ _ hrs' =>
    obtain ⟨r, rs', rfl⟩ := List.exists_cons_of_ne_nil hrs'
    cases hps

/-! ### What is written -/

/-- The rule is written, and its last line is not blank. -/
structure Rule.IsFirm (r : Rule) : Prop where
  written : r.isCleared = false
  last : ∃ l, r.allLines.getLast? = some l ∧ isBlankLine l = false

/-- The rules that stay are written and do not end with a blank line. -/
def Firm (ps : List Part) : Prop := ∀ r, .kept r ∈ ps → r.IsFirm

theorem Firm.tail {p : Part} {ps : List Part} (h : Firm (p :: ps)) : Firm ps :=
  fun r hr => h r (List.mem_cons_of_mem p hr)

theorem Firm.of_append {ps ps' : List Part} (h : Firm (ps ++ ps')) : Firm ps' :=
  fun r hr => h r (List.mem_append_right ps hr)

theorem isBlankLine_header {r : Rule} (h : isRuleHeader r.header = true) :
    isBlankLine r.header = false := by
  unfold isRuleHeader at h
  cases hcut : cut? ':' r.header with
  | none => simp [hcut] at h
  | some parts =>
    obtain ⟨left, right⟩ := parts
    have hcolon : isBlank ':' = false := by decide
    rw [(cut?_eq_some_iff.mp hcut).2]
    simp [isBlankLine, hcolon]

theorem isFirm_of_parse {t : Text} {r : Rule} (h : .rule r ∈ (parse t).entries) : r.IsFirm := by
  have hheader := (isRead_of_parse t r h).header
  have hne := Reader.ne_nil_of_isRuleHeader hheader
  refine ⟨by simp [Rule.isCleared, hne], ?_⟩
  have hlines : r.allLines = r.precomment ++ r.header :: r.body := by
    simp [Rule.allLines, Rule.lines, hne]
  rw [hlines, List.getLast?_append_of_ne_nil _ (List.cons_ne_nil _ _)]
  cases hbody : r.body.getLast? with
  | none =>
    rw [List.getLast?_eq_none_iff.mp hbody]
    exact ⟨r.header, rfl, isBlankLine_header hheader⟩
  | some l =>
    have hloose := isLoose_body_of_parse t r h
    rw [hbody, Option.any_some, Reader.isLoose, Bool.or_eq_false_iff] at hloose
    exact ⟨l, by rw [List.getLast?_cons, hbody, Option.getD_some], hloose.1⟩

theorem firm_of_parse (t : Text) (chosen : Nat → Bool) : Firm (partsOf chosen (parse t).entries) := by
  intro r hr
  refine isFirm_of_parse (t := t) ?_
  have hmem := List.mem_map_of_mem (f := Part.before) hr
  rwa [map_before_partsOf] at hmem

namespace Writer

/-- Writes parts, with their rules cleared. -/
def addParts (w : Writer) (ps : List Part) : Writer := (ps.map Part.after).foldl add w

theorem addParts_append (w : Writer) (ps ps' : List Part) :
    w.addParts (ps ++ ps') = (w.addParts ps).addParts ps' := by
  rw [addParts, List.map_append, List.foldl_append]
  rfl

theorem addParts_line (ls : List Text) (ended : Bool) (l : Text) (ps : List Part) :
    addParts ⟨ls, false, ended⟩ (.line l :: ps) = addParts ⟨ls ++ [l], false, false⟩ ps := rfl

/-- A blank line is left out where that is called for. -/
theorem addParts_blank {l : Text} (h : isBlankLine l = true) (ls : List Text) (ended : Bool)
    (ps : List Part) : addParts ⟨ls, true, ended⟩ (.line l :: ps) = addParts ⟨ls, false, false⟩ ps := by
  have hadd : add ⟨ls, true, ended⟩ (.line l) = ⟨ls, false, false⟩ := by simp [add, h]
  rw [← hadd]
  rfl

theorem addParts_line_of_not_blank {l : Text} (h : isBlankLine l = false) (ls : List Text)
    (skips ended : Bool) (ps : List Part) :
    addParts ⟨ls, skips, ended⟩ (.line l :: ps) = addParts ⟨ls ++ [l], false, false⟩ ps := by
  have hadd : add ⟨ls, skips, ended⟩ (.line l) = ⟨ls ++ [l], false, false⟩ := by simp [add, h]
  rw [← hadd]
  rfl

theorem addParts_kept {r : Rule} (h : r.isCleared = false) (ls : List Text) (skips ended : Bool)
    (ps : List Part) :
    addParts ⟨ls, skips, ended⟩ (.kept r :: ps) = addParts ⟨ls ++ r.allLines, false, false⟩ ps := by
  have hadd : add ⟨ls, skips, ended⟩ (.rule r) = ⟨ls ++ r.allLines, false, false⟩ := by
    simp [add, h, Rule.allLines]
  rw [← hadd]
  rfl

/-- After a run a blank line is left out if one comes before the run, or nothing. -/
theorem addParts_run {rs : List Rule} (hrs : rs ≠ []) (ls : List Text) (ps : List Part) :
    addParts ⟨ls, false, false⟩ (rs.map .cleared ++ ps) =
      addParts ⟨ls, ls.getLast?.all isBlankLine, true⟩ ps := by
  suffices h : ∀ skips ended, addParts ⟨ls, skips, ended⟩ (rs.map .cleared) =
      ⟨ls, skips || ls.getLast?.all isBlankLine, true⟩ by rw [addParts_append, h, Bool.false_or]
  induction rs with
  | nil => exact absurd rfl hrs
  | cons r rs ih =>
    intro skips ended
    have hstep : addParts ⟨ls, skips, ended⟩ ((r :: rs).map .cleared) =
        addParts ⟨ls, skips || ls.getLast?.all isBlankLine, true⟩ (rs.map .cleared) := rfl
    rw [hstep]
    by_cases hrs : rs = []
    · rw [hrs]
      rfl
    · rw [ih hrs, Bool.or_assoc, Bool.or_self]

/-- Where no run goes on and no blank line is left out, parts are written as after any other line. -/
theorem addParts_resume {ps : List Part} (hps : Firm ps) (hends : EndsRun ps) (hne : ps ≠ [])
    {skips : Bool} (hskips : ∀ l ps', ps = .line l :: ps' → (skips && isBlankLine l) = false)
    (ls : List Text) : addParts ⟨ls, skips, true⟩ ps = addParts ⟨ls, false, false⟩ ps := by
  cases ps with
  | nil => exact absurd rfl hne
  | cons p ps =>
    cases p with
    | cleared r => exact absurd rfl (hends r)
    | kept r =>
      have hr := (hps r List.mem_cons_self).written
      rw [addParts_kept hr, addParts_kept hr]
    | line l =>
      have hl := hskips l ps rfl
      cases skips with
      | false => rw [addParts_line, addParts_line]
      | true =>
        rw [Bool.true_and] at hl
        rw [addParts_line_of_not_blank hl, addParts_line]

end Writer

/-- What is written of parts after other lines: what is left of the parts, and of a blank line that comes
directly before them. -/
structure Written (ps : List Part) : Prop where
  afterFirm : ∀ ls, ls.getLast?.any isBlankLine = false →
    ∃ rest, Leaves ps rest ∧ (Writer.addParts ⟨ls, false, false⟩ ps).finish = ls ++ rest
  afterBlank : ∀ ls b, isBlankLine b = true →
    ∃ rest, Leaves (.line b :: ps) rest ∧
      (Writer.addParts ⟨ls ++ [b], false, false⟩ ps).finish = ls ++ rest

/-- Where what comes before does not matter, a blank line before stays. -/
theorem Written.of_forall {ps : List Part}
    (h : ∀ ls, ∃ rest, Leaves ps rest ∧ (Writer.addParts ⟨ls, false, false⟩ ps).finish = ls ++ rest) :
    Written ps := by
  refine ⟨fun ls _ => h ls, fun ls b _ => ?_⟩
  obtain ⟨rest, hleaves, hfinish⟩ := h (ls ++ [b])
  exact ⟨b :: rest, .line b hleaves, by rw [hfinish, List.append_assoc, List.singleton_append]⟩

theorem Written.line {ps : List Part} (h : Written ps) (l : Text) : Written (.line l :: ps) := by
  refine .of_forall fun ls => ?_
  rw [Writer.addParts_line]
  cases hblank : isBlankLine l with
  | true => exact h.afterBlank ls l hblank
  | false =>
    obtain ⟨rest, hleaves, hfinish⟩ := h.afterFirm (ls ++ [l]) (by simp [hblank])
    exact ⟨l :: rest, .line l hleaves, by rw [hfinish, List.append_assoc, List.singleton_append]⟩

theorem Written.kept {ps : List Part} (h : Written ps) {r : Rule} (hr : r.IsFirm) :
    Written (.kept r :: ps) := by
  obtain ⟨hwritten, last, hlast, hblank⟩ := hr
  refine .of_forall fun ls => ?_
  rw [Writer.addParts_kept hwritten]
  have hend : (ls ++ r.allLines).getLast?.any isBlankLine = false := by
    simp [List.getLast?_append, hlast, hblank]
  obtain ⟨rest, hleaves, hfinish⟩ := h.afterFirm (ls ++ r.allLines) hend
  exact ⟨r.allLines ++ rest, .kept r hleaves, by rw [hfinish, List.append_assoc]⟩

/-- A blank line stays if no run comes directly after it. -/
theorem Leaves.of_line {b : Text} {ps : List Part} {ls : List Text} (h : Leaves (.line b :: ps) ls)
    (hends : EndsRun ps) : ∃ rest, ls = b :: rest ∧ Leaves ps rest := by
  generalize hps : Part.line b :: ps = whole at h
  cases h with
  | line l rest =>
    cases hps
    exact ⟨_, rfl, rest⟩
  | nil | kept => cases hps
  | @run rs _ _ hrs | @runAndAfter _ rs _ _ _ hrs =>
    obtain ⟨r, rs, rfl⟩ := List.exists_cons_of_ne_nil hrs
    cases hps
  | @runAndBefore _ rs _ _ _ hrs =>
    obtain ⟨r, rs, rfl⟩ := List.exists_cons_of_ne_nil hrs
    cases hps
    exact absurd rfl (hends r)

/-- A run is left out, and a blank line after it if one comes before it. -/
theorem Written.run {rs : List Rule} {ps : List Part} (hrs : rs ≠ []) (hends : EndsRun ps)
    (hfirm : Firm ps) (h : Written ps) (hnext : ∀ l ps', ps = .line l :: ps' → Written ps') :
    Written (rs.map .cleared ++ ps) := by
  constructor
  · intro ls hlast
    rw [Writer.addParts_run hrs]
    by_cases hne : ps = []
    · subst hne
      refine ⟨[], .run hrs hends .nil, ?_⟩
      simp [Writer.addParts, Writer.finish, hlast]
    by_cases hskips : ∀ l ps', ps = .line l :: ps' →
        (ls.getLast?.all isBlankLine && isBlankLine l) = false
    · rw [Writer.addParts_resume hfirm hends hne hskips]
      obtain ⟨rest, hleaves, hfinish⟩ := h.afterFirm ls hlast
      exact ⟨rest, .run hrs hends hleaves, hfinish⟩
    · push Not at hskips
      obtain ⟨l, ps', rfl, hl⟩ := hskips
      obtain ⟨hall, hblank⟩ : ls.getLast?.all isBlankLine = true ∧ isBlankLine l = true := by
        simpa using hl
      rw [hall, Writer.addParts_blank hblank]
      obtain ⟨rest, hleaves, hfinish⟩ := (hnext l ps' rfl).afterFirm ls hlast
      exact ⟨rest, .runAndAfter hblank hrs hleaves, hfinish⟩
  · intro ls b hb
    rw [Writer.addParts_run hrs]
    have hall : (ls ++ [b]).getLast?.all isBlankLine = true := by simp [hb]
    rw [hall]
    by_cases hne : ps = []
    · subst hne
      refine ⟨[], .runAndBefore hb hrs hends .nil, ?_⟩
      simp [Writer.addParts, Writer.finish, hb]
    by_cases hskips : ∀ l ps', ps = .line l :: ps' → (true && isBlankLine l) = false
    · rw [Writer.addParts_resume hfirm hends hne hskips]
      obtain ⟨rest, hleaves, hfinish⟩ := h.afterBlank ls b hb
      obtain ⟨rest', rfl, hleaves'⟩ := hleaves.of_line hends
      exact ⟨b :: rest', .line b (.run hrs hends hleaves'), hfinish⟩
    · push Not at hskips
      obtain ⟨l, ps', rfl, hl⟩ := hskips
      have hblank : isBlankLine l = true := by simpa using hl
      rw [Writer.addParts_blank hblank]
      obtain ⟨rest, hleaves, hfinish⟩ := (hnext l ps' rfl).afterBlank ls b hb
      exact ⟨rest, hleaves.insertRun hb hblank hrs, hfinish⟩

theorem written_of_firm {ps : List Part} : Firm ps → Written ps := by
  induction ps using runs_induction with
  | nil =>
    intro _
    exact .of_forall fun ls => ⟨[], .nil, by simp [Writer.addParts, Writer.finish]⟩
  | line l ps ih =>
    intro h
    exact (ih h.tail).line l
  | kept r ps ih =>
    intro h
    exact (ih h.tail).kept (h r List.mem_cons_self)
  | run rs ps hrs hends ih hnext =>
    intro h
    refine .run hrs hends h.of_append (ih h.of_append) ?_
    rintro l ps' rfl
    exact hnext l ps' rfl h.of_append.tail

theorem lines_clearRules (chosen : Nat → Bool) (mk : Makefile) :
    (mk.clearRules chosen).lines =
      (Writer.addParts ⟨[], false, false⟩ (partsOf chosen mk.entries)).finish := by
  rw [Makefile.lines, entries_clearRules]
  rfl

/-- **Clearing rules.** What is written for a makefile that was read, some of whose rules are cleared, is
what is left of its lines. -/
theorem leaves_lines_clearRules (t : Text) (chosen : Nat → Bool) :
    Leaves (partsOf chosen (parse t).entries) ((parse t).clearRules chosen).lines := by
  obtain ⟨rest, hleaves, hfinish⟩ := (written_of_firm (firm_of_parse t chosen)).afterFirm [] rfl
  rw [lines_clearRules, hfinish]
  exact hleaves

/-! ### Leaving nothing -/

theorem not_endsRun {rs : List Rule} (hrs : rs ≠ []) (ps : List Part) :
    ¬ EndsRun (rs.map .cleared ++ ps) := by
  obtain ⟨r, rs, rfl⟩ := List.exists_cons_of_ne_nil hrs
  exact fun h => h r rfl

theorem allLines_append_ne_nil {r : Rule} (h : r.IsFirm) (ls : List Text) : r.allLines ++ ls ≠ [] := by
  intro hnil
  obtain ⟨last, hlast, -⟩ := h.last
  rw [(List.append_eq_nil_iff.mp hnil).1] at hlast
  cases hlast

/-- Where nothing need be left of parts that come after a run, nothing is written of them, nor of a blank
line before the run. -/
theorem finish_addParts_after_run {ps : List Part} (hfirm : Firm ps) (hends : EndsRun ps)
    {left : List Text} (h : Leaves ps left) (hleft : left = []) {ls : List Text}
    (hblank : ls.all isBlankLine = true) (hlength : ls.length ≤ 1) :
    (Writer.addParts ⟨ls, true, true⟩ ps).finish = [] := by
  have hwritten : ls = [] ∨ ∃ b, ls = [b] :=
    (Nat.le_one_iff_eq_zero_or_eq_one.mp hlength).imp List.length_eq_zero_iff.mp List.length_eq_one_iff.mp
  induction h with
  | nil =>
    rcases hwritten with rfl | ⟨b, rfl⟩
    · rfl
    · have hb : isBlankLine b = true := by simpa using hblank
      simp [Writer.addParts, Writer.finish, hb]
  | line => cases hleft
  | kept r => exact absurd hleft (allLines_append_ne_nil (hfirm r List.mem_cons_self) _)
  | run hrs => exact absurd hends (not_endsRun hrs _)
  | runAndAfter _ hrs => exact absurd hends (not_endsRun hrs _)
  | runAndBefore hb hrs hends' rest ih =>
    have hlast : ls.getLast?.all isBlankLine = true := by
      rcases hwritten with rfl | ⟨b, rfl⟩
      · rfl
      · simpa using hblank
    rw [Writer.addParts_blank hb, Writer.addParts_run hrs, hlast]
    exact ih hfirm.tail.of_append hends' hleft

/-- Where nothing need be left, nothing is written. -/
theorem finish_addParts_of_leaves_nil {ps : List Part} (hfirm : Firm ps) {left : List Text}
    (h : Leaves ps left) (hleft : left = []) :
    (Writer.addParts ⟨[], false, false⟩ ps).finish = [] := by
  induction h with
  | nil => rfl
  | line => cases hleft
  | kept r => exact absurd hleft (allLines_append_ne_nil (hfirm r List.mem_cons_self) _)
  | run hrs hends rest =>
    rw [Writer.addParts_run hrs]
    exact finish_addParts_after_run hfirm.of_append hends rest hleft rfl (Nat.zero_le 1)
  | @runAndBefore b _ _ _ hb hrs hends rest =>
    have hlast : ([] ++ [b]).getLast?.all isBlankLine = true := by simp [hb]
    rw [Writer.addParts_line, Writer.addParts_run hrs, hlast]
    exact finish_addParts_after_run hfirm.tail.of_append hends rest hleft (by simp [hb]) (by simp)
  | runAndAfter hb hrs rest ih =>
    have hlast : ([] : List Text).getLast?.all isBlankLine = true := rfl
    rw [Writer.addParts_run hrs, hlast, Writer.addParts_blank hb]
    exact ih hfirm.of_append.tail hleft

/-! ### Texts -/

/-- The logical lines of a text. An empty text has none. -/
def textLines (t : Text) : List Text := if t.isEmpty then [] else contentLines t

theorem textLines_eq_nil_iff {t : Text} : textLines t = [] ↔ t = [] := by
  unfold textLines
  split
  · rename_i h
    simpa using h
  · rename_i h
    have hne : contentLines t ≠ [] := logicalLines_ne_nil _
    simpa [hne] using h

/-- The lines of the entries of a text are its logical lines. -/
theorem linesOf_parse_eq_textLines (t : Text) : linesOf (parse t).entries = textLines t := by
  by_cases h : t = []
  · rw [h]
    rfl
  · have hempty : t.isEmpty = false := by simpa using h
    rw [linesOf_parse h, textLines, hempty, if_neg Bool.false_ne_true]

/-- What clearing the rules at some places of a text comes to: the logical lines are what is left of those
of the text, and if there are any, the last one has its newline if it had it before. -/
def IsClearing (t : Text) (chosen : Nat → Bool) (u : Text) : Prop :=
  Leaves (partsOf chosen (parse t).entries) (textLines u) ∧
    (u ≠ [] → (u.getLast? = some '\n' ↔ t.getLast? = some '\n'))

/-- The text shows without a newline behind it that it is a line. -/
def showsEnd (line : Text) : Bool := line.getLast?.any (· ≠ '\n')

theorem lacksFinalNewline_parse (t : Text) :
    (parse t).lacksFinalNewline = true ↔ t ≠ [] ∧ t.getLast? ≠ some '\n' := by
  unfold parse
  split
  · rename_i h
    simp [List.isEmpty_iff.mp h]
  · rename_i h
    cases hend : dropEnd? ['\n'] t with
    | some body => simp [dropEnd?_eq_some_iff.mp hend]
    | none => simpa [dropEnd?_singleton_eq_none_iff.mp hend] using h

/-- Only lines of the makefile are left, and in their order. -/
theorem Leaves.sublist {ps : List Part} {ls : List Text} (h : Leaves ps ls) :
    ls.Sublist (linesOf (ps.map Part.before)) := by
  induction h with
  | nil => exact .slnil
  | line l rest ih => exact ih.cons_cons l
  | kept r rest ih => exact (List.Sublist.refl _).append ih
  | run hrs hends rest ih =>
    rw [List.map_append, linesOf_append]
    exact ih.trans (List.sublist_append_right _ _)
  | runAndBefore hb hrs hends rest ih =>
    rw [List.map_cons, linesOf_cons, List.map_append, linesOf_append]
    exact (ih.trans (List.sublist_append_right _ _)).trans (List.sublist_append_right _ _)
  | runAndAfter hb hrs rest ih =>
    rw [List.map_append, linesOf_append, List.map_cons, linesOf_cons]
    exact (ih.trans (List.sublist_append_right _ _)).trans (List.sublist_append_right _ _)

theorem allLogical_clearRules (t : Text) (chosen : Nat → Bool) :
    AllLogical ((parse t).clearRules chosen).lines := by
  have hsub := (leaves_lines_clearRules t chosen).sublist
  rw [map_before_partsOf] at hsub
  exact (allLogical_linesOf_parse t).sublist hsub

/-! ### Reading what was written -/

section Render

variable {mk : Makefile}

theorem render_of_lines_eq_nil (h : mk.lines = []) : mk.render = [] := by
  rw [render, h]
  rfl

/-- With its last newline a text has the lines that were written. -/
theorem textLines_render (h : AllLogical mk.lines) (hnewline : mk.lacksFinalNewline = false) :
    textLines mk.render = mk.lines ∧ (mk.render ≠ [] → mk.render.getLast? = some '\n') := by
  by_cases hne : mk.lines = []
  · rw [render_of_lines_eq_nil hne, hne]
    exact ⟨rfl, fun h => absurd rfl h⟩
  · have hlines : mk.lines.isEmpty = false := by simpa using hne
    have hrender : mk.render = join ['\n'] mk.lines ++ ['\n'] := by simp [render, hlines, hnewline]
    have hbody : dropEnd? ['\n'] mk.render = some (join ['\n'] mk.lines) :=
      dropEnd?_eq_some_iff.mpr hrender
    have hempty : mk.render.isEmpty = false := by simp [hrender]
    refine ⟨?_, fun _ => by simp [hrender]⟩
    rw [textLines, hempty, if_neg Bool.false_ne_true, contentLines, hbody, Option.getD_some,
      logicalLines_join h hne]

theorem render_of_lacks (hlacks : mk.lacksFinalNewline = true) : mk.render = join ['\n'] mk.lines := by
  simp [render, hlacks]

/-- Without it, too, if the last line shows that it is one. -/
theorem textLines_render_of_lacks (h : AllLogical mk.lines) (hlacks : mk.lacksFinalNewline = true)
    (hlast : mk.lines.getLast?.all showsEnd = true) :
    textLines mk.render = mk.lines ∧ mk.render.getLast? ≠ some '\n' := by
  cases hlines : mk.lines.getLast? with
  | none =>
    have hnil := List.getLast?_eq_none_iff.mp hlines
    rw [render_of_lines_eq_nil hnil, hnil]
    exact ⟨rfl, by simp⟩
  | some last =>
    rw [hlines, Option.all_some, showsEnd, Option.any_eq_true] at hlast
    obtain ⟨c, hc, hshows⟩ := hlast
    have hne : last ≠ [] := by
      rintro rfl
      cases hc
    have hend : mk.render.getLast? = some c := by rw [render_of_lacks hlacks, getLast?_join hlines hne, hc]
    have hend' : mk.render.getLast? ≠ some '\n' := by simpa [hend] using hshows
    have hempty : mk.render.isEmpty = false := by
      rw [List.isEmpty_eq_false_iff]
      intro h
      simp [h] at hend
    refine ⟨?_, hend'⟩
    rw [textLines, hempty, if_neg Bool.false_ne_true, contentLines,
      dropEnd?_singleton_eq_none_iff.mpr hend', Option.getD_none, render_of_lacks hlacks,
      logicalLines_join h (List.ne_nil_of_mem (List.mem_of_getLast? hlines))]

/-- If it does not, the text that is written is empty or ends with a newline. -/
theorem render_of_not_showsEnd (hlacks : mk.lacksFinalNewline = true)
    (hlast : ¬ mk.lines.getLast?.all showsEnd = true) :
    mk.render = [] ∧ mk.lines ≠ [] ∨ mk.render.getLast? = some '\n' := by
  rw [render_of_lacks hlacks]
  cases hlines : mk.lines.getLast? with
  | none => simp [hlines] at hlast
  | some last =>
    by_cases hnil : last = []
    · subst hnil
      obtain ⟨init, hinit⟩ := List.getLast?_eq_some_iff.mp hlines
      rw [hinit]
      by_cases hfirst : init = []
      · rw [hfirst]
        exact .inl ⟨rfl, by simp⟩
      · right
        rw [join_append hfirst (by simp), join_singleton]
        simp
    · right
      rw [getLast?_join hlines hnil]
      obtain ⟨c, hc⟩ := Option.ne_none_iff_exists'.mp (mt List.getLast?_eq_none_iff.mp hnil)
      rw [hlines, Option.all_some, showsEnd, hc] at hlast
      simpa [hc] using hlast

end Render

/-- **Clearing rules of a text.** The lines that are written are what is left of those of the text. They
are the lines of the text that is written, and it ends as the text did, if and only if the text had its
last newline or the last of the lines shows that it is one. -/
theorem isClearing_render_iff (t : Text) (chosen : Nat → Bool) :
    Leaves (partsOf chosen (parse t).entries) ((parse t).clearRules chosen).lines ∧
      (IsClearing t chosen ((parse t).clearRules chosen).render ↔
        (t.getLast? ≠ some '\n' → ((parse t).clearRules chosen).lines.getLast?.all showsEnd = true)) := by
  have hleaves := leaves_lines_clearRules t chosen
  have hlogical := allLogical_clearRules t chosen
  refine ⟨hleaves, ?_⟩
  cases hlacks : (parse t).lacksFinalNewline with
  | false =>
    obtain ⟨hlines, hend⟩ := @textLines_render ((parse t).clearRules chosen) hlogical hlacks
    rw [IsClearing, hlines]
    by_cases ht : t.getLast? = some '\n'
    · exact iff_of_true ⟨hleaves, fun hne => iff_of_true (hend hne) ht⟩ fun h => absurd ht h
    · have hempty : t = [] := by
        by_contra hne
        simp [(lacksFinalNewline_parse t).mpr ⟨hne, ht⟩] at hlacks
      subst hempty
      exact iff_of_true ⟨hleaves, fun hne => absurd rfl hne⟩ fun _ => rfl
  | true =>
    obtain ⟨-, ht⟩ := (lacksFinalNewline_parse t).mp hlacks
    constructor
    · rintro ⟨hclearing, hnewline⟩ -
      by_contra hlast
      rcases @render_of_not_showsEnd ((parse t).clearRules chosen) hlacks hlast with
        ⟨hempty, hne⟩ | hend
      · -- nothing would be left; but where that is possible, nothing is written
        rw [hempty, textLines_eq_nil_iff.mpr rfl] at hclearing
        rw [lines_clearRules] at hne
        exact hne (finish_addParts_of_leaves_nil (firm_of_parse t chosen) hclearing rfl)
      · have hwritten : ((parse t).clearRules chosen).render ≠ [] := by
          intro h
          simp [h] at hend
        exact ht ((hnewline hwritten).mp hend)
    · intro hlast
      obtain ⟨hlines, hend⟩ := @textLines_render_of_lacks ((parse t).clearRules chosen) hlogical
        hlacks (hlast ht)
      exact ⟨hlines ▸ hleaves, fun _ => iff_of_false hend ht⟩

/-- A rule behind blank lines that ends the text and lacks its newline. -/
def lastRule : Text := "x\n\n \na:".toList

/-- When it goes, the blank line before it goes as well, and the line before that is empty; without a
newline it cannot be seen in the text, which ends with a newline now. -/
theorem not_isClearing_lastRule :
    ((parse lastRule).clearRules (· == 3)).render = "x\n".toList ∧
      ((parse lastRule).clearRules (· == 3)).lines = [['x'], []] ∧
      ¬ IsClearing lastRule (· == 3) ((parse lastRule).clearRules (· == 3)).render := by
  have hrender : ((parse lastRule).clearRules (· == 3)).render = "x\n".toList := by decide +kernel
  refine ⟨hrender, by decide +kernel, ?_⟩
  rw [hrender]
  rintro ⟨-, hnewline⟩
  exact absurd (hnewline (by decide)) (by decide)

end Packaging.Makefile
