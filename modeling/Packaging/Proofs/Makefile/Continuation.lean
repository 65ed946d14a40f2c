import Mathlib.Data.List.Chain
import Packaging.Proofs.Makefile.Lines

/-!
# Logical lines that are written and read again

Lines are written with a newline after each. They are the logical lines of what was written if each
of them is one logical line by itself, and none but the last ends with a backslash that would join it
to the next one.

## What is proved

* `allLogical_logicalLines` — logical lines of a text are such lines.
* `logicalLines_join` — such lines are the logical lines of the text that is made of them.
-/

namespace Packaging.Makefile

open Text

/-- The line ends with a backslash, so that a line after it would belong to it. -/
def isContinued (line : Text) : Bool := endsWith ['\\'] line

theorem isContinued_iff {line : Text} : isContinued line = true ↔ line.getLast? = some '\\' := by
  rw [isContinued, endsWith, List.isSuffixOf_iff_suffix]
  constructor
  · rintro ⟨start, rfl⟩
    simp
  · intro h
    obtain ⟨start, rfl⟩ := List.getLast?_eq_some_iff.mp h
    exact List.suffix_append _ _

theorem isContinued_append {start rest : Text} (h : rest ≠ []) :
    isContinued (start ++ rest) = isContinued rest := by
  rw [Bool.eq_iff_iff, isContinued_iff, isContinued_iff, List.getLast?_append_of_ne_nil start h]

/-- Whether a text goes on is decided by its last line. -/
theorem isContinued_append_newline (t u : Text) : isContinued (t ++ '\n' :: u) = isContinued u := by
  rw [isContinued_append (by simp)]
  cases u with
  | nil => rfl
  | cons c u => exact @isContinued_append ['\n'] (c :: u) (by simp)

theorem isContinued_of_getLast?_splitOn {t last : Text} (h : (t.splitOn '\n').getLast? = some last) :
    isContinued t = isContinued last := by
  obtain ⟨init, hinit⟩ := List.getLast?_eq_some_iff.mp h
  have ht : t = join ['\n'] (init ++ [last]) := by rw [← hinit, join_splitOn]
  cases init with
  | nil => rw [ht, List.nil_append, join_singleton]
  | cons l init =>
    rw [ht, join_append (by simp) (by simp), List.append_assoc, join_singleton]
    exact isContinued_append_newline _ _

/-! ### Logical lines -/

/-- The text is one logical line. -/
def IsLogical (line : Text) : Prop := logicalLines line = [line]

/-- All lines are logical lines, and a line after another one does not belong to it. -/
structure AllLogical (ls : List Text) : Prop where
  logical : ∀ l ∈ ls, IsLogical l
  separate : ls.Pairwise fun l _ => isContinued l = false

theorem allLogical_nil : AllLogical [] := ⟨by simp, .nil⟩

theorem allLogical_append {ls ms : List Text} :
    AllLogical (ls ++ ms) ↔
      AllLogical ls ∧ AllLogical ms ∧ (ms ≠ [] → ∀ l ∈ ls, isContinued l = false) := by
  constructor
  · rintro ⟨hlogical, hseparate⟩
    obtain ⟨hls, hms⟩ := List.forall_mem_append.mp hlogical
    obtain ⟨hls', hms', hcross⟩ := List.pairwise_append.mp hseparate
    refine ⟨⟨hls, hls'⟩, ⟨hms, hms'⟩, fun hne l hl => ?_⟩
    obtain ⟨m, ms, rfl⟩ := List.exists_cons_of_ne_nil hne
    exact hcross l hl m List.mem_cons_self
  · rintro ⟨hls, hms, hcross⟩
    refine ⟨List.forall_mem_append.mpr ⟨hls.logical, hms.logical⟩,
      List.pairwise_append.mpr ⟨hls.separate, hms.separate, fun l hl m hm => ?_⟩⟩
    exact hcross (List.ne_nil_of_mem hm) l hl

theorem AllLogical.sublist {ls ms : List Text} (h : AllLogical ms) (hsub : ls.Sublist ms) :
    AllLogical ls :=
  ⟨fun l hl => h.logical l (hsub.subset hl), h.separate.sublist hsub⟩

/-- Another logical line that no line belongs to can stand in the place of any line. -/
theorem AllLogical.replace {ls ms : List Text} {old new : Text} (h : AllLogical (ls ++ old :: ms))
    (hnew : IsLogical new) (hend : isContinued new = false) : AllLogical (ls ++ new :: ms) := by
  obtain ⟨hls, hms, hcross⟩ := allLogical_append.mp h
  refine allLogical_append.mpr ⟨hls, ?_, fun _ => hcross (by simp)⟩
  exact ⟨List.forall_mem_cons.mpr ⟨hnew, (List.forall_mem_cons.mp hms.logical).2⟩,
    List.pairwise_cons.mpr ⟨fun _ _ => hend, (List.pairwise_cons.mp hms.separate).2⟩⟩

/-- So can one that ends like it. -/
theorem AllLogical.exchange {ls ms : List Text} {old new : Text} (h : AllLogical (ls ++ old :: ms))
    (hnew : IsLogical new) (hlast : new.getLast? = old.getLast?) : AllLogical (ls ++ new :: ms) := by
  have hend : isContinued new = isContinued old := by
    rw [Bool.eq_iff_iff, isContinued_iff, isContinued_iff, hlast]
  obtain ⟨hls, hms, hcross⟩ := allLogical_append.mp h
  refine allLogical_append.mpr ⟨hls, ?_, fun _ => hcross (by simp)⟩
  obtain ⟨hold, hrest⟩ := List.pairwise_cons.mp hms.separate
  exact ⟨List.forall_mem_cons.mpr ⟨hnew, (List.forall_mem_cons.mp hms.logical).2⟩,
    List.pairwise_cons.mpr ⟨fun l hl => hend ▸ hold l hl, hrest⟩⟩

theorem joinContinued_singleton (l : Text) : joinContinued [l] = [l] := by simp [joinContinued]

/-- A line that goes on is joined to the first logical line after it. -/
theorem joinContinued_of_isContinued {l next : Text} {ls rest : List Text} (hl : isContinued l = true)
    (hls : joinContinued ls = next :: rest) :
    joinContinued (l :: ls) = (l ++ '\n' :: next) :: rest := by
  rw [joinContinued, hls]
  exact if_pos hl

theorem joinContinued_of_not_isContinued {l : Text} (hl : isContinued l = false) (ls : List Text) :
    joinContinued (l :: ls) = l :: joinContinued ls := by
  rw [joinContinued]
  exact if_neg (Bool.eq_false_iff.mp hl)

/-- Lines are joined in two parts if the first part does not end with a line that goes on. -/
theorem joinContinued_append {ls : List Text} (hls : ls.getLast?.any isContinued = false)
    (ms : List Text) : joinContinued (ls ++ ms) = joinContinued ls ++ joinContinued ms := by
  induction ls with
  | nil => rfl
  | cons l ls ih =>
    rw [List.cons_append]
    cases hl : isContinued l with
    | false =>
      have hrest : ls.getLast?.any isContinued = false := by
        cases ls with
        | nil => rfl
        | cons l' ls => simpa using hls
      rw [joinContinued_of_not_isContinued hl, joinContinued_of_not_isContinued hl, ih hrest]
      rfl
    | true =>
      cases ls with
      | nil => simp [hl] at hls
      | cons l' ls =>
        have hne : joinContinued (l' :: ls) ≠ [] := joinContinued_ne_nil (by simp)
        obtain ⟨next, rest, hnext⟩ := List.exists_cons_of_ne_nil hne
        have hstep := ih (by simpa using hls)
        rw [hnext] at hstep
        rw [joinContinued_of_isContinued hl hnext, joinContinued_of_isContinued hl hstep]
        rfl

theorem logicalLines_append_newline {t : Text} (ht : isContinued t = false) (u : Text) :
    logicalLines (t ++ '\n' :: u) = logicalLines t ++ logicalLines u := by
  rw [logicalLines, List.splitOn_append_cons_self, joinContinued_append]
  · rfl
  · cases hlast : (t.splitOn '\n').getLast? with
    | none => rfl
    | some last => simpa [isContinued_of_getLast?_splitOn hlast] using ht

/-- **Lines are read again.** Logical lines, none of which but the last goes on, are the logical lines
of the text they make up. -/
theorem logicalLines_join {ls : List Text} (h : AllLogical ls) (hne : ls ≠ []) :
    logicalLines (join ['\n'] ls) = ls := by
  induction ls with
  | nil => exact absurd rfl hne
  | cons l ls ih =>
    obtain ⟨hl, hls⟩ := List.forall_mem_cons.mp h.logical
    obtain ⟨hseparate, hrest⟩ := List.pairwise_cons.mp h.separate
    cases ls with
    | nil => rwa [join_singleton]
    | cons l' ls =>
      have hend : isContinued l = false := hseparate l' List.mem_cons_self
      have hjoin : join ['\n'] (l :: l' :: ls) = l ++ '\n' :: join ['\n'] (l' :: ls) := by
        simp [join_cons_cons]
      rw [hjoin, logicalLines_append_newline hend, ih ⟨hls, hrest⟩ (by simp), hl]
      rfl

theorem isLogical_of_newline_not_mem {line : Text} (h : '\n' ∉ line) : IsLogical line := by
  rw [IsLogical, logicalLines, List.splitOn_eq_singleton h, joinContinued_singleton]

/-- A line that goes on is one logical line with the one after it. -/
theorem IsLogical.prepend {line next : Text} (hline : '\n' ∉ line) (hcontinued : isContinued line = true)
    (hnext : IsLogical next) : IsLogical (line ++ '\n' :: next) := by
  rw [IsLogical, logicalLines, List.splitOn_append_cons_self, List.splitOn_eq_singleton hline]
  exact joinContinued_of_isContinued hcontinued hnext

/-- What is one logical line with a line before it is one by itself, and that line goes on. -/
theorem isLogical_append_newline {line next : Text} (hline : '\n' ∉ line) :
    IsLogical (line ++ '\n' :: next) ↔ isContinued line = true ∧ IsLogical next := by
  refine ⟨fun h => ?_, fun h => h.2.prepend hline h.1⟩
  rw [IsLogical, logicalLines, List.splitOn_append_cons_self, List.splitOn_eq_singleton hline,
    List.singleton_append] at h
  have hne : logicalLines next ≠ [] := logicalLines_ne_nil next
  cases hcontinued : isContinued line with
  | false =>
    rw [joinContinued_of_not_isContinued hcontinued, List.cons.injEq] at h
    exact absurd h.2 hne
  | true =>
    obtain ⟨first, rest, hnext⟩ := List.exists_cons_of_ne_nil hne
    rw [joinContinued_of_isContinued hcontinued hnext, List.cons.injEq] at h
    obtain ⟨heq, rfl⟩ := h
    rw [(List.cons.inj (List.append_cancel_left heq)).2] at hnext
    exact ⟨rfl, hnext⟩

/-- A newline comes after a backslash only. -/
def Joins (a b : Char) : Prop := b = '\n' → a = '\\'

theorem isChain_cons_of_newline_not_mem {t : Text} (h : '\n' ∉ t) (c : Char) :
    (c :: t).IsChain Joins := by
  induction t generalizing c with
  | nil => exact List.isChain_singleton c
  | cons d t ih =>
    obtain ⟨hd, ht⟩ := not_or.mp (mt List.mem_cons.mpr h)
    exact List.isChain_cons_cons.mpr ⟨fun heq => absurd heq.symm hd, ih ht d⟩

/-- **A logical line** has a backslash before each newline, and does not begin with one. -/
theorem isLogical_iff_isChain {t : Text} {c : Char} (hc : c ≠ '\\') :
    IsLogical t ↔ (c :: t).IsChain Joins := by
  induction hlength : t.length using Nat.strongRecOn generalizing t c with
  | ind n ih =>
    by_cases hmem : '\n' ∈ t
    · obtain ⟨line, next, hcut⟩ := exists_cut? hmem
      obtain ⟨hline, rfl⟩ := cut?_eq_some_iff.mp hcut
      obtain ⟨last, hlast⟩ : ∃ last, (c :: line).getLast? = some last := ⟨_, List.getLast?_cons⟩
      have hcontinued : isContinued line = true ↔ last = '\\' := by
        rw [isContinued_iff]
        rw [List.getLast?_cons] at hlast
        cases hend : line.getLast? <;> simp_all
      have hshort : next.length < n := by
        rw [← hlength, List.length_append, List.length_cons]
        omega
      rw [isLogical_append_newline hline, hcontinued, @ih next.length hshort next '\n' (by decide) rfl,
        ← List.cons_append, List.isChain_append, hlast]
      refine ⟨fun h => ⟨isChain_cons_of_newline_not_mem hline c, h.2, ?_⟩, fun h => ⟨?_, h.2.1⟩⟩
      · rintro _ ⟨⟩ _ - -
        exact h.1
      · exact h.2.2 last rfl '\n' rfl rfl
    · exact ⟨fun _ => isChain_cons_of_newline_not_mem hmem c,
        fun _ => isLogical_of_newline_not_mem hmem⟩

/-- The logical lines of physical ones are logical lines. -/
theorem allLogical_joinContinued {ls : List Text} (h : ∀ l ∈ ls, '\n' ∉ l) :
    AllLogical (joinContinued ls) := by
  induction ls with
  | nil => exact allLogical_nil
  | cons l ls ih =>
    obtain ⟨hl, hls⟩ := List.forall_mem_cons.mp h
    have hlogical : IsLogical l := isLogical_of_newline_not_mem hl
    have hrest := ih hls
    cases hcontinued : isContinued l with
    | false =>
      rw [joinContinued_of_not_isContinued hcontinued]
      exact ⟨List.forall_mem_cons.mpr ⟨hlogical, hrest.logical⟩,
        List.pairwise_cons.mpr ⟨fun _ _ => hcontinued, hrest.separate⟩⟩
    | true =>
      cases hnext : joinContinued ls with
      | nil =>
        have hempty : ls = [] := by
          by_contra hne
          exact joinContinued_ne_nil hne hnext
        rw [hempty, joinContinued_singleton]
        exact ⟨List.forall_mem_singleton.mpr hlogical, List.pairwise_singleton _ _⟩
      | cons next rest =>
        rw [hnext] at hrest
        obtain ⟨hfirst, hothers⟩ := List.forall_mem_cons.mp hrest.logical
        obtain ⟨hend, hseparate⟩ := List.pairwise_cons.mp hrest.separate
        rw [joinContinued_of_isContinued hcontinued hnext]
        refine ⟨List.forall_mem_cons.mpr ⟨hfirst.prepend hl hcontinued, hothers⟩,
          List.pairwise_cons.mpr ⟨?_, hseparate⟩⟩
        intro l' hl'
        rw [isContinued_append_newline, hend l' hl']

theorem allLogical_logicalLines (t : Text) : AllLogical (logicalLines t) :=
  allLogical_joinContinued fun _ hl => not_mem_of_mem_splitOn hl

end Packaging.Makefile
