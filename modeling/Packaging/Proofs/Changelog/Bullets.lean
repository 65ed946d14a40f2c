import Packaging.Changelog.Rewrap
import Packaging.Proofs.Text.Trim

/-!
# Lines that fall into bullets

A bullet is a line with a marker and the lines directly below it that are indented as far as its text.
Lines fall into bullets and other lines in one way only, and rewrapping goes bullet by bullet.

## What is proved

* `splitBullet?_eq_some_iff` — what a marker is.
* `exists_fallsInto`, `FallsInto.unique` — lines fall into pieces, and in one way.
* `FallsInto.rewrapChanges_eq` — the pieces are rewrapped one by one.
-/

namespace Packaging.Changelog

open Text

/-! ### Markers -/

/-- The line is a marker and the text after it. A marker is a star, a plus or a minus with all white
space before and after it, and there is some after it. -/
structure Marks (line marker text : Text) : Prop where
  line_eq : line = marker ++ text
  marker_eq : ∃ before c after, marker = before ++ c :: after ∧ (∀ b ∈ before, isBlank b = true) ∧
    (c = '*' ∨ c = '+' ∨ c = '-') ∧ after ≠ [] ∧ ∀ b ∈ after, isBlank b = true
  head : text.head?.any isBlank = false
  oneLine : '\n' ∉ text

theorem isBlank_of_mark {c : Char} (h : c = '*' ∨ c = '+' ∨ c = '-') : isBlank c = false := by
  rcases h with rfl | rfl | rfl <;> decide

theorem splitBullet?_eq_some_iff {line marker text : Text} :
    splitBullet? line = some (marker, text) ↔ Marks line marker text := by
  obtain ⟨before, rest, hbefore⟩ : ∃ before rest, line.span isBlank = (before, rest) := ⟨_, _, rfl⟩
  have hline := span_eq_iff.mp hbefore
  unfold splitBullet?
  rw [hbefore]
  cases rest with
  | nil =>
    refine iff_of_false nofun ?_
    rintro ⟨hsplit, ⟨before', c, after', hmarker, -, hc, -, -⟩, -, -⟩
    have hblank : isBlank c = true := hline.2.1 c (by
      rw [List.append_nil] at hline
      rw [← hline.1, hsplit, hmarker]
      simp)
    rw [isBlank_of_mark hc] at hblank
    cases hblank
  | cons c rest =>
    obtain ⟨after, text', hafter⟩ : ∃ after text', rest.span isBlank = (after, text') := ⟨_, _, rfl⟩
    have hrest := span_eq_iff.mp hafter
    simp only [hafter]
    constructor
    · intro h
      split at h
      · rename_i hmark
        cases h
        simp only [Bool.and_eq_true, Bool.or_eq_true, beq_iff_eq, Bool.not_eq_true',
          List.isEmpty_eq_false_iff] at hmark
        obtain ⟨⟨hc, hne⟩, hnew⟩ := hmark
        refine ⟨?_, ⟨before, c, after, rfl, hline.2.1, by tauto, hne, hrest.2.1⟩, hrest.2.2, ?_⟩
        · rw [hline.1, hrest.1]
          simp
        · simpa using hnew
      · cases h
    · rintro ⟨hsplit, ⟨before', c', after', rfl, hbefore', hc, hne, hafter'⟩, hhead, hnew⟩
      have hspan : line.span isBlank = (before', c' :: (after' ++ text)) := by
        refine span_eq_iff.mpr ⟨by rw [hsplit]; simp, hbefore', ?_⟩
        simpa using isBlank_of_mark hc
      rw [hbefore] at hspan
      cases hspan
      have htail : (after' ++ text).span isBlank = (after', text) :=
        span_eq_iff.mpr ⟨rfl, hafter', hhead⟩
      rw [hafter] at htail
      cases htail
      rw [if_pos]
      simp only [Bool.and_eq_true, Bool.or_eq_true, beq_iff_eq, Bool.not_eq_true',
        List.isEmpty_eq_false_iff]
      exact ⟨⟨by tauto, hne⟩, by simpa using hnew⟩

theorem splitBullet?_eq_none_iff {line : Text} :
    splitBullet? line = none ↔ ∀ marker text, ¬Marks line marker text := by
  rw [Option.eq_none_iff_forall_ne_some]
  constructor
  · intro h marker text hmarks
    exact h (marker, text) (splitBullet?_eq_some_iff.mpr hmarks)
  · intro h parts hparts
    exact h parts.1 parts.2 (splitBullet?_eq_some_iff.mp hparts)

theorem isBullet_iff {line : Text} : isBullet line = true ↔ ∃ marker text, Marks line marker text := by
  rw [isBullet, Option.isSome_iff_exists]
  constructor
  · rintro ⟨parts, hparts⟩
    exact ⟨parts.1, parts.2, splitBullet?_eq_some_iff.mp hparts⟩
  · rintro ⟨marker, text, hmarks⟩
    exact ⟨(marker, text), splitBullet?_eq_some_iff.mpr hmarks⟩

/-! ### Pieces -/

/-- A line that goes on with a bullet: it is not blank, has no marker, and begins with as many spaces as
the marker of the bullet has characters. -/
structure Continues (marker line : Text) : Prop where
  notBlank : isBlankLine line = false
  noMarker : ∀ marker' text, ¬Marks line marker' text
  indent : List.replicate marker.length ' ' <+: line

/-- A line outside of all bullets, or a bullet: its marker, its first line and its further lines. -/
inductive Piece where
  | line (l : Text)
  | bullet (marker first : Text) (further : List Text)

namespace Piece

/-- The lines of a piece. -/
def lines : Piece → List Text
  | .line l => [l]
  | .bullet _ first further => first :: further

/-- The lines that a piece is rewrapped to. -/
def rewrapped : Piece → List Text
  | .line l => [l]
  | .bullet _ first further => rewrapChange (first :: further)

end Piece

/-- Lines fall into pieces. A bullet goes on up to the first line that does not continue it. -/
inductive FallsInto : List Text → List Piece → Prop where
  | nil : FallsInto [] []
  | line {l : Text} {ls : List Text} {ps : List Piece} :
    (∀ marker text, ¬Marks l marker text) → FallsInto ls ps → FallsInto (l :: ls) (.line l :: ps)
  | bullet {marker text first : Text} {further ls : List Text} {ps : List Piece} :
    Marks first marker text → (∀ l ∈ further, Continues marker l) →
    (∀ l ∈ ls.head?, ¬Continues marker l) → FallsInto ls ps →
    FallsInto (first :: (further ++ ls)) (.bullet marker first further :: ps)

/-- The lines that the pieces came from, in order. -/
theorem FallsInto.flatMap_lines {ls : List Text} {ps : List Piece} (h : FallsInto ls ps) :
    ps.flatMap Piece.lines = ls := by
  induction h with
  | nil => rfl
  | line _ _ ih => rw [List.flatMap_cons, ih]; rfl
  | bullet _ _ _ _ ih => rw [List.flatMap_cons, ih]; rfl

/-! ### One way only -/

theorem continuesBullet_iff {n : Nat} {line : Text} :
    continuesBullet n line = true ↔ isBlankLine line = false ∧ List.replicate n ' ' <+: line := by
  simp only [continuesBullet, Bool.and_eq_true, Bool.not_eq_true', decide_eq_true_eq, and_assoc]
  refine and_congr_right fun hblank => ⟨fun ⟨hspaces, hlength⟩ => ?_, fun hprefix => ?_⟩
  · have htake : line.take n = List.replicate n ' ' := by
      refine List.eq_replicate_iff.mpr ⟨by rw [List.length_take]; omega, fun c hc => ?_⟩
      exact beq_iff_eq.mp (List.all_eq_true.mp hspaces c hc)
    rw [← htake]
    exact List.take_prefix n line
  · obtain ⟨rest, rfl⟩ := hprefix
    have hrest : rest ≠ [] := by
      rintro rfl
      rw [List.append_nil, isBlankLine, List.all_replicate] at hblank
      have hspace : isBlank ' ' = true := by decide
      simp [hspace] at hblank
    refine ⟨?_, ?_⟩
    · rw [List.take_left' List.length_replicate]
      simp
    · rw [List.length_append, List.length_replicate]
      exact Nat.lt_add_of_pos_right (List.length_pos_iff.mpr hrest)

/-- The check that a line goes on with a bullet. -/
def goesOn (marker line : Text) : Bool := (splitBullet? line).isNone && continuesBullet marker.length line

theorem goesOn_iff {marker line : Text} : goesOn marker line = true ↔ Continues marker line := by
  rw [goesOn, Bool.and_eq_true, Option.isNone_iff_eq_none, splitBullet?_eq_none_iff,
    continuesBullet_iff]
  exact ⟨fun ⟨hnone, hblank, hindent⟩ => ⟨hblank, hnone, hindent⟩,
    fun ⟨hblank, hnone, hindent⟩ => ⟨hnone, hblank, hindent⟩⟩

/-- Lines fall into pieces. -/
theorem exists_fallsInto (ls : List Text) : ∃ ps, FallsInto ls ps := by
  induction hlength : ls.length using Nat.strong_induction_on generalizing ls with
  | _ n ih =>
    cases ls with
    | nil => exact ⟨[], .nil⟩
    | cons l ls =>
      subst hlength
      cases hsplit : splitBullet? l with
      | none =>
        obtain ⟨ps, hps⟩ := ih ls.length (Nat.lt_succ_self _) ls rfl
        exact ⟨.line l :: ps, .line (splitBullet?_eq_none_iff.mp hsplit) hps⟩
      | some parts =>
        obtain ⟨marker, text⟩ := parts
        -- The bullet takes as many lines as continue it, and the induction goes on behind them.
        have hshorter : (ls.dropWhile (goesOn marker)).length < (l :: ls).length :=
          Nat.lt_succ_of_le (List.dropWhile_sublist _).length_le
        obtain ⟨ps, hps⟩ := ih _ hshorter (ls.dropWhile (goesOn marker)) rfl
        refine ⟨.bullet marker l (ls.takeWhile (goesOn marker)) :: ps, ?_⟩
        have hcut : ls = ls.takeWhile (goesOn marker) ++ ls.dropWhile (goesOn marker) :=
          List.takeWhile_append_dropWhile.symm
        conv => arg 1; rw [hcut]
        refine .bullet (splitBullet?_eq_some_iff.mp hsplit)
          (fun line hline => goesOn_iff.mp (List.mem_takeWhile_imp hline)) (fun line hline => ?_) hps
        rw [← goesOn_iff, Bool.not_eq_true]
        have hhead := List.head?_dropWhile_not (goesOn marker) ls
        rw [Option.mem_def] at hline
        simpa [hline] using hhead

theorem Marks.unique {line marker text marker' text' : Text} (h : Marks line marker text)
    (h' : Marks line marker' text') : marker = marker' ∧ text = text' := by
  have hsame := (splitBullet?_eq_some_iff.mpr h).symm.trans (splitBullet?_eq_some_iff.mpr h')
  simpa using hsame

/-- The further lines of a bullet are the longest run of lines that continue it. -/
theorem takeWhile_goesOn {marker : Text} {further ls : List Text}
    (hfurther : ∀ l ∈ further, Continues marker l) (hls : ∀ l ∈ ls.head?, ¬Continues marker l) :
    (further ++ ls).takeWhile (goesOn marker) = further := by
  rw [List.takeWhile_append_of_pos fun l hl => goesOn_iff.mpr (hfurther l hl)]
  cases ls with
  | nil => simp
  | cons l ls =>
    have hl : ¬goesOn marker l = true := fun h => hls l rfl (goesOn_iff.mp h)
    rw [List.takeWhile_cons_of_neg hl, List.append_nil]

/-- Lines fall into pieces in one way. -/
theorem FallsInto.unique {ls : List Text} {ps qs : List Piece} (hp : FallsInto ls ps)
    (hq : FallsInto ls qs) : ps = qs := by
  induction hp generalizing qs with
  | nil => cases hq; rfl
  | line hnone _ ih =>
    cases hq with
    | line _ hrest => rw [ih hrest]
    | bullet hmarks => exact absurd hmarks (hnone _ _)
  | @bullet marker text first further ls ps hmarks hfurther hls hps ih =>
    -- The lines of a bullet are an append, so that `cases` needs a name for them.
    generalize hall : first :: (further ++ ls) = all at hq
    cases hq with
    | nil => cases hall
    | line hnone _ =>
      cases hall
      exact absurd hmarks (hnone _ _)
    | @bullet marker' text' first' further' ls' qs hmarks' hfurther' hls' hqs =>
      obtain ⟨rfl, hrest⟩ := List.cons.inj hall
      obtain ⟨rfl, rfl⟩ := hmarks.unique hmarks'
      have hsame : further = further' := by
        rw [← takeWhile_goesOn hfurther hls, hrest, takeWhile_goesOn hfurther' hls']
      subst hsame
      rw [ih (List.append_cancel_left hrest ▸ hqs)]

/-! ### Rewrapping piece by piece -/

theorem rewrapChange_nil : rewrapChange [] = [] := rfl

/-- Outside of bullets there is no indent. -/
theorem rewrapFrom_nil (n : Nat) (ls : List Text) : rewrapFrom [] n ls = rewrapFrom [] 0 ls := by
  induction ls with
  | nil => rfl
  | cons l ls ih =>
    unfold rewrapFrom
    rw [ih]
    rfl

theorem rewrapFrom_continues {marker : Text} {change further : List Text} (ls : List Text)
    (hchange : change ≠ []) (hfurther : ∀ l ∈ further, Continues marker l) :
    rewrapFrom change marker.length (further ++ ls) =
      rewrapFrom (change ++ further) marker.length ls := by
  induction further generalizing change with
  | nil => simp
  | cons l further ih =>
    obtain ⟨hl, hrest⟩ := List.forall_mem_cons.mp hfurther
    have hcontinues : continuesBullet marker.length l = true :=
      continuesBullet_iff.mpr ⟨hl.notBlank, hl.indent⟩
    have hnone : splitBullet? l = none := splitBullet?_eq_none_iff.mpr hl.noMarker
    rw [List.cons_append, rewrapFrom, hnone]
    simp only [hcontinues, Bool.and_true, Bool.not_eq_true', List.isEmpty_eq_false_iff.mpr hchange,
      if_true]
    rw [ih (by simp) hrest]
    simp

/-- Where a bullet ends it is rewrapped. -/
theorem rewrapFrom_end {marker : Text} {ls : List Text} (change : List Text)
    (hls : ∀ l ∈ ls.head?, ¬Continues marker l) :
    rewrapFrom change marker.length ls = rewrapChange change ++ rewrapFrom [] 0 ls := by
  cases ls with
  | nil => simp [rewrapFrom, rewrapChange_nil]
  | cons l ls =>
    unfold rewrapFrom
    cases hsplit : splitBullet? l with
    | some parts => simp [rewrapChange_nil]
    | none =>
      have hend : continuesBullet marker.length l = false := by
        rw [← Bool.not_eq_true]
        intro hcontinues
        refine hls l rfl (goesOn_iff.mp ?_)
        rw [goesOn, hsplit, hcontinues]
        rfl
      simp only [hend, Bool.and_false, Bool.false_eq_true, if_false, rewrapFrom_nil]
      simp [rewrapChange_nil]

/-- The pieces are rewrapped one by one. -/
theorem FallsInto.rewrapChanges_eq {ls : List Text} {ps : List Piece} (h : FallsInto ls ps) :
    rewrapChanges ls = ps.flatMap Piece.rewrapped := by
  rw [rewrapChanges]
  induction h with
  | nil => rfl
  | @line l ls ps hnone _ ih =>
    rw [rewrapFrom, splitBullet?_eq_none_iff.mpr hnone, List.flatMap_cons, ← ih]
    simp [rewrapChange_nil, Piece.rewrapped]
  | @bullet marker text first further ls ps hmarks hfurther hls _ ih =>
    rw [rewrapFrom, splitBullet?_eq_some_iff.mpr hmarks, List.flatMap_cons, ← ih]
    simp only [rewrapChange_nil, List.nil_append]
    rw [rewrapFrom_continues ls (List.cons_ne_nil first []) hfurther, rewrapFrom_end _ hls]
    rfl

end Packaging.Changelog
