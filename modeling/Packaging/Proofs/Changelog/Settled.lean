import Packaging.Proofs.Changelog.Markers

/-!
# Rewrapping once is enough

A second rewrapping sees other lines: what was one bullet may now be several, and lines that went on with
it may go on with none. But it finds nothing to fill, as long as filling could keep to the width: lines
that are too wide then stand outside of bullets only, and there they stay, since a line that does not go
on with a bullet does not go on with one whose text is indented further.

## What is proved

* `IsSettled.rewrapFrom_eq` — lines of which none that is too wide is in a bullet stay as they are.
* `FallsInto.isSettled` — rewrapped lines are such lines.
* `rewrapChanges_rewrapChanges` — so they are not rewrapped again.
-/

namespace Packaging.Changelog

open Text

/-! ### Which bullet is open -/

/-- How far the text of the bullet is indented that a line is in, if it is in one. Before the line the
text of the open bullet is indented by `o`. -/
def openAfter (o : Option Nat) (l : Text) : Option Nat :=
  match splitBullet? l with
  | some (marker, _) => some marker.length
  | none => if o.any (continuesBullet · l) then o else none

theorem openAfter_of_marks {l marker text : Text} (h : Marks l marker text) (o : Option Nat) :
    openAfter o l = some marker.length := by
  rw [openAfter, splitBullet?_eq_some_iff.mpr h]

theorem openAfter_of_not_marks {l : Text} (h : ∀ marker text, ¬Marks l marker text) (o : Option Nat) :
    openAfter o l = if o.any (continuesBullet · l) then o else none := by
  rw [openAfter, splitBullet?_eq_none_iff.mpr h]

/-- No line that is too wide is in a bullet, where the bullet `o` is open before the lines. -/
inductive IsSettled : Option Nat → List Text → Prop where
  | nil (o : Option Nat) : IsSettled o []
  | cons {o : Option Nat} {l : Text} {ls : List Text} :
    ((openAfter o l).isSome → isLong l = false) → IsSettled (openAfter o l) ls → IsSettled o (l :: ls)

/-- The bullet that is open has the lines `change`, and none of them is too wide. -/
structure IsOpen (o : Option Nat) (change : List Text) : Prop where
  lines : change = [] ↔ o = none
  short : change.any isLong = false

/-- Lines of which none that is too wide is in a bullet stay as they are. -/
theorem IsSettled.rewrapFrom_eq {o : Option Nat} {change ls : List Text} (h : IsSettled o ls)
    (hopen : IsOpen o change) {n : Nat} (hn : ∀ m ∈ o, m = n) :
    rewrapFrom change n ls = change ++ ls := by
  induction h generalizing change n with
  | nil o => rw [rewrapFrom, rewrapChange_of_not_isLong hopen.short, List.append_nil]
  | @cons o l ls hshort _ ih =>
    rw [rewrapFrom]
    cases hsplit : splitBullet? l with
    | some parts =>
      obtain ⟨marker, text⟩ := parts
      have hafter := openAfter_of_marks (splitBullet?_eq_some_iff.mp hsplit) o
      rw [hafter] at ih hshort
      have hnext : IsOpen (some marker.length) [l] := ⟨by simp, by simpa using hshort rfl⟩
      have hrest := ih hnext fun m hm => (Option.some.inj hm).symm
      simp only [rewrapChange_of_not_isLong hopen.short, hrest, List.singleton_append]
    | none =>
      have hafter := openAfter_of_not_marks (splitBullet?_eq_none_iff.mp hsplit) o
      dsimp only
      split
      · -- The line goes on with the open bullet.
        rename_i hcontinues
        rw [Bool.and_eq_true, Bool.not_eq_true', List.isEmpty_eq_false_iff, ne_eq, hopen.lines] at hcontinues
        obtain ⟨m, rfl⟩ := Option.ne_none_iff_exists'.mp hcontinues.1
        obtain rfl := hn m rfl
        rw [hafter, Option.any_some, hcontinues.2, if_pos rfl] at ih hshort
        have hnext : IsOpen (some m) (change ++ [l]) :=
          ⟨by simp, by rw [List.any_append, hopen.short]; simpa using hshort rfl⟩
        rw [ih hnext hn, List.append_assoc, List.singleton_append]
      · rename_i hends
        have hnone : openAfter o l = none := by
          rw [hafter, ite_eq_right_iff]
          intro hany
          obtain ⟨m, rfl, hcontinues⟩ := (Option.any_eq_true _ _).mp hany
          obtain rfl := hn m rfl
          have hne : change ≠ [] := fun hnil => Option.some_ne_none m (hopen.lines.mp hnil)
          exact absurd hcontinues fun hcontinues =>
            hends (by rw [List.isEmpty_eq_false_iff.mpr hne, hcontinues]; rfl)
        rw [hnone] at ih
        have hclosed : ∀ m ∈ (none : Option Nat), m = n := fun m hm => by cases hm
        rw [rewrapChange_of_not_isLong hopen.short, ih ⟨iff_of_true rfl rfl, rfl⟩ hclosed]
        rfl

/-! ### Wider bullets -/

/-- A bullet that is open has its text indented by `n` at least. -/
def IsAtLeast (n : Nat) (o : Option Nat) : Prop := ∀ m ∈ o, n ≤ m

/-- The marker of a line is not shorter than the spaces that the line begins with. -/
theorem Marks.length_le {l marker text : Text} (h : Marks l marker text) {n : Nat}
    (hspaces : List.replicate n ' ' <+: l) : n ≤ marker.length := by
  obtain ⟨hline, ⟨before, c, after, rfl, -, hc, -, -⟩, -, -⟩ := h
  by_contra hlt
  rw [Nat.not_le, List.length_append, List.length_cons] at hlt
  have hstart : before ++ [c] <+: l := ⟨after ++ text, by rw [hline]; simp⟩
  have hwithin : before ++ [c] <+: List.replicate n ' ' :=
    List.prefix_of_prefix_length_le hstart hspaces (by simp; omega)
  have hspace : c = ' ' := List.eq_of_mem_replicate (hwithin.subset (by simp))
  have hblank := isBlank_of_mark hc
  rw [hspace] at hblank
  exact absurd hblank (by decide)

theorem isAtLeast_openAfter {n : Nat} {o : Option Nat} {l : Text} (ho : IsAtLeast n o)
    (hl : List.replicate n ' ' <+: l) : IsAtLeast n (openAfter o l) := by
  intro m hm
  rw [openAfter] at hm
  split at hm
  · rename_i marker text hsplit
    obtain rfl := Option.some.inj hm
    exact (splitBullet?_eq_some_iff.mp hsplit).length_le hl
  · split at hm
    · exact ho m hm
    · cases hm

theorem continuesBullet_mono {m n : Nat} {l : Text} (h : continuesBullet m l = true) (hle : n ≤ m) :
    continuesBullet n l = true := by
  obtain ⟨hblank, hspaces⟩ := continuesBullet_iff.mp h
  obtain ⟨k, rfl⟩ := Nat.exists_eq_add_of_le hle
  rw [List.replicate_add] at hspaces
  exact continuesBullet_iff.mpr ⟨hblank, (List.prefix_append _ _).trans hspaces⟩

/-- A bullet that is open does not matter for lines that do not go on with it. -/
theorem IsSettled.of_isAtLeast {n : Nat} {o : Option Nat} {ls : List Text} (h : IsSettled none ls)
    (ho : IsAtLeast n o) (hhead : ∀ l ∈ ls.head?, isBullet l = true ∨ continuesBullet n l = false) :
    IsSettled o ls := by
  cases h with
  | nil => exact .nil o
  | @cons _ l ls hshort hls =>
    have hsame : openAfter o l = openAfter none l := by
      unfold openAfter
      cases hsplit : splitBullet? l with
      | some parts => rfl
      | none =>
        dsimp only
        rw [Option.any_none, if_neg Bool.false_ne_true, ite_eq_right_iff]
        intro hany
        obtain ⟨m, rfl, hcontinues⟩ := (Option.any_eq_true _ _).mp hany
        rcases hhead l rfl with hbullet | hends
        · rw [isBullet, hsplit] at hbullet
          cases hbullet
        · rw [continuesBullet_mono hcontinues (ho m rfl)] at hends
          cases hends
    exact .cons (hsame ▸ hshort) (hsame ▸ hls)

/-- Lines that are indented as far as the text of a bullet, and are not too wide, may stand in front. -/
theorem IsSettled.append {n : Nat} {o : Option Nat} {rest ls : List Text} (ho : IsAtLeast n o)
    (hrest : ∀ r ∈ rest, List.replicate n ' ' <+: r ∧ isLong r = false)
    (hls : ∀ o, IsAtLeast n o → IsSettled o ls) : IsSettled o (rest ++ ls) := by
  induction rest generalizing o with
  | nil => exact hls o ho
  | cons r rest ih =>
    obtain ⟨⟨hspaces, hshort⟩, hrest⟩ := List.forall_mem_cons.mp hrest
    exact .cons (fun _ => hshort) (ih (isAtLeast_openAfter ho hspaces) hrest)

/-! ### Rewrapped lines -/

namespace Piece

/-- If a line of the bullet is too wide, then every word of the bullet, and every two words that belong
together, can be put on a line behind its marker. -/
def IsNarrow : Piece → Prop
  | .line _ => True
  | .bullet marker first further => (∃ l ∈ first :: further, 80 < l.length) →
    ∀ c, IsChunkOf ((first :: further).flatMap words) c → marker.length + c.length ≤ 80

theorem IsNarrow.isLong_eq_false {marker first : Text} {further out : List Text}
    (hnarrow : (Piece.bullet marker first further).IsNarrow)
    (hout : (Piece.bullet marker first further).Becomes out) : ∀ l ∈ out, isLong l = false := by
  intro l hl
  rw [← Bool.not_eq_true, isLong_iff]
  intro hwide
  cases hout with
  | kept _ _ _ hshort => exact absurd (hshort l hl) (by omega)
  | filled hlong _ hchunk =>
    obtain ⟨c, hc, hline⟩ := hchunk l hl hwide
    have hfits := hnarrow hlong c hc
    have hlength : l.length = marker.length + c.length := by
      rcases hline with rfl | rfl
      · exact List.length_append
      · rw [List.length_append, List.length_replicate]
    omega

end Piece

/-- The first of the rewrapped lines is the first line, or a bullet. -/
theorem FallsInto.head?_rewrapped {ls : List Text} {ps : List Piece} (h : FallsInto ls ps)
    (htexts : ∀ l ∈ ls, ∀ marker text, Marks l marker text → isBlankLine text = false) :
    ∀ l ∈ (ps.flatMap Piece.rewrapped).head?, isBullet l = true ∨ l ∈ ls.head? := by
  cases h with
  | nil => nofun
  | line _ _ => exact fun l hl => .inr hl
  | @bullet marker text first further ls ps hmarks hfurther _ _ =>
    obtain ⟨l, rest, hrewrap, ⟨text', hl⟩, -, -⟩ :=
      exists_rewrapChange_eq hmarks (htexts first List.mem_cons_self marker text hmarks) hfurther
    intro l' hl'
    rw [List.flatMap_cons, show Piece.rewrapped (.bullet marker first further) = l :: rest from hrewrap] at hl'
    obtain rfl := Option.some.inj hl'
    exact .inl (isBullet_iff.mpr ⟨marker, text', hl⟩)

/-- Rewrapped lines are settled. -/
theorem FallsInto.isSettled {ls : List Text} {ps : List Piece} (h : FallsInto ls ps)
    (htexts : ∀ l ∈ ls, ∀ marker text, Marks l marker text → isBlankLine text = false)
    (hnarrow : ∀ p ∈ ps, p.IsNarrow) : IsSettled none (ps.flatMap Piece.rewrapped) := by
  induction h with
  | nil => exact .nil none
  | @line l ls ps hnone _ ih =>
    have hafter : openAfter none l = none := openAfter_of_not_marks hnone none
    refine .cons (fun hopen => ?_) ?_
    · rw [hafter] at hopen
      cases hopen
    · rw [hafter]
      exact ih (List.forall_mem_cons.mp htexts).2 (List.forall_mem_cons.mp hnarrow).2
  | @bullet marker text first further ls ps hmarks hfurther hends hps ih =>
    obtain ⟨hfirst, hrest⟩ := List.forall_mem_cons.mp htexts
    obtain ⟨hbullet, hnarrow⟩ := List.forall_mem_cons.mp hnarrow
    have hls := (List.forall_mem_append.mp hrest).2
    have hbecomes := becomes_rewrapChange hmarks (hfirst marker text hmarks) hfurther
    obtain ⟨l, rest, hrewrap, ⟨text', hl⟩, hindent, -⟩ :=
      exists_rewrapChange_eq hmarks (hfirst marker text hmarks) hfurther
    have hshort := hbullet.isLong_eq_false hbecomes
    rw [hrewrap, List.forall_mem_cons] at hshort
    rw [List.flatMap_cons, show Piece.rewrapped (.bullet marker first further) = l :: rest from hrewrap,
      List.cons_append]
    refine .cons (fun _ => hshort.1) ?_
    rw [openAfter_of_marks hl]
    refine .append (fun m hm => (Option.some.inj hm).le) (fun r hr => ⟨hindent r hr, hshort.2 r hr⟩) ?_
    -- What follows does not go on with the bullet, nor with one that filling has made below it.
    intro o ho
    refine (ih hls hnarrow).of_isAtLeast ho fun l' hl' => ?_
    rcases hps.head?_rewrapped hls l' hl' with hbullet | hhead
    · exact .inl hbullet
    · cases hsplit : splitBullet? l' with
      | some parts => exact .inl (by rw [isBullet, hsplit]; rfl)
      | none =>
        refine .inr (Bool.not_eq_true _ ▸ fun hcontinues => hends l' hhead (goesOn_iff.mp ?_))
        rw [goesOn, hsplit, hcontinues]
        rfl

/-- **Rewrapping once is enough.** Where a text comes after every marker and filling can keep to the
width, rewrapped lines stay as they are when they are rewrapped again. -/
theorem rewrapChanges_rewrapChanges {ls : List Text} {ps : List Piece} (hps : FallsInto ls ps)
    (htexts : ∀ l ∈ ls, ∀ marker text, Marks l marker text → isBlankLine text = false)
    (hnarrow : ∀ p ∈ ps, p.IsNarrow) : rewrapChanges (rewrapChanges ls) = rewrapChanges ls := by
  have hsettled := hps.isSettled htexts hnarrow
  rw [hps.rewrapChanges_eq]
  exact hsettled.rewrapFrom_eq ⟨iff_of_true rfl rfl, rfl⟩ nofun

/-- A bullet that filling divides, and behind it a line that is too wide and does not go on with it. -/
def dividedLines : List Text :=
  ["  * ".toList ++ List.replicate 60 'x' ++ ' ' :: List.replicate 15 'y' ++ " - z".toList,
    "  ".toList ++ List.replicate 80 'x']

/-- The line outside stays there when two bullets have come of one. -/
theorem rewrapChanges_rewrapChanges_dividedLines :
    (∃ ps, FallsInto dividedLines ps ∧ (∀ p ∈ ps, p.IsNarrow) ∧ ps.length = 2) ∧
    (∀ l ∈ dividedLines, ∀ marker text, Marks l marker text → isBlankLine text = false) ∧
    rewrapChanges dividedLines =
      ["  * ".toList ++ List.replicate 60 'x' ++ ' ' :: List.replicate 15 'y', "    - z".toList,
        "  ".toList ++ List.replicate 80 'x'] ∧
    rewrapChanges (rewrapChanges dividedLines) = rewrapChanges dividedLines := by
  have htexts := @isBlankLine_text_of_all dividedLines (by decide +kernel)
  obtain ⟨first, outside, hlines⟩ : ∃ first outside, dividedLines = [first, outside] := ⟨_, _, rfl⟩
  have hparts : splitBullet? first = some ("  * ".toList, first.drop 4) ∧ splitBullet? outside = none ∧
      continuesBullet "  * ".toList.length outside = false ∧ (∀ w ∈ words first, 4 + w.length ≤ 80) ∧
      ∀ w ∈ words first, isAnnouncement w = false := by
    cases hlines
    decide +kernel
  obtain ⟨hfirst, houtside, hends, hwords, hnumbers⟩ := hparts
  have hps : FallsInto [first, outside] [.bullet "  * ".toList first [], .line outside] := by
    refine @FallsInto.bullet _ _ first [] [outside] _ (splitBullet?_eq_some_iff.mp hfirst) nofun
      (fun l hl hcontinues => ?_) (.line (splitBullet?_eq_none_iff.mp houtside) .nil)
    obtain rfl := Option.some.inj hl
    rw [continuesBullet_iff.mpr ⟨hcontinues.notBlank, hcontinues.indent⟩] at hends
    cases hends
  have hnarrow : (Piece.bullet "  * ".toList first []).IsNarrow := by
    intro _ c hc
    rw [List.flatMap_singleton] at hc
    rcases hc with hc | ⟨w, v, hwithin, hannounces, -⟩
    · exact hwords c hc
    · have hnot := hnumbers w (hwithin.subset List.mem_cons_self)
      rw [isAnnouncement_iff.mpr hannounces] at hnot
      cases hnot
  have hall : ∀ p ∈ [Piece.bullet "  * ".toList first [], .line outside], p.IsNarrow :=
    List.forall_mem_cons.mpr ⟨hnarrow, List.forall_mem_singleton.mpr trivial⟩
  rw [← hlines] at hps
  exact ⟨⟨_, hps, hall, rfl⟩, htexts, by decide +kernel, rewrapChanges_rewrapChanges hps htexts hall⟩

end Packaging.Changelog
