import Mathlib.Data.List.Forall2
import Packaging.Proofs.Changelog.Bullets
import Packaging.Proofs.Changelog.Filling

/-!
# What rewrapping does to the lines of an entry

A bullet with a line that is too wide is divided into passages, and those with such a line are filled
anew. Filling moves words from line to line and leaves out white space, but as every passage holds a word
it never loses the marker in front of it.

## What is proved

* `Filler.flatMap_words_fill` — the words of filled lines.
* `passages_spec` — the passages of a bullet have its lines, and what is filled for each has its words.
* `becomes_rewrapChange` — what a bullet is rewrapped to.
* `becomes_rewrapChanges` — what all the lines of an entry are rewrapped to.
-/

namespace Packaging.Changelog

open Text

/-! ### The words of filled lines -/

namespace Filler

variable {f : Filler} {g : List Text} {gs : List (List Text)}

/-- What the first line begins with is in front of the words of the groups. -/
theorem flatMap_words_layOut (hfirst : f.first.getLast?.all isBlank = true)
    (hfurther : ∀ c ∈ f.further, isBlank c = true) :
    (f.layOut (g :: gs)).flatMap words = words f.first ++ (g :: gs).flatten.flatMap words := by
  induction gs generalizing f g with
  | nil =>
    rw [layOut_cons, layOut, List.mapIdx_nil, List.flatMap_singleton,
      words_append_of_getLast? hfirst, words_join_space]
    simp
  | cons g' gs ih =>
    have hblank : f.continued.first.getLast?.all isBlank = true := by
      rw [Option.all_eq_true]
      exact fun c hc => hfurther c (List.mem_of_getLast? hc)
    have hindent : words f.continued.first = [] := words_of_blank hfurther
    rw [layOut_cons, List.flatMap_cons, ih hblank hfurther, words_append_of_getLast? hfirst,
      words_join_space, hindent]
    simp

theorem flatMap_words_fill {t : Text} (ht : isBlankLine t = false)
    (hfirst : f.first.getLast?.all isBlank = true) (hfurther : ∀ c ∈ f.further, isBlank c = true) :
    (f.fill t).flatMap words = words f.first ++ words t := by
  obtain ⟨groups, hfill, hflat, -⟩ := f.exists_groups (chunks t)
  cases groups with
  | nil => exact absurd hflat.symm (chunks_ne_nil ht)
  | cons g gs => rw [fill, hfill, flatMap_words_layOut hfirst hfurther, hflat, flatMap_words_chunks]

/-- A line that is too wide is an indent and one chunk. -/
theorem exists_chunk_of_mem_fill {line t : Text} (h : line ∈ f.fill t) (hwide : f.width < line.length) :
    ∃ c, IsChunkOf (words t) c ∧ (line = f.first ++ c ∨ line = f.further ++ c) := by
  obtain ⟨indent, c, cs, hindent, hchunks, rfl, hone⟩ := exists_of_mem_fill h
  refine ⟨c, isChunkOf_of_mem_chunks (hchunks c List.mem_cons_self), ?_⟩
  rw [hone hwide, join_singleton]
  rcases hindent with rfl | rfl
  · exact .inl rfl
  · exact .inr rfl

end Filler

/-! ### Passages -/

/-- The indent of the lines of a bullet below its first one. -/
def hangingIndent (marker : Text) : Text := List.replicate marker.length ' '

theorem isBlank_of_mem_hangingIndent {marker : Text} : ∀ c ∈ hangingIndent marker, isBlank c = true := by
  intro c hc
  rw [List.eq_of_mem_replicate hc]
  decide

theorem Marks.getLast? {line marker text : Text} (h : Marks line marker text) :
    marker.getLast?.all isBlank = true := by
  obtain ⟨before, c, after, rfl, -, -, hne, hafter⟩ := h.marker_eq
  have hlast : (before ++ c :: after).getLast? = after.getLast? := by
    rw [List.getLast?_append_of_ne_nil _ (List.cons_ne_nil c after), List.getLast?_cons,
      List.getLast?_eq_some_getLast hne]
    rfl
  rw [hlast, Option.all_eq_true]
  exact fun b hb => hafter b (List.mem_of_getLast? hb)

theorem isLong_iff {line : Text} : isLong line = true ↔ 80 < line.length := by
  rw [isLong, decide_eq_true_eq, Filler.usualWidth]

namespace Passage

/-- A passage of the bullet with this marker: its texts hold words, and these are the words of its lines
but for the marker. -/
structure IsSound (marker : Text) (p : Passage) : Prop where
  indent : p.indent = marker ∨ p.indent = hangingIndent marker
  texts : p.texts.flatMap words ≠ []
  lines : words p.indent ++ p.texts.flatMap words = p.lines.flatMap words

variable {marker line : Text} {p : Passage}

theorem isSound_first {text : Text} (h : Marks line marker text) (ht : isBlankLine text = false) :
    (single marker text line).IsSound marker where
  indent := .inl rfl
  texts := by
    rw [single, List.flatMap_singleton, ne_eq, words_eq_nil_iff, ht]
    exact Bool.false_ne_true
  lines := by
    rw [single, List.flatMap_singleton, List.flatMap_singleton, h.line_eq,
      words_append_of_getLast? h.getLast?]

theorem words_trimStart_ne_nil (h : Continues marker line) : words (trimStart line) ≠ [] := by
  rw [words_trimStart, ne_eq, words_eq_nil_iff, h.notBlank]
  exact Bool.false_ne_true

theorem isSound_further (h : Continues marker line) :
    (single (hangingIndent marker) (trimStart line) line).IsSound marker where
  indent := .inr rfl
  texts := by
    rw [single, List.flatMap_singleton]
    exact words_trimStart_ne_nil h
  lines := by
    rw [single, List.flatMap_singleton, List.flatMap_singleton, words_trimStart,
      words_of_blank isBlank_of_mem_hangingIndent, List.nil_append]

theorem IsSound.add (hp : p.IsSound marker) (line : Text) :
    (p.add (trimStart line) line).IsSound marker where
  indent := hp.indent
  texts := by
    rw [Passage.add, List.flatMap_append]
    exact List.append_ne_nil_of_left_ne_nil hp.texts _
  lines := by
    rw [Passage.add, List.flatMap_append, List.flatMap_append, ← List.append_assoc, hp.lines,
      List.flatMap_singleton, List.flatMap_singleton, words_trimStart]

theorem IsSound.getLast? (hp : p.IsSound marker) (hmarker : marker.getLast?.all isBlank = true) :
    p.indent.getLast?.all isBlank = true := by
  rcases hp.indent with h | h
  · rwa [h]
  · rw [h, Option.all_eq_true]
    exact fun c hc => isBlank_of_mem_hangingIndent c (List.mem_of_getLast? hc)

/-- The lines for a passage have its words. -/
theorem IsSound.flatMap_words_render (hp : p.IsSound marker)
    (hmarker : marker.getLast?.all isBlank = true) : p.render.flatMap words = p.lines.flatMap words := by
  unfold render
  split
  · have hblank : isBlankLine (join [' '] p.texts) = false := by
      rw [← Bool.not_eq_true, ← words_eq_nil_iff, words_join_space]
      exact hp.texts
    rw [Filler.flatMap_words_fill hblank (hp.getLast? hmarker) isBlank_of_mem_hangingIndent,
      words_join_space]
    exact hp.lines
  · rfl

/-- A line for a passage that is too wide is an indent and one chunk. -/
theorem IsSound.exists_chunk (hp : p.IsSound marker) (hline : line ∈ p.render)
    (hwide : Changelog.isLong line = true) :
    ∃ c, IsChunkOf (p.lines.flatMap words) c ∧ (line = marker ++ c ∨ line = hangingIndent marker ++ c) := by
  unfold render at hline
  split at hline
  · have hwidth : (Filler.hanging p.indent).width < line.length := isLong_iff.mp hwide
    obtain ⟨c, hc, hindent⟩ := Filler.exists_chunk_of_mem_fill hline hwidth
    rw [words_join_space] at hc
    have hwords : p.texts.flatMap words <:+: p.lines.flatMap words :=
      ⟨words p.indent, [], by rw [List.append_nil, hp.lines]⟩
    have hfurther : (Filler.hanging p.indent).further = hangingIndent marker := by
      rcases hp.indent with h | h <;> rw [h]
      · rfl
      · rw [Filler.hanging, hangingIndent, List.length_replicate]
    rw [hfurther] at hindent
    refine ⟨c, hc.mono hwords, ?_⟩
    rcases hindent with rfl | rfl
    · rcases hp.indent with h | h
      · exact .inl (congrArg (· ++ c) h)
      · exact .inr (congrArg (· ++ c) h)
    · exact .inr rfl
  · rename_i hshort
    exact absurd (List.any_eq_true.mpr ⟨line, hline, hwide⟩) hshort

end Passage

/-- A line that goes on with a bullet is joined to the passage being made, or begins another one. -/
theorem passages_cons_of_continues {marker line : Text} (h : Continues marker line) (p : Passage)
    (further : List Text) :
    passages (some p) (hangingIndent marker) (line :: further) =
      if p.takes (trimStart line) line then
        passages (some (p.add (trimStart line) line)) (hangingIndent marker) further
      else p :: passages (some (.single (hangingIndent marker) (trimStart line) line))
        (hangingIndent marker) further := by
  rw [passages, splitBullet?_eq_none_iff.mpr h.noMarker]

/-- The passages of a bullet are sound and have its lines. The passage `p` is being made. -/
theorem passages_spec {marker : Text} {p : Passage} {further : List Text}
    (hfurther : ∀ l ∈ further, Continues marker l) (hp : p.IsSound marker) :
    (∀ q ∈ passages (some p) (hangingIndent marker) further, q.IsSound marker) ∧
      (passages (some p) (hangingIndent marker) further).flatMap Passage.lines = p.lines ++ further := by
  induction further generalizing p with
  | nil => exact ⟨List.forall_mem_singleton.mpr hp, by simp [passages]⟩
  | cons l further ih =>
    obtain ⟨hl, hrest⟩ := List.forall_mem_cons.mp hfurther
    rw [passages_cons_of_continues hl]
    split
    · obtain ⟨hsound, hlines⟩ := ih hrest (hp.add l)
      exact ⟨hsound, by rw [hlines]; simp [Passage.add]⟩
    · obtain ⟨hsound, hlines⟩ := ih hrest (Passage.isSound_further hl)
      exact ⟨List.forall_mem_cons.mpr ⟨hp, hsound⟩, by rw [List.flatMap_cons, hlines]; rfl⟩

/-! ### Rewrapped lines -/

/-- What a piece becomes. A line outside of bullets and a bullet without a line of more than 80 characters
stay as they are. Otherwise the words stay, and a line that is still too wide is the marker, or as many
spaces, and one chunk. -/
inductive Piece.Becomes : Piece → List Text → Prop where
  | line (l : Text) : Becomes (.line l) [l]
  | kept (marker first : Text) (further : List Text) :
    (∀ l ∈ first :: further, l.length ≤ 80) → Becomes (.bullet marker first further) (first :: further)
  | filled {marker first : Text} {further out : List Text} :
    (∃ l ∈ first :: further, 80 < l.length) →
    out.flatMap words = (first :: further).flatMap words →
    (∀ l ∈ out, 80 < l.length → ∃ c, IsChunkOf ((first :: further).flatMap words) c ∧
      (l = marker ++ c ∨ l = List.replicate marker.length ' ' ++ c)) →
    Becomes (.bullet marker first further) out

theorem Piece.Becomes.flatMap_words {p : Piece} {out : List Text} (h : p.Becomes out) :
    out.flatMap words = p.lines.flatMap words := by
  cases h with
  | line => rfl
  | kept => rfl
  | filled _ hwords => exact hwords

theorem passages_bullet {marker text first : Text} (h : Marks first marker text) (further : List Text) :
    passages none [] (first :: further) =
      passages (some (.single marker text first)) (hangingIndent marker) further := by
  rw [passages, splitBullet?_eq_some_iff.mpr h]
  rfl

theorem rewrapChange_of_isLong {marker text first : Text} {further : List Text}
    (hmarks : Marks first marker text) (hlong : (first :: further).any isLong = true) :
    rewrapChange (first :: further) = (passages none [] (first :: further)).flatMap Passage.render := by
  have hbullet : (first :: further).head?.any isBullet = true := isBullet_iff.mpr ⟨marker, text, hmarks⟩
  rw [rewrapChange, hlong, hbullet, Bool.and_self, if_pos rfl]

theorem rewrapChange_of_not_isLong {lines : List Text} (hlong : lines.any isLong = false) :
    rewrapChange lines = lines := by
  rw [rewrapChange, hlong]
  rfl

/-- What a bullet is rewrapped to. -/
theorem becomes_rewrapChange {marker text first : Text} {further : List Text}
    (hmarks : Marks first marker text) (htext : isBlankLine text = false)
    (hfurther : ∀ l ∈ further, Continues marker l) :
    (Piece.bullet marker first further).Becomes (rewrapChange (first :: further)) := by
  cases hlong : (first :: further).any isLong with
  | true =>
    obtain ⟨hsound, hlines⟩ := passages_spec hfurther (Passage.isSound_first hmarks htext)
    rw [rewrapChange_of_isLong hmarks hlong, passages_bullet hmarks]
    have hall : (first :: further).flatMap words = (passages (some (.single marker text first))
        (hangingIndent marker) further).flatMap fun q => q.lines.flatMap words := by
      rw [← List.flatMap_assoc, hlines]
      rfl
    refine .filled ?_ ?_ ?_
    · obtain ⟨l, hl, hwide⟩ := List.any_eq_true.mp hlong
      exact ⟨l, hl, isLong_iff.mp hwide⟩
    · rw [hall, List.flatMap_assoc]
      exact List.flatMap_congr fun q hq => (hsound q hq).flatMap_words_render hmarks.getLast?
    · intro l hl hwide
      obtain ⟨q, hq, hline⟩ := List.mem_flatMap.mp hl
      obtain ⟨c, hc, hindent⟩ := (hsound q hq).exists_chunk hline (isLong_iff.mpr hwide)
      refine ⟨c, hc.mono ?_, hindent⟩
      rw [hall]
      obtain ⟨before, after, hsplit⟩ := List.append_of_mem hq
      rw [hsplit, List.flatMap_append, List.flatMap_cons]
      exact ⟨_, _, List.append_assoc _ _ _⟩
  | false =>
    rw [rewrapChange_of_not_isLong hlong]
    refine .kept marker first further fun l hl => ?_
    have hshort := List.any_eq_false.mp hlong l hl
    rw [isLong_iff] at hshort
    omega

theorem FallsInto.becomes {ls : List Text} {ps : List Piece} (h : FallsInto ls ps)
    (htexts : ∀ l ∈ ls, ∀ marker text, Marks l marker text → isBlankLine text = false) :
    ∀ p ∈ ps, p.Becomes p.rewrapped := by
  induction h with
  | nil => nofun
  | @line l ls ps _ _ ih =>
    obtain ⟨-, hls⟩ := List.forall_mem_cons.mp htexts
    exact List.forall_mem_cons.mpr ⟨.line l, ih hls⟩
  | @bullet marker text first further ls ps hmarks hfurther _ _ ih =>
    obtain ⟨hfirst, hrest⟩ := List.forall_mem_cons.mp htexts
    have hls := (List.forall_mem_append.mp hrest).2
    exact List.forall_mem_cons.mpr
      ⟨becomes_rewrapChange hmarks (hfirst marker text hmarks) hfurther, ih hls⟩

/-- **Rewrapping.** Where a text comes after every marker, the lines of an entry keep their words in
order. They fall into bullets and other lines in one way, and each piece becomes what it should. -/
theorem becomes_rewrapChanges {ls : List Text}
    (htexts : ∀ l ∈ ls, ∀ marker text, Marks l marker text → isBlankLine text = false) :
    (rewrapChanges ls).flatMap words = ls.flatMap words ∧
    ∃ ps outs, FallsInto ls ps ∧ (∀ qs, FallsInto ls qs → qs = ps) ∧
      List.Forall₂ Piece.Becomes ps outs ∧ rewrapChanges ls = outs.flatten := by
  obtain ⟨ps, hps⟩ := exists_fallsInto ls
  have hbecomes := hps.becomes htexts
  refine ⟨?_, ps, ps.map Piece.rewrapped, hps, fun qs hqs => hqs.unique hps, ?_, ?_⟩
  · rw [hps.rewrapChanges_eq, List.flatMap_assoc, ← hps.flatMap_lines, List.flatMap_assoc]
    exact List.flatMap_congr fun p hp => (hbecomes p hp).flatMap_words
  · rw [List.forall₂_map_right_iff, List.forall₂_same]
    exact hbecomes
  · rw [hps.rewrapChanges_eq, List.flatMap_def]

/-- The check that a text comes after every marker. -/
theorem isBlankLine_text_of_all {ls : List Text}
    (h : ls.all (fun l => (splitBullet? l).all fun parts => !isBlankLine parts.2) = true) :
    ∀ l ∈ ls, ∀ marker text, Marks l marker text → isBlankLine text = false := by
  intro l hl marker text hmarks
  have hl := List.all_eq_true.mp h l hl
  rw [splitBullet?_eq_some_iff.mpr hmarks] at hl
  simpa using hl

/-- A bullet with a word that is too long for a line, between two blank lines. -/
def wideLines : List Text :=
  [[], "  * See ".toList ++ List.replicate 80 'x' ++ " twice.".toList, "    Closes: #1".toList, []]

/-- The long word gets a line of its own, and the number stays with what announces it. -/
theorem becomes_rewrapChanges_wideLines :
    (∀ l ∈ wideLines, ∀ marker text, Marks l marker text → isBlankLine text = false) ∧
    (rewrapChanges wideLines).flatMap words = wideLines.flatMap words ∧
    (∃ ps outs, FallsInto wideLines ps ∧ List.Forall₂ Piece.Becomes ps outs ∧
      rewrapChanges wideLines = outs.flatten) ∧
    rewrapChanges wideLines = [[], "  * See".toList, "    ".toList ++ List.replicate 80 'x',
      "    twice. Closes: #1".toList, []] := by
  have htexts := @isBlankLine_text_of_all wideLines (by decide +kernel)
  obtain ⟨hwords, ps, outs, hps, -, hbecomes, hflat⟩ := becomes_rewrapChanges htexts
  exact ⟨htexts, hwords, ⟨ps, outs, hps, hbecomes, hflat⟩, by decide +kernel⟩

end Packaging.Changelog
