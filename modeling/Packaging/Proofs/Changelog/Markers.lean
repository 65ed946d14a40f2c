import Packaging.Proofs.Changelog.Rewrapping

/-!
# Bullets after rewrapping

The lines that are filled below the first line of a bullet are meant to go on with it. Such a line reads
as a bullet of its own if filling happens to begin it with a lone star, plus or minus and to put
another word behind.

## What is proved

* `isBullet_chunks_iff` — which filled lines read as bullets.
* `exists_rewrapChange_eq` — a rewrapped bullet keeps its marker, and all its other lines are indented as
  far as its text.
* `bulletMarkers_rewrapChanges` — rewrapping loses no marker, and when it adds none.
-/

namespace Packaging.Changelog

open Text

/-! ### Lines that read as bullets -/

/-- A word that makes a line a bullet where it is the first word and another one follows. -/
def IsMark (w : Text) : Prop := w = ['*'] ∨ w = ['+'] ∨ w = ['-']

theorem Continues.isBullet {marker line : Text} (h : Continues marker line) : isBullet line = false := by
  rw [← Bool.not_eq_true, isBullet_iff]
  rintro ⟨marker', text, hmarks⟩
  exact h.noMarker marker' text hmarks

/-- A mark and the white space behind it are the end of a marker. -/
theorem isBullet_word_iff {indent w rest : Text} (hindent : ∀ c ∈ indent, isBlank c = true)
    (hw : IsWord w) (hrest : rest.head?.all isBlank = true) (hnew : '\n' ∉ rest) :
    isBullet (indent ++ (w ++ rest)) = true ↔ IsMark w ∧ rest ≠ [] := by
  obtain ⟨c, w, rfl⟩ := List.exists_cons_of_ne_nil hw.ne_nil
  obtain ⟨hc, hblank⟩ := List.forall_mem_cons.mp hw.noBlank
  rw [isBullet_iff]
  constructor
  · rintro ⟨marker, text, hline, ⟨before, d, after, rfl, hbefore, hd, hne, hafter⟩, -, -⟩
    have hspan : (indent ++ (c :: w ++ rest)).span isBlank = (indent, c :: w ++ rest) :=
      span_eq_iff.mpr ⟨rfl, hindent, by simpa using hc⟩
    have hspan' : (indent ++ (c :: w ++ rest)).span isBlank = (before, d :: (after ++ text)) := by
      refine span_eq_iff.mpr ⟨by rw [hline]; simp, hbefore, ?_⟩
      simpa using isBlank_of_mark hd
    rw [hspan, Prod.mk.injEq, List.cons_append, List.cons.injEq] at hspan'
    obtain ⟨-, rfl, hbehind⟩ := hspan'
    obtain ⟨b, after, rfl⟩ := List.exists_cons_of_ne_nil hne
    have hb : isBlank b = true := hafter b List.mem_cons_self
    cases w with
    | nil =>
      refine ⟨by simpa [IsMark] using hd, ?_⟩
      rintro rfl
      cases hbehind
    | cons a w =>
      rw [List.cons_append, List.cons_append, List.cons.injEq] at hbehind
      rw [← hbehind.1, hblank a List.mem_cons_self] at hb
      cases hb
  · rintro ⟨hmark, hne⟩
    obtain ⟨hd, rfl⟩ : (c = '*' ∨ c = '+' ∨ c = '-') ∧ w = [] := by
      rcases hmark with h | h | h <;> cases h <;> simp
    obtain ⟨b, more, rfl⟩ := List.exists_cons_of_ne_nil hne
    have hb : isBlank b = true := by simpa using hrest
    have hcut : (b :: more).takeWhile isBlank ++ (b :: more).dropWhile isBlank = b :: more :=
      List.takeWhile_append_dropWhile
    refine ⟨indent ++ c :: (b :: more).takeWhile isBlank, (b :: more).dropWhile isBlank, ?_,
      ⟨indent, c, _, rfl, hindent, hd, by simp [hb], fun d hd => List.mem_takeWhile_imp hd⟩,
      head?_dropWhile isBlank _, fun hmem => hnew (List.dropWhile_sublist _ |>.subset hmem)⟩
    simp only [List.append_assoc, List.cons_append, List.nil_append, hcut]

/-- A chunk begins with a word, and if it is more than that it begins with an announcement. -/
theorem exists_word_of_mem_chunks {c t : Text} (h : c ∈ chunks t) :
    IsWord c ∨ ∃ w v, c = w ++ ' ' :: v ∧ IsWord w ∧ Announces w := by
  rcases isChunkOf_of_mem_chunks h with hmem | ⟨w, v, hwithin, hannounces, hchunk⟩
  · exact .inl (isWord_of_mem_words hmem)
  · exact .inr ⟨w, v, hchunk, isWord_of_mem_words (hwithin.subset List.mem_cons_self), hannounces⟩

theorem not_isMark_of_length {w : Text} (h : 1 < w.length) : ¬IsMark w := by
  rintro (rfl | rfl | rfl) <;> simp at h

theorem Announces.length_le {w : Text} (h : Announces w) : 3 ≤ w.length := by
  rcases h with h | h
  · have hlength := h.length_le
    rw [String.length_toList] at hlength
    exact Nat.le_trans (by decide) hlength
  · exact h.length_le

/-- A line that chunks fill behind blanks reads as a bullet exactly if the first chunk is a mark and not
the only chunk. -/
theorem isBullet_chunks_iff {t indent c : Text} {cs : List Text}
    (hindent : ∀ b ∈ indent, isBlank b = true) (hchunks : ∀ d ∈ c :: cs, d ∈ chunks t) :
    isBullet (indent ++ join [' '] (c :: cs)) = true ↔ IsMark c ∧ cs ≠ [] := by
  have hnew : '\n' ∉ join [' '] (c :: cs) :=
    (isLine_join_space (fun d hd => isLine_of_mem_chunks d (hchunks d hd))
      (List.cons_ne_nil c cs)).1.noNewline
  obtain ⟨rest, hrest⟩ := prefix_join_cons [' '] c cs
  have hbehind : rest.head?.all isBlank = true ∧ (rest = [] ↔ cs = []) := by
    cases cs with
    | nil =>
      rw [join_singleton] at hrest
      simp [List.append_right_eq_self.mp hrest]
    | cons d cs =>
      rw [join_cons_cons, List.append_assoc, List.append_cancel_left_eq] at hrest
      rw [hrest]
      exact ⟨by simp [show isBlank ' ' = true by decide], by simp⟩
  rw [← hrest] at hnew ⊢
  have hnewrest : '\n' ∉ rest := fun hmem => hnew (List.mem_append_right c hmem)
  rcases exists_word_of_mem_chunks (hchunks c List.mem_cons_self) with hw | ⟨w, v, rfl, hw, hannounces⟩
  · rw [isBullet_word_iff hindent hw hbehind.1 hnewrest, ne_eq, hbehind.2]
  · -- Neither the announcement nor the whole chunk is a mark.
    have hlength := hannounces.length_le
    have hvnew : '\n' ∉ ' ' :: v ++ rest := fun hmem => hnew (by
      rw [List.append_assoc]
      exact List.mem_append_right w hmem)
    rw [List.append_assoc, isBullet_word_iff hindent hw (by simp [show isBlank ' ' = true by decide]) hvnew]
    refine iff_of_false (fun h => not_isMark_of_length (by omega) h.1) fun h => ?_
    exact not_isMark_of_length (by rw [List.length_append]; omega) h.1

theorem Marks.isBlankLine {line marker text : Text} (h : Marks line marker text) :
    isBlankLine marker = false := by
  obtain ⟨before, c, after, rfl, -, hc, -, -⟩ := h.marker_eq
  rw [isBlankLine_append, show Text.isBlankLine (c :: after) = (isBlank c && Text.isBlankLine after) from rfl,
    isBlank_of_mark hc, Bool.false_and, Bool.and_false]

/-- A marker in front of chunks is the marker of the line. -/
theorem Marks.refill {line marker text t : Text} {g : List Text} (h : Marks line marker text)
    (hg : g ≠ []) (hchunks : ∀ c ∈ g, c ∈ chunks t) :
    Marks (marker ++ join [' '] g) marker (join [' '] g) where
  line_eq := rfl
  marker_eq := h.marker_eq
  head := by
    obtain ⟨c, cs, rfl⟩ := List.exists_cons_of_ne_nil hg
    obtain ⟨rest, hrest⟩ := prefix_join_cons [' '] c cs
    have hbegin : ∃ w more, c = w ++ more ∧ IsWord w := by
      rcases exists_word_of_mem_chunks (hchunks c List.mem_cons_self) with hw | ⟨w, v, hc, hw, -⟩
      · exact ⟨c, [], (List.append_nil c).symm, hw⟩
      · exact ⟨w, ' ' :: v, hc, hw⟩
    obtain ⟨w, more, rfl, hw⟩ := hbegin
    obtain ⟨d, w, rfl⟩ := List.exists_cons_of_ne_nil hw.ne_nil
    rw [← hrest]
    exact hw.noBlank d List.mem_cons_self
  oneLine := (isLine_join_space (fun c hc => isLine_of_mem_chunks c (hchunks c hc)) hg).1.noNewline

/-! ### Lines of passages -/

theorem length_hangingIndent (marker : Text) : (hangingIndent marker).length = marker.length :=
  List.length_replicate

theorem isBlankLine_hangingIndent (marker : Text) : isBlankLine (hangingIndent marker) = true :=
  List.all_eq_true.mpr isBlank_of_mem_hangingIndent

namespace Passage

/-- Filling the passage begins a line behind blanks with a mark, and another chunk follows. -/
def BreaksAtMark (p : Passage) : Prop :=
  p.isLong = true ∧ ∃ groups, groups.flatten = chunks (join [' '] p.texts) ∧
    (Filler.hanging p.indent).IsGreedy groups ∧ ∃ i c d cs, groups[i]? = some (c :: d :: cs) ∧
      IsMark c ∧ isBlankLine ((Filler.hanging p.indent).indentAt i) = true

variable {marker line : Text} {p : Passage}

theorem render_of_isLong (h : p.isLong = true) :
    p.render = (Filler.hanging p.indent).fill (join [' '] p.texts) := by
  rw [render, if_pos h]

theorem render_of_not_isLong (h : p.isLong = false) : p.render = p.lines := by
  rw [render, h]
  rfl

theorem getElem?_layOut (f : Filler) (groups : List (List Text)) (i : Nat) :
    (f.layOut groups)[i]? = groups[i]?.map (f.lineAt i) := List.getElem?_mapIdx

/-- The lines behind blanks that read as bullets. -/
theorem breaksAtMark_iff (hlong : p.isLong = true) :
    p.BreaksAtMark ↔ ∃ i l, p.render[i]? = some l ∧
      isBlankLine ((Filler.hanging p.indent).indentAt i) = true ∧ isBullet l = true := by
  rw [render_of_isLong hlong]
  constructor
  · rintro ⟨-, groups, hflat, hgreedy, i, c, d, cs, hi, hmark, hblank⟩
    refine ⟨i, (Filler.hanging p.indent).lineAt i (c :: d :: cs), ?_, hblank, ?_⟩
    · rw [Filler.fill, ← hflat, Filler.fillChunks_flatten hgreedy, getElem?_layOut, hi]
      rfl
    · have hchunks : ∀ e ∈ c :: d :: cs, e ∈ chunks (join [' '] p.texts) := fun e he => by
        rw [← hflat]
        exact List.mem_flatten.mpr ⟨_, List.mem_of_getElem? hi, he⟩
      exact (isBullet_chunks_iff (List.all_eq_true.mp hblank) hchunks).mpr ⟨hmark, List.cons_ne_nil d cs⟩
  · rintro ⟨i, l, hl, hblank, hbullet⟩
    obtain ⟨groups, hfill, hflat, hgreedy⟩ :=
      (Filler.hanging p.indent).exists_groups (chunks (join [' '] p.texts))
    rw [Filler.fill, hfill, getElem?_layOut, Option.map_eq_some_iff] at hl
    obtain ⟨g, hi, rfl⟩ := hl
    have hg : g ∈ groups := List.mem_of_getElem? hi
    obtain ⟨c, cs, rfl⟩ := List.exists_cons_of_ne_nil (hgreedy.ne_nil g hg)
    have hchunks : ∀ e ∈ c :: cs, e ∈ chunks (join [' '] p.texts) := fun e he => by
      rw [← hflat]
      exact List.mem_flatten.mpr ⟨_, hg, he⟩
    obtain ⟨hmark, hne⟩ := (isBullet_chunks_iff (List.all_eq_true.mp hblank) hchunks).mp hbullet
    obtain ⟨d, cs, rfl⟩ := List.exists_cons_of_ne_nil hne
    exact ⟨hlong, groups, hflat, hgreedy, i, c, d, cs, hi, hmark, hblank⟩

/-- A passage below the first one of a bullet. -/
structure IsBelow (marker : Text) (p : Passage) : Prop where
  indent : p.indent = hangingIndent marker
  lines : ∀ l ∈ p.lines, Continues marker l

/-- The passage that the first line of a bullet is in. -/
structure IsHead (marker first : Text) (p : Passage) : Prop where
  indent : p.indent = marker
  lines : ∃ more, p.lines = first :: more ∧ ∀ l ∈ more, Continues marker l

theorem further_hanging (marker : Text) :
    (Filler.hanging marker).further = hangingIndent marker := rfl

theorem further_hanging_hangingIndent (marker : Text) :
    (Filler.hanging (hangingIndent marker)).further = hangingIndent marker := by
  rw [further_hanging, hangingIndent, length_hangingIndent]
  rfl

/-- Below the first passage every line is indented as far as the text of the bullet. -/
theorem IsBelow.prefix_of_mem_render (h : p.IsBelow marker) (hline : line ∈ p.render) :
    hangingIndent marker <+: line := by
  cases hlong : p.isLong with
  | false =>
    rw [render_of_not_isLong hlong] at hline
    exact (h.lines line hline).indent
  | true =>
    rw [render_of_isLong hlong, h.indent] at hline
    obtain ⟨indent, c, cs, hindent, -, rfl, -⟩ := Filler.exists_of_mem_fill hline
    rw [further_hanging_hangingIndent] at hindent
    rcases hindent with rfl | rfl <;> exact List.prefix_append _ _

theorem IsBelow.breaksAtMark_iff (h : p.IsBelow marker) :
    p.BreaksAtMark ↔ ∃ l ∈ p.render, isBullet l = true := by
  cases hlong : p.isLong with
  | false =>
    rw [render_of_not_isLong hlong]
    refine iff_of_false (fun hbreaks => ?_) ?_
    · rw [hbreaks.1] at hlong
      cases hlong
    · rintro ⟨l, hl, hbullet⟩
      rw [(h.lines l hl).isBullet] at hbullet
      cases hbullet
  | true =>
    rw [Passage.breaksAtMark_iff hlong]
    have hblank : ∀ i, isBlankLine ((Filler.hanging p.indent).indentAt i) = true := fun i => by
      rw [h.indent]
      rcases Filler.indentAt_cases (Filler.hanging (hangingIndent marker)) i with hindent | hindent
      · rw [hindent]
        exact isBlankLine_hangingIndent marker
      · rw [hindent, further_hanging_hangingIndent]
        exact isBlankLine_hangingIndent marker
    constructor
    · rintro ⟨i, l, hl, -, hbullet⟩
      exact ⟨l, List.mem_of_getElem? hl, hbullet⟩
    · rintro ⟨l, hl, hbullet⟩
      obtain ⟨i, hi⟩ := List.mem_iff_getElem?.mp hl
      exact ⟨i, l, hi, hblank i, hbullet⟩

/-- The first line keeps its marker, and the lines below it in the passage are indented as far as its
text. -/
theorem IsHead.exists_render_eq {first text : Text} (h : p.IsHead marker first)
    (hmarks : Marks first marker text) (hsound : p.IsSound marker) :
    ∃ l rest, p.render = l :: rest ∧ (∃ text', Marks l marker text') ∧
      (∀ r ∈ rest, hangingIndent marker <+: r) ∧ (p.BreaksAtMark ↔ ∃ r ∈ rest, isBullet r = true) := by
  cases hlong : p.isLong with
  | false =>
    obtain ⟨more, hlines, hmore⟩ := h.lines
    refine ⟨first, more, by rw [render_of_not_isLong hlong, hlines], ⟨text, hmarks⟩,
      fun r hr => (hmore r hr).indent, iff_of_false (fun hbreaks => ?_) ?_⟩
    · rw [hbreaks.1] at hlong
      cases hlong
    · rintro ⟨r, hr, hbullet⟩
      rw [(hmore r hr).isBullet] at hbullet
      cases hbullet
  | true =>
    obtain ⟨groups, hfill, hflat, hgreedy⟩ :=
      (Filler.hanging p.indent).exists_groups (chunks (join [' '] p.texts))
    cases groups with
    | nil =>
      have hblank : isBlankLine (join [' '] p.texts) = false := by
        rw [← Bool.not_eq_true, ← words_eq_nil_iff, words_join_space]
        exact hsound.texts
      exact absurd hflat.symm (chunks_ne_nil hblank)
    | cons g gs =>
      have hrender : p.render = (marker ++ join [' '] g) :: (Filler.hanging marker).continued.layOut gs := by
        rw [render_of_isLong hlong, Filler.fill, hfill, Filler.layOut_cons, h.indent]
        rfl
      have hchunks : ∀ c ∈ g, c ∈ chunks (join [' '] p.texts) := fun c hc => by
        rw [← hflat]
        exact List.mem_append_left _ hc
      refine ⟨_, _, hrender, ⟨_, hmarks.refill (hgreedy.ne_nil g List.mem_cons_self) hchunks⟩,
        fun r hr => ?_, ?_⟩
      · obtain ⟨i, g', -, rfl⟩ := Filler.mem_layOut_iff.mp hr
        rw [← Filler.lineAt_succ]
        exact List.prefix_append _ _
      · rw [breaksAtMark_iff hlong, hrender, h.indent]
        constructor
        · rintro ⟨i, l, hl, hblank, hbullet⟩
          cases i with
          | zero =>
            -- The first line begins with the marker, which is not blank.
            rw [show (Filler.hanging marker).indentAt 0 = marker from rfl, hmarks.isBlankLine] at hblank
            cases hblank
          | succ i => exact ⟨l, List.mem_of_getElem? hl, hbullet⟩
        · rintro ⟨l, hl, hbullet⟩
          obtain ⟨i, hi⟩ := List.mem_iff_getElem?.mp hl
          exact ⟨i + 1, l, hi, isBlankLine_hangingIndent marker, hbullet⟩

end Passage

theorem Passage.IsBelow.add {marker line : Text} {p : Passage} (h : p.IsBelow marker)
    (hline : Continues marker line) (text : Text) : (p.add text line).IsBelow marker where
  indent := h.indent
  lines := List.forall_mem_append.mpr ⟨h.lines, List.forall_mem_singleton.mpr hline⟩

theorem Passage.IsHead.add {marker first line : Text} {p : Passage} (h : p.IsHead marker first)
    (hline : Continues marker line) (text : Text) : (p.add text line).IsHead marker first where
  indent := h.indent
  lines := by
    obtain ⟨more, hlines, hmore⟩ := h.lines
    refine ⟨more ++ [line], by rw [Passage.add, hlines]; rfl, ?_⟩
    exact List.forall_mem_append.mpr ⟨hmore, List.forall_mem_singleton.mpr hline⟩

theorem Passage.isBelow_single {marker line : Text} (h : Continues marker line) (text : Text) :
    (Passage.single (hangingIndent marker) text line).IsBelow marker :=
  ⟨rfl, List.forall_mem_singleton.mpr h⟩

theorem isBelow_of_mem_passages {marker : Text} {p : Passage} {further : List Text}
    (hfurther : ∀ l ∈ further, Continues marker l) (hp : p.IsBelow marker) :
    ∀ q ∈ passages (some p) (hangingIndent marker) further, q.IsBelow marker := by
  induction further generalizing p with
  | nil => exact List.forall_mem_singleton.mpr hp
  | cons l further ih =>
    obtain ⟨hl, hrest⟩ := List.forall_mem_cons.mp hfurther
    rw [passages_cons_of_continues hl]
    split
    · exact ih hrest (hp.add hl _)
    · exact List.forall_mem_cons.mpr ⟨hp, ih hrest (Passage.isBelow_single hl _)⟩

/-- The first passage of a bullet and those below it. The passage `p` is being made. -/
theorem exists_passages_eq {marker first : Text} {p : Passage} {further : List Text}
    (hfurther : ∀ l ∈ further, Continues marker l) (hp : p.IsHead marker first) :
    ∃ q qs, passages (some p) (hangingIndent marker) further = q :: qs ∧ q.IsHead marker first ∧
      ∀ r ∈ qs, r.IsBelow marker := by
  induction further generalizing p with
  | nil => exact ⟨p, [], rfl, hp, nofun⟩
  | cons l further ih =>
    obtain ⟨hl, hrest⟩ := List.forall_mem_cons.mp hfurther
    rw [passages_cons_of_continues hl]
    split
    · exact ih hrest (hp.add hl _)
    · exact ⟨p, _, rfl, hp, isBelow_of_mem_passages hrest (Passage.isBelow_single hl _)⟩

/-! ### Lines of bullets -/

namespace Piece

/-- Filling one of the passages of the bullet begins a line with a mark. -/
def BreaksAtMark : Piece → Prop
  | .line _ => False
  | .bullet _ first further => ∃ p ∈ passages none [] (first :: further), p.BreaksAtMark

end Piece

/-- What a bullet is rewrapped to begins with its marker, and the other lines are indented as far as its
text. One of these reads as a bullet exactly if filling begins it with a mark. -/
theorem exists_rewrapChange_eq {marker text first : Text} {further : List Text}
    (hmarks : Marks first marker text) (htext : isBlankLine text = false)
    (hfurther : ∀ l ∈ further, Continues marker l) :
    ∃ l rest, rewrapChange (first :: further) = l :: rest ∧ (∃ text', Marks l marker text') ∧
      (∀ r ∈ rest, hangingIndent marker <+: r) ∧
      ((Piece.bullet marker first further).BreaksAtMark ↔ ∃ r ∈ rest, isBullet r = true) := by
  have hhead : (Passage.single marker text first).IsHead marker first := ⟨rfl, [], rfl, nofun⟩
  obtain ⟨q, qs, hpassages, hq, hqs⟩ := exists_passages_eq hfurther hhead
  obtain ⟨hsound, hlines⟩ := passages_spec hfurther (Passage.isSound_first hmarks htext)
  have hall := passages_bullet hmarks further
  rw [hpassages] at hsound hlines hall
  simp only [Piece.BreaksAtMark, hall]
  cases hlong : (first :: further).any isLong with
  | false =>
    refine ⟨first, further, rewrapChange_of_not_isLong hlong, ⟨text, hmarks⟩,
      fun r hr => (hfurther r hr).indent, iff_of_false ?_ ?_⟩
    · rintro ⟨p, hp, hbreaks⟩
      obtain ⟨l, hl, hwide⟩ := List.any_eq_true.mp hbreaks.1
      have hmem : l ∈ first :: further := by
        rw [← show (q :: qs).flatMap Passage.lines = first :: further from hlines]
        exact List.mem_flatMap.mpr ⟨p, hp, hl⟩
      exact List.any_eq_false.mp hlong l hmem hwide
    · rintro ⟨r, hr, hbullet⟩
      rw [(hfurther r hr).isBullet] at hbullet
      cases hbullet
  | true =>
    obtain ⟨l, rest, hrender, hl, hrest, hbreaks⟩ :=
      hq.exists_render_eq hmarks (hsound q List.mem_cons_self)
    refine ⟨l, rest ++ qs.flatMap Passage.render, ?_, hl, ?_, ?_⟩
    · rw [rewrapChange_of_isLong hmarks hlong, hall, List.flatMap_cons, hrender]
      rfl
    · refine List.forall_mem_append.mpr ⟨hrest, fun r hr => ?_⟩
      obtain ⟨p, hp, hr⟩ := List.mem_flatMap.mp hr
      exact (hqs p hp).prefix_of_mem_render hr
    · rw [List.exists_mem_cons_iff, hbreaks]
      simp only [List.mem_append, or_and_right, exists_or, List.mem_flatMap]
      refine or_congr Iff.rfl ?_
      constructor
      · rintro ⟨p, hp, hbreaks⟩
        obtain ⟨r, hr, hbullet⟩ := ((hqs p hp).breaksAtMark_iff).mp hbreaks
        exact ⟨r, ⟨p, hp, hr⟩, hbullet⟩
      · rintro ⟨r, ⟨p, hp, hr⟩, hbullet⟩
        exact ⟨p, hp, ((hqs p hp).breaksAtMark_iff).mpr ⟨r, hr, hbullet⟩⟩

/-! ### Markers -/

/-- The markers of the lines that are bullets. -/
def bulletMarkers (ls : List Text) : List Text := ls.filterMap fun l => (splitBullet? l).map Prod.fst

theorem bulletMarkers_append (ls ms : List Text) :
    bulletMarkers (ls ++ ms) = bulletMarkers ls ++ bulletMarkers ms := List.filterMap_append

theorem bulletMarkers_cons_of_marks {line marker text : Text} (h : Marks line marker text)
    (ls : List Text) : bulletMarkers (line :: ls) = marker :: bulletMarkers ls := by
  rw [bulletMarkers, List.filterMap_cons, splitBullet?_eq_some_iff.mpr h]
  rfl

theorem bulletMarkers_eq_nil_iff {ls : List Text} :
    bulletMarkers ls = [] ↔ ∀ l ∈ ls, isBullet l = false := by
  rw [bulletMarkers, List.filterMap_eq_nil_iff]
  refine forall₂_congr fun l _ => ?_
  rw [Option.map_eq_none_iff, isBullet, Option.isSome_eq_false_iff, Option.isNone_iff_eq_none]

theorem bulletMarkers_cons_of_not_marks {line : Text} (h : ∀ marker text, ¬Marks line marker text)
    (ls : List Text) : bulletMarkers (line :: ls) = bulletMarkers ls := by
  rw [bulletMarkers, List.filterMap_cons, splitBullet?_eq_none_iff.mpr h]
  rfl

/-- The markers of lines and of what their pieces are rewrapped to. -/
theorem FallsInto.bulletMarkers_rewrapped {ls : List Text} {ps : List Piece} (h : FallsInto ls ps)
    (htexts : ∀ l ∈ ls, ∀ marker text, Marks l marker text → isBlankLine text = false) :
    (bulletMarkers ls).Sublist (bulletMarkers (ps.flatMap Piece.rewrapped)) ∧
      (bulletMarkers (ps.flatMap Piece.rewrapped) = bulletMarkers ls ↔ ∀ p ∈ ps, ¬p.BreaksAtMark) := by
  induction h with
  | nil => exact ⟨List.Sublist.refl _, iff_of_true rfl nofun⟩
  | @line l ls ps hnone _ ih =>
    obtain ⟨-, hls⟩ := List.forall_mem_cons.mp htexts
    have hrewrapped : (Piece.line l :: ps).flatMap Piece.rewrapped = l :: ps.flatMap Piece.rewrapped := rfl
    rw [hrewrapped, bulletMarkers_cons_of_not_marks hnone, bulletMarkers_cons_of_not_marks hnone,
      List.forall_mem_cons]
    exact ⟨(ih hls).1, (ih hls).2.trans (iff_and_self.mpr fun _ => id)⟩
  | @bullet marker text first further ls ps hmarks hfurther _ _ ih =>
    obtain ⟨hfirst, hrest⟩ := List.forall_mem_cons.mp htexts
    obtain ⟨hsub, hsame⟩ := ih (List.forall_mem_append.mp hrest).2
    obtain ⟨l, rest, hrewrap, ⟨text', hl⟩, -, hbreaks⟩ :=
      exists_rewrapChange_eq hmarks (hfirst marker text hmarks) hfurther
    have hold : bulletMarkers (first :: (further ++ ls)) = marker :: bulletMarkers ls := by
      have hnone : bulletMarkers further = [] :=
        bulletMarkers_eq_nil_iff.mpr fun r hr => (hfurther r hr).isBullet
      rw [bulletMarkers_cons_of_marks hmarks, bulletMarkers_append, hnone, List.nil_append]
    have hnew : bulletMarkers ((Piece.bullet marker first further :: ps).flatMap Piece.rewrapped) =
        marker :: (bulletMarkers rest ++ bulletMarkers (ps.flatMap Piece.rewrapped)) := by
      rw [List.flatMap_cons, show Piece.rewrapped (.bullet marker first further) = l :: rest from hrewrap,
        List.cons_append, bulletMarkers_cons_of_marks hl, bulletMarkers_append]
    have hadded : bulletMarkers rest = [] ↔ ¬(Piece.bullet marker first further).BreaksAtMark := by
      rw [bulletMarkers_eq_nil_iff, hbreaks]
      simp
    rw [hold, hnew, List.forall_mem_cons, ← hadded, ← hsame, List.cons_inj_right]
    refine ⟨(hsub.trans (List.sublist_append_right _ _)).cons_cons marker, fun h => ?_, ?_⟩
    · -- Nothing is lost behind the bullet, so that nothing can be added to it.
      have hlength := congrArg List.length h
      have hle := hsub.length_le
      rw [List.length_append] at hlength
      have hnone : bulletMarkers rest = [] := List.length_eq_zero_iff.mp (by omega)
      rw [hnone, List.nil_append] at h
      exact ⟨hnone, h⟩
    · rintro ⟨hnone, hsame⟩
      rw [hnone, hsame, List.nil_append]

/-- **Markers.** Where a text comes after every marker, rewrapping loses no marker and changes none, and
it adds none exactly if filling begins no line below the first one of a bullet with a lone mark that
another chunk follows. -/
theorem bulletMarkers_rewrapChanges {ls : List Text}
    (htexts : ∀ l ∈ ls, ∀ marker text, Marks l marker text → isBlankLine text = false) :
    (bulletMarkers ls).Sublist (bulletMarkers (rewrapChanges ls)) ∧
      ∃ ps, FallsInto ls ps ∧
        (bulletMarkers (rewrapChanges ls) = bulletMarkers ls ↔ ∀ p ∈ ps, ¬p.BreaksAtMark) := by
  obtain ⟨ps, hps⟩ := exists_fallsInto ls
  obtain ⟨hsub, hsame⟩ := hps.bulletMarkers_rewrapped htexts
  rw [hps.rewrapChanges_eq]
  exact ⟨hsub, ps, hps, hsame⟩

/-- A bullet of two lines and one below it, both with a line of more than 80 characters. -/
def nestedLines : List Text :=
  ["  * ".toList ++ List.replicate 60 'x' ++ ' ' :: List.replicate 30 'y', "    z".toList,
    "    + ".toList ++ List.replicate 70 'u' ++ ' ' :: List.replicate 10 'v']

/-- Both bullets are filled anew, and no break is at a mark. -/
theorem bulletMarkers_rewrapChanges_nestedLines :
    (∀ l ∈ nestedLines, ∀ marker text, Marks l marker text → isBlankLine text = false) ∧
    rewrapChanges nestedLines =
      ["  * ".toList ++ List.replicate 60 'x', "    ".toList ++ List.replicate 30 'y' ++ " z".toList,
        "    + ".toList ++ List.replicate 70 'u', "      ".toList ++ List.replicate 10 'v'] ∧
    bulletMarkers (rewrapChanges nestedLines) = bulletMarkers nestedLines ∧
    (bulletMarkers nestedLines).Sublist (bulletMarkers (rewrapChanges nestedLines)) ∧
    ∃ ps, FallsInto nestedLines ps ∧ ∀ p ∈ ps, ¬p.BreaksAtMark := by
  have htexts := @isBlankLine_text_of_all nestedLines (by decide +kernel)
  have hsame : bulletMarkers (rewrapChanges nestedLines) = bulletMarkers nestedLines := by decide +kernel
  obtain ⟨hsub, ps, hps, hiff⟩ := bulletMarkers_rewrapChanges htexts
  exact ⟨htexts, by decide +kernel, hsame, hsub, ps, hps, hiff.mp hsame⟩

/-- A bullet with a lone dash where its first line becomes too wide. -/
def dashedLines : List Text :=
  ["  * ".toList ++ List.replicate 60 'x' ++ ' ' :: List.replicate 15 'y' ++ " - z".toList]

/-- The dash comes to the start of the second line, which then reads as a bullet. -/
theorem bulletMarkers_rewrapChanges_dashedLines :
    (∀ l ∈ dashedLines, '\n' ∉ l) ∧
    (∀ l ∈ dashedLines, ∀ marker text, Marks l marker text → isBlankLine text = false) ∧
    rewrapChanges dashedLines =
      ["  * ".toList ++ List.replicate 60 'x' ++ ' ' :: List.replicate 15 'y', "    - z".toList] ∧
    bulletMarkers dashedLines = ["  * ".toList] ∧
    bulletMarkers (rewrapChanges dashedLines) = ["  * ".toList, "    - ".toList] ∧
    bulletMarkers (rewrapChanges dashedLines) ≠ bulletMarkers dashedLines :=
  ⟨by decide +kernel, isBlankLine_text_of_all (by decide +kernel), by decide +kernel, by decide +kernel,
    by decide +kernel, by decide +kernel⟩

end Packaging.Changelog
