import Packaging.Changelog.Fill
import Packaging.Proofs.Text.Words

/-!
# Filled lines

Filling cuts the chunks of a text into groups and makes a line of each group. A group is as long as it
can be: it ends where the next chunk would make its line too long. This says all about the lines: there
is no other way to cut the same chunks into such groups.

## What is proved

* `glued_iff` — how words are joined to chunks.
* `Filler.exists_groups` — the lines that are filled are those of greedy groups.
* `Filler.fillChunks_flatten` — greedy groups give the lines that are filled.
* `Filler.fill_eq_iff` — lines are those that a text fills exactly if they are lines of greedy groups.
-/

namespace Packaging.Changelog

open Text

/-! ### Chunks -/

/-- After this word a number is to follow. -/
def Announces (w : Text) : Prop := "Closes:".toList <:+ w ∨ "LP:".toList <:+ w

theorem isAnnouncement_iff {w : Text} : isAnnouncement w = true ↔ Announces w := by
  rw [isAnnouncement, Bool.or_eq_true, endsWith, endsWith, List.isSuffixOf_iff_suffix,
    List.isSuffixOf_iff_suffix, Announces]

/-- The words, read from the first to the last, are the chunks: a word that announces a number is one
chunk with the word after it, and every other word is a chunk. -/
inductive Glued : List Text → List Text → Prop where
  | nil : Glued [] []
  /-- Nothing comes after the last word. -/
  | last (w : Text) : Glued [w] [w]
  | pair {w v : Text} {ws cs : List Text} :
    Announces w → Glued ws cs → Glued (w :: v :: ws) ((w ++ ' ' :: v) :: cs)
  | single {w : Text} {ws cs : List Text} : ¬Announces w → Glued ws cs → Glued (w :: ws) (w :: cs)

theorem glued_glue (ws : List Text) : Glued ws (glue ws) := by
  fun_induction glue ws with
  | case1 => exact .nil
  | case2 w => exact .last w
  | case3 w v ws hannounces ih => exact .pair (isAnnouncement_iff.mp hannounces) ih
  | case4 w v ws hannounces ih => exact .single (fun h => hannounces (isAnnouncement_iff.mpr h)) ih

/-- There is one way to join words to chunks. -/
theorem glued_iff {ws cs : List Text} : Glued ws cs ↔ cs = glue ws := by
  constructor
  · intro h
    induction h with
    | nil => rfl
    | last w => rfl
    | pair hannounces _ ih => rw [glue, if_pos (isAnnouncement_iff.mpr hannounces), ih]
    | @single w ws cs hannounces hws ih =>
      cases ws with
      | nil => rw [ih]; rfl
      | cons v ws => rw [glue, if_neg fun h => hannounces (isAnnouncement_iff.mp h), ih]
  · rintro rfl
    exact glued_glue ws

/-- One of the words, or a word that announces a number and the word after it. -/
def IsChunkOf (ws : List Text) (c : Text) : Prop :=
  c ∈ ws ∨ ∃ w v, [w, v] <:+: ws ∧ Announces w ∧ c = w ++ ' ' :: v

theorem IsChunkOf.mono {ws vs : List Text} {c : Text} (h : IsChunkOf ws c) (hwithin : ws <:+: vs) :
    IsChunkOf vs c := by
  rcases h with hmem | ⟨w, v, hpair, hchunk⟩
  · exact .inl (hwithin.subset hmem)
  · exact .inr ⟨w, v, hpair.trans hwithin, hchunk⟩

theorem Glued.isChunkOf {ws cs : List Text} (h : Glued ws cs) : ∀ c ∈ cs, IsChunkOf ws c := by
  induction h with
  | nil => nofun
  | last w => exact fun c hc => .inl hc
  | @pair w v ws cs hannounces _ ih =>
    refine List.forall_mem_cons.mpr ⟨.inr ⟨w, v, ⟨[], ws, rfl⟩, hannounces, rfl⟩, fun c hc => ?_⟩
    exact (ih c hc).mono ⟨[w, v], [], by simp⟩
  | @single w ws cs _ _ ih =>
    refine List.forall_mem_cons.mpr ⟨.inl List.mem_cons_self, fun c hc => ?_⟩
    exact (ih c hc).mono (List.suffix_cons w ws).isInfix

/-- No chunk has a part of a word only. -/
theorem Glued.exists_chunk {ws cs : List Text} (h : Glued ws cs) {w : Text} (hw : w ∈ ws) :
    ∃ c ∈ cs, w <:+: c := by
  induction h with
  | nil => cases hw
  | last v => exact ⟨w, hw, List.infix_refl w⟩
  | @pair u v ws cs _ _ ih =>
    rcases List.mem_cons.mp hw with rfl | hw
    · exact ⟨_, List.mem_cons_self, (List.prefix_append w _).isInfix⟩
    rcases List.mem_cons.mp hw with rfl | hw
    · exact ⟨_, List.mem_cons_self, ⟨u ++ [' '], [], by simp⟩⟩
    · obtain ⟨c, hc, hwithin⟩ := ih hw
      exact ⟨c, List.mem_cons_of_mem _ hc, hwithin⟩
  | @single u ws cs _ _ ih =>
    rcases List.mem_cons.mp hw with rfl | hw
    · exact ⟨w, List.mem_cons_self, List.infix_refl w⟩
    · obtain ⟨c, hc, hwithin⟩ := ih hw
      exact ⟨c, List.mem_cons_of_mem u hc, hwithin⟩

theorem flatMap_words_glue {ws : List Text} (h : ∀ w ∈ ws, IsWord w) : (glue ws).flatMap words = ws := by
  fun_induction glue ws with
  | case1 => rfl
  | case2 w => exact flatMap_words h
  | case3 w v ws hannounces ih =>
    obtain ⟨hw, hv, hws⟩ : IsWord w ∧ IsWord v ∧ ∀ u ∈ ws, IsWord u := by
      simpa only [List.forall_mem_cons] using h
    rw [List.flatMap_cons, ih hws, words_append_blank (by decide), hw.words_eq, hv.words_eq]
    rfl
  | case4 w v ws hannounces ih =>
    obtain ⟨hw, hws⟩ := List.forall_mem_cons.mp h
    rw [List.flatMap_cons, ih hws, hw.words_eq]
    rfl

/-- The words of a text are those of its chunks. -/
theorem flatMap_words_chunks (t : Text) : (chunks t).flatMap words = words t :=
  flatMap_words_glue fun _ hw => isWord_of_mem_words hw

theorem isChunkOf_of_mem_chunks {c t : Text} (h : c ∈ chunks t) : IsChunkOf (words t) c :=
  (glued_glue (words t)).isChunkOf c h

theorem chunks_ne_nil {t : Text} (h : isBlankLine t = false) : chunks t ≠ [] := by
  intro hnil
  have hwords : words t = [] := by rw [← flatMap_words_chunks, hnil, List.flatMap_nil]
  rw [words_eq_nil_iff.mp hwords] at h
  cases h

theorem isBlankLine_append (t u : Text) : isBlankLine (t ++ u) = (isBlankLine t && isBlankLine u) :=
  List.all_append

theorem isBlankLine_of_isWord {w : Text} (h : IsWord w) : isBlankLine w = false := by
  rw [← Bool.not_eq_true, ← words_eq_nil_iff, h.words_eq]
  exact List.cons_ne_nil _ _

theorem isBlankLine_of_mem_chunks {c t : Text} (h : c ∈ chunks t) : isBlankLine c = false := by
  rcases isChunkOf_of_mem_chunks h with hw | ⟨w, v, hwithin, -, rfl⟩
  · exact isBlankLine_of_isWord (isWord_of_mem_words hw)
  · have hw : IsWord w := isWord_of_mem_words (hwithin.subset List.mem_cons_self)
    rw [isBlankLine_append, isBlankLine_of_isWord hw, Bool.false_and]

theorem isLine_of_isWord {w : Text} (h : IsWord w) : IsLine w :=
  ⟨fun hmem => absurd (h.noBlank _ hmem) (by decide),
    fun hlast => absurd (h.noBlank _ (List.mem_of_getLast? hlast)) (by decide)⟩

theorem isLine_of_mem_chunks {t : Text} : ∀ c ∈ chunks t, IsLine c ∧ c ≠ [] := by
  have hword : ∀ w ∈ words t, IsLine w ∧ w ≠ [] := fun w hw =>
    ⟨isLine_of_isWord (isWord_of_mem_words hw), (isWord_of_mem_words hw).ne_nil⟩
  intro c hc
  rcases isChunkOf_of_mem_chunks hc with hmem | ⟨w, v, hwithin, -, rfl⟩
  · exact hword c hmem
  · obtain ⟨hw, -⟩ := hword w (hwithin.subset (by simp))
    obtain ⟨hv, hvne⟩ := hword v (hwithin.subset (by simp))
    have hspace : IsLine (' ' :: v) := (@isLine_append [' '] v hvne).mpr ⟨by decide, hv⟩
    exact ⟨(isLine_append (by simp)).mpr ⟨hw.noNewline, hspace⟩, by simp⟩

/-- Texts with a space between them end as the last of them does. -/
theorem isLine_join_space {ts : List Text} (h : ∀ t ∈ ts, IsLine t ∧ t ≠ []) (hne : ts ≠ []) :
    IsLine (join [' '] ts) ∧ join [' '] ts ≠ [] := by
  induction ts with
  | nil => exact absurd rfl hne
  | cons t ts ih =>
    obtain ⟨ht, hts⟩ := List.forall_mem_cons.mp h
    cases ts with
    | nil => rwa [join_singleton]
    | cons u us =>
      obtain ⟨hrest, hrestne⟩ := ih hts (List.cons_ne_nil u us)
      have hspace : IsLine (' ' :: join [' '] (u :: us)) :=
        (@isLine_append [' '] _ hrestne).mpr ⟨by decide, hrest⟩
      rw [join_cons_cons, List.append_assoc, List.singleton_append]
      exact ⟨(isLine_append (by simp)).mpr ⟨ht.1.noNewline, hspace⟩, by simp⟩

namespace Filler

variable {f : Filler} {g : List Text} {gs groups : List (List Text)}

/-! ### Lines of groups -/

/-- What the line at an index begins with. -/
def indentAt (f : Filler) : Nat → Text
  | 0 => f.first
  | _ + 1 => f.further

/-- The line at an index that a group of chunks makes. -/
def lineAt (f : Filler) (i : Nat) (group : List Text) : Text := f.indentAt i ++ join [' '] group

/-- The lines that groups of chunks make. -/
def layOut (f : Filler) (groups : List (List Text)) : List Text := groups.mapIdx f.lineAt

/-- Every group has as many chunks as its line can take: a line of more than one chunk keeps to the
width, and with the first chunk of the next line it would not. -/
structure IsGreedy (f : Filler) (groups : List (List Text)) : Prop where
  ne_nil : ∀ g ∈ groups, g ≠ []
  fits : ∀ i g, groups[i]? = some g → 1 < g.length → (f.lineAt i g).length ≤ f.width
  full : ∀ i g c cs, groups[i]? = some g → groups[i + 1]? = some (c :: cs) →
    f.width < (f.lineAt i g).length + 1 + c.length

/-- The filler for the lines after the first one. -/
def continued (f : Filler) : Filler := { f with first := f.further }

theorem lineAt_succ (f : Filler) (i : Nat) : f.lineAt (i + 1) = f.continued.lineAt i := by
  funext g
  cases i <;> rfl

theorem layOut_cons (f : Filler) (g : List Text) (gs : List (List Text)) :
    f.layOut (g :: gs) = (f.first ++ join [' '] g) :: f.continued.layOut gs := by
  rw [layOut, List.mapIdx_cons]
  simp only [lineAt_succ]
  rfl

theorem isGreedy_nil (f : Filler) : f.IsGreedy [] := ⟨nofun, nofun, nofun⟩

theorem isGreedy_cons_iff : f.IsGreedy (g :: gs) ↔
    g ≠ [] ∧ (1 < g.length → (f.first ++ join [' '] g).length ≤ f.width) ∧
      (∀ c cs, gs.head? = some (c :: cs) →
        f.width < (f.first ++ join [' '] g).length + 1 + c.length) ∧
      f.continued.IsGreedy gs := by
  constructor
  · rintro ⟨hne, hfits, hfull⟩
    refine ⟨hne g List.mem_cons_self, hfits 0 g rfl, fun c cs hgs => hfull 0 g c cs rfl ?_,
      fun g' hg' => hne g' (List.mem_cons_of_mem g hg'), fun i g' hg' => ?_, fun i g' c cs hg' => ?_⟩
    · rw [List.getElem?_cons_succ, ← List.head?_eq_getElem?]
      exact hgs
    · rw [← lineAt_succ]
      exact hfits (i + 1) g' hg'
    · rw [← lineAt_succ]
      exact hfull (i + 1) g' c cs hg'
  · rintro ⟨hne, hfits, hfull, hgs⟩
    refine ⟨List.forall_mem_cons.mpr ⟨hne, hgs.ne_nil⟩, fun i g' hg' => ?_, fun i g' c cs hg' hnext => ?_⟩
    · cases i with
      | zero =>
        cases hg'
        exact hfits
      | succ i =>
        rw [lineAt_succ]
        exact hgs.fits i g' hg'
    · cases i with
      | zero =>
        cases hg'
        rw [List.getElem?_cons_succ, ← List.head?_eq_getElem?] at hnext
        exact hfull c cs hnext
      | succ i =>
        rw [lineAt_succ]
        exact hgs.full i g' c cs hg' hnext

/-! ### Filled lines are greedy -/

/-- A chunk more on the first line. -/
theorem first_append_chunk (hg : g ≠ []) (c : Text) :
    f.first ++ join [' '] g ++ ' ' :: c = f.first ++ join [' '] (g ++ [c]) := by
  rw [join_concat hg]
  simp

theorem fillFrom_continued (f : Filler) (line : Text) (cs : List Text) :
    f.continued.fillFrom line cs = f.fillFrom line cs := by
  induction cs generalizing line with
  | nil => rfl
  | cons c cs ih =>
    unfold fillFrom
    rw [ih, ih]
    rfl

/-- The line that is being filled holds the group `g`, to which chunks may be added. -/
theorem exists_groups_from (cs : List Text) (hg : g ≠ [])
    (hfits : 1 < g.length → (f.first ++ join [' '] g).length ≤ f.width) :
    ∃ more gs, f.fillFrom (f.first ++ join [' '] g) cs = f.layOut ((g ++ more) :: gs) ∧
      more ++ gs.flatten = cs ∧ f.IsGreedy ((g ++ more) :: gs) := by
  induction cs generalizing f g with
  | nil =>
    refine ⟨[], [], ?_, rfl, isGreedy_cons_iff.mpr ?_⟩
    · rw [List.append_nil, layOut_cons]
      rfl
    · rw [List.append_nil]
      exact ⟨hg, hfits, nofun, isGreedy_nil _⟩
  | cons c cs ih =>
    unfold fillFrom
    split
    · -- The chunk fits, and the open group takes it.
      rename_i hwidth
      have hline := first_append_chunk (f := f) hg c
      have hlonger : (f.first ++ join [' '] (g ++ [c])).length ≤ f.width := by
        rw [← hline, List.length_append, List.length_cons]
        omega
      obtain ⟨more, gs, hfill, hflat, hgreedy⟩ := ih (g := g ++ [c]) (by simp) fun _ => hlonger
      rw [List.append_assoc] at hfill hgreedy
      exact ⟨[c] ++ more, gs, by rw [hline, hfill], by rw [List.append_assoc, hflat]; rfl, hgreedy⟩
    · -- It does not, and opens the group of the next line.
      rename_i hwidth
      obtain ⟨more, gs, hfill, hflat, hgreedy⟩ := ih (f := f.continued) (g := [c]) (by simp) (by simp)
      rw [join_singleton, fillFrom_continued] at hfill
      refine ⟨[], ([c] ++ more) :: gs, ?_, ?_, isGreedy_cons_iff.mpr ?_⟩
      · rw [List.append_nil, layOut_cons, ← hfill]
        rfl
      · rw [List.nil_append, List.flatten_cons, List.append_assoc, hflat]
        rfl
      · rw [List.append_nil]
        refine ⟨hg, hfits, ?_, hgreedy⟩
        intro c' cs' hnext
        cases hnext
        omega

/-- The lines that chunks fill are those of greedy groups. -/
theorem exists_groups (f : Filler) (cs : List Text) :
    ∃ groups, f.fillChunks cs = f.layOut groups ∧ groups.flatten = cs ∧ f.IsGreedy groups := by
  cases cs with
  | nil => exact ⟨[], rfl, rfl, isGreedy_nil f⟩
  | cons c cs =>
    obtain ⟨more, gs, hfill, hflat, hgreedy⟩ := exists_groups_from (f := f) (g := [c]) cs (by simp) (by simp)
    rw [join_singleton] at hfill
    refine ⟨([c] ++ more) :: gs, hfill, ?_, hgreedy⟩
    rw [List.flatten_cons, List.append_assoc, hflat]
    rfl

/-! ### Greedy lines are filled -/

/-- Chunks that keep a line to its width go to this line. -/
theorem fillFrom_append (f : Filler) (more : List Text) (hg : g ≠ []) (cs : List Text)
    (hfits : more ≠ [] → (f.first ++ join [' '] (g ++ more)).length ≤ f.width) :
    f.fillFrom (f.first ++ join [' '] g) (more ++ cs) =
      f.fillFrom (f.first ++ join [' '] (g ++ more)) cs := by
  induction more generalizing g with
  | nil => rw [List.append_nil, List.nil_append]
  | cons c more ih =>
    have hassoc : g ++ c :: more = g ++ [c] ++ more := by simp
    have hline := first_append_chunk (f := f) hg c
    have hlength : (f.first ++ join [' '] g).length + 1 + c.length ≤ f.width := by
      have hall := hfits (List.cons_ne_nil c more)
      have hpart : (f.first ++ join [' '] (g ++ [c])).length ≤
          (f.first ++ join [' '] (g ++ c :: more)).length := by
        rw [hassoc]
        cases more with
        | nil => simp
        | cons d more =>
          rw [join_append (by simp) (List.cons_ne_nil d more)]
          simp only [List.length_append]
          omega
      rw [← hline, List.length_append, List.length_cons] at hpart
      omega
    rw [List.cons_append, fillFrom, if_pos hlength, hline, hassoc]
    exact ih (by simp) fun _ => hassoc ▸ hfits (List.cons_ne_nil c more)

/-- Greedy groups give the lines that their chunks fill. -/
theorem fillChunks_flatten (h : f.IsGreedy groups) : f.fillChunks groups.flatten = f.layOut groups := by
  induction groups generalizing f with
  | nil => rfl
  | cons g gs ih =>
    obtain ⟨hne, hfits, hfull, hgs⟩ := isGreedy_cons_iff.mp h
    obtain ⟨c, more, rfl⟩ := List.exists_cons_of_ne_nil hne
    have hfirst : f.fillChunks ((c :: more) :: gs).flatten =
        f.fillFrom (f.first ++ join [' '] (c :: more)) gs.flatten := by
      have happend := fillFrom_append f more (List.cons_ne_nil c []) gs.flatten
        fun hmore => hfits (by simpa using List.length_pos_iff.mpr hmore)
      rw [join_singleton] at happend
      exact happend
    rw [hfirst, layOut_cons, ← ih hgs]
    cases gs with
    | nil => rfl
    | cons g' gs =>
      obtain ⟨d, rest, rfl⟩ := List.exists_cons_of_ne_nil (isGreedy_cons_iff.mp hgs).1
      have hwidth := hfull d rest rfl
      rw [List.flatten_cons, List.cons_append, fillFrom, if_neg (by omega), fillChunks,
        fillFrom_continued]
      rfl

/-! ### The lines of a text -/

theorem mem_layOut_iff {line : Text} :
    line ∈ f.layOut groups ↔ ∃ i g, groups[i]? = some g ∧ f.lineAt i g = line := by
  rw [layOut, List.mem_iff_getElem?]
  simp only [List.getElem?_mapIdx, Option.map_eq_some_iff]

theorem indentAt_cases (f : Filler) (i : Nat) : f.indentAt i = f.first ∨ f.indentAt i = f.further := by
  cases i with
  | zero => exact .inl rfl
  | succ i => exact .inr rfl

/-- A line that is filled is an indent and chunks, and one that is too wide has one chunk only. -/
theorem exists_of_mem_fill {line t : Text} (h : line ∈ f.fill t) :
    ∃ indent c cs, (indent = f.first ∨ indent = f.further) ∧ (∀ d ∈ c :: cs, d ∈ chunks t) ∧
      line = indent ++ join [' '] (c :: cs) ∧ (f.width < line.length → cs = []) := by
  obtain ⟨groups, hfill, hflat, hgreedy⟩ := f.exists_groups (chunks t)
  rw [fill, hfill] at h
  obtain ⟨i, g, hi, rfl⟩ := mem_layOut_iff.mp h
  have hg : g ∈ groups := List.mem_of_getElem? hi
  obtain ⟨c, cs, rfl⟩ := List.exists_cons_of_ne_nil (hgreedy.ne_nil g hg)
  refine ⟨f.indentAt i, c, cs, f.indentAt_cases i, fun d hd => ?_, rfl, fun hwide => ?_⟩
  · rw [← hflat]
    exact List.mem_flatten.mpr ⟨_, hg, hd⟩
  · by_contra hne
    have hlength : 1 < (c :: cs).length := Nat.succ_lt_succ (List.length_pos_iff.mpr hne)
    have hfits := hgreedy.fits i _ hi hlength
    omega

/-- The first line begins with the first indent. -/
theorem exists_fill_eq_cons {t : Text} (ht : isBlankLine t = false) :
    ∃ c ∈ chunks t, ∃ more lines, f.fill t = (f.first ++ (c ++ more)) :: lines ∧
      ∀ line ∈ lines, ∃ d ∈ chunks t, ∃ more, line = f.further ++ (d ++ more) := by
  obtain ⟨groups, hfill, hflat, hgreedy⟩ := f.exists_groups (chunks t)
  cases groups with
  | nil => exact absurd hflat.symm (chunks_ne_nil ht)
  | cons g gs =>
    have hbegins : ∀ g' ∈ g :: gs, ∃ c ∈ chunks t, ∃ more, join [' '] g' = c ++ more := by
      intro g' hg'
      obtain ⟨c, cs, rfl⟩ := List.exists_cons_of_ne_nil (hgreedy.ne_nil g' hg')
      obtain ⟨more, hmore⟩ := prefix_join_cons [' '] c cs
      refine ⟨c, ?_, more, hmore.symm⟩
      rw [← hflat]
      exact List.mem_flatten.mpr ⟨_, hg', List.mem_cons_self⟩
    obtain ⟨c, hc, more, hmore⟩ := hbegins g List.mem_cons_self
    refine ⟨c, hc, more, f.continued.layOut gs, by rw [fill, hfill, layOut_cons, hmore], ?_⟩
    intro line hline
    obtain ⟨i, g', hi, rfl⟩ := mem_layOut_iff.mp hline
    obtain ⟨d, hd, rest, hrest⟩ := hbegins g' (List.mem_cons_of_mem g (List.mem_of_getElem? hi))
    refine ⟨d, hd, rest, ?_⟩
    rw [← hrest, lineAt]
    rcases f.continued.indentAt_cases i with hindent | hindent <;> rw [hindent] <;> rfl

/-- **Greedy filling.** Lines are those that a text fills exactly if they are its chunks in order, cut
into groups of which each one takes as many chunks as fit. So every chunk stands whole on one of the
lines, and with it every word and every two words that belong together. -/
theorem fill_eq_iff (f : Filler) (t : Text) (lines : List Text) :
    (f.fill t = lines ↔ ∃ cs groups, Glued (words t) cs ∧ groups.flatten = cs ∧ f.IsGreedy groups ∧
      lines = f.layOut groups) ∧
    (∀ cs, Glued (words t) cs → ∀ c ∈ cs, ∃ line ∈ f.fill t, c <:+: line) ∧
    ∀ w ∈ words t, ∃ line ∈ f.fill t, w <:+: line := by
  have hwhole : ∀ c ∈ chunks t, ∃ line ∈ f.fill t, c <:+: line := by
    obtain ⟨groups, hfill, hflat, -⟩ := f.exists_groups (chunks t)
    intro c hc
    rw [← hflat] at hc
    obtain ⟨g, hg, hc⟩ := List.mem_flatten.mp hc
    obtain ⟨i, hi⟩ := List.mem_iff_getElem?.mp hg
    rw [fill, hfill]
    exact ⟨f.lineAt i g, mem_layOut_iff.mpr ⟨i, g, hi, rfl⟩,
      (infix_join hc).trans (List.suffix_append _ _).isInfix⟩
  refine ⟨⟨?_, ?_⟩, ?_, ?_⟩
  · rintro rfl
    obtain ⟨groups, hfill, hflat, hgreedy⟩ := f.exists_groups (chunks t)
    exact ⟨chunks t, groups, glued_glue (words t), hflat, hgreedy, hfill⟩
  · rintro ⟨cs, groups, hglued, rfl, hgreedy, rfl⟩
    rw [fill, chunks, ← glued_iff.mp hglued]
    exact fillChunks_flatten hgreedy
  · intro cs hglued c hc
    rw [glued_iff.mp hglued] at hc
    exact hwhole c hc
  · intro w hw
    obtain ⟨c, hc, hword⟩ := (glued_glue (words t)).exists_chunk hw
    obtain ⟨line, hline, hchunk⟩ := hwhole c hc
    exact ⟨line, hline, hword.trans hchunk⟩

end Filler

end Packaging.Changelog
