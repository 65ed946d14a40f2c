import Packaging.Proofs.Text.Split
import Packaging.Proofs.Text.Trim

/-!
# Words

The words of a text are found again when they are written with one space between them, and white
space divides the words of a text into those before and those after it.
-/

namespace Packaging.Text

/-- A text that is a word: it is not empty and has no white space. -/
structure IsWord (w : Text) : Prop where
  ne_nil : w ≠ []
  noBlank : ∀ c ∈ w, isBlank c = false

/-- The check that a text has no white space. -/
theorem noBlank_iff {t : Text} : (∀ c ∈ t, isBlank c = false) ↔ t.all (!isBlank ·) = true := by simp

@[simp] theorem words_nil : words [] = [] := by simp [words]

/-- White space divides the words of a text. -/
theorem words_append_blank {c : Char} (hc : isBlank c = true) (t u : Text) :
    words (t ++ c :: u) = words t ++ words u := by
  unfold words
  rw [List.splitOnP_append_cons t u hc, List.filter_append]

theorem words_cons_blank {c : Char} (hc : isBlank c = true) (t : Text) :
    words (c :: t) = words t := by
  simpa using words_append_blank hc [] t

theorem words_blanks_append {blanks : Text} (h : ∀ c ∈ blanks, isBlank c = true) (t : Text) :
    words (blanks ++ t) = words t := by
  induction blanks with
  | nil => rfl
  | cons c blanks ih =>
    obtain ⟨hc, hblanks⟩ := List.forall_mem_cons.mp h
    rw [List.cons_append, words_cons_blank hc, ih hblanks]

theorem IsWord.words_eq {w : Text} (h : IsWord w) : words w = [w] := by
  unfold words
  rw [List.splitOnP_eq_singleton fun c hc => by simp [h.noBlank c hc]]
  simp [h.ne_nil]

theorem IsWord.append {v w : Text} (hv : IsWord v) (hw : IsWord w) : IsWord (v ++ w) :=
  ⟨List.append_ne_nil_of_left_ne_nil hv.ne_nil w, List.forall_mem_append.mpr ⟨hv.noBlank, hw.noBlank⟩⟩

/-- A word goes up to the next white space. -/
theorem IsWord.words_append {w rest : Text} (h : IsWord w) (hrest : rest.head?.all isBlank = true) :
    words (w ++ rest) = w :: words rest := by
  cases rest with
  | nil => simp [h.words_eq]
  | cons c rest =>
    have hc : isBlank c = true := by simpa using hrest
    rw [words_append_blank hc, words_cons_blank hc, h.words_eq, List.singleton_append]

/-- A text is white space, or white space before a word and something that is no part of it. -/
theorem exists_word (t : Text) :
    (∀ c ∈ t, isBlank c = true) ∨ ∃ blanks w rest, t = blanks ++ (w ++ rest) ∧
      (∀ c ∈ blanks, isBlank c = true) ∧ IsWord w ∧ rest.head?.all isBlank = true := by
  have hstart : t.takeWhile isBlank ++ t.dropWhile isBlank = t := List.takeWhile_append_dropWhile
  have hhead : (t.dropWhile isBlank).head?.any isBlank = false := head?_dropWhile isBlank t
  have hblanks : ∀ c ∈ t.takeWhile isBlank, isBlank c = true := fun c hc =>
    List.mem_takeWhile_imp hc
  cases hrest : t.dropWhile isBlank with
  | nil =>
    rw [hrest, List.append_nil] at hstart
    exact .inl (hstart ▸ hblanks)
  | cons c u =>
    rw [hrest] at hhead hstart
    have hcut : (c :: u).takeWhile (!isBlank ·) ++ (c :: u).dropWhile (!isBlank ·) = c :: u :=
      List.takeWhile_append_dropWhile
    refine .inr ⟨t.takeWhile isBlank, (c :: u).takeWhile (!isBlank ·),
      (c :: u).dropWhile (!isBlank ·), by rw [hcut, hstart], hblanks, ⟨?_, ?_⟩, ?_⟩
    · have hc : isBlank c = false := by simpa using hhead
      simp [hc]
    · intro d hd
      simpa using List.mem_takeWhile_imp hd
    · have hnot := head?_dropWhile (!isBlank ·) (c :: u)
      cases hafter : (c :: u).dropWhile (!isBlank ·) with
      | nil => rfl
      | cons d v =>
        rw [hafter] at hnot
        simpa using hnot

theorem words_eq_nil_iff {t : Text} : words t = [] ↔ isBlankLine t = true := by
  rw [isBlankLine, List.all_eq_true]
  rcases exists_word t with h | ⟨blanks, w, rest, rfl, hblanks, hw, hrest⟩
  · have hwords := words_blanks_append h []
    rw [List.append_nil, words_nil] at hwords
    exact ⟨fun _ => h, fun _ => hwords⟩
  · rw [words_blanks_append hblanks, hw.words_append hrest]
    obtain ⟨c, w, rfl⟩ := List.exists_cons_of_ne_nil hw.ne_nil
    constructor
    · intro hnil
      exact absurd hnil (List.cons_ne_nil _ _)
    · intro hall
      have hc := hall c (by simp)
      rw [hw.noBlank c List.mem_cons_self] at hc
      cases hc

/-- The first word of a text, with what stands before and after it. -/
theorem words_eq_cons {t w : Text} {ws : List Text} (h : words t = w :: ws) :
    ∃ blanks rest, t = blanks ++ (w ++ rest) ∧ (∀ c ∈ blanks, isBlank c = true) ∧ IsWord w ∧
      rest.head?.all isBlank = true ∧ words rest = ws := by
  rcases exists_word t with hall | ⟨blanks, v, rest, rfl, hblanks, hv, hrest⟩
  · have hnil := words_blanks_append hall []
    rw [List.append_nil, words_nil, h] at hnil
    cases hnil
  · rw [words_blanks_append hblanks, hv.words_append hrest] at h
    cases h
    exact ⟨blanks, rest, rfl, hblanks, hv, hrest, rfl⟩

theorem isWord_of_mem_words {t w : Text} (h : w ∈ words t) : IsWord w := by
  generalize hws : words t = ws at h
  induction ws generalizing t with
  | nil => cases h
  | cons v ws ih =>
    obtain ⟨_, rest, rfl, -, hv, -, hrest⟩ := words_eq_cons hws
    rcases List.mem_cons.mp h with rfl | h
    · exact hv
    · exact ih hrest h

/-- White space at the end of a text divides it from what follows. -/
theorem words_append_of_getLast? {t : Text} (h : t.getLast?.all isBlank = true) (u : Text) :
    words (t ++ u) = words t ++ words u := by
  rcases List.eq_nil_or_concat' t with rfl | ⟨start, c, rfl⟩
  · simp
  · have hc : isBlank c = true := by simpa using h
    rw [List.append_assoc, List.singleton_append, words_append_blank hc, words_append_blank hc,
      words_nil, List.append_nil]

theorem words_of_blank {t : Text} (h : ∀ c ∈ t, isBlank c = true) : words t = [] :=
  words_eq_nil_iff.mpr (List.all_eq_true.mpr h)

theorem words_trimStart (t : Text) : words (trimStart t) = words t := by
  have ht : t.takeWhile isBlank ++ trimStart t = t := List.takeWhile_append_dropWhile
  conv_rhs => rw [← ht, words_blanks_append fun c hc => List.mem_takeWhile_imp hc]

/-- One space between texts divides their words. -/
theorem words_join_space (ts : List Text) : words (join [' '] ts) = ts.flatMap words := by
  induction ts with
  | nil => rfl
  | cons t ts ih =>
    cases ts with
    | nil => rw [join_singleton, List.flatMap_singleton]
    | cons u us =>
      rw [join_cons_cons, List.append_assoc, List.singleton_append, words_append_blank (by decide), ih]
      rfl

theorem flatMap_words {ws : List Text} (h : ∀ w ∈ ws, IsWord w) : ws.flatMap words = ws := by
  rw [List.flatMap_congr fun w hw => (h w hw).words_eq, List.flatMap_singleton']

/-- Words with one space between them are found again. -/
theorem words_join {ws : List Text} (h : ∀ w ∈ ws, IsWord w) : words (join [' '] ws) = ws := by
  rw [words_join_space, flatMap_words h]

/-- Words are on one line. -/
theorem newline_not_mem_join {ws : List Text} (h : ∀ w ∈ ws, IsWord w) : '\n' ∉ join [' '] ws :=
  not_mem_join (by decide) fun w hw hnewline => absurd ((h w hw).noBlank '\n' hnewline) (by decide)

end Packaging.Text
