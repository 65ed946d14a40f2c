import Mathlib.Data.List.Basic
import Packaging.Text.Line

/-!
# Cutting texts and joining them

Every way of cutting a text apart is undone by writing its pieces one after the other again. Joining
with a separator is undone by splitting at it, as long as no piece contains it.
-/

namespace Packaging.Text

/-! ### Leading and trailing pieces -/

theorem dropStart?_eq_some_iff {start t rest : Text} :
    dropStart? start t = some rest ↔ t = start ++ rest := by
  induction start generalizing t with
  | nil => simp [dropStart?]
  | cons a start ih =>
    cases t with
    | nil => simp [dropStart?]
    | cons c t =>
      by_cases h : a = c
      · simp [dropStart?, h, ih]
      · simp [dropStart?, h, Ne.symm h]

@[simp] theorem dropStart?_append (start rest : Text) :
    dropStart? start (start ++ rest) = some rest := dropStart?_eq_some_iff.mpr rfl

theorem dropEnd?_eq_some_iff {tail t body : Text} :
    dropEnd? tail t = some body ↔ t = body ++ tail := by
  unfold dropEnd?
  rw [Option.map_eq_some_iff]
  constructor
  · rintro ⟨r, hr, rfl⟩
    rw [dropStart?_eq_some_iff, List.reverse_eq_iff] at hr
    simpa using hr
  · rintro rfl
    exact ⟨body.reverse, by rw [List.reverse_append, dropStart?_append], by simp⟩

theorem dropEnd?_singleton_eq_none_iff {c : Char} {t : Text} :
    dropEnd? [c] t = none ↔ t.getLast? ≠ some c := by
  rw [Ne, List.getLast?_eq_some_iff, Option.eq_none_iff_forall_ne_some]
  simp [dropEnd?_eq_some_iff]

theorem occursIn_iff {piece t : Text} : occursIn piece t = true ↔ piece <:+: t := by
  induction t with
  | nil => simp [occursIn]
  | cons c t ih =>
    rw [occursIn, Bool.or_eq_true, ih, startsWith, List.isPrefixOf_iff_prefix, List.infix_cons_iff]

/-! ### At the first separator -/

theorem cut?_eq_some_iff {sep : Char} {t before after : Text} :
    cut? sep t = some (before, after) ↔ sep ∉ before ∧ t = before ++ sep :: after := by
  induction t generalizing before with
  | nil => simp [cut?]
  | cons c t ih =>
    by_cases h : c = sep
    · subst h
      cases before with
      | nil => simp [cut?]
      | cons a before => simpa [cut?] using fun hmem _ e => absurd e hmem
    · cases before with
      | nil => simp [cut?, h]
      | cons a before =>
        simp only [cut?, h, if_false, Option.map_eq_some_iff, Prod.exists, Prod.mk.injEq,
          List.cons.injEq, List.cons_append, List.mem_cons, not_or]
        constructor
        · rintro ⟨b, a', hcut, ⟨rfl, rfl⟩, rfl⟩
          obtain ⟨hmem, rfl⟩ := ih.mp hcut
          exact ⟨⟨Ne.symm h, hmem⟩, rfl, rfl⟩
        · rintro ⟨⟨-, hmem⟩, rfl, rfl⟩
          exact ⟨before, after, ih.mpr ⟨hmem, rfl⟩, ⟨rfl, rfl⟩, rfl⟩

theorem exists_cut? {sep : Char} {t : Text} (h : sep ∈ t) :
    ∃ before after, cut? sep t = some (before, after) := by
  induction t with
  | nil => cases h
  | cons c t ih =>
    by_cases hc : c = sep
    · exact ⟨[], t, by simp [cut?, hc]⟩
    · have hmem : sep ∈ t := (List.mem_cons.mp h).resolve_left (Ne.symm hc)
      obtain ⟨before, after, hcut⟩ := ih hmem
      exact ⟨c :: before, after, by simp [cut?, hc, hcut]⟩

theorem cut?_eq_none_iff {sep : Char} {t : Text} : cut? sep t = none ↔ sep ∉ t := by
  constructor
  · intro h hmem
    obtain ⟨before, after, hsome⟩ := exists_cut? hmem
    rw [h] at hsome
    cases hsome
  · intro h
    rw [Option.eq_none_iff_forall_ne_some]
    rintro ⟨before, after⟩ hsome
    obtain ⟨-, rfl⟩ := cut?_eq_some_iff.mp hsome
    exact h (List.mem_append_right before List.mem_cons_self)

/-! ### At the last separator -/

theorem cutLast?_eq_none_iff {sep : Char} {t : Text} : cutLast? sep t = none ↔ sep ∉ t := by
  induction t with
  | nil => simp [cutLast?]
  | cons c t ih =>
    rw [List.mem_cons, not_or, ← ih, cutLast?]
    cases cutLast? sep t <;> simp [eq_comm]

theorem cutLast?_append {sep : Char} {after : Text} (h : sep ∉ after) (before : Text) :
    cutLast? sep (before ++ sep :: after) = some (before, after) := by
  induction before with
  | nil => simp [cutLast?, cutLast?_eq_none_iff.mpr h]
  | cons c before ih => simp [cutLast?, ih]

theorem cutLast?_eq_some_iff {sep : Char} {t before after : Text} :
    cutLast? sep t = some (before, after) ↔ sep ∉ after ∧ t = before ++ sep :: after := by
  constructor
  · intro h
    induction t generalizing before with
    | nil => simp [cutLast?] at h
    | cons c t ih =>
      unfold cutLast? at h
      split at h
      · rename_i a b hab
        cases h
        obtain ⟨hafter, ht⟩ := ih hab
        exact ⟨hafter, by simp [ht]⟩
      · rename_i hnone
        split at h
        · rename_i hc
          cases h
          exact ⟨cutLast?_eq_none_iff.mp hnone, by simp [hc]⟩
        · cases h
  · rintro ⟨hafter, rfl⟩
    exact cutLast?_append hafter before

theorem mem_cutsAt_iff {sep t before after : Text} (hsep : sep ≠ []) :
    (before, after) ∈ cutsAt sep t ↔ t = before ++ sep ++ after := by
  induction t generalizing before with
  | nil => simp [cutsAt, hsep]
  | cons c t ih =>
    simp only [cutsAt, List.mem_append, List.mem_map, Prod.exists, Prod.mk.injEq, Option.mem_toList,
      Option.map_eq_some_iff, dropStart?_eq_some_iff]
    cases before with
    | nil => simp
    | cons b before =>
      have hmem : (∃ a r, (a, r) ∈ cutsAt sep t ∧ c :: a = b :: before ∧ r = after) ↔
          c = b ∧ (before, after) ∈ cutsAt sep t := by
        constructor
        · rintro ⟨a, r, h, heq, rfl⟩
          cases heq
          exact ⟨rfl, h⟩
        · rintro ⟨rfl, h⟩
          exact ⟨before, after, h, rfl, rfl⟩
      rw [hmem, ih]
      simp

/-- The last place comes first. -/
theorem pairwise_cutsAt (sep t : Text) :
    (cutsAt sep t).Pairwise fun x y => y.1.length < x.1.length := by
  induction t with
  | nil => exact .nil
  | cons c t ih =>
    rw [cutsAt, List.pairwise_append, List.pairwise_map]
    refine ⟨ih.imp fun h => by simpa using h, ?_, ?_⟩
    · cases dropStart? sep (c :: t) <;> simp
    · intro x hx y hy
      obtain ⟨z, -, rfl⟩ := List.mem_map.mp hx
      rw [Option.mem_toList, Option.map_eq_some_iff] at hy
      obtain ⟨rest, -, rfl⟩ := hy
      simp

/-- The places before one in the list are those behind it in the text. -/
theorem mem_of_length_lt {sep t : Text} {p x : Text × Text} {later sooner : List (Text × Text)}
    (hcuts : cutsAt sep t = later ++ p :: sooner) :
    x ∈ later ↔ x ∈ cutsAt sep t ∧ p.1.length < x.1.length := by
  have hsorted := pairwise_cutsAt sep t
  rw [hcuts, List.pairwise_append, List.pairwise_cons] at hsorted
  obtain ⟨-, ⟨hsooner, -⟩, hlater⟩ := hsorted
  rw [hcuts, List.mem_append, List.mem_cons]
  constructor
  · exact fun hx => ⟨.inl hx, hlater x hx p List.mem_cons_self⟩
  · rintro ⟨hx | rfl | hx, hlt⟩
    · exact hx
    · omega
    · have := hsooner x hx
      omega

/-- What is found first among the places of a separator is found at a place behind which it is found
nowhere. -/
theorem findSome?_cutsAt_eq_some_iff {α : Type} {sep t : Text} {f : Text × Text → Option α} {a : α}
    (hsep : sep ≠ []) :
    (cutsAt sep t).findSome? f = some a ↔
      ∃ before after, t = before ++ sep ++ after ∧ f (before, after) = some a ∧
        ∀ m after', m ≠ [] → sep ++ after = m ++ sep ++ after' → f (before ++ m, after') = none := by
  rw [List.findSome?_eq_some_iff]
  constructor
  · rintro ⟨later, ⟨before, after⟩, sooner, hcuts, hf, hlater⟩
    have ht : t = before ++ sep ++ after := (mem_cutsAt_iff hsep).mp (by simp [hcuts])
    refine ⟨before, after, ht, hf, fun m after' hm hafter => hlater _ ?_⟩
    rw [mem_of_length_lt hcuts, mem_cutsAt_iff hsep, ht, List.append_assoc, hafter]
    simpa using List.length_pos_iff.mpr hm
  · rintro ⟨before, after, ht, hf, hlater⟩
    obtain ⟨later, sooner, hcuts⟩ := List.append_of_mem ((mem_cutsAt_iff hsep).mpr ht)
    refine ⟨later, (before, after), sooner, hcuts, hf, ?_⟩
    rintro ⟨before', after'⟩ hx
    obtain ⟨hmem, hlength⟩ := (mem_of_length_lt hcuts).mp hx
    rw [mem_cutsAt_iff hsep, ht, List.append_assoc, List.append_assoc] at hmem
    rcases List.append_eq_append_iff.mp hmem with ⟨m, rfl, hafter⟩ | ⟨m, rfl, -⟩
    · refine hlater m after' ?_ (by simpa using hafter)
      rintro rfl
      simp at hlength
    · simp only [List.length_append] at hlength
      omega

/-- A text without the separator stands on one side of it. -/
theorem append_eq_append_cons {sep : Char} {piece u v before after : Text} (hsep : sep ∉ piece)
    (h : u ++ (piece ++ v) = before ++ sep :: after) :
    (∃ v', before = u ++ (piece ++ v') ∧ v = v' ++ sep :: after) ∨
      ∃ u', u = before ++ sep :: u' ∧ after = u' ++ (piece ++ v) := by
  rcases List.append_eq_append_iff.mp h with ⟨m, rfl, hm⟩ | ⟨m, rfl, hm⟩
  · rcases List.append_eq_append_iff.mp hm with ⟨v', rfl, rfl⟩ | ⟨m', rfl, hm'⟩
    · exact .inl ⟨v', rfl, rfl⟩
    · cases m' with
      | nil => exact .inl ⟨[], by simp, by simpa using hm'.symm⟩
      | cons c m' =>
        obtain ⟨rfl, -⟩ := List.cons.inj hm'
        simp at hsep
  · cases m with
    | nil =>
      cases piece with
      | nil => exact .inl ⟨[], by simp, by simpa using hm.symm⟩
      | cons c piece =>
        obtain ⟨rfl, -⟩ := List.cons.inj hm
        simp at hsep
    | cons c m =>
      obtain ⟨rfl, rfl⟩ := List.cons.inj hm
      exact .inr ⟨m, rfl, rfl⟩

/-! ### At every separator -/

theorem join_singleton (sep t : Text) : join sep [t] = t := List.intercalate_singleton

theorem join_cons_cons (sep t u : Text) (us : List Text) :
    join sep (t :: u :: us) = t ++ sep ++ join sep (u :: us) := List.intercalate_cons_cons

theorem join_append {sep : Text} {ts us : List Text} (ht : ts ≠ []) (hu : us ≠ []) :
    join sep (ts ++ us) = join sep ts ++ sep ++ join sep us := by
  obtain ⟨u, us, rfl⟩ := List.exists_cons_of_ne_nil hu
  induction ts with
  | nil => exact absurd rfl ht
  | cons t ts ih =>
    cases ts with
    | nil => simp [join]
    | cons t' ts =>
      rw [List.cons_append, List.cons_append, join_cons_cons, join_cons_cons, ← List.cons_append,
        ih (by simp)]
      simp

/-- What is joined ends as its last part does. -/
theorem join_concat {ts : List Text} (h : ts ≠ []) (sep t : Text) :
    join sep (ts ++ [t]) = join sep ts ++ sep ++ t := by
  rw [join_append h (List.cons_ne_nil t []), join_singleton]

theorem prefix_join_cons (sep t : Text) (ts : List Text) : t <+: join sep (t :: ts) := by
  cases ts with
  | nil => exact ⟨[], by rw [List.append_nil, join_singleton]⟩
  | cons u ts =>
    rw [join_cons_cons, List.append_assoc]
    exact List.prefix_append t _

/-- A text that is joined with others stands whole in the result. -/
theorem infix_join {sep t : Text} {ts : List Text} (h : t ∈ ts) : t <:+: join sep ts := by
  obtain ⟨before, after, rfl⟩ := List.append_of_mem h
  have hstart := prefix_join_cons sep t after
  cases before with
  | nil => exact hstart.isInfix
  | cons u before =>
    rw [join_append (List.cons_ne_nil u before) (List.cons_ne_nil t after)]
    exact hstart.isInfix.trans (List.suffix_append _ _).isInfix

theorem getLast?_join {sep last : Text} {ts : List Text} (h : ts.getLast? = some last) (hne : last ≠ []) :
    (join sep ts).getLast? = last.getLast? := by
  obtain ⟨init, rfl⟩ := List.getLast?_eq_some_iff.mp h
  cases init with
  | nil => rw [List.nil_append, join_singleton]
  | cons t init => rw [join_append (by simp) (by simp), join_singleton, List.getLast?_append_of_ne_nil _ hne]

theorem mem_join {sep t : Text} {ts : List Text} (ht : t ∈ ts) {c : Char} (hc : c ∈ t) :
    c ∈ join sep ts := by
  induction ts with
  | nil => simp at ht
  | cons u ts ih =>
    rcases List.mem_cons.mp ht with rfl | ht
    · cases ts with
      | nil => simpa [join] using hc
      | cons v ts => simp [join_cons_cons, hc]
    · obtain ⟨v, ts, rfl⟩ := List.exists_cons_of_ne_nil (List.ne_nil_of_mem ht)
      rw [join_cons_cons]
      exact List.mem_append_right _ (ih ht)

/-- What is joined has no other characters than its parts and the separator. -/
theorem not_mem_join {sep : Text} {ts : List Text} {c : Char} (hsep : c ∉ sep) (h : ∀ t ∈ ts, c ∉ t) :
    c ∉ join sep ts := by
  induction ts with
  | nil => simp [join]
  | cons t ts ih =>
    obtain ⟨ht, hts⟩ := List.forall_mem_cons.mp h
    cases ts with
    | nil => rwa [join_singleton]
    | cons u ts =>
      rw [join_cons_cons]
      simp [ht, hsep, ih hts]

theorem join_splitOn (sep : Char) (t : Text) : join [sep] (t.splitOn sep) = t :=
  List.intercalate_splitOn sep

theorem splitOn_join {sep : Char} {ts : List Text} (h : ∀ t ∈ ts, sep ∉ t) (hne : ts ≠ []) :
    (join [sep] ts).splitOn sep = ts := List.splitOn_intercalate sep h hne

/-- No piece contains the separator. -/
theorem not_mem_of_mem_splitOn {sep : Char} {t piece : Text} (h : piece ∈ t.splitOn sep) :
    sep ∉ piece := by
  induction t generalizing piece with
  | nil => simp at h; simp [h]
  | cons c t ih =>
    rw [List.splitOn_cons_eq_if_modifyHead] at h
    split at h
    · rcases List.mem_cons.mp h with rfl | h
      · simp
      · exact ih h
    · rename_i hc
      obtain ⟨first, more, hsplit⟩ := List.exists_cons_of_ne_nil (List.splitOn_ne_nil sep t)
      rw [hsplit] at h ih
      rcases List.mem_cons.mp h with rfl | h
      · simpa [Ne.symm (by simpa using hc : c ≠ sep)] using ih List.mem_cons_self
      · exact ih (List.mem_cons_of_mem _ h)

theorem mem_of_mem_splitOn {sep : Char} {t piece : Text} (h : piece ∈ t.splitOn sep) {c : Char}
    (hc : c ∈ piece) : c ∈ t := by
  rw [← join_splitOn sep t]
  exact mem_join h hc

/-- The pieces that a list is split into have its elements. -/
theorem mem_of_mem_splitOnP {α : Type} {p : α → Bool} {as piece : List α} (h : piece ∈ as.splitOnP p)
    {a : α} (ha : a ∈ piece) : a ∈ as := by
  induction as generalizing piece with
  | nil =>
    rw [List.splitOnP_nil, List.mem_singleton] at h
    rwa [h] at ha
  | cons b as ih =>
    rw [List.splitOnP_cons_eq_if_modifyHead] at h
    split at h
    · rcases List.mem_cons.mp h with rfl | h
      · cases ha
      · exact List.mem_cons_of_mem b (ih h ha)
    · obtain ⟨first, more, hsplit⟩ := List.exists_cons_of_ne_nil (List.splitOnP_ne_nil p as)
      rw [hsplit] at h ih
      rcases List.mem_cons.mp h with rfl | h
      · rcases List.mem_cons.mp ha with rfl | ha
        · exact List.mem_cons_self
        · exact List.mem_cons_of_mem b (ih List.mem_cons_self ha)
      · exact List.mem_cons_of_mem b (ih (List.mem_cons_of_mem _ h) ha)

/-- Lines that end with a newline each are lines that are joined by newlines, and an empty one. -/
theorem unlines_eq_join (ls : List Text) : unlines ls = join ['\n'] (ls ++ [[]]) := by
  induction ls with
  | nil => simp [unlines, join]
  | cons l ls ih =>
    rw [List.cons_append, join, List.intercalate_cons_of_ne_nil (by simp), ← join, ← ih]
    simp [unlines]

/-- A line among others has a newline after each line before it, and one before each line after it. -/
theorem join_eq_unlines_append (ls : List Text) (l : Text) (ms : List Text) :
    join ['\n'] (ls ++ l :: ms) = unlines ls ++ (l ++ ms.flatMap ('\n' :: ·)) := by
  induction ls generalizing l with
  | nil =>
    induction ms generalizing l with
    | nil => simp [unlines, join]
    | cons m ms ih => simpa [join_cons_cons, unlines] using ih m
  | cons k ls ih =>
    cases ls with
    | nil => simpa [join_cons_cons, unlines] using ih l
    | cons k' ls => simpa [join_cons_cons, unlines] using ih l

theorem splitOn_unlines {ls : List Text} (h : ∀ l ∈ ls, '\n' ∉ l) :
    (unlines ls).splitOn '\n' = ls ++ [[]] := by
  rw [unlines_eq_join]
  exact splitOn_join (List.forall_mem_append.mpr ⟨h, List.forall_mem_singleton.mpr (by simp)⟩) (by simp)

/-- A newline and a line without one make one more piece. -/
theorem splitOn_append_newline (t : Text) {line : Text} (h : '\n' ∉ line) :
    (t ++ '\n' :: line).splitOn '\n' = t.splitOn '\n' ++ [line] := by
  rw [List.splitOn_append_cons_self, List.splitOn_eq_singleton h]

/-! ### Carriage returns -/

theorem dropReturn_eq_of_dropEnd? {line body : Text} (h : dropEnd? ['\r'] line = some body) :
    dropReturn line = body := by
  rw [dropEnd?_eq_some_iff.mp h]
  simp [dropReturn]

theorem dropReturn_eq_self {line : Text} (h : line.getLast? ≠ some '\r') :
    dropReturn line = line := by
  unfold dropReturn
  split
  · contradiction
  · rfl

theorem dropReturn_eq_self_iff {line : Text} :
    dropReturn line = line ↔ line.getLast? ≠ some '\r' := by
  refine ⟨fun h hlast => ?_, dropReturn_eq_self⟩
  obtain ⟨body, rfl⟩ := List.getLast?_eq_some_iff.mp hlast
  simp [dropReturn] at h

theorem dropEnd?_return_eq_none {line : Text} (h : dropEnd? ['\r'] line = none) :
    dropReturn line = line := by
  refine dropReturn_eq_self fun hlast => ?_
  obtain ⟨body, rfl⟩ := List.getLast?_eq_some_iff.mp hlast
  rw [dropEnd?_eq_some_iff.mpr rfl] at h
  simp at h

theorem mem_of_mem_dropReturn {line : Text} {c : Char} (h : c ∈ dropReturn line) : c ∈ line := by
  unfold dropReturn at h
  split at h
  · exact (List.dropLast_sublist line).subset h
  · exact h

theorem dropReturn_append {start rest : Text} (h : rest ≠ []) :
    dropReturn (start ++ rest) = start ++ dropReturn rest := by
  unfold dropReturn
  rw [List.getLast?_append_of_ne_nil start h]
  split
  · exact List.dropLast_append_of_ne_nil h
  · rfl

theorem dropReturn_cons (c : Char) {rest : Text} (h : rest ≠ []) :
    dropReturn (c :: rest) = c :: dropReturn rest := @dropReturn_append [c] rest h

/-! ### Lines -/

/-- A text that is a line of its own when it is written: it has no newline and does not end with a
carriage return. -/
structure IsLine (line : Text) : Prop where
  noNewline : '\n' ∉ line
  noReturn : line.getLast? ≠ some '\r'

theorem isLine_append {start rest : Text} (h : rest ≠ []) :
    IsLine (start ++ rest) ↔ '\n' ∉ start ∧ IsLine rest := by
  have hlast := List.getLast?_append_of_ne_nil start h
  constructor
  · rintro ⟨hnew, hreturn⟩
    rw [List.mem_append, not_or] at hnew
    exact ⟨hnew.1, hnew.2, hlast ▸ hreturn⟩
  · rintro ⟨hstart, hnew, hreturn⟩
    exact ⟨by simp [hstart, hnew], hlast ▸ hreturn⟩

/-- What is written line by line is read line by line, but a carriage return at the end of a line is
lost. -/
theorem lines_unlines_eq_map {ls : List Text} (h : ∀ l ∈ ls, '\n' ∉ l) :
    lines (unlines ls) = ls.map dropReturn := by
  unfold lines
  rw [splitOn_unlines h]
  simp only [List.getLast?_append, List.getLast?_singleton, Option.some_or, List.dropLast_concat]

/-- What is written line by line has these lines. -/
theorem lines_unlines {ls : List Text} (h : ∀ l ∈ ls, IsLine l) : lines (unlines ls) = ls := by
  rw [lines_unlines_eq_map fun l hl => (h l hl).noNewline]
  exact (List.map_congr_left fun l hl => dropReturn_eq_self (h l hl).noReturn).trans (List.map_id ls)

theorem newline_not_mem_of_mem_lines {t line : Text} (h : line ∈ lines t) : '\n' ∉ line := by
  have hpiece : ∀ piece ∈ (t.splitOn '\n').dropLast.map dropReturn, '\n' ∉ piece := by
    intro piece hpiece hmem
    obtain ⟨raw, hraw, rfl⟩ := List.mem_map.mp hpiece
    exact not_mem_of_mem_splitOn (List.dropLast_subset _ hraw) (mem_of_mem_dropReturn hmem)
  unfold lines at h
  dsimp only at h
  split at h
  · exact hpiece line h
  · rename_i last hlast
    rcases List.mem_append.mp h with h | h
    · exact hpiece line h
    · rw [List.mem_singleton.mp h]
      exact not_mem_of_mem_splitOn (List.mem_of_getLast? hlast)
  · cases h

/-- The lines before a newline and behind it. -/
theorem lines_append_newline (t u : Text) :
    lines (t ++ '\n' :: u) = (t.splitOn '\n').map dropReturn ++ lines u := by
  obtain ⟨init, last, hu⟩ := (List.eq_nil_or_concat' (u.splitOn '\n')).resolve_left (List.splitOn_ne_nil _ u)
  unfold lines
  rw [List.splitOn_append_cons_self, hu, ← List.append_assoc]
  simp only [List.getLast?_concat, List.dropLast_concat]
  split <;> simp_all

@[simp] theorem lines_nil : lines [] = [] := by simp [lines]

theorem lines_line {line : Text} (h : '\n' ∉ line) (hne : line ≠ []) : lines line = [line] := by
  unfold lines
  rw [List.splitOn_eq_singleton h]
  cases line with
  | nil => exact absurd rfl hne
  | cons c line => rfl

theorem lines_line_append {line : Text} (h : '\n' ∉ line) (t : Text) :
    lines (line ++ '\n' :: t) = dropReturn line :: lines t := by
  rw [lines_append_newline, List.splitOn_eq_singleton h]
  rfl

/-- A text that ends with a newline keeps its lines when more is written behind it. -/
theorem lines_append_of_getLast? {t : Text} (h : t.getLast? = some '\n') (u : Text) :
    lines (t ++ u) = lines t ++ lines u := by
  obtain ⟨init, rfl⟩ := List.getLast?_eq_some_iff.mp h
  rw [List.append_assoc, List.singleton_append, lines_append_newline, lines_append_newline, lines_nil,
    List.append_nil]

/-! ### Lines that keep their carriage returns -/

theorem splitLines_unlines {ls : List Text} (h : ∀ line ∈ ls, '\n' ∉ line) :
    splitLines (unlines ls) = (ls, false) := by
  simp only [splitLines, splitOn_unlines h, List.getLast?_concat, List.dropLast_concat]

/-- A last line that lacks its newline shows by its characters. -/
theorem splitLines_join {ls : List Text} {last : Text} (h : ∀ line ∈ ls ++ [last], '\n' ∉ line)
    (hlast : last ≠ []) : splitLines (join ['\n'] (ls ++ [last])) = (ls ++ [last], true) := by
  have hne : ls ++ [last] ≠ [] := by simp
  obtain ⟨c, rest, rfl⟩ := List.exists_cons_of_ne_nil hlast
  simp only [splitLines, splitOn_join h hne, List.getLast?_concat]

/-- A text is made of lines with a newline each, or its last line lacks it. -/
theorem eq_unlines_or_join (t : Text) :
    (∃ ls, t = unlines ls ∧ ∀ line ∈ ls, '\n' ∉ line) ∨
      ∃ ls last, t = join ['\n'] (ls ++ [last]) ∧ last ≠ [] ∧ ∀ line ∈ ls ++ [last], '\n' ∉ line := by
  obtain ⟨ls, last, hpieces⟩ :=
    (List.eq_nil_or_concat' (t.splitOn '\n')).resolve_left (List.splitOn_ne_nil _ t)
  have hjoin : t = join ['\n'] (ls ++ [last]) := by rw [← hpieces, join_splitOn]
  have hnewline : ∀ line ∈ ls ++ [last], '\n' ∉ line := fun line hline =>
    not_mem_of_mem_splitOn (hpieces ▸ hline)
  by_cases hlast : last = []
  · subst hlast
    rw [← unlines_eq_join] at hjoin
    exact .inl ⟨ls, hjoin, fun line hline => hnewline line (List.mem_append_left _ hline)⟩
  · exact .inr ⟨ls, last, hjoin, hlast, hnewline⟩

theorem getLast?_unlines {ls : List Text} (h : ls ≠ []) : (unlines ls).getLast? = some '\n' := by
  rw [unlines_eq_join, join_concat h, List.append_nil, List.getLast?_concat]

end Packaging.Text
