import Packaging.Makefile.Basic
import Packaging.Proofs.Text.Split

/-!
# Instances of a target pattern

A pattern falls into pieces at its `%`. Its instances on one line are the texts that have these pieces in
order, with any text in each gap between two of them. To find them, the pattern can be written as a regular
expression, in which all characters of the pieces stand for themselves.

## What is proved

* `accepts_iff` — which texts are accepted: the pieces, and texts without newlines between them.
* `matches_toRegex_iff` — the regular expression of a pattern matches just these.
* `accepts_self` — every text is an instance of itself.
* `accepts_iff_pieces` — the instances on one line, and so which rules apply to a target.
-/

namespace Packaging.Makefile

open Text

namespace Pattern

variable {accept : Text → Bool} {c : Char} {p w t regex : Text} {pieces xs : List Text}

/-! ### Pieces -/

/-- The pieces with a text in each gap between two of them. -/
def spread : (pieces gaps : List Text) → Text
  | [], _ => []
  | piece :: _, [] => piece
  | piece :: pieces, gap :: gaps => piece ++ (gap ++ spread pieces gaps)

theorem spread_modifyHead (h : pieces ≠ []) (c : Char) (xs : List Text) :
    spread (pieces.modifyHead (c :: ·)) xs = c :: spread pieces xs := by
  cases pieces with
  | nil => exact absurd rfl h
  | cons piece pieces => cases xs <;> rfl

theorem infix_spread {x : Text} (h : x ∈ xs) (hlength : xs.length < pieces.length) :
    x <:+: spread pieces xs := by
  induction pieces generalizing xs with
  | nil => exact absurd hlength (Nat.not_lt_zero _)
  | cons piece pieces ih =>
    cases xs with
    | nil => cases h
    | cons y xs =>
      rw [spread]
      rcases List.mem_cons.mp h with rfl | h
      · exact ⟨piece, spread pieces xs, by simp⟩
      · have hpart := ih h (by simpa using hlength)
        exact (hpart.trans (List.suffix_append y _).isInfix).trans (List.suffix_append piece _).isInfix

theorem length_splitOn (c : Char) (t : Text) : (t.splitOn c).length = t.count c + 1 := by
  induction t with
  | nil => simp
  | cons d t ih =>
    rw [List.splitOn_cons_eq_if_modifyHead, List.count_cons]
    split
    · rw [List.length_cons, ih]
    · rw [List.length_modifyHead, ih, Nat.add_zero]

/-! ### What is accepted -/

theorem afterSome_eq_true_iff :
    afterSome accept t = true ↔ ∃ x u, t = x ++ u ∧ '\n' ∉ x ∧ accept u = true := by
  induction t with
  | nil =>
    rw [afterSome]
    constructor
    · exact fun h => ⟨[], [], rfl, List.not_mem_nil, h⟩
    · rintro ⟨x, u, h, -, hu⟩
      obtain ⟨-, rfl⟩ := List.append_eq_nil_iff.mp h.symm
      exact hu
  | cons c t ih =>
    rw [afterSome, Bool.or_eq_true, Bool.and_eq_true, ih]
    constructor
    · rintro (h | ⟨hc, x, u, rfl, hx, hu⟩)
      · exact ⟨[], c :: t, rfl, List.not_mem_nil, h⟩
      · refine ⟨c :: x, u, rfl, ?_, hu⟩
        have hne : c ≠ '\n' := by simpa using hc
        simp [hx, hne.symm]
    · rintro ⟨x, u, h, hx, hu⟩
      cases x with
      | nil => exact .inl (h ▸ hu)
      | cons d x =>
        obtain ⟨rfl, rfl⟩ := List.cons.inj h
        obtain ⟨hd, hx⟩ := not_or.mp (mt List.mem_cons.mpr hx)
        exact .inr ⟨by simpa using Ne.symm hd, x, u, rfl, hx, hu⟩

theorem accepts_percent : accepts ('%' :: p) t = true ↔
    ∃ x u, t = x ++ u ∧ '\n' ∉ x ∧ accepts p u = true := by
  have heq : accepts ('%' :: p) t = afterSome (accepts p) t := by cases t <;> rfl
  rw [heq, afterSome_eq_true_iff]

theorem accepts_cons (hc : c ≠ '%') : accepts (c :: p) t = true ↔
    ∃ u, t = c :: u ∧ accepts p u = true := by
  cases t with
  | nil => simp [accepts, hc]
  | cons d t =>
    have heq : accepts (c :: p) (d :: t) = (decide (c = d) && accepts p t) := by simp [accepts, hc]
    rw [heq, Bool.and_eq_true, decide_eq_true_iff]
    constructor
    · rintro ⟨rfl, h⟩
      exact ⟨t, rfl, h⟩
    · rintro ⟨u, heq, h⟩
      obtain ⟨rfl, rfl⟩ := List.cons.inj heq
      exact ⟨rfl, h⟩

/-- **What a pattern accepts**: its pieces, and in each gap between two of them a text on one line. -/
theorem accepts_iff : accepts w t = true ↔
    ∃ xs, xs.length = w.count '%' ∧ (∀ x ∈ xs, '\n' ∉ x) ∧ t = spread (w.splitOn '%') xs := by
  induction w generalizing t with
  | nil =>
    rw [accepts, List.isEmpty_iff, List.count_nil, List.splitOn_nil]
    constructor
    · rintro rfl
      exact ⟨[], rfl, nofun, rfl⟩
    · rintro ⟨xs, hlength, -, rfl⟩
      rw [List.length_eq_zero_iff.mp hlength, spread]
  | cons c w ih =>
    rw [List.splitOn_cons_eq_if_modifyHead]
    by_cases hc : c = '%'
    · subst hc
      rw [accepts_percent, List.count_cons_self, if_pos (by simp)]
      constructor
      · rintro ⟨x, u, rfl, hx, hu⟩
        obtain ⟨xs, hlength, hxs, rfl⟩ := ih.mp hu
        exact ⟨x :: xs, by rw [List.length_cons, hlength], List.forall_mem_cons.mpr ⟨hx, hxs⟩, rfl⟩
      · rintro ⟨xs, hlength, hxs, rfl⟩
        obtain ⟨x, xs, rfl⟩ := List.exists_cons_of_length_eq_add_one hlength
        obtain ⟨hx, hxs⟩ := List.forall_mem_cons.mp hxs
        exact ⟨x, _, rfl, hx, ih.mpr ⟨xs, by simpa using hlength, hxs, rfl⟩⟩
    · rw [accepts_cons hc, List.count_cons_of_ne hc, if_neg (by simpa using hc)]
      constructor
      · rintro ⟨u, rfl, hu⟩
        obtain ⟨xs, hlength, hxs, rfl⟩ := ih.mp hu
        exact ⟨xs, hlength, hxs, (spread_modifyHead (List.splitOn_ne_nil '%' w) c xs).symm⟩
      · rintro ⟨xs, hlength, hxs, rfl⟩
        rw [spread_modifyHead (List.splitOn_ne_nil '%' w)]
        exact ⟨_, rfl, ih.mpr ⟨xs, hlength, hxs, rfl⟩⟩

theorem accepts_self (t : Text) : accepts t t = true := by
  induction t with
  | nil => rfl
  | cons c t ih =>
    by_cases hc : c = '%'
    · subst hc
      exact accepts_percent.mpr ⟨['%'], t, rfl, by decide, ih⟩
    · exact (accepts_cons hc).mpr ⟨t, rfl, ih⟩

/-! ### The regular expression -/

/-- What is matched by a regular expression of characters that stand for themselves, with a backslash
before those that have a meaning of their own, and of `.*`, up to the `$` at its end. -/
inductive MatchesUpToEnd : (regex text : Text) → Prop
  | finish : MatchesUpToEnd ['$'] []
  | any {x regex text : Text} (hx : '\n' ∉ x) :
      MatchesUpToEnd regex text → MatchesUpToEnd ('.' :: '*' :: regex) (x ++ text)
  | escaped {c : Char} {regex text : Text} (hc : c ∈ metaCharacters) :
      MatchesUpToEnd regex text → MatchesUpToEnd ('\\' :: c :: regex) (c :: text)
  | plain {c : Char} {regex text : Text} (hc : c ∉ metaCharacters) :
      MatchesUpToEnd regex text → MatchesUpToEnd (c :: regex) (c :: text)

/-- The regular expression begins with `^`, and matches the whole text. -/
def Matches (regex text : Text) : Prop := ∃ rest, regex = '^' :: rest ∧ MatchesUpToEnd rest text

theorem matchesUpToEnd_any : MatchesUpToEnd ('.' :: '*' :: regex) t ↔
    ∃ x u, t = x ++ u ∧ '\n' ∉ x ∧ MatchesUpToEnd regex u := by
  constructor
  · intro h
    cases h with
    | any hx h => exact ⟨_, _, rfl, hx, h⟩
    | plain hc h => exact absurd (by decide) hc
  · rintro ⟨x, u, rfl, hx, h⟩
    exact .any hx h

theorem matchesUpToEnd_regexOfChar (hc : c ≠ '%') : MatchesUpToEnd (regexOfChar c ++ regex) t ↔
    ∃ u, t = c :: u ∧ MatchesUpToEnd regex u := by
  rw [regexOfChar, if_neg hc]
  by_cases hmeta : c ∈ metaCharacters
  · rw [if_pos (List.contains_iff_mem.mpr hmeta)]
    constructor
    · intro h
      cases h with
      | escaped hc h => exact ⟨_, rfl, h⟩
      | plain hc h => exact absurd (by decide) hc
    · rintro ⟨u, rfl, h⟩
      exact .escaped hmeta h
  · rw [if_neg (mt List.contains_iff_mem.mp hmeta), List.singleton_append]
    constructor
    · intro h
      cases h with
      | finish => exact absurd (by decide) hmeta
      | any hx h => exact absurd (by decide) hmeta
      | escaped hc h => exact absurd (by decide) hmeta
      | plain hc h => exact ⟨_, rfl, h⟩
    · rintro ⟨u, rfl, h⟩
      exact .plain hmeta h

/-- **The regular expression of a pattern** matches what the pattern accepts. -/
theorem matches_toRegex_iff : Matches (toRegex w) t ↔ accepts w t = true := by
  have hrest : Matches (toRegex w) t ↔ MatchesUpToEnd (w.flatMap regexOfChar ++ ['$']) t := by
    rw [Matches, toRegex, List.append_assoc, List.singleton_append]
    constructor
    · rintro ⟨rest, heq, h⟩
      obtain ⟨-, rfl⟩ := List.cons.inj heq
      exact h
    · exact fun h => ⟨_, rfl, h⟩
  rw [hrest]
  clear hrest
  induction w generalizing t with
  | nil =>
    rw [List.flatMap_nil, List.nil_append, accepts, List.isEmpty_iff]
    constructor
    · intro h
      cases h with
      | finish => rfl
      | plain hc h => exact absurd (by decide) hc
    · rintro rfl
      exact .finish
  | cons c w ih =>
    rw [List.flatMap_cons, List.append_assoc]
    by_cases hc : c = '%'
    · subst hc
      rw [accepts_percent]
      refine matchesUpToEnd_any.trans (exists_congr fun x => exists_congr fun u => ?_)
      exact and_congr_right fun _ => and_congr_right fun _ => ih
    · rw [matchesUpToEnd_regexOfChar hc, accepts_cons hc]
      exact exists_congr fun u => and_congr_right fun _ => ih

end Pattern

/-! ### Rules for a target -/

theorem Rule.appliesTo_of_hasTarget {r : Rule} {target : Text} (h : r.hasTarget target = true) :
    r.appliesTo target = true := by
  rw [hasTarget, List.contains_iff_mem] at h
  exact List.any_eq_true.mpr ⟨target, h, Pattern.accepts_self target⟩

/-- The rules that name a target are among those that apply to it, in the same order. -/
theorem rulesNaming_eq_filter (mk : Makefile) (target : Text) :
    mk.rulesNaming target = (mk.rulesFor target).filter (·.hasTarget target) := by
  rw [rulesNaming, rulesFor, List.filter_filter]
  refine List.filter_congr fun r _ => ?_
  cases h : r.hasTarget target with
  | true => rw [Rule.appliesTo_of_hasTarget h]; rfl
  | false => rfl

open Pattern in
/-- **Instances of a pattern on one line** have its pieces in order, with any texts between them, and just
these are matched by its regular expression. All rules that name a target on one line also apply to it as
patterns, and come in the same order then. -/
theorem accepts_iff_pieces {t : Text} (ht : '\n' ∉ t) (w : Text) :
    (accepts w t = true ↔ ∃ xs, xs.length = w.count '%' ∧ t = spread (w.splitOn '%') xs) ∧
      (Matches (toRegex w) t ↔ accepts w t = true) ∧
      ∀ mk : Makefile, mk.rulesNaming t = (mk.rulesFor t).filter (·.hasTarget t) := by
  refine ⟨?_, matches_toRegex_iff, fun mk => rulesNaming_eq_filter mk t⟩
  rw [accepts_iff]
  refine exists_congr fun xs => and_congr_right fun hlength => and_iff_right_of_imp ?_
  rintro rfl x hx hnew
  refine ht ((infix_spread hx ?_).subset hnew)
  rw [length_splitOn, hlength]
  exact Nat.lt_succ_self _

open Pattern in
theorem accepts_iff_pieces_stampTarget :
    '\n' ∉ "build-arch.stamp".toList ∧
      (∃ xs : List Text, xs.length = "%u%-%.%".toList.count '%' ∧
        "build-arch.stamp".toList = spread ("%u%-%.%".toList.splitOn '%') xs) ∧
      Matches (toRegex "%u%-%.%".toList) "build-arch.stamp".toList ∧
      ¬ Matches (toRegex "build.%".toList) "build-arch.stamp".toList ∧
      (rulesNaming { entries := [.rule (.make "build-%".toList [] []),
        .rule (.make "build-arch.stamp".toList [] [])] } "build-arch.stamp".toList).length = 1 := by
  have ht : '\n' ∉ "build-arch.stamp".toList := by decide
  obtain ⟨hpieces, hmatches, hrules⟩ := accepts_iff_pieces ht "%u%-%.%".toList
  obtain ⟨-, hmatches', -⟩ := accepts_iff_pieces ht "build.%".toList
  have haccepts : accepts "%u%-%.%".toList "build-arch.stamp".toList = true := by decide +kernel
  refine ⟨ht, hpieces.mp haccepts, hmatches.mpr haccepts, mt hmatches'.mp (by decide +kernel), ?_⟩
  rw [hrules]
  decide +kernel

end Packaging.Makefile
