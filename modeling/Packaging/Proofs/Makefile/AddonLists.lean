import Mathlib.Data.List.Infix
import Packaging.Makefile.Invocation
import Packaging.Proofs.Text.Scan
import Packaging.Proofs.Text.Split
import Packaging.Proofs.Text.Trim

/-!
# Lists of addons

The option `--with` with its separator is followed by a list of addons, which goes on up to the next
blank. What is read from a command line are these lists, from left to right.

## What is proved

* `withStart?_eq_some_iff`, `withList?_eq_some_iff` — where an option stands, and where one with its list.
* `optionText_split` — a blank or a comma inside of an option is its separator.
* `isSome_withList?_append_blank` — what a list is does not depend on what stands behind the blank.
* `lists_eq_nil`, `lists_found` — the lists of a command line, one by one.
-/

namespace Packaging.Makefile.Invocation

open Text

variable {a s t u rest : Text} {b c d : Char} {w : WithList}

/-! ### Words -/

/-- There is no blank in the text. -/
def IsSolid (t : Text) : Prop := ∀ c ∈ t, isIndent c = false

/-- A blank comes next, or nothing. -/
def EndsWord (rest : Text) : Prop := rest.head?.all isIndent = true

/-- The name of an addon: a word without commas. -/
structure IsAddon (a : Text) : Prop where
  ne_nil : a ≠ []
  solid : IsSolid a
  comma : ',' ∉ a

instance (t : Text) : Decidable (IsSolid t) :=
  List.decidableBAll (fun c => isIndent c = false) t

theorem IsAddon.splitOn (ha : IsAddon a) : a.splitOn ',' = [a] := List.splitOn_eq_singleton ha.comma

theorem endsWord_nil : EndsWord [] := rfl

theorem endsWord_cons : EndsWord (c :: t) ↔ isIndent c = true := Iff.rfl

theorem IsSolid.append (hs : IsSolid s) (ht : IsSolid t) : IsSolid (s ++ t) := by
  intro c hc
  exact (List.mem_append.mp hc).elim (hs c) (ht c)

theorem IsSolid.left (h : IsSolid (s ++ t)) : IsSolid s := fun c hc => h c (List.mem_append_left t hc)

theorem IsSolid.right (h : IsSolid (s ++ t)) : IsSolid t := fun c hc => h c (List.mem_append_right s hc)

theorem IsSolid.cons (hc : isIndent c = false) (ht : IsSolid t) : IsSolid (c :: t) :=
  List.forall_mem_cons.mpr ⟨hc, ht⟩

/-- A word up to the next blank is cut off in one way only. -/
theorem span_solid (hs : IsSolid s) (ht : EndsWord t) : (s ++ t).span (!isIndent ·) = (s, t) := by
  refine span_eq_iff.mpr ⟨rfl, fun c hc => by simp [hs c hc], ?_⟩
  cases t with
  | nil => rfl
  | cons c t => simpa using endsWord_cons.mp ht

theorem span_solid_iff {run : Text} :
    t.span (!isIndent ·) = (run, rest) ↔ t = run ++ rest ∧ IsSolid run ∧ EndsWord rest := by
  constructor
  · intro h
    obtain ⟨ht, hrun, hrest⟩ := span_eq_iff.mp h
    refine ⟨ht, fun c hc => by simpa using hrun c hc, ?_⟩
    cases rest with
    | nil => rfl
    | cons c rest => simpa [EndsWord] using hrest
  · rintro ⟨rfl, hrun, hrest⟩
    exact span_solid hrun hrest

/-! ### Options -/

/-- The characters before and behind an option: a blank, and an equals sign or a space. -/
structure IsOption (blank separator : Char) : Prop where
  blank : isIndent blank = true
  separator : separator = '=' ∨ separator = ' '

theorem isSolid_withOption : IsSolid withOption := by decide

theorem comma_not_mem_withOption : ',' ∉ withOption := by decide

@[simp] theorem getLast?_optionText (b d : Char) : (optionText b d).getLast? = some d :=
  List.getLast?_concat

/-- A character that is not part of the option can only stand in front of it or be its separator. -/
theorem optionText_split {v z : Text} (h : optionText b d = v ++ c :: z) (hv : v ≠ [])
    (hc : c ∉ withOption) : v = b :: withOption ∧ c = d ∧ z = [] := by
  rcases List.append_eq_append_iff.mp h with ⟨u, rfl, hu⟩ | ⟨u, hu, hz⟩
  · cases u with
    | nil =>
      cases hu
      simp
    | cons e u => simp at hu
  · cases u with
    | nil =>
      cases hz
      simpa using hu.symm
    | cons e u =>
      -- The character would be inside of the option.
      obtain ⟨x, v, rfl⟩ := List.exists_cons_of_ne_nil hv
      obtain ⟨rfl, -⟩ := List.cons.inj hz
      have hmem : c ∈ withOption := by
        rw [(List.cons.inj hu).2]
        simp
      exact absurd hmem hc

theorem withStart?_eq_some_iff :
    withStart? t = some ((b, d), rest) ↔ IsOption b d ∧ t = optionText b d ++ rest := by
  constructor
  · intro h
    cases t with
    | nil => cases h
    | cons b' t =>
      rw [withStart?] at h
      split at h
      · rename_i hblank
        split at h
        · rename_i d' rest' hdrop
          split at h
          · rename_i hseparator
            cases h
            refine ⟨⟨hblank, by simpa using hseparator⟩, ?_⟩
            rw [dropStart?_eq_some_iff.mp hdrop, optionText]
            simp
          · cases h
        · cases h
      · cases h
  · rintro ⟨⟨hblank, hseparator⟩, rfl⟩
    have hdrop : dropStart? withOption (withOption ++ d :: rest) = some (d :: rest) :=
      dropStart?_append _ _
    rw [optionText, List.append_assoc, List.cons_append, withStart?, if_pos hblank]
    rw [List.singleton_append, hdrop]
    rcases hseparator with rfl | rfl <;> rfl

/-! ### Options with their lists -/

namespace WithList

/-- The option with its list stands in front of the rest. -/
structure Stands (w : WithList) (rest : Text) : Prop where
  isOption : IsOption w.blank w.separator
  ne_nil : w.addons ≠ []
  solid : IsSolid w.addons
  ends : EndsWord rest

/-- The addons in the list. -/
def items (w : WithList) : List Text := w.addons.splitOn ','

end WithList

theorem withList?_optionText (h : IsOption b d) (t : Text) :
    withList? (optionText b d ++ t) =
      if (t.span (!isIndent ·)).1.isEmpty then none
      else some (⟨b, d, (t.span (!isIndent ·)).1⟩, (t.span (!isIndent ·)).2) := by
  rw [withList?, withStart?_eq_some_iff.mpr ⟨h, rfl⟩]

theorem withList?_eq_some_iff :
    withList? t = some (w, rest) ↔ w.Stands rest ∧ t = w.render ++ rest := by
  constructor
  · intro h
    cases hstart : withStart? t with
    | none => simp [withList?, hstart] at h
    | some p =>
      obtain ⟨⟨b, d⟩, t⟩ := p
      obtain ⟨hoption, rfl⟩ := withStart?_eq_some_iff.mp hstart
      rw [withList?_optionText hoption] at h
      split at h
      · cases h
      · rename_i hne
        cases h
        obtain ⟨ht, hsolid, hends⟩ := span_solid_iff.mp (Prod.eta (t.span (!isIndent ·))).symm
        refine ⟨⟨hoption, by simpa using hne, hsolid, hends⟩, ?_⟩
        rw [WithList.render, List.append_assoc, ← ht]
  · rintro ⟨⟨hoption, hne, hsolid, hends⟩, rfl⟩
    rw [WithList.render, List.append_assoc, withList?_optionText hoption, span_solid hsolid hends]
    simp [hne]

theorem consumes_withList? : Consumes withList? := by
  intro t w rest h
  obtain ⟨-, rfl⟩ := withList?_eq_some_iff.mp h
  simp [WithList.render, optionText]
  omega

theorem EndsWord.append (hs : EndsWord s) (ht : EndsWord t) : EndsWord (s ++ t) := by
  cases s with
  | nil => exact ht
  | cons c s => exact hs

/-- A word that ends before a blank is not part of it. -/
theorem solid_append_eq_append_blank (hs : IsSolid s) (hc : isIndent c = true) {u v : Text}
    (h : s ++ t = u ++ c :: v) : ∃ z, u = s ++ z ∧ t = z ++ c :: v := by
  have hout : c ∉ s := fun hmem => by simp [hs c hmem] at hc
  rcases append_eq_append_cons (u := []) hout h with hleft | ⟨u', hu', -⟩
  · exact hleft
  · exact absurd (List.append_eq_nil_iff.mp hu'.symm).2 (List.cons_ne_nil c u')

/-- Whether an option with its list stands in front of a blank and all that follows. -/
theorem isSome_withList?_append_blank {v : Text} (hv : v ≠ []) (hc : isIndent c = true) (t : Text) :
    (withList? (v ++ c :: t)).isSome ↔ (withList? v).isSome ∨
      ∃ b, isIndent b = true ∧ v = b :: withOption ∧ c = ' ' ∧ t.head?.any (!isIndent ·) := by
  have hout : c ∉ withOption := fun hmem => by simp [isSolid_withOption c hmem] at hc
  simp only [Option.isSome_iff_exists, Prod.exists, withList?_eq_some_iff]
  constructor
  · rintro ⟨w, rest, hw, h⟩
    rw [WithList.render, List.append_assoc] at h
    rcases List.append_eq_append_iff.mp h with ⟨z, hz, ht⟩ | ⟨z, rfl, ht⟩
    · obtain ⟨x, addons, haddons⟩ := List.exists_cons_of_ne_nil hw.ne_nil
      have hx : isIndent x = false := hw.solid x (by simp [haddons])
      rw [haddons] at ht
      cases z with
      | nil =>
        obtain ⟨rfl, -⟩ := List.cons.inj ht
        simp [hx] at hc
      | cons e z =>
        -- The option reaches up to the blank, which is its separator.
        obtain ⟨rfl, htail⟩ := List.cons.inj ht
        obtain ⟨rfl, rfl, rfl⟩ := optionText_split hz hv hout
        refine .inr ⟨w.blank, hw.isOption.blank, rfl, ?_, by rw [htail]; simp [hx]⟩
        refine hw.isOption.separator.resolve_left fun hequals => ?_
        rw [hequals] at hc
        cases hc
    · obtain ⟨z', rfl, hrest⟩ := solid_append_eq_append_blank hw.solid hc ht
      refine .inl ⟨w, z', ⟨hw.isOption, hw.ne_nil, hw.solid, ?_⟩, ?_⟩
      · have hends := hw.ends
        cases z' with
        | nil => exact endsWord_nil
        | cons e z' => rwa [hrest] at hends
      · rw [WithList.render, List.append_assoc]
  · rintro (⟨w, rest, hw, rfl⟩ | ⟨b, hb, rfl, rfl, ht⟩)
    · refine ⟨w, rest ++ c :: t, ⟨hw.isOption, hw.ne_nil, hw.solid, ?_⟩, by simp⟩
      exact hw.ends.append (endsWord_cons.mpr hc)
    · obtain ⟨addons, rest, hspan⟩ : ∃ addons rest, t.span (!isIndent ·) = (addons, rest) := ⟨_, _, rfl⟩
      obtain ⟨rfl, hsolid, hends⟩ := span_solid_iff.mp hspan
      have hne : addons ≠ [] := by
        rintro rfl
        cases rest with
        | nil => cases ht
        | cons e rest => simp [endsWord_cons.mp hends] at ht
      refine ⟨⟨b, ' ', addons⟩, rest, ⟨⟨hb, .inr rfl⟩, hne, hsolid, hends⟩, ?_⟩
      simp [WithList.render, optionText]

/-- What stands in front of a blank has lists of its own, whatever comes behind the blank. -/
theorem isPassed_blank_iff (hc : isIndent c = true) (t : Text)
    (h : t.head?.any (!isIndent ·) = u.head?.any (!isIndent ·)) :
    IsPassed withList? s (c :: t) ↔ IsPassed withList? s (c :: u) := by
  simp only [isPassed_iff]
  refine forall₄_congr fun _ v _ hv => ?_
  rw [← Option.not_isSome_iff_eq_none, ← Option.not_isSome_iff_eq_none,
    isSome_withList?_append_blank hv hc, isSome_withList?_append_blank hv hc, h]

theorem WithList.render_eq (w : WithList) (t : Text) :
    w.render ++ t = w.blank :: (withOption ++ w.separator :: (w.addons ++ t)) := by
  simp [WithList.render, optionText]

theorem isPassed_render_iff (w' : WithList) (hw : isIndent w.blank = true)
    (hblank : w'.blank = w.blank) (t u : Text) :
    IsPassed withList? s (w.render ++ t) ↔ IsPassed withList? s (w'.render ++ u) := by
  rw [w.render_eq, w'.render_eq, hblank]
  exact isPassed_blank_iff hw _ rfl

/-! ### The lists of a command line -/

/-- The lists of addons of a command line. -/
def lists (line : Text) : List (List Text) := (findAll withList? line).map WithList.items

theorem addons_eq_flatten (line : Text) : addons line = (lists line).flatten := by
  rw [addons, lists, List.flatMap_def]
  rfl

theorem lists_eq_nil (h : IsPassed withList? t []) : lists t = [] := by
  rw [lists, findAll_eq_nil h, List.map_nil]

@[simp] theorem lists_nil : lists [] = [] := lists_eq_nil (t := []) trivial

theorem lists_found (hw : w.Stands t) (hpassed : IsPassed withList? s (w.render ++ t)) :
    lists (s ++ (w.render ++ t)) = w.items :: lists t := by
  rw [lists, findAll_passed hpassed,
    findAll_found consumes_withList? (withList?_eq_some_iff.mpr ⟨hw, rfl⟩), List.map_cons, lists]

/-- A command line has no list, or a first one. -/
theorem exists_first_list (line : Text) :
    IsPassed withList? line [] ∨ ∃ before after, ∃ w : WithList, line = before ++ (w.render ++ after) ∧
      w.Stands after ∧ IsPassed withList? before (w.render ++ after) := by
  rcases exists_passed withList? line with h | ⟨s, m, w, rest, rfl, hs, hm⟩
  · exact .inl h
  · obtain ⟨hw, rfl⟩ := withList?_eq_some_iff.mp hm
    exact .inr ⟨s, rest, w, rfl, hw, hs⟩

theorem infix_of_mem_findAll (h : w ∈ findAll withList? t) : w.render <:+: t := by
  induction t using scan_induction consumes_withList? with
  | passed t hpassed => simp [findAll_eq_nil hpassed] at h
  | found s m first rest hs hm ih =>
    obtain ⟨-, rfl⟩ := withList?_eq_some_iff.mp hm
    rw [findAll_passed hs, findAll_found consumes_withList? hm, List.mem_cons] at h
    rcases h with rfl | h
    · exact ⟨s, rest, by simp⟩
    · exact (ih h).trans ⟨s ++ first.render, [], by simp⟩

/-- The addons of a command line are parts of its text. -/
theorem infix_of_mem_addons (h : a ∈ addons t) : a <:+: t := by
  obtain ⟨w, hw, ha⟩ := List.mem_flatMap.mp h
  have hlist : a <:+: w.addons := join_splitOn ',' w.addons ▸ infix_join ha
  exact (hlist.trans (List.suffix_append _ _).isInfix).trans (infix_of_mem_findAll hw)

end Packaging.Makefile.Invocation
