import Packaging.Proofs.Makefile.AddonLists

/-!
# Options one by one

What is read of a command line depends on where the scan goes on: a list that begins like an option hides
it. In a regular command line there is no such list, and every option can be read for itself. What is read
of an option then only depends on its word.

## What is proved

* `lists_eq_options` — in a regular command line the lists are those of the options.
* `options_render` — a proper list is read, and then what comes behind it.
* `readOption?_append_eq_none`, `readOption?_append_blank` — what is read of an option does not depend on
  what stands behind the blank after it.
-/

namespace Packaging.Makefile.Invocation

open Text

variable {line rest s t u v x y : Text} {b c d : Char} {w : WithList}

/-! ### Reading an option -/

/-- A character that ends the option. -/
def endsOption (c : Char) : Bool := isIndent c || c == '=' || c == ','

/-- The addons behind an option at the start of the text, whether or not it has some. -/
def readOption? : Text → Option (List Text)
  | [] => none
  | blank :: t =>
    if isIndent blank && (dropStart? withOption t).any (fun rest => rest.head?.all endsOption) then
      some ((withList? (blank :: t)).elim [] fun p => p.1.items)
    else none

/-- The addons behind each option of a command line. -/
def options : Text → List (List Text)
  | [] => []
  | c :: t => (readOption? (c :: t)).toList ++ options t

/-- A list with addons, none of which is empty or begins like the option. -/
structure IsProper (items : List Text) : Prop where
  ne_nil : items ≠ []
  items : ∀ i ∈ items, i ≠ [] ∧ ¬ withOption <+: i

/-- A command line in which every option has a proper list. -/
def IsRegular (line : Text) : Prop := ∀ items ∈ options line, IsProper items

instance (items : List Text) : Decidable (IsProper items) :=
  decidable_of_iff (items ≠ [] ∧ ∀ i ∈ items, i ≠ [] ∧ ¬ withOption <+: i)
    ⟨fun h => ⟨h.1, h.2⟩, fun h => ⟨h.1, h.2⟩⟩

instance (line : Text) : Decidable (IsRegular line) :=
  inferInstanceAs (Decidable (∀ items ∈ options line, IsProper items))

/-- The option stands at the start of the text, as a word or with more behind it. -/
structure StartsOption (b : Char) (rest : Text) : Prop where
  blank : isIndent b = true
  ends : rest.head?.all endsOption = true

theorem readOption?_eq_none_iff :
    readOption? t = none ↔ ∀ b rest, StartsOption b rest → t ≠ b :: (withOption ++ rest) := by
  cases t with
  | nil => simp [readOption?]
  | cons c t =>
    rw [readOption?]
    constructor
    · rintro h b rest hstart heq
      obtain ⟨rfl, rfl⟩ := List.cons.inj heq
      simp [hstart.blank, dropStart?_append, hstart.ends] at h
    · intro h
      refine if_neg fun hstart => ?_
      rw [Bool.and_eq_true, Option.any_eq_true] at hstart
      obtain ⟨hblank, rest, hdrop, hends⟩ := hstart
      exact h c rest ⟨hblank, hends⟩ (by rw [dropStart?_eq_some_iff.mp hdrop])

theorem readOption?_start (h : StartsOption b rest) : readOption? (b :: (withOption ++ rest)) =
    some ((withList? (b :: (withOption ++ rest))).elim [] fun p => p.1.items) := by
  rw [readOption?, if_pos]
  simp [h.blank, dropStart?_append, h.ends]

theorem startsOption_render (hw : w.Stands rest) :
    StartsOption w.blank (w.separator :: (w.addons ++ rest)) := by
  refine ⟨hw.isOption.blank, ?_⟩
  rcases hw.isOption.separator with h | h <;> simp [h, endsOption, isIndent]

theorem readOption?_render (hw : w.Stands rest) : readOption? (w.render ++ rest) = some w.items := by
  rw [w.render_eq, readOption?_start (startsOption_render hw), ← w.render_eq,
    withList?_eq_some_iff.mpr ⟨hw, rfl⟩]
  rfl

/-- A proper list is one that is read with its option. -/
theorem exists_stands {items : List Text} (h : readOption? t = some items) (hproper : IsProper items) :
    ∃ w rest, WithList.Stands w rest ∧ t = w.render ++ rest ∧ items = w.items := by
  cases hlist : withList? t with
  | some found =>
    obtain ⟨w, rest⟩ := found
    obtain ⟨hw, rfl⟩ := withList?_eq_some_iff.mp hlist
    rw [readOption?_render hw] at h
    exact ⟨w, rest, hw, rfl, (Option.some.inj h).symm⟩
  | none =>
    cases t with
    | nil => cases h
    | cons c t =>
      rw [readOption?, hlist] at h
      split at h
      · exact absurd (Option.some.inj h).symm hproper.ne_nil
      · cases h

/-! ### Options in parts of a line -/

theorem options_cons (c : Char) (t : Text) :
    options (c :: t) = (readOption? (c :: t)).toList ++ options t := rfl

theorem options_cons_of_none (h : readOption? (c :: t) = none) : options (c :: t) = options t := by
  rw [options_cons, h]
  rfl

theorem readOption?_of_solid (hc : isIndent c = false) (t : Text) : readOption? (c :: t) = none := by
  rw [readOption?, hc]
  rfl

/-- No option begins in a word. -/
theorem options_solid (hs : IsSolid s) (t : Text) : options (s ++ t) = options t := by
  induction s with
  | nil => rfl
  | cons c s ih =>
    obtain ⟨hc, hs⟩ := List.forall_mem_cons.mp hs
    rw [List.cons_append, options_cons_of_none (readOption?_of_solid hc _), ih hs]

theorem options_suffix (s t : Text) : options t <:+ options (s ++ t) := by
  induction s with
  | nil => exact List.suffix_rfl
  | cons c s ih => exact ih.trans (List.suffix_append _ _)

theorem IsRegular.right (h : IsRegular (s ++ t)) : IsRegular t :=
  fun items hmem => h items ((options_suffix s t).subset hmem)

theorem IsRegular.head {items : List Text} (h : IsRegular (c :: t)) (hread : readOption? (c :: t) = some items) :
    IsProper items := h items (by simp [options_cons, hread])

theorem IsRegular.list (h : IsRegular (w.render ++ rest)) (hw : w.Stands rest) : IsProper w.items := by
  have hread := readOption?_render hw
  rw [w.render_eq] at h hread
  exact h.head hread

/-- A word in front of a word that ends before a blank is the start of that word. -/
theorem solid_append_eq (hs : IsSolid s) (hrest : EndsWord rest) (h : s ++ t = u ++ rest) :
    ∃ m, u = s ++ m ∧ t = m ++ rest := by
  cases rest with
  | nil => exact ⟨t, by simpa using h.symm, by simp⟩
  | cons c rest => exact solid_append_eq_append_blank hs (endsWord_cons.mp hrest) h

/-- A text that begins like the option has a first piece that does. -/
theorem exists_mem_items (h : withOption <+: w.addons) : ∃ i ∈ w.items, withOption <+: i := by
  by_cases hcomma : ',' ∈ w.addons
  · obtain ⟨first, others, hcut⟩ := exists_cut? hcomma
    obtain ⟨hfirst, haddons⟩ := cut?_eq_some_iff.mp hcut
    obtain ⟨t, ht⟩ := h
    rw [haddons] at ht
    refine ⟨first, ?_, ?_⟩
    · rw [WithList.items, haddons, List.splitOn_append_cons_self, List.splitOn_eq_singleton hfirst]
      exact List.mem_cons_self
    · rcases append_eq_append_cons (u := []) comma_not_mem_withOption ht with ⟨v, hv, -⟩ | ⟨u', hu', -⟩
      · exact ⟨v, hv.symm⟩
      · exact absurd (List.append_eq_nil_iff.mp hu'.symm).2 (List.cons_ne_nil _ u')
  · refine ⟨w.addons, ?_, h⟩
    rw [WithList.items, List.splitOn_eq_singleton hcomma]
    exact List.mem_singleton_self _

/-- Behind the separator of an option with a proper list no option begins. -/
theorem readOption?_separator (hw : w.Stands rest) (hproper : IsProper w.items) :
    readOption? (w.separator :: (w.addons ++ rest)) = none := by
  rw [readOption?_eq_none_iff]
  rintro b t - heq
  obtain ⟨m, hm, -⟩ := solid_append_eq isSolid_withOption hw.ends (List.cons.inj heq).2.symm
  obtain ⟨i, hi, hprefix⟩ := exists_mem_items ⟨m, hm.symm⟩
  exact (hproper.items i hi).2 hprefix

/-- A proper list is read, and then what comes behind it. -/
theorem options_render (hw : w.Stands rest) (hproper : IsProper w.items) :
    options (w.render ++ rest) = w.items :: options rest := by
  rw [w.render_eq, options_cons, ← w.render_eq, readOption?_render hw, options_solid isSolid_withOption,
    options_cons_of_none (readOption?_separator hw hproper), options_solid hw.solid]
  rfl

theorem options_of_isPassed (h : IsRegular (s ++ t)) (hpassed : IsPassed withList? s t) :
    options (s ++ t) = options t := by
  induction s with
  | nil => rfl
  | cons c s ih =>
    have hnone : readOption? (c :: (s ++ t)) = none := by
      rw [Option.eq_none_iff_forall_ne_some]
      intro items hread
      obtain ⟨w, rest, hw, hline, -⟩ := exists_stands hread (h.head hread)
      have hlist : withList? (c :: (s ++ t)) = none := hpassed.1
      rw [withList?_eq_some_iff.mpr ⟨hw, hline⟩] at hlist
      cases hlist
    rw [List.cons_append, options_cons_of_none hnone, ih (h.right (s := [c])) hpassed.2]

/-- In a regular command line no list hides an option, so the lists can be read one by one. -/
theorem lists_eq_options (h : IsRegular line) : lists line = options line := by
  induction line using scan_induction consumes_withList? with
  | passed t hpassed =>
    have hnone := options_of_isPassed (t := []) (by rwa [List.append_nil]) hpassed
    rw [List.append_nil] at hnone
    rw [lists_eq_nil hpassed, hnone, options]
  | found s m w rest hs hm ih =>
    obtain ⟨hw, rfl⟩ := withList?_eq_some_iff.mp hm
    rw [lists_found hw hs, options_of_isPassed h hs, options_render hw (h.right.list hw),
      ih h.right.right]

/-! ### What stands behind -/

theorem not_mem_withOption (h : endsOption c = true) : c ∉ withOption := by
  intro hmem
  have hall : withOption.all (!endsOption ·) = true := by decide
  simpa [h] using List.all_eq_true.mp hall c hmem

/-- What is no option does not become one with another text behind its start. -/
theorem readOption?_append_eq_none (hy : y ≠ []) (hnone : readOption? (y ++ v) = none)
    (hv : v.head?.all endsOption = true) (hx : x.head?.all endsOption = true) :
    readOption? (y ++ x) = none := by
  rw [readOption?_eq_none_iff] at hnone ⊢
  intro b rest hstart heq
  obtain ⟨e, y, rfl⟩ := List.exists_cons_of_ne_nil hy
  obtain ⟨rfl, htail⟩ := List.cons.inj heq
  have hyes (m : Text) (hm : y = withOption ++ m) (hends : (m ++ v).head?.all endsOption = true) : False :=
    hnone e (m ++ v) ⟨hstart.blank, hends⟩ (by simp [hm])
  rcases List.append_eq_append_iff.mp htail with ⟨m, hm, rfl⟩ | ⟨m, rfl, rfl⟩
  · cases m with
    | nil => exact hyes [] (by simpa using hm.symm) hv
    | cons f m => exact not_mem_withOption hx (by simp [hm])
  · refine hyes m rfl ?_
    cases m with
    | nil => exact hv
    | cons f m => exact hstart.ends

/-- The lists that are read in front of a blank do not depend on what stands behind it. -/
theorem readOption?_append_blank (hy : y ≠ [])
    (hproper : ∀ items, readOption? (y ++ c :: v) = some items → IsProper items) (hc : isIndent c = true)
    (hv : withOption <+: v) (hx : EndsWord x) : readOption? (y ++ x) = readOption? (y ++ c :: v) := by
  cases hread : readOption? (y ++ c :: v) with
  | none =>
    refine readOption?_append_eq_none hy hread (by simp [endsOption, hc]) ?_
    cases x with
    | nil => rfl
    | cons e x => simp [endsOption, endsWord_cons.mp hx]
  | some items =>
    obtain ⟨w, rest, hw, hline, rfl⟩ := exists_stands hread (hproper items hread)
    have hout : c ∉ w.addons := fun hmem => by simp [hw.solid c hmem] at hc
    suffices hy : ∃ m, y = w.render ++ m ∧ EndsWord (m ++ x) by
      obtain ⟨m, rfl, hends⟩ := hy
      rw [List.append_assoc]
      exact readOption?_render ⟨hw.isOption, hw.ne_nil, hw.solid, hends⟩
    rw [WithList.render, List.append_assoc] at hline
    rcases append_eq_append_cons hout hline.symm with ⟨m, rfl, hm⟩ | ⟨u, hu, rfl⟩
    · refine ⟨m, by simp [WithList.render], ?_⟩
      cases m with
      | nil => exact hx
      | cons e m =>
        have hends := hw.ends
        rwa [hm] at hends
    · -- The blank would be the separator, and the list would begin like an option.
      have hout : c ∉ withOption := fun hmem => by simp [isSolid_withOption c hmem] at hc
      obtain ⟨-, -, rfl⟩ := optionText_split hu hy hout
      obtain ⟨t, ht⟩ := hv
      obtain ⟨m, hm, -⟩ := solid_append_eq isSolid_withOption hw.ends ht
      obtain ⟨i, hi, hprefix⟩ := exists_mem_items ⟨m, hm.symm⟩
      exact absurd hprefix ((hproper w.items hread).items i hi).2

end Packaging.Makefile.Invocation
