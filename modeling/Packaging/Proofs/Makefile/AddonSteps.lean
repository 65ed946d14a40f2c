import Packaging.Proofs.Makefile.AddonOptions
import Packaging.Proofs.Makefile.AddonPlaces

/-!
# Lists that lose an addon

What the passes take out of a regular command line is the addon of a list, or stands outside of the lists.
So the lists keep all other addons, and the command line stays regular.

## What is proved

* `options_alone`, `options_first`, `options_further`, `options_outside` — the lists of a command line and of
  what is left of it, for each kind of place.
* `Takes.loses` — what one step does to the lists.
* `keeps_of_reflTransGen` — what all steps together keep.
-/

namespace Packaging.Makefile.Invocation

open Text Relation

variable {a line line' p q rest s t u v x y z : Text} {b c d : Char} {w : WithList}
  {ls ls' : List (List Text)}

/-! ### Lists that lose an addon -/

/-- Nothing changes, or a list with others loses the addon, or a list with nothing but the addon goes. -/
inductive Loses (a : Text) : (ls ls' : List (List Text)) → Prop where
  | nothing (ls : List (List Text)) : Loses a ls ls
  | addon (ls ls' : List (List Text)) (i j : List Text) (h : i ++ j ≠ []) :
      Loses a (ls ++ (i ++ a :: j) :: ls') (ls ++ (i ++ j) :: ls')
  | list (ls ls' : List (List Text)) : Loses a (ls ++ [a] :: ls') (ls ++ ls')

theorem IsProper.erase {i j : List Text} (h : IsProper (i ++ a :: j)) (hne : i ++ j ≠ []) :
    IsProper (i ++ j) := by
  refine ⟨hne, fun k hk => h.items k ?_⟩
  rcases List.mem_append.mp hk with hk | hk
  · exact List.mem_append_left _ hk
  · exact List.mem_append_right _ (List.mem_cons_of_mem a hk)

namespace Loses

theorem isProper (h : Loses a ls ls') (hls : ∀ items ∈ ls, IsProper items) :
    ∀ items ∈ ls', IsProper items := by
  cases h with
  | nothing => exact hls
  | addon ls ls' i j hne =>
    rw [List.forall_mem_append, List.forall_mem_cons] at hls ⊢
    exact ⟨hls.1, hls.2.1.erase hne, hls.2.2⟩
  | list ls ls' =>
    rw [List.forall_mem_append, List.forall_mem_cons] at hls
    exact List.forall_mem_append.mpr ⟨hls.1, hls.2.2⟩

/-- All other addons stay, in order. -/
theorem filter_eq (h : Loses a ls ls') : ls'.flatten.filter (· ≠ a) = ls.flatten.filter (· ≠ a) := by
  cases h <;> simp

/-- If anything changes there is one addon less. -/
theorem eq_or_count_eq (h : Loses a ls ls') :
    ls' = ls ∨ ls'.flatten.count a + 1 = ls.flatten.count a := by
  cases h with
  | nothing => exact .inl rfl
  | addon ls ls' i j hne => exact .inr (by simp; omega)
  | list ls ls' => exact .inr (by simp; omega)

end Loses

/-! ### Where an option stands -/

/-- The options in front of another one are read as before, whatever it is replaced by that begins with a
blank. -/
theorem options_blank (hb : isIndent b = true) (hline : IsRegular (s ++ b :: (withOption ++ t))) :
    ∃ ls, options (s ++ b :: (withOption ++ t)) = ls ++ options (b :: (withOption ++ t)) ∧
      ∀ x, EndsWord x → options (s ++ x) = ls ++ options x := by
  induction s with
  | nil => exact ⟨[], rfl, fun x _ => rfl⟩
  | cons c s ih =>
    obtain ⟨ls, hls, hothers⟩ := ih (hline.right (s := [c]))
    refine ⟨(readOption? (c :: (s ++ b :: (withOption ++ t)))).toList ++ ls, ?_, fun x hx => ?_⟩
    · rw [List.cons_append, options_cons, hls, List.append_assoc]
    · have hhead : readOption? (c :: (s ++ x)) = readOption? (c :: (s ++ b :: (withOption ++ t))) :=
        readOption?_append_blank (List.cons_ne_nil c s) (fun items => hline.head) hb ⟨t, rfl⟩ hx
      rw [List.cons_append, options_cons, hhead, hothers x hx, List.append_assoc]

theorem endsWord_option (h : IsOption b d) (t : Text) : EndsWord (optionText b d ++ t) := h.blank

theorem options_list (hw : w.Stands rest) (hline : IsRegular (s ++ (w.render ++ rest))) :
    ∃ ls, options (s ++ (w.render ++ rest)) = ls ++ w.items :: options rest ∧
      ∀ x, EndsWord x → options (s ++ x) = ls ++ options x := by
  have hlist := options_render hw (hline.right.list hw)
  rw [w.render_eq] at hline hlist ⊢
  obtain ⟨ls, hbefore, hothers⟩ := options_blank hw.isOption.blank hline
  exact ⟨ls, by rw [hbefore, hlist], hothers⟩

/-- An option at the start of a regular text stands there with a list. -/
theorem exists_list (h : IsOption b d) (hline : IsRegular (optionText b d ++ t)) :
    ∃ list rest, WithList.Stands ⟨b, d, list⟩ rest ∧ t = list ++ rest := by
  obtain ⟨list, rest, hspan⟩ : ∃ list rest, t.span (!isIndent ·) = (list, rest) := ⟨_, _, rfl⟩
  have hread := withList?_optionText h t
  rw [hspan] at hread
  obtain ⟨rfl, hsolid, hends⟩ := span_solid_iff.mp hspan
  refine ⟨list, rest, ⟨h, ?_, hsolid, hends⟩, rfl⟩
  rintro rfl
  have hstart : StartsOption b (d :: rest) := by
    refine ⟨h.blank, ?_⟩
    rcases h.separator with h | h <;> simp [h, endsOption, isIndent]
  have htext : optionText b d ++ ([] ++ rest) = b :: (withOption ++ d :: rest) := by simp [optionText]
  rw [htext] at hline hread
  have hnone := readOption?_start hstart
  rw [hread] at hnone
  exact (hline.head hnone).ne_nil rfl

/-- Part of a list is left: its pieces are what is read then, whatever comes behind. The options in front of
it are read as before. -/
theorem options_part {list part : Text} {i j : List Text} (hw : WithList.Stands ⟨b, d, list⟩ rest)
    (hline : IsRegular (s ++ (optionText b d ++ (list ++ rest))))
    (hlist : list.splitOn ',' = i ++ a :: j) (hpart : part.splitOn ',' = i ++ j) (hne : part ≠ [])
    (hsolid : IsSolid part) :
    ∃ ls, options (s ++ (optionText b d ++ (list ++ rest))) = ls ++ (i ++ a :: j) :: options rest ∧
      (∀ x, EndsWord x → options (s ++ x) = ls ++ options x) ∧
      ∀ rest', EndsWord rest' →
        options (optionText b d ++ (part ++ rest')) = (i ++ j) :: options rest' := by
  rw [← List.append_assoc (optionText b d)] at hline ⊢
  obtain ⟨ls, hbefore, hothers⟩ := options_list hw hline
  have hproper := hline.right.list hw
  rw [WithList.items, hlist] at hproper hbefore
  have herased : IsProper (i ++ j) := hproper.erase (hpart ▸ List.splitOn_ne_nil ',' part)
  refine ⟨ls, hbefore, hothers, fun rest' hends => ?_⟩
  have hw' : WithList.Stands ⟨b, d, part⟩ rest' := ⟨hw.isOption, hne, hsolid, hends⟩
  have hread := options_render hw' (by rwa [WithList.items, hpart])
  rwa [WithList.render, List.append_assoc, WithList.items, hpart] at hread

/-! ### An addon alone, or at the start of its list -/

theorem options_alone (ha : IsAddon a) (h : IsOption b d) (hkept : EndsWord rest)
    (hline : IsRegular (s ++ (optionText b d ++ (a ++ rest)))) :
    ∃ ls ls', options (s ++ (optionText b d ++ (a ++ rest))) = ls ++ [a] :: ls' ∧
      options (s ++ rest) = ls ++ ls' := by
  have hw : WithList.Stands ⟨b, d, a⟩ rest := ⟨h, ha.ne_nil, ha.solid, hkept⟩
  rw [← List.append_assoc (optionText b d)] at hline ⊢
  obtain ⟨ls, hbefore, hothers⟩ := options_list hw hline
  rw [WithList.render, WithList.items, ha.splitOn] at hbefore
  exact ⟨ls, options rest, hbefore, hothers rest hkept⟩

/-- The addon at the start of a list: the others, and what comes behind them. -/
theorem options_first (ha : IsAddon a) (h : IsOption b d)
    (hline : IsRegular (s ++ (optionText b d ++ (a ++ ',' :: t)))) :
    ∃ part rest ls items, t = part ++ rest ∧ IsSolid part ∧ EndsWord rest ∧ items ≠ [] ∧
      options (s ++ (optionText b d ++ (a ++ ',' :: t))) = ls ++ (a :: items) :: options rest ∧
      (∀ x, EndsWord x → options (s ++ x) = ls ++ options x) ∧
      ∀ rest', EndsWord rest' → options (optionText b d ++ (part ++ rest')) = items :: options rest' := by
  obtain ⟨list, rest, hw, htext⟩ := exists_list h hline.right
  have hsolid : IsSolid (a ++ [',']) := ha.solid.append (by decide)
  obtain ⟨part, rfl, rfl⟩ := solid_append_eq hsolid hw.ends (by simpa using htext)
  have hlist : (a ++ [','] ++ part).splitOn ',' = [] ++ a :: part.splitOn ',' := by
    rw [List.append_assoc, List.singleton_append, List.splitOn_append_cons_self, ha.splitOn]
    rfl
  have hline' : IsRegular (s ++ (optionText b d ++ (a ++ [','] ++ part ++ rest))) := by simpa using hline
  have hne : part ≠ [] := by
    rintro rfl
    have hproper := IsRegular.list (by simpa [WithList.render] using hline'.right) hw
    exact (hproper.items [] (by rw [WithList.items, hlist]; simp)).1 rfl
  obtain ⟨ls, hbefore, hothers, hread⟩ := options_part (i := []) hw hline' hlist rfl hne hw.solid.right
  refine ⟨part, rest, ls, part.splitOn ',', rfl, hw.solid.right, hw.ends, List.splitOn_ne_nil ',' part,
    ?_, hothers, hread⟩
  simpa using hbefore

/-! ### An addon behind a comma -/

/-- The text ends in a list, of which it has some already. -/
def InList (p : Text) : Prop :=
  ∃ s b d z, IsOption b d ∧ IsSolid z ∧ p = s ++ (optionText b d ++ z)

/-- What comes behind an addon that is taken out with the comma in front of it. -/
def EndsItem (rest : Text) : Prop := rest.head?.all (fun c => c == ' ' || c == ',') = true

theorem EndsItem.endsOption (h : EndsItem q) : q.head?.all endsOption = true := by
  cases q with
  | nil => rfl
  | cons e q =>
    have he : e = ' ' ∨ e = ',' := by simpa [EndsItem] using h
    rcases he with rfl | rfl <;> rfl

/-- A comma in an option with its list is in the list. -/
theorem comma_in_render (hw : w.Stands rest) (hy : y ≠ []) (h : w.render = y ++ ',' :: x) :
    ∃ z, y = optionText w.blank w.separator ++ z ∧ w.addons = z ++ ',' :: x := by
  rcases List.append_eq_append_iff.mp h with ⟨z, rfl, hz⟩ | ⟨z, hoption, hz⟩
  · exact ⟨z, rfl, hz⟩
  · cases z with
    | nil => exact ⟨[], by simpa using hoption.symm, by simpa using hz.symm⟩
    | cons e z =>
      obtain ⟨rfl, -⟩ := List.cons.inj hz
      obtain ⟨-, hseparator, -⟩ := optionText_split hoption hy comma_not_mem_withOption
      rcases hw.isOption.separator with h | h <;> simp [← hseparator] at h

/-- A list from which a comma and the addon behind it are taken out. -/
theorem exists_items (ha : IsAddon a) (z : Text) (hx : x.head?.all (· = ',')) :
    ∃ i j, (z ++ ',' :: (a ++ x)).splitOn ',' = i ++ a :: j ∧ (z ++ x).splitOn ',' = i ++ j := by
  cases x with
  | nil => exact ⟨z.splitOn ',', [], by simp [List.splitOn_append_cons_self, ha.splitOn], by simp⟩
  | cons e x =>
    obtain rfl : e = ',' := by simpa using hx
    refine ⟨z.splitOn ',', x.splitOn ',', ?_, List.splitOn_append_cons_self z x⟩
    rw [List.splitOn_append_cons_self, List.splitOn_append_cons_self, ha.splitOn]
    rfl

/-- In a list, the addon behind a comma is one of the addons. -/
theorem options_further (ha : IsAddon a) (hp : InList p) (hq : EndsItem q)
    (hline : IsRegular (p ++ ',' :: (a ++ q))) :
    ∃ ls i j ls', options (p ++ ',' :: (a ++ q)) = ls ++ (i ++ a :: j) :: ls' ∧
      options (p ++ q) = ls ++ (i ++ j) :: ls' ∧ i ++ j ≠ [] := by
  obtain ⟨s, b, d, z, h, hz, rfl⟩ := hp
  have htext : s ++ (optionText b d ++ z) ++ ',' :: (a ++ q) =
      s ++ (optionText b d ++ (z ++ ',' :: (a ++ q))) := by simp
  rw [htext] at hline ⊢
  obtain ⟨list, rest, hw, heq⟩ := exists_list h hline.right
  have hsolid : IsSolid (z ++ ',' :: a) := hz.append (ha.solid.cons rfl)
  obtain ⟨x, rfl, rfl⟩ := solid_append_eq hsolid hw.ends (by simpa using heq)
  have hx : x.head?.all (· = ',') = true := by
    cases x with
    | nil => rfl
    | cons e x =>
      have he : isIndent e = false := hw.solid e (by simp)
      have hcomma : e = ' ' ∨ e = ',' := by simpa [EndsItem] using hq
      rcases hcomma with rfl | rfl
      · cases he
      · rfl
  have hlist' : z ++ ',' :: a ++ x = z ++ ',' :: (a ++ x) := by simp
  have hline' : IsRegular (s ++ (optionText b d ++ (z ++ ',' :: a ++ x ++ rest))) := by simpa using hline
  have hne : z ≠ [] := by
    rintro rfl
    have hproper := IsRegular.list (by simpa [WithList.render] using hline'.right) hw
    refine (hproper.items [] ?_).1 rfl
    rw [WithList.items, hlist', List.splitOn_append_cons_self]
    exact List.mem_append_left _ List.mem_cons_self
  obtain ⟨i, j, hlist, hpart⟩ := exists_items ha z hx
  rw [← hlist'] at hlist
  obtain ⟨ls, hbefore, hothers, hread⟩ := options_part hw hline' hlist hpart (by simp [hne])
    (hz.append hw.solid.right)
  refine ⟨ls, i, j, options rest, ?_, ?_, hpart ▸ List.splitOn_ne_nil ',' (z ++ x)⟩
  · simpa using hbefore
  · have hafter := hothers _ (endsWord_option h (z ++ x ++ rest))
    rw [hread rest hw.ends] at hafter
    simpa using hafter

/-- Outside of the lists, what is taken out is not read, and no option is made of what is left. -/
theorem readOption?_outside (hy : y ≠ []) (hq : EndsItem q)
    (hout : ∀ b d z, IsOption b d → IsSolid z → y ≠ optionText b d ++ z)
    (hproper : ∀ items, readOption? (y ++ ',' :: (a ++ q)) = some items → IsProper items) :
    readOption? (y ++ q) = readOption? (y ++ ',' :: (a ++ q)) := by
  cases hread : readOption? (y ++ ',' :: (a ++ q)) with
  | none => exact readOption?_append_eq_none hy hread rfl hq.endsOption
  | some items =>
    obtain ⟨w, rest, hw, hline, rfl⟩ := exists_stands hread (hproper items hread)
    rcases List.append_eq_append_iff.mp hline with ⟨m, hrender, hm⟩ | ⟨m, rfl, hrest⟩
    · cases m with
      | nil =>
        have hends := hw.ends
        rw [← (show _ = rest from hm)] at hends
        cases hends
      | cons e m =>
        obtain ⟨rfl, -⟩ := List.cons.inj hm
        obtain ⟨z, rfl, haddons⟩ := comma_in_render hw hy hrender
        exact absurd rfl (hout _ _ z hw.isOption (IsSolid.left (haddons ▸ hw.solid)))
    · -- The list is over in front of the comma.
      have hends : EndsWord (m ++ q) := by
        have hends := hw.ends
        rw [hrest] at hends
        cases m with
        | nil => cases hends
        | cons e m => exact hends
      rw [List.append_assoc]
      exact readOption?_render ⟨hw.isOption, hw.ne_nil, hw.solid, hends⟩

theorem options_outside (ha : IsAddon a) (hp : ¬ InList p) (hq : EndsItem q)
    (hline : IsRegular (p ++ ',' :: (a ++ q))) : options (p ++ q) = options (p ++ ',' :: (a ++ q)) := by
  induction p with
  | nil =>
    have hsolid : IsSolid (',' :: a) := ha.solid.cons rfl
    rw [List.nil_append, List.nil_append, ← List.cons_append, options_solid hsolid]
  | cons c p ih =>
    have hhead : readOption? (c :: (p ++ q)) = readOption? (c :: (p ++ ',' :: (a ++ q))) :=
      readOption?_outside (List.cons_ne_nil c p) hq
        (fun b d z h hz heq => hp ⟨[], b, d, z, h, hz, heq⟩) fun items => hline.head
    have hp' : ¬ InList p := by
      rintro ⟨s, b, d, z, h, hz, rfl⟩
      exact hp ⟨c :: s, b, d, z, h, hz, rfl⟩
    rw [List.cons_append, List.cons_append, options_cons, options_cons, hhead,
      ih hp' (hline.right (s := [c]))]

/-! ### All steps -/

/-- **One step.** The options lose the addon, or nothing. -/
theorem Takes.loses (h : Takes a line line') (ha : IsAddon a) (hline : IsRegular line) :
    Loses a (options line) (options line') := by
  have hcomma {p q : Text} (hq : EndsItem q) (hline : IsRegular (p ++ ',' :: (a ++ q))) :
      Loses a (options (p ++ ',' :: (a ++ q))) (options (p ++ q)) := by
    by_cases hp : InList p
    · obtain ⟨ls, i, j, ls', hbefore, hafter, hne⟩ := options_further ha hp hq hline
      rw [hbefore, hafter]
      exact .addon ls ls' i j hne
    · rw [options_outside ha hp hq hline]
      exact .nothing _
  cases h with
  | @alone s kept b d hoption hkept =>
    have hends : EndsWord kept := by rcases hkept with rfl | ⟨arguments, rfl, -, -⟩ <;> rfl
    obtain ⟨ls, ls', hbefore, hafter⟩ := options_alone ha hoption hends hline
    rw [hbefore, hafter]
    exact .list ls ls'
  | @first s rest b d hoption =>
    obtain ⟨part, rest, ls, items, rfl, -, hends, hne, hbefore, hothers, hread⟩ :=
      options_first ha hoption hline
    rw [hbefore, hothers _ (endsWord_option hoption _), hread rest hends]
    exact .addon ls (options rest) [] items hne
  | @middle s x rest b c d hoption hx hc =>
    have hq : EndsItem (c :: rest) := by rcases hc with rfl | rfl <;> rfl
    simpa using hcomma (p := s ++ (optionText b d ++ x)) hq (by simpa using hline)
  | @last s x b d hoption hx =>
    simpa using hcomma (p := s ++ (optionText b d ++ x)) (q := []) rfl (by simpa using hline)

theorem Takes.isRegular (h : Takes a line line') (ha : IsAddon a) (hline : IsRegular line) :
    IsRegular line' := (h.loses ha hline).isProper hline

theorem addons_eq_options (h : IsRegular line) : addons line = (options line).flatten := by
  rw [addons_eq_flatten, lists_eq_options h]

theorem Takes.filter_eq (h : Takes a line line') (ha : IsAddon a) (hline : IsRegular line) :
    (addons line').filter (· ≠ a) = (addons line).filter (· ≠ a) := by
  rw [addons_eq_options hline, addons_eq_options (h.isRegular ha hline), (h.loses ha hline).filter_eq]

theorem Takes.eq_or_count_eq (h : Takes a line line') (ha : IsAddon a) (hline : IsRegular line) :
    addons line' = addons line ∨ (addons line').count a + 1 = (addons line).count a := by
  rw [addons_eq_options hline, addons_eq_options (h.isRegular ha hline)]
  exact (h.loses ha hline).eq_or_count_eq.imp_left (congrArg List.flatten)

/-- What is kept by all steps together. -/
structure Keeps (a line line' : Text) : Prop where
  isRegular : IsRegular line'
  filter_eq : (addons line').filter (· ≠ a) = (addons line).filter (· ≠ a)
  count_le : (addons line').count a ≤ (addons line).count a

theorem keeps_of_reflTransGen (h : ReflTransGen (Takes a) line line') (ha : IsAddon a)
    (hline : IsRegular line) : Keeps a line line' := by
  induction h with
  | refl => exact ⟨hline, rfl, le_rfl⟩
  | tail _ hstep ih =>
    refine ⟨hstep.isRegular ha ih.isRegular, (hstep.filter_eq ha ih.isRegular).trans ih.filter_eq, ?_⟩
    rcases hstep.eq_or_count_eq ha ih.isRegular with heq | heq
    · rw [heq]
      exact ih.count_le
    · have := ih.count_le
      omega

end Packaging.Makefile.Invocation
