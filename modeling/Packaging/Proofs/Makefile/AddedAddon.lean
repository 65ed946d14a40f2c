import Packaging.Proofs.Makefile.AddonLists

/-!
# Adding an addon

An addon goes to the end of the first list of a command line, or into a list of its own behind it. It is
handed over as a template, in which a dollar sign refers to a group of the option, so this is true of the
texts that the template gives back as they are.

## What is proved

* `lists_insert`, `lists_append_option` — the lists of a command line with one addon more.
* `addAddon_iff` — an addon is added as it is, at the end of the first list, exactly if it is the text that
  it gives as a template.
-/

namespace Packaging.Makefile.Invocation

open Text

variable {line a before after : Text} {w : WithList}

/-- The groups that a template for an option can refer to. -/
def WithList.groups (w : WithList) : List Text := [w.render, [w.blank], [w.separator], w.addons]

/-- The text begins with a blank and the option as a word of its own. -/
def beginsWithOption : Text → Bool
  | [] => false
  | blank :: t => isIndent blank && (dropStart? withOption t).any fun rest =>
      rest.head?.all fun c => isIndent c || c == '='

/-- Behind every option stands a list. -/
def HasLists (line : Text) : Prop :=
  ∀ t ∈ line.tails, beginsWithOption t = true → (withList? t).isSome

/-- One addon more in the first list, or in a list of its own. -/
def addToFirst (a : Text) : List (List Text) → List (List Text)
  | [] => [[a]]
  | items :: rest => (items ++ [a]) :: rest

/-- The second command line is the first one and an addon: behind a comma somewhere in it, or in an option
of its own behind it if it has no list. -/
inductive Gains (a : Text) : (line line' : Text) → Prop where
  | inList (before after : Text) : Gains a (before ++ after) (before ++ ',' :: a ++ after)
  | inOption (line : Text) (h : lists line = []) : Gains a line (line ++ optionText ' ' '=' ++ a)

/-! ### Templates -/

theorem expandFrom_of_not_mem {groups : List Text} {t : Text} (h : '$' ∉ t) :
    Template.expandFrom groups 0 t = t := by
  induction t with
  | nil => rfl
  | cons c t ih =>
    rw [List.mem_cons, not_or] at h
    obtain ⟨hc, ht⟩ := h
    rw [Template.expandFrom, if_neg (Ne.symm hc), ih ht]

/-- A text without dollar signs is a template for itself. -/
theorem expand_of_not_mem {groups : List Text} {t : Text} (h : '$' ∉ t) :
    Template.expand groups t = t := expandFrom_of_not_mem h

/-! ### A list with one addon more -/

namespace WithList

/-- The option with a comma and a text at the end of its list. -/
def insert (w : WithList) (t : Text) : WithList := { w with addons := w.addons ++ ',' :: t }

theorem render_insert (w : WithList) (t : Text) : (w.insert t).render = w.render ++ ',' :: t := by
  simp [render, insert]

theorem items_insert (w : WithList) (t : Text) : (w.insert t).items = w.items ++ t.splitOn ',' :=
  List.splitOn_append_cons_self w.addons t

theorem Stands.insert (hw : w.Stands after) {t rest : Text} (ht : IsSolid t) (hrest : EndsWord rest) :
    (w.insert t).Stands rest :=
  ⟨hw.isOption, by simp [WithList.insert], hw.solid.append (ht.cons rfl), hrest⟩

end WithList

/-- A word that is put at the end of the first list is split like the list. -/
theorem lists_insert (hw : w.Stands after) (hpassed : IsPassed withList? before (w.render ++ after))
    {t rest : Text} (ht : IsSolid t) (hrest : EndsWord rest) :
    lists (before ++ (w.render ++ ',' :: t ++ rest)) = (w.items ++ t.splitOn ',') :: lists rest := by
  have hinsert : IsPassed withList? before ((w.insert t).render ++ rest) :=
    (isPassed_render_iff (w.insert t) hw.isOption.blank rfl after rest).mp hpassed
  rw [← w.render_insert, lists_found (hw.insert ht hrest) hinsert, w.items_insert]

theorem not_beginsWithOption (hline : HasLists line) (hnone : IsPassed withList? line []) {s t : Text}
    (h : line = s ++ t) : beginsWithOption t = false := by
  by_contra hoption
  obtain ⟨⟨w, rest⟩, hw⟩ := Option.isSome_iff_exists.mp
    (hline t ((List.mem_tails _ _).mpr ⟨s, h.symm⟩) (by simpa using hoption))
  have ht : t = [] := eq_nil_of_isPassed hnone h hw
  rw [ht] at hw
  cases hw

/-- Behind a command line without lists, an option with a list is the only one. -/
theorem lists_append_option (hline : HasLists line) (hnone : IsPassed withList? line [])
    (ha : IsAddon a) : lists (line ++ optionText ' ' '=' ++ a) = [[a]] := by
  have hw : WithList.Stands ⟨' ', '=', a⟩ [] := ⟨⟨rfl, .inl rfl⟩, ha.ne_nil, ha.solid, endsWord_nil⟩
  have hpassed : IsPassed withList? line (WithList.render ⟨' ', '=', a⟩ ++ []) := by
    rw [WithList.render_eq, isPassed_iff]
    intro u v huv hv
    rw [← Option.not_isSome_iff_eq_none, isSome_withList?_append_blank hv rfl]
    rintro (hsome | ⟨b, hb, rfl, -, -⟩)
    · obtain ⟨⟨w, rest⟩, hlist⟩ := Option.isSome_iff_exists.mp hsome
      exact hv (eq_nil_of_isPassed hnone huv hlist)
    · -- The line would end with an option without a list.
      have hoption : beginsWithOption (b :: withOption) = true := by
        simp [beginsWithOption, hb, dropStart?_eq_some_iff.mpr (List.append_nil withOption).symm]
      rw [not_beginsWithOption hline hnone huv] at hoption
      cases hoption
  have hlists := lists_found hw hpassed
  rwa [List.append_nil, lists_nil, WithList.items, ha.splitOn, WithList.render,
    ← List.append_assoc] at hlists

/-! ### What is added -/

theorem addAddon_of_mem (h : a ∈ addons line) : addAddon line a = line :=
  if_pos (List.contains_iff_mem.mpr h)

theorem addAddon_of_not_mem (h : a ∉ addons line) :
    addAddon line a = (replaceFirst? withList?
      (fun w => w.render ++ ',' :: Template.expand w.groups a) line).getD
        (line ++ optionText ' ' '=' ++ a) := by
  rw [addAddon, if_neg (by simpa using h)]
  simp [WithList.groups, optionText]

theorem addAddon_of_isPassed (h : a ∉ addons line) (hnone : IsPassed withList? line []) :
    addAddon line a = line ++ optionText ' ' '=' ++ a := by
  rw [addAddon_of_not_mem h, replaceFirst?_eq_none hnone, Option.getD_none]

theorem addAddon_of_stands (hw : w.Stands after) (hpassed : IsPassed withList? before (w.render ++ after))
    (h : a ∉ addons (before ++ (w.render ++ after))) :
    addAddon (before ++ (w.render ++ after)) a =
      before ++ (w.render ++ ',' :: Template.expand w.groups a ++ after) := by
  rw [addAddon_of_not_mem h, replaceFirst?_passed hpassed,
    replaceFirst?_found consumes_withList? (withList?_eq_some_iff.mpr ⟨hw, rfl⟩), Option.map_some,
    Option.getD_some]

/-- An addon that is added cannot be added again. -/
theorem addAddon_addAddon (h : lists (addAddon line a) = addToFirst a (lists line)) :
    addAddon (addAddon line a) a = addAddon line a := by
  refine addAddon_of_mem ?_
  rw [addons_eq_flatten, h]
  cases lists line <;> simp [addToFirst]

theorem Gains.length_eq {line' : Text} (h : Gains a line line') (hlists : lists line ≠ []) :
    line'.length = line.length + a.length + 1 := by
  cases h with
  | inList before after =>
    simp only [List.length_append, List.length_cons]
    omega
  | inOption _ hnone => exact absurd hnone hlists

/-- Where an addon is found at the end of the first list, and nothing else has been put in, the template
has given the addon. -/
theorem expand_eq_of_lists (hw : w.Stands after) (hpassed : IsPassed withList? before (w.render ++ after))
    {t : Text} (hlength : t.length = a.length)
    (h : lists (before ++ (w.render ++ ',' :: t ++ after)) =
      addToFirst a (lists (before ++ (w.render ++ after)))) : t = a := by
  obtain ⟨x, y, hspan⟩ : ∃ x y, (t ++ after).span (!isIndent ·) = (x, y) := ⟨_, _, rfl⟩
  obtain ⟨hxy, hx, hy⟩ := span_solid_iff.mp hspan
  have hline : w.render ++ ',' :: t ++ after = w.render ++ ',' :: x ++ y := by
    rw [List.append_assoc, List.cons_append, hxy, List.append_assoc, List.cons_append]
  rw [hline, lists_insert hw hpassed hx hy, lists_found hw hpassed, addToFirst] at h
  have hsplit : x.splitOn ',' = [a] := List.append_cancel_left (List.cons.inj h).1
  have hxa : x = a := by
    rw [← join_splitOn ',' x, hsplit, join_singleton]
  rw [← hxa] at hlength
  rw [(List.append_inj hxy hlength).1, hxa]

/-- **Adding an addon.** An addon that a command line asks for is not added again. Any other one goes to
the end of the first list, or into a list of its own if there is none, and nothing else changes, exactly if
as a template for that option it gives itself. -/
theorem addAddon_iff (hline : HasLists line) (ha : IsAddon a) :
    (a ∈ addons line → addAddon line a = line) ∧
    (a ∉ addons line →
      (lists (addAddon line a) = addToFirst a (lists line) ∧ Gains a line (addAddon line a) ∧
          addAddon (addAddon line a) a = addAddon line a ↔
        ∀ w ∈ (findAll withList? line).head?, Template.expand w.groups a = a)) := by
  refine ⟨addAddon_of_mem, fun hmem => ?_⟩
  rcases exists_first_list line with hnone | ⟨before, after, w, rfl, hw, hpassed⟩
  · have hlists := lists_append_option hline hnone ha
    rw [← addAddon_of_isPassed hmem hnone] at hlists
    have hadded : lists (addAddon line a) = addToFirst a (lists line) := by
      rw [hlists, lists_eq_nil hnone, addToFirst]
    refine ⟨fun _ => by simp [findAll_eq_nil hnone], fun _ => ⟨hadded, ?_, addAddon_addAddon hadded⟩⟩
    rw [addAddon_of_isPassed hmem hnone]
    exact .inOption line (lists_eq_nil hnone)
  · have hfirst : (findAll withList? (before ++ (w.render ++ after))).head? = some w := by
      rw [findAll_passed hpassed,
        findAll_found consumes_withList? (withList?_eq_some_iff.mpr ⟨hw, rfl⟩), List.head?_cons]
    have hline' := addAddon_of_stands hw hpassed hmem
    rw [hfirst]
    constructor
    · rintro ⟨hadded, hgains, -⟩ _ ⟨⟩
      have hlength := hgains.length_eq (by simp [lists_found hw hpassed])
      rw [hline'] at hadded hlength
      refine expand_eq_of_lists hw hpassed ?_ hadded
      simp only [List.length_append, List.length_cons] at hlength
      omega
    · intro hexpand
      rw [hexpand w rfl] at hline'
      have hadded : lists (addAddon (before ++ (w.render ++ after)) a) =
          addToFirst a (lists (before ++ (w.render ++ after))) := by
        rw [hline', lists_insert hw hpassed ha.solid hw.ends, ha.splitOn, lists_found hw hpassed,
          addToFirst]
      refine ⟨hadded, ?_, addAddon_addAddon hadded⟩
      rw [hline', ← List.append_assoc, ← List.append_assoc, ← List.append_assoc]
      exact .inList (before ++ w.render) after

/-- A command line with a list of one addon, and an argument behind it. -/
def fooLine : Text := "dh $@ --with=foo --parallel".toList

theorem addAddon_fooLine :
    HasLists fooLine ∧ IsAddon "python3".toList ∧ "python3".toList ∉ addons fooLine ∧
      (∀ w ∈ (findAll withList? fooLine).head?,
        Template.expand w.groups "python3".toList = "python3".toList) ∧
      lists (addAddon fooLine "python3".toList) = [["foo".toList, "python3".toList]] ∧
      Gains "python3".toList fooLine (addAddon fooLine "python3".toList) := by
  have hline : HasLists fooLine := by unfold HasLists; decide +kernel
  have ha : IsAddon "python3".toList := ⟨by decide, by decide, by decide⟩
  have hmem : "python3".toList ∉ addons fooLine := by decide +kernel
  have hexpand : ∀ w ∈ (findAll withList? fooLine).head?,
      Template.expand w.groups "python3".toList = "python3".toList := by decide +kernel
  obtain ⟨hadded, hgains, -⟩ := ((addAddon_iff hline ha).2 hmem).mpr hexpand
  have hlists : addToFirst "python3".toList (lists fooLine) = [["foo".toList, "python3".toList]] := by
    decide +kernel
  exact ⟨hline, ha, hmem, hexpand, hadded.trans hlists, hgains⟩

/-- An addon that begins with a dollar sign is a reference to a group that there is not: what is added is
an addon without a name. -/
theorem not_addAddon_dollar :
    HasLists fooLine ∧ IsAddon "$x".toList ∧ "$x".toList ∉ addons fooLine ∧
      addAddon fooLine "$x".toList = "dh $@ --with=foo, --parallel".toList ∧
      lists (addAddon fooLine "$x".toList) = [["foo".toList, []]] := by
  have hline : HasLists fooLine := by unfold HasLists; decide +kernel
  have ha : IsAddon "$x".toList := ⟨by decide, by decide, by decide⟩
  exact ⟨hline, ha, by decide +kernel, by decide +kernel, by decide +kernel⟩

end Packaging.Makefile.Invocation
