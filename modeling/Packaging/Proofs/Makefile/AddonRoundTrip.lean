import Packaging.Proofs.Makefile.AddedAddon
import Packaging.Proofs.Makefile.AddonPlaces

/-!
# Dropping an added addon

An addon that is nowhere in a command line has, once it is added, one place in it: where it was put. So
dropping it gives back the command line.

## What is proved

* `eq_of_append_insert`, `tail_of_append_option` — where the text of the addon stands in the longer line.
* `dropAddon_addAddon` — adding and dropping an addon gives back the command line.
-/

namespace Packaging.Makefile.Invocation

open Text

variable {line line' a u v x before after : Text} {w : WithList}

/-! ### In a list that is there -/

/-- A word that was put in behind a comma stands there only. -/
theorem eq_of_append_insert (ha : IsAddon a) (habsent : ¬ a <:+: x ++ after) (hafter : EndsWord after)
    (h : u ++ (a ++ v) = x ++ ',' :: (a ++ after)) : u = x ++ [','] ∧ v = after := by
  rcases append_eq_append_cons ha.comma h with ⟨v', rfl, -⟩ | ⟨u', rfl, hrest⟩
  · exact absurd ⟨u, v' ++ after, by simp⟩ habsent
  · suffices hu : u' = [] by
      subst hu
      exact ⟨rfl, (List.append_cancel_left hrest).symm⟩
    cases after with
    | nil =>
      have hlength := congrArg List.length hrest
      simp only [List.length_append, List.length_nil] at hlength
      exact List.length_eq_zero_iff.mp (by omega)
    | cons c rest =>
      have hout : c ∉ a := fun hmem => by simp [endsWord_cons, ha.solid c hmem] at hafter
      rcases append_eq_append_cons hout hrest.symm with ⟨v', hword, -⟩ | ⟨u'', -, rfl⟩
      · have hlength := congrArg List.length hword
        simp only [List.length_append] at hlength
        exact List.length_eq_zero_iff.mp (by omega)
      · exact absurd ⟨x ++ c :: u'', v, by simp⟩ habsent

theorem takes_insert (hw : w.Stands after) (hnew : '\n' ∉ w.addons) (hafter : after.head?.all (· = ' ')) :
    Takes a (before ++ (w.render ++ ',' :: (a ++ after))) (before ++ (w.render ++ after)) := by
  have hbetween : IsBetween w.addons := ⟨hw.ne_nil, hnew⟩
  rw [WithList.render, List.append_assoc, List.append_assoc]
  cases after with
  | nil =>
    rw [List.append_nil, List.append_nil]
    exact .last hw.isOption hbetween
  | cons c rest => exact .middle hw.isOption hbetween (.inl (by simpa using hafter))

theorem eq_of_takes_insert (ha : IsAddon a) (habsent : ¬ a <:+: x ++ after) (hafter : EndsWord after)
    (h : Takes a (x ++ ',' :: (a ++ after)) line') : line' = x ++ after := by
  generalize hline : x ++ ',' :: (a ++ after) = line at h
  -- In front of the addon stands a comma, so it is not the first one behind an option.
  have hcomma {s kept : Text} {b d : Char} (hoption : IsOption b d)
      (heq : s ++ (optionText b d ++ (a ++ kept)) = x ++ ',' :: (a ++ after)) : False := by
    rw [← List.append_assoc] at heq
    have hend := congrArg List.getLast? (eq_of_append_insert ha habsent hafter heq).1
    have hd : d = ',' := by simpa using hend
    rcases hoption.separator with hd' | hd' <;> simp [hd'] at hd
  cases h with
  | alone hoption hkept => exact (hcomma hoption hline.symm).elim
  | first hoption => exact (hcomma hoption hline.symm).elim
  | @middle s y rest b c d hoption hy hc =>
    have heq : s ++ (optionText b d ++ (y ++ [','])) ++ (a ++ c :: rest) = x ++ ',' :: (a ++ after) := by
      simp [hline]
    obtain ⟨hstart, rfl⟩ := eq_of_append_insert ha habsent hafter heq
    have hx : s ++ (optionText b d ++ y) = x := by simpa [← List.append_assoc] using hstart
    simp [← hx]
  | @last s y b d hoption hy =>
    have heq : s ++ (optionText b d ++ (y ++ [','])) ++ (a ++ []) = x ++ ',' :: (a ++ after) := by
      simp [hline]
    obtain ⟨hstart, rfl⟩ := eq_of_append_insert ha habsent hafter heq
    have hx : s ++ (optionText b d ++ y) = x := by simpa [← List.append_assoc] using hstart
    simp [← hx]

/-! ### In an option of its own -/

/-- Behind a word in a new option there is neither a blank nor a comma. -/
theorem tail_of_append_option (ha : IsAddon a) (habsent : ¬ a <:+: line)
    (h : u ++ (a ++ v) = line ++ optionText ' ' '=' ++ a) : IsSolid v ∧ ',' ∉ v := by
  have hout : ' ' ∉ a := fun hmem => by cases ha.solid ' ' hmem
  have heq : u ++ (a ++ v) = line ++ ' ' :: (withOption ++ '=' :: a) := by
    rw [h, optionText]
    simp
  rcases append_eq_append_cons hout heq with ⟨v', rfl, -⟩ | ⟨u', -, hrest⟩
  · exact absurd ⟨u, v', by simp⟩ habsent
  · have hsub : ∀ c ∈ v, c ∈ withOption ∨ c = '=' ∨ c ∈ a := by
      intro c hc
      have hmem : c ∈ withOption ++ '=' :: a := by
        rw [hrest]
        simp [hc]
      simpa using hmem
    constructor
    · intro c hc
      rcases hsub c hc with h | rfl | h
      · exact isSolid_withOption c h
      · rfl
      · exact ha.solid c h
    · intro hc
      rcases hsub ',' hc with h | h | h
      · exact comma_not_mem_withOption h
      · cases h
      · exact ha.comma h

theorem takes_option (line a : Text) : Takes a (line ++ optionText ' ' '=' ++ a) line := by
  have h : Takes a (line ++ (optionText ' ' '=' ++ (a ++ []))) (line ++ []) :=
    .alone ⟨rfl, .inl rfl⟩ (.inl rfl)
  rwa [List.append_nil, List.append_nil, ← List.append_assoc] at h

theorem eq_of_takes_option (ha : IsAddon a) (habsent : ¬ a <:+: line)
    (h : Takes a (line ++ optionText ' ' '=' ++ a) line') : line' = line := by
  generalize hline : line ++ optionText ' ' '=' ++ a = l at h
  cases h with
  | @alone s kept b d hoption hkept =>
    rw [← List.append_assoc] at hline
    have hsolid := (tail_of_append_option ha habsent hline.symm).1
    rcases hkept with rfl | ⟨arguments, rfl, -, -⟩
    · rw [List.append_nil] at hline ⊢
      exact ((List.append_inj' (List.append_cancel_right hline) rfl).1).symm
    · cases hsolid ' ' List.mem_cons_self
  | @first s rest b d hoption =>
    rw [← List.append_assoc] at hline
    exact absurd List.mem_cons_self (tail_of_append_option ha habsent hline.symm).2
  | @middle s y rest b c d hoption hy hc =>
    have heq : s ++ (optionText b d ++ (y ++ [','])) ++ (a ++ c :: rest) =
        line ++ optionText ' ' '=' ++ a := by simp [hline]
    obtain ⟨hsolid, hcomma⟩ := tail_of_append_option ha habsent heq
    rcases hc with rfl | rfl
    · cases hsolid ' ' List.mem_cons_self
    · exact absurd List.mem_cons_self hcomma
  | @last s y b d hoption hy =>
    -- The addon is at the end of the line both times, but behind different characters.
    have heq : line ++ optionText ' ' '=' ++ a = s ++ (optionText b d ++ (y ++ [','])) ++ a := by
      simp [hline]
    have hend := congrArg List.getLast? (List.append_cancel_right heq)
    simp [← List.append_assoc] at hend

/-! ### Adding and dropping -/

/-- **Dropping an added addon.** In a command line without tabs and newlines, an addon that is not part of
its text and no template is added and dropped again without a trace. -/
theorem dropAddon_addAddon (htab : '\t' ∉ line) (hnew : '\n' ∉ line) (ha : IsAddon a) (hdollar : '$' ∉ a)
    (habsent : ¬ a <:+: line) : dropAddon (addAddon line a) a = line := by
  have hmem : a ∉ addons line := fun h => habsent (infix_of_mem_addons h)
  have hdone : ∀ l, ¬ Takes a line l := fun l h => habsent h.infix
  rcases exists_first_list line with hnone | ⟨before, after, w, rfl, hw, hpassed⟩
  · rw [addAddon_of_isPassed hmem hnone]
    exact dropAddon_eq_of_takes (takes_option line a) (fun l => eq_of_takes_option ha habsent) hdone
  · rw [addAddon_of_stands hw hpassed hmem, expand_of_not_mem hdollar, List.append_assoc, List.cons_append]
    have hafter : after.head?.all (· = ' ') := by
      have hends := hw.ends
      cases after with
      | nil => rfl
      | cons c rest =>
        have hc : c ≠ '\t' := fun h => htab (by simp [h])
        simpa [endsWord_cons, isIndent, hc] using hends
    have hlist : '\n' ∉ w.addons := fun h => hnew (by simp [WithList.render, h])
    refine dropAddon_eq_of_takes (takes_insert hw hlist hafter) (fun l hl => ?_) hdone
    rw [← List.append_assoc] at habsent hl ⊢
    exact eq_of_takes_insert ha habsent hw.ends hl

theorem dropAddon_addAddon_fooLine :
    ('\t' ∉ fooLine ∧ '\n' ∉ fooLine ∧ IsAddon "c++.*".toList ∧ '$' ∉ "c++.*".toList ∧
      ¬ "c++.*".toList <:+: fooLine) ∧
    addAddon fooLine "c++.*".toList = "dh $@ --with=foo,c++.* --parallel".toList ∧
    dropAddon (addAddon fooLine "c++.*".toList) "c++.*".toList = fooLine := by
  have htab : '\t' ∉ fooLine := by decide
  have hnew : '\n' ∉ fooLine := by decide
  have ha : IsAddon "c++.*".toList := ⟨by decide, by decide, by decide⟩
  have hdollar : '$' ∉ "c++.*".toList := by decide
  have habsent : ¬ "c++.*".toList <:+: fooLine := by decide +kernel
  exact ⟨⟨htab, hnew, ha, hdollar, habsent⟩, by decide +kernel,
    dropAddon_addAddon htab hnew ha hdollar habsent⟩

end Packaging.Makefile.Invocation
