import Packaging.Proofs.Makefile.AddonRoundTrip
import Packaging.Proofs.Makefile.LeadingAddon

/-!
# Dropping an addon

What is kept, when nothing changes, and when just the addon is dropped.

## What is proved

* `count_dropAddon_lt` — an addon that has a place in a list is dropped at least once.
* `addons_dropAddon` — which addons are dropped, and when just the addon is dropped.
-/

namespace Packaging.Makefile.Invocation

open Text Relation

variable {a line line' rest : Text} {w : WithList}

/-! ### What is dropped -/

/-- Just the addon is dropped: the lists have all others, in order, and a command line that does not ask
for it stays as it is. -/
def DropsJust (a line : Text) : Prop :=
  addons (dropAddon line a) = (addons line).filter (· ≠ a) ∧ (a ∉ addons line → dropAddon line a = line)

/-- If the command line asks for the addon, all its places are in lists. -/
def InListsOnly (a line : Text) : Prop :=
  a ∈ addons line → ∀ line', Takes a line line' → addons line' ≠ addons line

/-- The command line asks for the addon as long as there is a place to take it from, and no longer. -/
def WellPlaced (a line : Text) : Prop :=
  ∀ l, ReflTransGen (Takes a) line l → (a ∈ addons l ↔ ∃ l', Takes a l l')

theorem eq_filter_iff {as bs : List Text} (h : as.filter (· ≠ a) = bs.filter (· ≠ a)) :
    as = bs.filter (· ≠ a) ↔ a ∉ as := by
  rw [← h, eq_comm, List.filter_eq_self]
  constructor
  · intro hall hmem
    simpa using hall a hmem
  · intro hmem b hb
    have hne : b ≠ a := fun h => hmem (h ▸ hb)
    simpa using hne

theorem dropsJust_iff (hline : IsRegular line) (ha : IsAddon a) :
    DropsJust a line ↔ a ∉ addons (dropAddon line a) ∧ (a ∉ addons line → dropAddon line a = line) := by
  rw [DropsJust, eq_filter_iff (keeps_of_reflTransGen (takes_dropAddon line a) ha hline).filter_eq]

/-- Where all places are in lists, an addon that has one is dropped at least once. -/
theorem count_dropAddon_lt (hline : IsRegular line) (ha : IsAddon a) (hlists : InListsOnly a line)
    (hmem : a ∈ addons line) (h : Takes a line line') :
    (addons (dropAddon line a)).count a < (addons line).count a := by
  rcases (takes_dropAddon line a).cases_head with heq | ⟨l, hstep, hsteps⟩
  · exact absurd h (dropAddon_eq_self_iff.mp heq.symm line')
  · have hcount := (hstep.eq_or_count_eq ha hline).resolve_left (hlists hmem l hstep)
    have hle := (keeps_of_reflTransGen hsteps ha (hstep.isRegular ha hline)).count_le
    omega

/-- Where one line holds a list and what comes behind it after a space, every addon of the list has a place. -/
theorem exists_takes (hw : w.Stands rest) (hproper : IsProper w.items) (hmem : a ∈ w.items)
    (hnew : '\n' ∉ w.addons) (hkept : IsKeptBehind rest) (s : Text) :
    ∃ line', Takes a (s ++ (w.render ++ rest)) line' := by
  obtain ⟨i, j, hitems⟩ := List.append_of_mem hmem
  have haddons : w.addons = join [','] (i ++ a :: j) := by
    rw [← hitems, WithList.items, join_splitOn]
  have hbetween (hi : i ≠ []) (hsub : join [','] i <+: w.addons) : IsBetween (join [','] i) := by
    refine ⟨?_, fun h => hnew (hsub.subset h)⟩
    obtain ⟨k, i, rfl⟩ := List.exists_cons_of_ne_nil hi
    intro hnil
    have hk := prefix_join_cons [','] k i
    rw [hnil, List.prefix_nil] at hk
    exact (hproper.items k (by simp [hitems])).1 hk
  rw [WithList.render, List.append_assoc]
  by_cases hi : i = []
  · subst hi
    cases j with
    | nil =>
      rw [haddons, List.nil_append, join_singleton]
      exact ⟨_, .alone hw.isOption hkept⟩
    | cons k j =>
      rw [haddons, List.nil_append, join_cons_cons, List.append_assoc, List.append_assoc]
      exact ⟨_, .first hw.isOption⟩
  · rw [join_append hi (List.cons_ne_nil a j), List.append_assoc] at haddons
    have hx := hbetween hi ⟨_, haddons.symm⟩
    rw [haddons]
    cases j with
    | nil =>
      rw [join_singleton]
      rcases hkept with rfl | ⟨arguments, rfl, -, -⟩
      · rw [List.append_nil]
        exact ⟨_, .last hw.isOption hx⟩
      · rw [List.append_assoc, List.append_assoc]
        exact ⟨_, .middle hw.isOption hx (.inl rfl)⟩
    | cons k j =>
      rw [join_cons_cons]
      simp only [List.append_assoc, List.cons_append]
      exact ⟨_, .middle hw.isOption hx (.inr rfl)⟩

theorem mem_addons_iff_of_dropsJust (h : DropsJust a line) :
    a ∈ addons line ↔ ∃ line', Takes a line line' := by
  obtain ⟨hdropped, hkept⟩ := h
  constructor
  · intro hmem
    by_contra hnone
    rw [dropAddon_eq_self_iff.mpr (not_exists.mp hnone)] at hdropped
    rw [hdropped] at hmem
    simp at hmem
  · rintro ⟨line', htakes⟩
    by_contra hmem
    exact dropAddon_eq_self_iff.mp (hkept hmem) line' htakes

theorem dropAddon_of_not_mem (h : a ∉ addons line) (hplace : a ∈ addons line ↔ ∃ line', Takes a line line') :
    dropAddon line a = line :=
  dropAddon_eq_self_iff.mpr fun line' htakes => h (hplace.mpr ⟨line', htakes⟩)

/-- An addon that is asked for once, and has a place in its list only, is dropped. -/
theorem dropsJust_of_count_le_one (hline : IsRegular line) (ha : IsAddon a)
    (honce : (addons line).count a ≤ 1) (hlists : InListsOnly a line)
    (hplace : a ∈ addons line ↔ ∃ line', Takes a line line') : DropsJust a line := by
  rw [dropsJust_iff hline ha]
  refine ⟨?_, fun h => dropAddon_of_not_mem h hplace⟩
  by_cases hmem : a ∈ addons line
  · obtain ⟨line', htakes⟩ := hplace.mp hmem
    have hlt := count_dropAddon_lt hline ha hlists hmem htakes
    exact List.count_eq_zero.mp (by omega)
  · rwa [dropAddon_of_not_mem hmem hplace]

/-- As long as it is asked for exactly where it has a place, an addon is dropped altogether if there is
nothing left to drop. -/
theorem dropsJust_iff_idem (hline : IsRegular line) (ha : IsAddon a) (hplaced : WellPlaced a line) :
    DropsJust a line ↔ dropAddon (dropAddon line a) a = dropAddon line a := by
  have hleft := hplaced (dropAddon line a) (takes_dropAddon line a)
  rw [dropsJust_iff hline ha, and_iff_left fun h => dropAddon_of_not_mem h (hplaced line .refl), hleft,
    not_exists, dropAddon_eq_self_iff]

/-- **Dropping an addon.** A command line stays as it is exactly if the addon has no place in it. So just the
addon can only be dropped if it has a place exactly in the lines that ask for it. In a regular line all other
addons are kept, in order, and the addon itself is dropped wherever it is at the start of a list that has
others; just the addon is dropped where a line with a place asks for it once, and has no place outside of the
lists. Where asking and having a place go together from step to step, however many steps there are, just the
addon is dropped exactly if nothing is left for a second run. -/
theorem addons_dropAddon (ha : IsAddon a) (line : Text) :
    (dropAddon line a = line ↔ ∀ line', ¬ Takes a line line') ∧
    (DropsJust a line → (a ∈ addons line ↔ ∃ line', Takes a line line')) ∧
    (IsRegular line →
      (addons (dropAddon line a)).filter (· ≠ a) = (addons line).filter (· ≠ a) ∧
      (addons (dropAddon line a)).count a ≤ further a (lists line) ∧
      ((addons line).count a ≤ 1 → InListsOnly a line → (a ∈ addons line ↔ ∃ line', Takes a line line') →
        DropsJust a line) ∧
      (WellPlaced a line → (DropsJust a line ↔ dropAddon (dropAddon line a) a = dropAddon line a))) :=
  ⟨dropAddon_eq_self_iff, mem_addons_iff_of_dropsJust, fun hline =>
    ⟨(keeps_of_reflTransGen (takes_dropAddon line a) ha hline).filter_eq, count_dropAddon_le ha hline,
      dropsJust_of_count_le_one hline ha, dropsJust_iff_idem hline ha⟩⟩

/-- A command line with two lists, and arguments behind them. -/
def pythonLine : Text := "dh $@ --with foo,python3 --with=bar --parallel".toList

theorem addons_dropAddon_pythonLine :
    IsAddon "python3".toList ∧ IsRegular pythonLine ∧
      ((addons pythonLine).count "python3".toList ≤ 1 ∧ InListsOnly "python3".toList pythonLine ∧
        ("python3".toList ∈ addons pythonLine ↔ ∃ line', Takes "python3".toList pythonLine line')) ∧
      DropsJust "python3".toList pythonLine ∧
      (addons (dropAddon pythonLine "python3".toList)).filter (· ≠ "python3".toList) =
        ["foo".toList, "bar".toList] ∧
      WellPlaced "python3".toList pythonLine ∧
      dropAddon (dropAddon pythonLine "python3".toList) "python3".toList =
        dropAddon pythonLine "python3".toList := by
  have hline : IsRegular pythonLine := by decide +kernel
  have ha : IsAddon "python3".toList := ⟨by decide, by decide, by decide⟩
  have honce : (addons pythonLine).count "python3".toList ≤ 1 := by decide +kernel
  have habsent : ¬ "python3".toList <:+: "dh $@ --with foo".toList ++ " --with=bar --parallel".toList := by
    decide +kernel
  have htext : pythonLine =
      "dh $@ --with foo".toList ++ ',' :: ("python3".toList ++ " --with=bar --parallel".toList) := by
    decide +kernel
  have honly {line' : Text} (htakes : Takes "python3".toList pythonLine line') :
      line' = "dh $@ --with foo".toList ++ " --with=bar --parallel".toList := by
    rw [htext] at htakes
    exact eq_of_takes_insert ha habsent rfl htakes
  have hlists : InListsOnly "python3".toList pythonLine := by
    intro hmem line' htakes
    rw [honly htakes]
    decide +kernel
  have hplace : "python3".toList ∈ addons pythonLine ↔ ∃ line', Takes "python3".toList pythonLine line' := by
    have hw : WithList.Stands ⟨' ', ' ', "foo,python3".toList⟩ " --with=bar --parallel".toList :=
      ⟨⟨rfl, .inr rfl⟩, by decide, by decide, rfl⟩
    have hkept : IsKeptBehind " --with=bar --parallel".toList :=
      .inr ⟨"--with=bar --parallel".toList, by decide +kernel, by decide, by decide⟩
    have hproper : IsProper (WithList.items ⟨' ', ' ', "foo,python3".toList⟩) := by decide +kernel
    refine iff_of_true (by decide +kernel) ?_
    exact exists_takes hw hproper (by decide +kernel) (by decide) hkept "dh $@".toList
  have hplaced : WellPlaced "python3".toList pythonLine := by
    intro l hsteps
    rcases hsteps.cases_head with rfl | ⟨l', hstep, hsteps⟩
    · exact hplace
    · have hnone {l'' : Text} (h : Takes "python3".toList l' l'') : False :=
        habsent (honly hstep ▸ h.infix)
      obtain rfl : l' = l := by
        rcases hsteps.cases_head with heq | ⟨l'', hstep', -⟩
        · exact heq
        · exact (hnone hstep').elim
      refine iff_of_false (fun hmem => habsent ?_) (fun ⟨l'', h⟩ => hnone h)
      exact honly hstep ▸ infix_of_mem_addons hmem
  obtain ⟨-, -, hregular⟩ := addons_dropAddon ha pythonLine
  obtain ⟨hkept, -, hjust, hidem⟩ := hregular hline
  have hdropped := hjust honce hlists hplace
  exact ⟨ha, hline, ⟨honce, hlists, hplace⟩, hdropped, hkept.trans (by decide +kernel), hplaced,
    (hidem hplaced).mp hdropped⟩

/-- Behind a comma, what another option lists at the end of the line is taken for an addon. -/
theorem not_dropsJust_listLine :
    IsRegular "dh $@ --with=foo --list=x,python3".toList ∧ IsAddon "python3".toList ∧
      "python3".toList ∉ addons "dh $@ --with=foo --list=x,python3".toList ∧
      dropAddon "dh $@ --with=foo --list=x,python3".toList "python3".toList =
        "dh $@ --with=foo --list=x".toList ∧
      ¬ DropsJust "python3".toList "dh $@ --with=foo --list=x,python3".toList := by
  have hmem : "python3".toList ∉ addons "dh $@ --with=foo --list=x,python3".toList := by decide +kernel
  refine ⟨by decide +kernel, ⟨by decide, by decide, by decide⟩, hmem, by decide +kernel, fun hjust => ?_⟩
  exact absurd (hjust.2 hmem) (by decide +kernel)

end Packaging.Makefile.Invocation
