import Packaging.Proofs.Text.Ink
import Packaging.WatchFile.Parser
import Packaging.WatchFile.Printer

/-!
# Options of a watch file

Options stand in a list with commas, which is put between quotes where there is white space in it.

## What is proved

* `takeOptions_render` — options that are written in front of something are read again.
* `takeOptions_eq_ok` — what is read as options can be written, and takes no more ink then. It has
  quotes in it only if it has no white space.
-/

namespace Packaging.WatchFile

open Text

/-! ### Texts -/

theorem startsWith_iff_dropStart? {start t : Text} :
    startsWith start t = true ↔ ∃ rest, dropStart? start t = some rest := by
  rw [startsWith, List.isPrefixOf_iff_prefix]
  constructor
  · rintro ⟨rest, rfl⟩
    exact ⟨rest, dropStart?_append start rest⟩
  · rintro ⟨rest, hrest⟩
    exact ⟨rest, (dropStart?_eq_some_iff.mp hrest).symm⟩

theorem startsWith_eq_false_iff {start t : Text} :
    startsWith start t = false ↔ dropStart? start t = none := by
  rw [← Bool.not_eq_true, startsWith_iff_dropStart?, Option.eq_none_iff_forall_ne_some, not_exists]

/-- What has no white space in it stands at the start of a word or not at all. -/
theorem startsWith_append_of_blank {start w rest : Text} (hstart : ∀ c ∈ start, isBlank c = false)
    (hrest : rest.head?.all isBlank = true) : startsWith start (w ++ rest) = startsWith start w := by
  induction start generalizing w with
  | nil => simp [startsWith]
  | cons a start ih =>
    obtain ⟨ha, hstart⟩ := List.forall_mem_cons.mp hstart
    cases w with
    | cons c w =>
      have hstep := ih (w := w) hstart
      rw [startsWith, startsWith] at hstep
      rw [startsWith, startsWith, List.cons_append, List.isPrefixOf_cons_cons,
        List.isPrefixOf_cons_cons, hstep]
    | nil =>
      cases rest with
      | nil => rfl
      | cons c rest =>
        have hc : isBlank c = true := by simpa using hrest
        have hne : a ≠ c := by
          rintro rfl
          rw [ha] at hc
          cases hc
        have hfalse : (a == c) = false := by simpa using hne
        rw [List.nil_append, startsWith, startsWith, List.isPrefixOf_cons_cons, hfalse]
        rfl

theorem any_join_comma (p : Char → Bool) (hp : p ',' = false) (ts : List Text) :
    (join [','] ts).any p = ts.any (·.any p) := by
  induction ts with
  | nil => rfl
  | cons t ts ih =>
    cases ts with
    | nil => rw [join_singleton]; simp
    | cons u us => rw [join_cons_cons, List.any_append, List.any_append, ih]; simp [hp]

/-! ### Options -/

/-- A text that can stand as an option in a list. -/
structure IsOption (o : Text) : Prop extends IsTrimmed o where
  noComma : ',' ∉ o
  noNewline : '\n' ∉ o

namespace Options

/-- The list of options as it stands in a line. -/
def list (options : Options) : Text := join [','] options

/-- Some option has white space in it. -/
def hasBlank (options : Options) : Bool := options.list.any isBlank

/-- Options as they are read: the list does not begin with a quote. -/
structure IsRead (options : Options) : Prop where
  each : ∀ o ∈ options, IsOption o
  bare : options.list.head? ≠ some '"'

/-- There are no quotes in the list if it is put between quotes. -/
def IsQuotable (options : Options) : Prop := options.hasBlank = true → '"' ∉ options.list

variable {options : Options}

theorem mem_list_iff {c : Char} (hc : c ≠ ',') : c ∈ options.list ↔ ∃ o ∈ options, c ∈ o := by
  have hany := any_join_comma (· == c) (by simpa using hc.symm) options
  rw [Bool.eq_iff_iff, List.any_eq_true, List.any_eq_true] at hany
  rw [list]
  simpa using hany

theorem isRead_nil : IsRead [] := ⟨nofun, nofun⟩

theorem isQuotable_nil : IsQuotable [] := nofun

theorem render_eq (options : Options) :
    options.render =
      if options.hasBlank then optionsStart ++ '"' :: options.list ++ ['"']
      else optionsStart ++ options.list := rfl

theorem startsWith_render (options : Options) : startsWith optionsStart options.render = true := by
  rw [startsWith, List.isPrefixOf_iff_prefix, render_eq]
  split
  · rw [List.append_assoc]
    exact List.prefix_append _ _
  · exact List.prefix_append _ _

theorem IsRead.newline_not_mem_render (h : options.IsRead) : '\n' ∉ options.render := by
  have hstart : '\n' ∉ optionsStart := by decide
  have hlist : '\n' ∉ options.list := by
    rw [mem_list_iff (by decide)]
    rintro ⟨o, ho, hmem⟩
    exact (h.each o ho).noNewline hmem
  rw [render_eq]
  split <;> simp [hstart, hlist]

theorem splitOptions_list (h : ∀ o ∈ options, IsOption o) (hne : options ≠ []) :
    splitOptions options.list = options := by
  rw [splitOptions, list, splitOn_join (fun o ho => (h o ho).noComma) hne]
  exact (List.map_congr_left fun o ho => (h o ho).trim_eq).trans (List.map_id options)

theorem takeOptions_quoted {quoted list rest : Text} (h : cut? '"' quoted = some (list, rest)) :
    takeOptions (optionsStart ++ '"' :: quoted) = .ok (splitOptions list, rest) := by
  rw [takeOptions, dropStart?_append]
  split
  · rename_i hnone
    cases hnone
  · rename_i quoted' hquoted
    obtain rfl : quoted = quoted' := by simpa using hquoted
    rw [h]
  · rename_i hnot hrest
    exact absurd (Option.some.inj hrest).symm (hnot quoted)

theorem takeOptions_bare {rest : Text} (h : rest.head? ≠ some '"') :
    takeOptions (optionsStart ++ rest) =
      .ok (splitOptions (splitAtBlank rest).1, (splitAtBlank rest).2) := by
  rw [takeOptions, dropStart?_append]
  split
  · rename_i hnone
    cases hnone
  · rename_i quoted hquoted
    rw [Option.some.inj hquoted] at h
    exact absurd rfl h
  · rename_i hrest
    obtain rfl := Option.some.inj hrest
    rfl

/-- Options that are written in front of white space are read again. -/
theorem takeOptions_render (h : options.IsRead) (hquotable : options.IsQuotable) (hne : options ≠ [])
    {rest : Text} (hrest : rest.head?.all isBlank = true) :
    takeOptions (options.render ++ rest) = .ok (options, rest) := by
  have hsplit : splitOptions options.list = options := splitOptions_list h.each hne
  rw [render_eq]
  cases hblank : options.hasBlank with
  | true =>
    have hcut : cut? '"' (options.list ++ '"' :: rest) = some (options.list, rest) :=
      cut?_eq_some_iff.mpr ⟨hquotable hblank, rfl⟩
    have hline : optionsStart ++ '"' :: options.list ++ ['"'] ++ rest =
        optionsStart ++ '"' :: (options.list ++ '"' :: rest) := by simp
    rw [if_pos rfl, hline, takeOptions_quoted hcut, hsplit]
  | false =>
    have hword : ∀ c ∈ options.list, (!isBlank c) = true := by
      intro c hc
      simpa using List.any_eq_false.mp hblank c hc
    have hspan : splitAtBlank (options.list ++ rest) = (options.list, rest) := by
      refine span_eq_iff.mpr ⟨rfl, hword, ?_⟩
      cases rest with
      | nil => rfl
      | cons c rest => simpa using hrest
    have hbare : (options.list ++ rest).head? ≠ some '"' := by
      cases hlist : options.list with
      | cons c l =>
        have hhead : (c :: l).head? ≠ some '"' := hlist ▸ h.bare
        exact hhead
      | nil =>
        intro hhead
        rw [List.nil_append] at hhead
        rw [hhead] at hrest
        exact absurd hrest (by decide)
    rw [if_neg Bool.false_ne_true, List.append_assoc, takeOptions_bare hbare, hspan, hsplit]

/-! ### Options that are read -/

theorem isOption_of_mem_splitOptions {t o : Text} (ht : '\n' ∉ t) (h : o ∈ splitOptions t) : IsOption o := by
  obtain ⟨piece, hpiece, rfl⟩ := List.mem_map.mp h
  refine ⟨isTrimmed_trim piece, fun hmem => ?_, fun hmem => ?_⟩
  · exact not_mem_of_mem_splitOn hpiece (mem_of_mem_trim hmem)
  · exact ht (mem_of_mem_splitOn hpiece (mem_of_mem_trim hmem))

theorem splitOptions_ne_nil (t : Text) : splitOptions t ≠ [] := by
  simp [splitOptions, List.splitOn_ne_nil]

/-- A list that is read has all the ink that was there. -/
theorem ink_list_splitOptions (t : Text) : ink (list (splitOptions t)) = ink t := by
  have hsplit : inkAll (splitOptions t) = inkAll (t.splitOn ',') := inkAll_map ink_trim _
  have hlength : (splitOptions t).length = (t.splitOn ',').length := List.length_map ..
  have hjoin : ink t + 1 = inkAll (t.splitOn ',') + (t.splitOn ',').length := by
    rw [← ink_join_comma (List.splitOn_ne_nil ',' t), join_splitOn]
  have hlist := ink_join_comma (splitOptions_ne_nil t)
  rw [list]
  omega

/-- Without white space a list is read as it is. -/
theorem list_splitOptions {t : Text} (h : ∀ c ∈ t, isBlank c = false) : list (splitOptions t) = t := by
  have hpieces : splitOptions t = t.splitOn ',' := by
    refine (List.map_congr_left fun piece hpiece => ?_).trans (List.map_id _)
    have hblank : ∀ c ∈ piece, isBlank c = false := fun c hc => h c (mem_of_mem_splitOn hpiece hc)
    refine IsTrimmed.trim_eq ⟨?_, ?_⟩
    · cases hhead : piece.head? with
      | none => rfl
      | some c => simpa using hblank c (List.mem_of_head? hhead)
    · cases hlast : piece.getLast? with
      | none => rfl
      | some c => simpa using hblank c (List.mem_of_getLast? hlast)
  rw [hpieces, list, join_splitOn]

theorem quote_not_mem_list_splitOptions {t : Text} (h : '"' ∉ t) : '"' ∉ list (splitOptions t) := by
  intro hmem
  obtain ⟨o, ho, hquote⟩ := (mem_list_iff (by decide)).mp hmem
  obtain ⟨piece, hpiece, rfl⟩ := List.mem_map.mp ho
  exact h (mem_of_mem_splitOn hpiece (mem_of_mem_trim hquote))

/-- The ink of options that are written, if there are any. -/
def inkOf (options : Options) : Nat := if options.isEmpty then 0 else ink options.render

theorem ink_render (options : Options) :
    ink options.render = ink options.list + if options.hasBlank then 7 else 5 := by
  have hstart : ink optionsStart = 5 := by decide
  have hquote : ink ['"'] = 1 := by decide
  rw [render_eq]
  split
  · rw [ink_append, ink_append, ink_cons, hstart, hquote]
    omega
  · rw [ink_append, hstart]
    omega

theorem inkOf_le (options : Options) :
    inkOf options ≤ ink options.list + if options.hasBlank then 7 else 5 := by
  rw [← ink_render, inkOf]
  split
  · exact Nat.zero_le _
  · exact Nat.le_refl _

/-- Options that are read from a line, with the rest of it: they can be written, and there is no more
ink then than there was. -/
structure AreTaken (line : Text) (options : Options) (rest : Text) : Prop where
  read : options.IsRead
  quotable : options.IsQuotable
  ink_le : inkOf options + ink rest ≤ ink line

theorem areTaken_nil (line : Text) : AreTaken line [] line :=
  ⟨isRead_nil, isQuotable_nil, by simp [inkOf]⟩

/-- Between quotes there are none. -/
theorem areTaken_quoted {quoted list rest : Text} (hline : '\n' ∉ quoted)
    (h : cut? '"' quoted = some (list, rest)) :
    AreTaken (optionsStart ++ '"' :: quoted) (splitOptions list) rest := by
  obtain ⟨hnone, rfl⟩ := cut?_eq_some_iff.mp h
  have hlist : '\n' ∉ list := fun hmem => hline (List.mem_append_left _ hmem)
  have hmem := quote_not_mem_list_splitOptions hnone
  refine ⟨⟨fun o ho => isOption_of_mem_splitOptions hlist ho, fun h => hmem (List.mem_of_head? h)⟩,
    fun _ => hmem, ?_⟩
  have hstart : ink optionsStart = 5 := by decide
  have hquote : ink ['"'] = 1 := by decide
  have hle := inkOf_le (splitOptions list)
  rw [ink_list_splitOptions] at hle
  rw [ink_append, ink_cons, ink_append, ink_cons '"' rest, hstart, hquote]
  split at hle <;> omega

/-- Without quotes the options go up to the first white space. -/
theorem areTaken_bare {word rest : Text} (hline : '\n' ∉ word) (hword : ∀ c ∈ word, isBlank c = false)
    (hhead : word.head? ≠ some '"') :
    AreTaken (optionsStart ++ (word ++ rest)) (splitOptions word) rest := by
  have hlist := list_splitOptions hword
  have hblank : (splitOptions word).hasBlank = false := by
    rw [hasBlank, hlist]
    simpa using hword
  refine ⟨⟨fun o ho => isOption_of_mem_splitOptions hline ho, hlist.symm ▸ hhead⟩, fun h => ?_, ?_⟩
  · rw [hblank] at h
    cases h
  · have hstart : ink optionsStart = 5 := by decide
    have hle := inkOf_le (splitOptions word)
    rw [hlist, hblank, if_neg Bool.false_ne_true] at hle
    rw [ink_append, ink_append, hstart]
    omega

/-- **What is read as options** can be written, with no more ink than there was. -/
theorem takeOptions_eq_ok {line rest : Text} (hline : '\n' ∉ line)
    (h : takeOptions line = .ok (options, rest)) :
    AreTaken line options rest ∧ (startsWith optionsStart line = true → options ≠ []) := by
  cases hdrop : dropStart? optionsStart line with
  | none =>
    rw [takeOptions, hdrop] at h
    cases h
    refine ⟨areTaken_nil line, fun hstarts => ?_⟩
    rw [startsWith_eq_false_iff.mpr hdrop] at hstarts
    cases hstarts
  | some after =>
    obtain rfl := dropStart?_eq_some_iff.mp hdrop
    have hafter : '\n' ∉ after := fun hmem => hline (List.mem_append_right _ hmem)
    by_cases hhead : after.head? = some '"'
    · obtain ⟨quoted, rfl⟩ := List.head?_eq_some_iff.mp hhead
      cases hcut : cut? '"' quoted with
      | none =>
        rw [takeOptions, dropStart?_append] at h
        simp [hcut] at h
      | some parts =>
        obtain ⟨list, rest'⟩ := parts
        rw [takeOptions_quoted hcut] at h
        cases h
        have hquoted : '\n' ∉ quoted := fun hmem => hafter (List.mem_cons_of_mem _ hmem)
        exact ⟨areTaken_quoted hquoted hcut, fun _ => splitOptions_ne_nil list⟩
    · obtain ⟨word, rest', hspan⟩ : ∃ word rest', after.splitAtBlank = (word, rest') := ⟨_, _, rfl⟩
      rw [takeOptions_bare hhead, hspan] at h
      cases h
      obtain ⟨rfl, hword, -⟩ := span_eq_iff.mp hspan
      refine ⟨areTaken_bare (fun hmem => hafter (List.mem_append_left _ hmem))
        (fun c hc => by simpa using hword c hc) (fun h => hhead ?_), fun _ => splitOptions_ne_nil word⟩
      rw [List.head?_append, h]
      rfl

/-! ### More options -/

/-- Options that are read from one more line go behind the others. -/
theorem IsRead.append {more : Options} (h : options.IsRead) (hmore : more.IsRead) :
    IsRead (options ++ more) := by
  refine ⟨List.forall_mem_append.mpr ⟨h.each, hmore.each⟩, ?_⟩
  by_cases hne : options = []
  · rw [hne]
    exact hmore.bare
  by_cases hne' : more = []
  · rw [hne', List.append_nil]
    exact h.bare
  rw [list, join_append hne hne']
  have hbare := h.bare
  rw [list] at hbare
  cases hlist : join [','] options with
  | nil => simp
  | cons c l =>
    rw [hlist] at hbare
    exact hbare

/-- Written together options take no more ink than apart. -/
theorem inkOf_append (options more : Options) : inkOf (options ++ more) ≤ inkOf options + inkOf more := by
  by_cases hne : options = []
  · rw [hne]
    simp [inkOf]
  by_cases hne' : more = []
  · rw [hne']
    simp [inkOf]
  have hboth : list (options ++ more) = options.list ++ [','] ++ more.list := join_append hne hne'
  have hcomma : ink [','] = 1 := by decide
  have hblank : hasBlank (options ++ more) = (options.hasBlank || more.hasBlank) := by
    have hnot : isBlank ',' = false := by decide
    rw [hasBlank, hboth]
    simp [hasBlank, hnot]
  have hall : inkOf (options ++ more) = ink (render (options ++ more)) := by simp [inkOf, hne]
  have hfirst : inkOf options = ink options.render := by simp [inkOf, hne]
  have hsecond : inkOf more = ink more.render := by simp [inkOf, hne']
  rw [hall, hfirst, hsecond, ink_render, ink_render, ink_render, hboth, ink_append, ink_append, hcomma,
    hblank]
  cases options.hasBlank <;> cases more.hasBlank <;> simp <;> omega

end Options

end Packaging.WatchFile
