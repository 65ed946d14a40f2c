import Packaging.Proofs.Makefile.AddonLists

/-!
# Slots of a command line

At its blanks a command line falls into the program and a slot behind each blank. Of two blanks that
stand together the first one has an empty slot, and all other slots are the arguments. So an argument
stands between blanks, or behind the last one, exactly if it is a slot.

## What is proved

* `slots_eq_append_cons`, `mem_slots_iff` — where a slot stands in the command line.
* `sharesBlank_iff` — where two slots with the same argument have one blank between them.
* `program_append`, `slots_append` — a command line that is put together at a blank.
-/

namespace Packaging.Makefile.Invocation

open Text

/-- The text before the first blank. -/
def program (line : Text) : Text := (line.splitOnP isIndent).headD []

/-- What stands between a blank and the next one or the end, for each blank. -/
def slots (line : Text) : List Text := (line.splitOnP isIndent).tail

/-- The slots that are not empty. -/
def filled (ts : List Text) : List Text := ts.filter (!·.isEmpty)

/-- The words of a command line: the program and its arguments. -/
def arguments (line : Text) : List Text := filled (line.splitOnP isIndent)

/-- An argument: a word without blanks. -/
structure IsArgument (x : Text) : Prop where
  ne_nil : x ≠ []
  solid : IsSolid x

variable {x line s t u w : Text} {b c d : Char}

theorem splitOnP_eq (line : Text) : line.splitOnP isIndent = program line :: slots line := by
  obtain ⟨p, ps, h⟩ := List.exists_cons_of_ne_nil (List.splitOnP_ne_nil isIndent line)
  rw [program, slots, h]
  rfl

theorem arguments_eq (line : Text) : arguments line = filled (program line :: slots line) := by
  rw [arguments, splitOnP_eq]

theorem filled_append (ts us : List Text) : filled (ts ++ us) = filled ts ++ filled us :=
  List.filter_append ts us

theorem filled_cons (t : Text) (ts : List Text) :
    filled (t :: ts) = if t = [] then filled ts else t :: filled ts := by
  cases t <;> rfl

theorem mem_filled_iff {ts : List Text} : t ∈ filled ts ↔ t ∈ ts ∧ t ≠ [] := by
  rw [filled, List.mem_filter]
  simp

theorem filled_eq_self {ts : List Text} (h : [] ∉ ts) : filled ts = ts := by
  refine List.filter_eq_self.mpr fun t ht => ?_
  have hne : t ≠ [] := fun heq => h (heq ▸ ht)
  simpa using hne

theorem filled_eq_nil {ts : List Text} (h : ∀ t ∈ ts, t = []) : filled ts = [] := by
  refine List.filter_eq_nil_iff.mpr fun t ht => ?_
  simp [h t ht]

theorem program_eq_of_splitOnP {ps : List Text} (h : line.splitOnP isIndent = t :: ps) :
    program line = t ∧ slots line = ps := by
  rw [splitOnP_eq] at h
  exact List.cons.inj h

/-! ### Putting command lines together -/

theorem program_solid (h : IsSolid w) : program w = w ∧ slots w = [] :=
  program_eq_of_splitOnP (List.splitOnP_eq_singleton h)

/-- A blank ends the last slot and begins a new one. -/
theorem splitOnP_append (s : Text) (hb : isIndent b = true) (t : Text) :
    (s ++ b :: t).splitOnP isIndent = program s :: (slots s ++ program t :: slots t) := by
  rw [List.splitOnP_append_cons s t hb, splitOnP_eq, splitOnP_eq, List.cons_append]

@[simp] theorem program_append (s : Text) (hb : isIndent b = true) (t : Text) :
    program (s ++ b :: t) = program s := (program_eq_of_splitOnP (splitOnP_append s hb t)).1

@[simp] theorem slots_append (s : Text) (hb : isIndent b = true) (t : Text) :
    slots (s ++ b :: t) = slots s ++ program t :: slots t :=
  (program_eq_of_splitOnP (splitOnP_append s hb t)).2

/-- A word goes up to the next blank. -/
theorem program_solid_append (hw : IsSolid w) (ht : EndsWord t) :
    program (w ++ t) = w ∧ slots (w ++ t) = slots t := by
  cases t with
  | nil =>
    rw [List.append_nil]
    exact program_solid hw
  | cons c t =>
    have hc : isIndent c = true := endsWord_cons.mp ht
    have hcons := slots_append [] hc t
    rw [List.nil_append, (program_solid (w := []) nofun).2, List.nil_append] at hcons
    rw [program_append w hc, slots_append w hc, hcons, (program_solid hw).1, (program_solid hw).2]
    exact ⟨rfl, rfl⟩

theorem isSolid_program (line : Text) : IsSolid (program line) ∧
    ∃ rest, EndsWord rest ∧ line = program line ++ rest ∧ slots rest = slots line := by
  obtain ⟨w, rest, hspan⟩ : ∃ w rest, line.span (!isIndent ·) = (w, rest) := ⟨_, _, rfl⟩
  obtain ⟨rfl, hw, hrest⟩ := span_solid_iff.mp hspan
  obtain ⟨hprogram, hslots⟩ := program_solid_append hw hrest
  rw [hprogram]
  exact ⟨hw, rest, hrest, rfl, hslots.symm⟩

/-! ### Where a slot stands -/

theorem slots_cons_blank (hc : isIndent c = true) (t : Text) :
    program (c :: t) = [] ∧ slots (c :: t) = program t :: slots t := by
  have hsplit := splitOnP_append [] hc t
  rw [(program_solid (w := []) nofun).1, (program_solid (w := []) nofun).2] at hsplit
  exact program_eq_of_splitOnP hsplit

theorem slots_cons_solid (hc : isIndent c = false) (t : Text) :
    program (c :: t) = c :: program t ∧ slots (c :: t) = slots t := by
  refine program_eq_of_splitOnP ?_
  rw [List.splitOnP_cons_eq_if_modifyHead, if_neg (by simp [hc]), splitOnP_eq]
  rfl

/-- The slots before and after a slot are those of the text before its blank and of the text behind it. -/
theorem slots_eq_append_cons {ps qs : List Text} (h : slots line = ps ++ x :: qs) :
    ∃ s b rest, isIndent b = true ∧ IsSolid x ∧ EndsWord rest ∧ line = s ++ b :: (x ++ rest) ∧
      slots s = ps ∧ slots rest = qs := by
  induction line generalizing ps with
  | nil => exact absurd h.symm (List.append_ne_nil_of_right_ne_nil ps (List.cons_ne_nil x qs))
  | cons c t ih =>
    cases hc : isIndent c with
    | true =>
      rw [(slots_cons_blank hc t).2] at h
      cases ps with
      | nil =>
        obtain ⟨rfl, rfl⟩ := List.cons.inj h
        obtain ⟨hsolid, rest, hrest, ht, hslots⟩ := isSolid_program t
        exact ⟨[], c, rest, hc, hsolid, hrest, by rw [← ht]; rfl, rfl, hslots⟩
      | cons p ps =>
        obtain ⟨rfl, hmore⟩ := List.cons.inj h
        obtain ⟨s, b, rest, hb, hsolid, hrest, rfl, rfl, hslots⟩ := ih hmore
        refine ⟨c :: s, b, rest, hb, hsolid, hrest, rfl, ?_, hslots⟩
        rw [(slots_cons_blank hc s).2, program_append s hb]
    | false =>
      rw [(slots_cons_solid hc t).2] at h
      obtain ⟨s, b, rest, hb, hsolid, hrest, rfl, rfl, hslots⟩ := ih h
      exact ⟨c :: s, b, rest, hb, hsolid, hrest, rfl, (slots_cons_solid hc s).2, hslots⟩

theorem slots_append_solid (hb : isIndent b = true) (hx : IsSolid x) (ht : EndsWord t) (s : Text) :
    slots (s ++ b :: (x ++ t)) = slots s ++ x :: slots t := by
  obtain ⟨hprogram, hslots⟩ := program_solid_append hx ht
  rw [slots_append s hb, hprogram, hslots]

/-- The slots are what stands between a blank and the next one or the end. -/
theorem mem_slots_iff (hx : IsSolid x) :
    x ∈ slots line ↔ ∃ s b rest, isIndent b = true ∧ EndsWord rest ∧ line = s ++ b :: (x ++ rest) := by
  constructor
  · intro h
    obtain ⟨ps, qs, hslots⟩ := List.append_of_mem h
    obtain ⟨s, b, rest, hb, -, hrest, hline, -⟩ := slots_eq_append_cons hslots
    exact ⟨s, b, rest, hb, hrest, hline⟩
  · rintro ⟨s, b, rest, hb, hrest, rfl⟩
    rw [slots_append_solid hb hx hrest]
    exact List.mem_append_right _ List.mem_cons_self

theorem getLast?_slots_iff (hx : IsSolid x) :
    (slots line).getLast? = some x ↔ ∃ s b, isIndent b = true ∧ line = s ++ b :: x := by
  constructor
  · intro h
    obtain ⟨ps, hslots⟩ := List.getLast?_eq_some_iff.mp h
    obtain ⟨s, b, rest, hb, -, hrest, rfl, -, hnil⟩ := slots_eq_append_cons hslots
    cases rest with
    | nil => exact ⟨s, b, hb, by rw [List.append_nil]⟩
    | cons c rest =>
      rw [(slots_cons_blank (endsWord_cons.mp hrest) rest).2] at hnil
      cases hnil
  · rintro ⟨s, b, hb, rfl⟩
    rw [slots_append s hb, (program_solid hx).1, (program_solid hx).2, List.getLast?_concat]

/-- Where all slots and the program are empty there are only blanks. -/
theorem isIndent_of_splitOnP (hprogram : program t = []) (h : ∀ p ∈ slots t, p = []) :
    ∀ c ∈ t, isIndent c = true := by
  induction t with
  | nil => nofun
  | cons c t ih =>
    cases hc : isIndent c with
    | true =>
      rw [(slots_cons_blank hc t).2] at h
      obtain ⟨hfirst, hmore⟩ := List.forall_mem_cons.mp h
      exact List.forall_mem_cons.mpr ⟨hc, ih hfirst hmore⟩
    | false =>
      rw [(slots_cons_solid hc t).1] at hprogram
      cases hprogram

/-- Of blanks that stand together, all but the last one have an empty slot. -/
theorem slots_blanks_append {blanks : Text} (hb : isIndent b = true) (h : ∀ c ∈ blanks, isIndent c = true)
    (t : Text) : slots (b :: (blanks ++ t)) =
      List.replicate blanks.length [] ++ program t :: slots t := by
  induction blanks generalizing b with
  | nil => exact (slots_cons_blank hb t).2
  | cons c blanks ih =>
    obtain ⟨hc, hblanks⟩ := List.forall_mem_cons.mp h
    rw [List.cons_append, (slots_cons_blank hb _).2, (slots_cons_blank hc _).1, ih hc hblanks]
    rfl

/-! ### Slots with one argument -/

/-- The argument stands at two places that share the blank between them, and a blank follows. -/
def SharesBlank (x line : Text) : Prop :=
  ∃ b c d, isIndent b = true ∧ isIndent c = true ∧ isIndent d = true ∧
    b :: (x ++ c :: (x ++ [d])) <:+: line

/-- The argument is the last one and the last but one, and ends the command line. -/
def EndsTwice (x line : Text) : Prop :=
  ∃ b blanks, isIndent b = true ∧ blanks ≠ [] ∧ (∀ c ∈ blanks, isIndent c = true) ∧
    b :: (x ++ (blanks ++ x)) <:+ line

/-- A text that goes on with a slot has its blank there. -/
theorem exists_blank_cons {p : Text} {ps : List Text} (ht : EndsWord t) (h : slots t = p :: ps) :
    ∃ b u, isIndent b = true ∧ t = b :: u ∧ program u = p ∧ slots u = ps := by
  cases t with
  | nil =>
    rw [(program_solid (w := []) nofun).2] at h
    cases h
  | cons b u =>
    have hb : isIndent b = true := endsWord_cons.mp ht
    rw [(slots_cons_blank hb u).2] at h
    obtain ⟨hp, hps⟩ := List.cons.inj h
    exact ⟨b, u, hb, rfl, hp, hps⟩

theorem infix_dropLast_iff {as bs : List Text} (h : as ≠ []) :
    as <:+: bs.dropLast ↔ ∃ u p v, bs = u ++ as ++ p :: v := by
  constructor
  · rintro ⟨u, v, huv⟩
    rcases List.eq_nil_or_concat' bs with rfl | ⟨init, p, rfl⟩
    · simp [h] at huv
    · rw [List.dropLast_concat] at huv
      rcases List.exists_cons_of_ne_nil (List.concat_ne_nil p v) with ⟨q, w, hw⟩
      exact ⟨u, q, w, by rw [← hw, ← huv, List.append_assoc]⟩
  · rintro ⟨u, p, v, rfl⟩
    rw [List.dropLast_append_of_ne_nil (List.cons_ne_nil p v)]
    exact ⟨u, (p :: v).dropLast, rfl⟩

theorem sharesBlank_iff (hx : IsSolid x) : SharesBlank x line ↔ [x, x] <:+: (slots line).dropLast := by
  rw [infix_dropLast_iff (List.cons_ne_nil x [x])]
  constructor
  · rintro ⟨b, c, d, hb, hc, hd, u, v, rfl⟩
    refine ⟨slots u, program v, slots v, ?_⟩
    have hline : u ++ b :: (x ++ c :: (x ++ [d])) ++ v = u ++ b :: (x ++ c :: (x ++ d :: v)) := by simp
    have hrest : slots (c :: (x ++ d :: v)) = x :: program v :: slots v := by
      rw [(slots_cons_blank hc _).2, (program_solid_append hx (endsWord_cons.mpr hd)).1,
        (program_solid_append hx (endsWord_cons.mpr hd)).2, (slots_cons_blank hd v).2]
    rw [hline, slots_append_solid hb hx (endsWord_cons.mpr hc), hrest]
    simp
  · rintro ⟨ps, q, qs, h⟩
    rw [List.append_assoc] at h
    obtain ⟨s, b, rest, hb, -, hends, rfl, -, hrest⟩ := slots_eq_append_cons h
    obtain ⟨c, u, hc, rfl, hu, hslots⟩ := exists_blank_cons hends hrest
    obtain ⟨-, rest', hends', heq, hrest'⟩ := isSolid_program u
    obtain ⟨d, v, hd, rfl, -, -⟩ := exists_blank_cons hends' (hrest'.trans hslots)
    rw [hu] at heq
    exact ⟨b, c, d, hb, hc, hd, s, v, by rw [heq]; simp⟩

theorem program_of_endsWord (h : EndsWord t) : program t = [] := by
  cases t with
  | nil => exact (program_solid (w := []) nofun).1
  | cons c t => exact (slots_cons_blank (endsWord_cons.mp h) t).1

theorem endsTwice_iff (hx : IsSolid x) :
    EndsTwice x line ↔ ∃ ps es, (∀ e ∈ es, e = []) ∧ slots line = ps ++ x :: (es ++ [x]) := by
  constructor
  · rintro ⟨b, blanks, hb, hne, hblanks, u, rfl⟩
    obtain ⟨c, blanks, rfl⟩ := List.exists_cons_of_ne_nil hne
    obtain ⟨hc, hmore⟩ := List.forall_mem_cons.mp hblanks
    refine ⟨slots u, List.replicate blanks.length [], fun e => List.eq_of_mem_replicate, ?_⟩
    rw [List.cons_append, slots_append_solid hb hx (endsWord_cons.mpr hc), slots_blanks_append hc hmore,
      (program_solid hx).1, (program_solid hx).2]
  · rintro ⟨ps, es, hes, h⟩
    obtain ⟨s, b, rest, hb, -, hends, rfl, -, hrest⟩ := slots_eq_append_cons h
    obtain ⟨t, c, hc, rfl⟩ := (getLast?_slots_iff hx).mp (by rw [hrest, List.getLast?_concat])
    rw [slots_append t hc, (program_solid hx).1, (program_solid hx).2] at hrest
    have ht : slots t = es := List.append_cancel_right hrest
    have hstart : EndsWord t := by
      cases t with
      | nil => rfl
      | cons d t => exact endsWord_cons.mpr (endsWord_cons.mp hends)
    have hblanks := isIndent_of_splitOnP (program_of_endsWord hstart) (ht ▸ hes)
    refine ⟨b, t ++ [c], hb, by simp, List.forall_mem_append.mpr ⟨hblanks, by simpa using hc⟩, s, ?_⟩
    simp

end Packaging.Makefile.Invocation
