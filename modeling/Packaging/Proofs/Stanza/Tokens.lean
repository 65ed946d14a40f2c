import Mathlib.Data.List.Induction
import Packaging.Proofs.Stanza.Lines
import Packaging.Proofs.Text.Trim

/-!
# Tokens and the reader of them

The tokens of a text are made line by line, and the reader of a stanza file goes over them without regard to
lines. After the name of a field it takes one more token without looking at it, and it has no use for a colon
or a value that it does not expect. So it relies on how tokens stand next to each other.

## What is proved

* `Token.flatMap_text_ofText`, `Token.text_ne_nil_ofText` — the tokens of a text are the text in pieces, of
  which none is empty.
* `Token.isOrderly_ofText` — how they stand next to each other.
* `Reader.Follows.step`, `Reader.follows_of_run` — what a reader expects is told by the last tokens that it
  took, as long as tokens stand so.
* `Reader.meets_of_run` — so a reader is ready for each token, or the token is a bad line.
* `Document.parse_eq_missingColon` — which text is quoted of a bad line.
* `Document.tokens_met` — all of this for the tokens of any text.
-/

namespace Packaging.Stanza

open Text

/-! ### Lines and their tokens -/

namespace Token

/-- The tokens that a line can have. -/
inductive IsLine : Text → List Token → Prop
  /-- An empty line has none. -/
  | empty : IsLine [] []
  /-- A line of white space, a comment and a bad line are one token. -/
  | whole {kind : TokenKind} {line : Text} (hkind : kind = .whitespace ∨ kind = .comment ∨ kind = .error)
      (hline : line ≠ []) : IsLine line [⟨kind, line⟩]
  /-- A continuation line is an indent and a value. -/
  | continuation {indent value : Text} (hindent : indent ≠ []) (hvalue : value ≠ []) :
      IsLine (indent ++ value) [⟨.indent, indent⟩, ⟨.value, value⟩]
  /-- A field is a name and a colon, and what there is of white space and a value. -/
  | field {name space value : Text} (hname : name ≠ []) :
      IsLine (name ++ ':' :: (space ++ value))
        (⟨.key, name⟩ :: ⟨.colon, [':']⟩ :: (ofNonempty .whitespace space ++ ofNonempty .value value))

theorem isLine_ofLine (line : Text) : IsLine line (ofLine line) := by
  unfold ofLine
  split
  · rename_i hempty
    rw [List.isEmpty_iff.mp hempty]
    exact .empty
  rename_i hempty
  have hline : line ≠ [] := by simpa using hempty
  split
  · exact .whole (.inl rfl) hline
  rename_i hblank
  split
  · exact .whole (.inr (.inl rfl)) hline
  split
  · rename_i hindent
    have hparts : line.takeWhile isIndent ++ line.dropWhile isIndent = line := List.takeWhile_append_dropWhile
    have h : IsLine (line.takeWhile isIndent ++ line.dropWhile isIndent) _ := .continuation ?_ ?_
    · rwa [hparts] at h
    · intro hnone
      cases line with
      | nil => exact hline rfl
      | cons c line => simp_all
    · intro hnone
      refine hblank (List.all_eq_true.mpr fun c hc => ?_)
      rw [hnone, List.append_nil] at hparts
      rw [← hparts] at hc
      exact isBlank_of_isIndent (List.mem_takeWhile_imp hc)
  cases hcut : cut? ':' line with
  | none => exact .whole (.inr (.inr rfl)) hline
  | some parts =>
    obtain ⟨name, text⟩ := parts
    dsimp only
    split
    · rename_i hkey
      have hname : name ≠ [] := by
        rintro rfl
        cases hkey
      have htext : text.takeWhile isIndent ++ text.dropWhile isIndent = text := List.takeWhile_append_dropWhile
      have h : IsLine (name ++ ':' :: (text.takeWhile isIndent ++ text.dropWhile isIndent)) _ := .field hname
      rwa [htext, ← (cut?_eq_some_iff.mp hcut).2] at h
    · exact .whole (.inr (.inr rfl)) hline

theorem flatMap_text_ofNonempty (kind : TokenKind) (text : Text) :
    (ofNonempty kind text).flatMap Token.text = text := by
  unfold ofNonempty
  split
  · rename_i hempty
    rw [List.isEmpty_iff.mp hempty]
    rfl
  · simp

theorem text_ne_nil_ofNonempty {kind : TokenKind} {text : Text} {tok : Token}
    (h : tok ∈ ofNonempty kind text) : tok.text ≠ [] := by
  unfold ofNonempty at h
  split at h
  · cases h
  · rename_i hempty
    rw [List.mem_singleton.mp h]
    simpa using hempty

section IsLine

variable {line : Text} {ts : List Token} {tok : Token}

theorem IsLine.flatMap_text (h : IsLine line ts) : ts.flatMap Token.text = line := by
  cases h with
  | empty => rfl
  | whole hkind hline => simp
  | continuation hindent hvalue => simp
  | field hname => simp [flatMap_text_ofNonempty]

theorem IsLine.text_ne_nil (h : IsLine line ts) (htok : tok ∈ ts) : tok.text ≠ [] := by
  cases h with
  | empty => cases htok
  | whole hkind hline =>
    rw [List.mem_singleton.mp htok]
    exact hline
  | continuation hindent hvalue =>
    rcases List.mem_pair.mp htok with rfl | rfl
    · exact hindent
    · exact hvalue
  | field hname =>
    rcases List.mem_cons.mp htok with rfl | htok
    · exact hname
    rcases List.mem_cons.mp htok with rfl | htok
    · simp
    rcases List.mem_append.mp htok with htok | htok
    · exact text_ne_nil_ofNonempty htok
    · exact text_ne_nil_ofNonempty htok

end IsLine

/-! ### Texts and their tokens -/

/-- What holds of the tokens of each line, and of the token of a line break and of a carriage return, holds of
those of a text, if it goes on when more tokens follow. -/
theorem ofText_induction {P : List Token → Prop} (line : ∀ line, P (ofLine line))
    (carriageReturn : P [⟨.whitespace, ['\r']⟩]) (newline : P [⟨.newline, ['\n']⟩])
    (append : ∀ ts us, P ts → P us → P (ts ++ us)) (t : Text) : P (ofText t) := by
  have hline : ∀ l, P (ofLineWithReturn l) := by
    intro l
    unfold ofLineWithReturn
    split
    · exact append _ _ (line _) carriageReturn
    · exact line l
  have hlines : ∀ ls, P (ofLines ls) := by
    intro ls
    induction ls with
    | nil => exact line []
    | cons l ls ih =>
      cases ls with
      | nil => exact hline l
      | cons l' ls =>
        have hrest := append _ _ newline ih
        exact append _ _ (hline l) hrest
  exact hlines _

theorem text_ne_nil_ofText (t : Text) : ∀ tok ∈ ofText t, tok.text ≠ [] := by
  refine ofText_induction (P := fun ts => ∀ tok ∈ ts, tok.text ≠ [])
    (fun line tok => (isLine_ofLine line).text_ne_nil) ?_ ?_ ?_ t
  · simp
  · simp
  · exact fun ts us hts hus => List.forall_mem_append.mpr ⟨hts, hus⟩

theorem flatMap_text_ofLineWithReturn (line : Text) : (ofLineWithReturn line).flatMap Token.text = line := by
  unfold ofLineWithReturn
  split
  · rename_i body hreturn
    rw [List.flatMap_append, (isLine_ofLine body).flatMap_text, dropEnd?_eq_some_iff.mp hreturn]
    rfl
  · exact (isLine_ofLine line).flatMap_text

theorem flatMap_text_ofLines (ls : List Text) : (ofLines ls).flatMap Token.text = join ['\n'] ls := by
  induction ls with
  | nil => rfl
  | cons line ls ih =>
    cases ls with
    | nil => rw [join_singleton, ofLines, flatMap_text_ofLineWithReturn]
    | cons line' ls =>
      rw [ofLines, List.flatMap_append, List.flatMap_cons, flatMap_text_ofLineWithReturn, ih, join_cons_cons,
        List.append_assoc]
      simp

/-- **The tokens of a text** are the text, cut into pieces. -/
theorem flatMap_text_ofText (t : Text) : (ofText t).flatMap Token.text = t := by
  rw [ofText, flatMap_text_ofLines, join_splitOn]

/-! ### Neighbours -/

/-- What the last of some tokens is. -/
def lastKind? (ts : List Token) : Option TokenKind := ts.getLast?.map Token.kind

/-- The tokens end with a colon, and with one token of white space behind it at most. -/
def EndsField (ts : List Token) : Prop :=
  lastKind? ts = some .colon ∨ lastKind? ts = some .whitespace ∧ lastKind? ts.dropLast = some .colon

/-- How a token stands between those before it and those behind it. -/
structure IsPlaced (before : List Token) (tok : Token) (after : List Token) : Prop where
  /-- A name is directly followed by a colon. -/
  key : tok.kind = .key → after.head? = some ⟨.colon, [':']⟩
  /-- An indent is directly followed by a value. -/
  indent : tok.kind = .indent → after.head?.map Token.kind = some .value
  /-- A colon comes directly behind a name. -/
  colon : tok.kind = .colon → lastKind? before = some .key
  /-- A value comes directly behind an indent, or behind a colon with one token of white space between them
  at most. -/
  value : tok.kind = .value → lastKind? before = some .indent ∨ EndsField before

/-- All tokens stand as they should. -/
def IsOrderly (ts : List Token) : Prop :=
  ∀ before tok after, ts = before ++ tok :: after → IsPlaced before tok after

variable {ts us before after : List Token} {tok : Token} {kind : TokenKind}

@[simp] theorem lastKind?_concat (ts : List Token) (tok : Token) : lastKind? (ts ++ [tok]) = some tok.kind := by
  simp [lastKind?]

theorem exists_of_lastKind? (h : lastKind? ts = some kind) :
    ∃ init tok, ts = init ++ [tok] ∧ tok.kind = kind := by
  obtain ⟨tok, htok, hkind⟩ := Option.map_eq_some_iff.mp h
  obtain ⟨init, hts⟩ := List.getLast?_eq_some_iff.mp htok
  exact ⟨init, tok, hts, hkind⟩

theorem lastKind?_append_left (h : lastKind? ts = some kind) (us : List Token) :
    lastKind? (us ++ ts) = some kind := by
  obtain ⟨init, tok, rfl, rfl⟩ := exists_of_lastKind? h
  rw [← List.append_assoc, lastKind?_concat]

theorem EndsField.append_left (h : EndsField ts) (us : List Token) : EndsField (us ++ ts) := by
  rcases h with h | ⟨hspace, hcolon⟩
  · exact .inl (lastKind?_append_left h us)
  · refine .inr ⟨lastKind?_append_left hspace us, ?_⟩
    have hne : ts ≠ [] := by
      rintro rfl
      cases hspace
    rw [List.dropLast_append_of_ne_nil hne]
    exact lastKind?_append_left hcolon us

/-- More tokens on both sides change nothing. -/
theorem IsPlaced.append (h : IsPlaced before tok after) (ts us : List Token) :
    IsPlaced (ts ++ before) tok (after ++ us) where
  key hkind := by rw [List.head?_append, h.key hkind, Option.some_or]
  indent hkind := by
    obtain ⟨v, hv, hvalue⟩ := Option.map_eq_some_iff.mp (h.indent hkind)
    rw [List.head?_append, hv, Option.some_or, Option.map_some, hvalue]
  colon hkind := lastKind?_append_left (h.colon hkind) ts
  value hkind := (h.value hkind).imp (lastKind?_append_left · ts) (EndsField.append_left · ts)

theorem IsOrderly.append (hts : IsOrderly ts) (hus : IsOrderly us) : IsOrderly (ts ++ us) := by
  intro before tok after h
  rcases List.append_eq_append_iff.mp h with ⟨mid, rfl, hmid⟩ | ⟨mid, rfl, hmid⟩
  · simpa using (hus mid tok after hmid).append ts []
  · cases mid with
    | nil => simpa using (hus [] tok after hmid.symm).append before []
    | cons tok' mid =>
      obtain ⟨rfl, rfl⟩ := List.cons.inj hmid
      simpa using (hts before tok mid rfl).append [] us

/-- What comes behind a name is its colon. -/
theorem IsOrderly.eq_colon (h : IsOrderly (before ++ tok :: after)) (hlast : lastKind? before = some .key) :
    tok = ⟨.colon, [':']⟩ := by
  obtain ⟨init, name, rfl, hkind⟩ := exists_of_lastKind? hlast
  simpa using (h init name (tok :: after) (by simp)).key hkind

theorem IsOrderly.lastKind?_ne_key (h : IsOrderly ts) : lastKind? ts ≠ some .key := by
  intro hlast
  obtain ⟨init, name, rfl, hkind⟩ := exists_of_lastKind? hlast
  cases (h init name [] rfl).key hkind

theorem isOrderly_nil : IsOrderly [] := by
  intro before tok after h
  simp at h

/-- What holds at each place of a list holds at its first place, and at each place of the rest. -/
theorem forall_places_cons {P : List Token → Token → List Token → Prop} :
    (∀ before tok' after, tok :: ts = before ++ tok' :: after → P before tok' after) ↔
      P [] tok ts ∧ ∀ before tok' after, ts = before ++ tok' :: after → P (tok :: before) tok' after := by
  constructor
  · intro h
    refine ⟨h [] tok ts rfl, fun before tok' after hts => ?_⟩
    exact h (tok :: before) tok' after (by rw [hts]; rfl)
  · rintro ⟨hfirst, hrest⟩ before tok' after hts
    cases before with
    | nil =>
      obtain ⟨rfl, rfl⟩ := List.cons.inj hts
      exact hfirst
    | cons tok'' before =>
      obtain ⟨rfl, hrests⟩ := List.cons.inj hts
      exact hrest before tok' after hrests

/-- A token of another kind can stand anywhere. -/
theorem isOrderly_single (hkind : kind ∉ [TokenKind.key, .colon, .indent, .value]) (text : Text) :
    IsOrderly [⟨kind, text⟩] := by
  refine forall_places_cons.mpr ⟨⟨?_, ?_, ?_, ?_⟩, by simp⟩ <;> rintro rfl <;> simp at hkind

theorem isOrderly_ofLine (line : Text) : IsOrderly (ofLine line) := by
  have hline := isLine_ofLine line
  generalize ofLine line = ts at hline
  cases hline with
  | empty => exact isOrderly_nil
  | whole hkind =>
    rcases hkind with rfl | rfl | rfl <;> exact isOrderly_single (by decide) line
  | continuation =>
    refine forall_places_cons.mpr ⟨⟨nofun, fun _ => rfl, nofun, nofun⟩, ?_⟩
    exact forall_places_cons.mpr ⟨⟨nofun, nofun, nofun, fun _ => .inl rfl⟩, by simp⟩
  | field =>
    refine forall_places_cons.mpr ⟨⟨fun _ => rfl, nofun, nofun, nofun⟩, ?_⟩
    refine forall_places_cons.mpr ⟨⟨nofun, nofun, fun _ => rfl, nofun⟩, ?_⟩
    unfold ofNonempty
    split
    · split
      · simp
      · exact forall_places_cons.mpr ⟨⟨nofun, nofun, nofun, fun _ => .inr (.inl rfl)⟩, by simp⟩
    · refine forall_places_cons.mpr ⟨⟨nofun, nofun, nofun, nofun⟩, ?_⟩
      split
      · simp
      · exact forall_places_cons.mpr ⟨⟨nofun, nofun, nofun, fun _ => .inr (.inr ⟨rfl, rfl⟩)⟩, by simp⟩

/-- **How the tokens of a text stand**, also over line breaks. -/
theorem isOrderly_ofText (t : Text) : IsOrderly (ofText t) :=
  ofText_induction isOrderly_ofLine (isOrderly_single (by decide) _) (isOrderly_single (by decide) _)
    (fun _ _ hts hus => hts.append hus) t

end Token

/-! ### The reader of tokens -/

namespace Reader

open Token

variable {r r' : Reader} {before after ts : List Token} {tok : Token}

/-- What a reader expects is told by the tokens that it took last. -/
structure Follows (before : List Token) (r : Reader) : Prop where
  colon : (∃ i, r.expecting = .colon i) ↔ lastKind? before = some .key
  value : EndsField before → ∃ i, r.expecting = .value i
  continuation : lastKind? before = some .indent → ∃ i, r.expecting = .continuation i

theorem follows_nil : Follows [] {} where
  colon := iff_of_false nofun nofun
  value h := by rcases h with h | ⟨h, -⟩ <;> cases h
  continuation := nofun

/-- A name and an indent, if they are not asked for, are what makes a reader expect something. -/
theorem expecting_begin (h : r.begin tok = .ok r') :
    ((∃ i, r'.expecting = .colon i) ↔ tok.kind = .key) ∧
      (tok.kind = .indent → ∃ i, r'.expecting = .continuation i) := by
  unfold begin at h
  cases hkind : tok.kind with
  | key =>
    rw [hkind] at h
    cases h
    exact ⟨iff_of_true ⟨_, rfl⟩ rfl, nofun⟩
  | indent =>
    rw [hkind] at h
    cases hlast : r.last with
    | none => simp [hlast] at h
    | some i =>
      simp only [hlast, Except.ok.injEq] at h
      subst h
      exact ⟨iff_of_false nofun nofun, fun _ => ⟨i, rfl⟩⟩
  | newline =>
    rw [hkind] at h
    cases h
    refine ⟨iff_of_false ?_ nofun, nofun⟩
    rintro ⟨i, hi⟩
    unfold endLine at hi
    split at hi <;> cases hi
  | whitespace | comment =>
    rw [hkind] at h
    cases h
    exact ⟨iff_of_false nofun nofun, nofun⟩
  | error | value | colon =>
    rw [hkind] at h
    cases h

theorem follows_concat (hcolon : (∃ i, r.expecting = .colon i) ↔ tok.kind = .key)
    (hvalue : tok.kind = .colon ∨ tok.kind = .whitespace ∧ lastKind? before = some .colon →
      ∃ i, r.expecting = .value i)
    (hcontinuation : tok.kind = .indent → ∃ i, r.expecting = .continuation i) :
    Follows (before ++ [tok]) r := by
  refine ⟨?_, ?_, ?_⟩
  · rw [lastKind?_concat, hcolon, Option.some.injEq]
  · rw [EndsField, lastKind?_concat, List.dropLast_concat, Option.some.injEq, Option.some.injEq]
    exact hvalue
  · rw [lastKind?_concat, Option.some.injEq]
    exact hcontinuation

/-- **One token** that stands as it should leaves the reader expecting what it tells. -/
theorem Follows.step (h : Follows before r) (hplaced : IsPlaced before tok after)
    (hnext : lastKind? before = some .key → tok.kind = .colon) (hstep : r.step tok = .ok r') :
    Follows (before ++ [tok]) r' := by
  unfold Reader.step at hstep
  split at hstep
  · rename_i hexpecting
    have hkind := hnext (h.colon.mp ⟨_, hexpecting⟩)
    cases hstep
    exact follows_concat (iff_of_false nofun (by simp [hkind])) (fun _ => ⟨_, rfl⟩) (by simp [hkind])
  · rename_i hexpecting hkind
    cases hstep
    exact follows_concat (iff_of_false (by simp [hexpecting]) (by simp [hkind])) (fun _ => ⟨_, hexpecting⟩)
      (by simp [hkind])
  · rename_i hkind
    cases hstep
    exact follows_concat (iff_of_false nofun (by simp [hkind])) (by simp [hkind]) (by simp [hkind])
  · rename_i hkind
    cases hstep
    exact follows_concat (iff_of_false nofun (by simp [hkind])) (by simp [hkind]) (by simp [hkind])
  · rename_i hnoColon hnoSpace hnoValue hnoRest
    obtain ⟨hcolon, hcontinuation⟩ := expecting_begin hstep
    refine follows_concat hcolon ?_ hcontinuation
    rintro (hkind | ⟨hkind, hlast⟩)
    · obtain ⟨i, hi⟩ := h.colon.mpr (hplaced.colon hkind)
      exact absurd hi (hnoColon i)
    · obtain ⟨i, hi⟩ := h.value (.inl hlast)
      exact absurd hkind (hnoSpace i hi)

theorem run_concat_eq_ok (h : r.run (ts ++ [tok]) = .ok r') : ∃ s, r.run ts = .ok s ∧ s.step tok = .ok r' := by
  rw [run_append] at h
  cases hrun : r.run ts with
  | error e =>
    rw [hrun] at h
    cases h
  | ok s =>
    refine ⟨s, rfl, ?_⟩
    simp only [hrun, Except.bind, run] at h
    cases hstep : s.step tok with
    | error e => simp [hstep] at h
    | ok s' => simpa [hstep] using h

/-- **Any number of tokens**, the first ones of tokens that stand as they should. -/
theorem follows_of_run (h : IsOrderly (before ++ after)) (hrun : run {} before = .ok r) : Follows before r := by
  induction before using List.reverseRecOn generalizing after r with
  | nil =>
    cases hrun
    exact follows_nil
  | append_singleton before tok ih =>
    obtain ⟨s, hrun, hstep⟩ := run_concat_eq_ok hrun
    rw [List.append_assoc, List.singleton_append] at h
    refine (ih h hrun).step (h before tok after rfl) (fun hlast => ?_) hstep
    rw [h.eq_colon hlast]

/-- A bad line, a value and a colon are what is refused for want of a colon, if they are not expected. -/
theorem step_eq_missingColon {n : Nat} {text : Text} (h : r.step tok = .error (.missingColon n text)) :
    text = tok.text ∧ (tok.kind = .error ∨
      tok.kind = .value ∧ (∀ i, r.expecting ≠ .value i) ∧ (∀ i, r.expecting ≠ .continuation i) ∨
      tok.kind = .colon ∧ ∀ i, r.expecting ≠ .colon i) := by
  unfold step at h
  split at h
  iterate 4 cases h
  rename_i hnoColon _ hnoValue hnoRest
  unfold begin at h
  cases hkind : tok.kind with
  | newline | whitespace | comment | key =>
    rw [hkind] at h
    cases h
  | indent =>
    rw [hkind] at h
    cases hlast : r.last with
    | none => simp [hlast] at h
    | some i => simp [hlast] at h
  | error =>
    rw [hkind] at h
    cases h
    exact ⟨rfl, .inl rfl⟩
  | value =>
    rw [hkind] at h
    cases h
    exact ⟨rfl, .inr (.inl ⟨rfl, fun i hi => hnoValue i hi hkind, fun i hi => hnoRest i hi hkind⟩)⟩
  | colon =>
    rw [hkind] at h
    cases h
    exact ⟨rfl, .inr (.inr ⟨rfl, hnoColon⟩)⟩

/-- The next token is one for which the reader is ready. -/
structure Meets (r : Reader) (tok : Token) : Prop where
  /-- Where it takes whatever comes for a colon it gets a colon, and it gets one nowhere else. -/
  colon : (∃ i, r.expecting = .colon i) ↔ tok = ⟨.colon, [':']⟩
  /-- It gets a value where it expects one. -/
  value : tok.kind = .value → (∃ i, r.expecting = .value i) ∨ ∃ i, r.expecting = .continuation i
  /-- What it refuses for want of a colon is a bad line. -/
  refused : ∀ n text, r.step tok = .error (.missingColon n text) → tok = ⟨.error, text⟩

theorem Follows.meets (h : Follows before r) (horderly : IsOrderly (before ++ tok :: after)) : r.Meets tok := by
  have hplaced := horderly before tok after rfl
  have hcolon : tok.kind = .colon → ∃ i, r.expecting = .colon i := fun hkind =>
    h.colon.mpr (hplaced.colon hkind)
  have hvalue : tok.kind = .value → (∃ i, r.expecting = .value i) ∨ ∃ i, r.expecting = .continuation i :=
    fun hkind => (hplaced.value hkind).elim (fun hindent => .inr (h.continuation hindent))
      fun hfield => .inl (h.value hfield)
  refine ⟨⟨fun hexpecting => horderly.eq_colon (h.colon.mp hexpecting), ?_⟩, hvalue, ?_⟩
  · rintro rfl
    exact hcolon rfl
  · intro n text hrefused
    obtain ⟨rfl, hkind | ⟨hkind, hnoValue, hnoRest⟩ | ⟨hkind, hnoColon⟩⟩ := step_eq_missingColon hrefused
    · rw [← hkind]
    · rcases hvalue hkind with ⟨i, hi⟩ | ⟨i, hi⟩
      · exact absurd hi (hnoValue i)
      · exact absurd hi (hnoRest i)
    · obtain ⟨i, hi⟩ := hcolon hkind
      exact absurd hi (hnoColon i)

/-- **A reader of tokens that stand as they should** is ready for each of them, … -/
theorem meets_of_run (h : IsOrderly (before ++ tok :: after)) (hrun : run {} before = .ok r) : r.Meets tok :=
  (follows_of_run h hrun).meets h

/-- … and none is missing at the end. -/
theorem expecting_ne_colon_of_run (h : IsOrderly ts) (hrun : run {} ts = .ok r) (i : Nat) :
    r.expecting ≠ .colon i := by
  intro hi
  have hall : IsOrderly (ts ++ []) := by rwa [List.append_nil]
  exact h.lastKind?_ne_key ((follows_of_run hall hrun).colon.mp ⟨i, hi⟩)

/-! ### Bad lines -/

theorem eq_of_ofText_eq_bad {line text : Text} (h : Line.ofText line = .bad text) : text = line := by
  unfold Line.ofText Line.ofUnindented at h
  grind

theorem takeLine_eq_missingColon {line : Line} {n : Nat} {text : Text}
    (h : r.takeLine line = .error (.missingColon n text)) : n = r.line ∧ line = .bad text := by
  unfold takeLine at h
  cases line with
  | blank | comment | field => cases h
  | continuation text' =>
    cases hlast : r.last with
    | none => simp [readLine, hlast, Except.map] at h
    | some i => simp [readLine, hlast, Except.map] at h
  | bad text' =>
    cases h
    exact ⟨rfl, rfl⟩

theorem line_takeLine {line : Line} (h : r.takeLine line = .ok r') : r'.line = r.line + 1 := by
  unfold takeLine at h
  cases hread : r.readLine line with
  | error e => simp [hread, Except.map] at h
  | ok s =>
    simp only [hread, Except.map, Except.ok.injEq] at h
    rw [← h]

/-- A bad line is refused with its number and all of its text, but for the carriage return at its end. -/
theorem takeLines_eq_missingColon {ls : List Text} {n : Nat} {text : Text}
    (h : r.takeLines ls = .error (.missingColon n text)) :
    ∃ k line, n = r.line + k ∧ ls[k]? = some line ∧ text = dropReturn line := by
  induction ls generalizing r with
  | nil => cases h
  | cons line ls ih =>
    rw [takeLines] at h
    cases htake : r.takeLine (.ofText (dropReturn line)) with
    | error e =>
      simp only [htake, Except.error.injEq] at h
      obtain ⟨hn, hbad⟩ := takeLine_eq_missingColon (htake.trans (congrArg _ h))
      exact ⟨0, line, hn, rfl, eq_of_ofText_eq_bad hbad⟩
    | ok r' =>
      simp only [htake] at h
      obtain ⟨k, line', hn, hline, htext⟩ := ih h
      exact ⟨k + 1, line', by rw [hn, line_takeLine htake]; omega, hline, htext⟩

end Reader

namespace Document

theorem parse_eq_missingColon {t : Text} {n : Nat} {text : Text}
    (h : Document.parse t = .error (.missingColon n text)) :
    ∃ k line, n = k + 1 ∧ (t.splitOn '\n')[k]? = some line ∧ text = dropReturn line := by
  rw [parse_eq_takeLines] at h
  cases htake : Reader.takeLines {} (t.splitOn '\n') with
  | ok r => simp [htake, Except.map] at h
  | error e =>
    simp only [htake, Except.map, Except.error.injEq] at h
    obtain ⟨k, line, hn, hline, htext⟩ := Reader.takeLines_eq_missingColon (htake.trans (congrArg _ h))
    exact ⟨k, line, hn.trans (Nat.add_comm 1 k), hline, htext⟩

/-- **The tokens of a text and the reader of them.** The tokens are the text in pieces, none of them is empty,
and names, indents, colons and values stand where they should. So a reader that has taken any of them is ready
for the next one, and it is not left waiting for a colon; and what it refuses for want of a colon is a whole
line of the text, the one of the number that it gives. -/
theorem tokens_met (t : Text) :
    ((Token.ofText t).flatMap Token.text = t ∧ (∀ tok ∈ Token.ofText t, tok.text ≠ []) ∧
        Token.IsOrderly (Token.ofText t)) ∧
      (∀ before tok after r, Token.ofText t = before ++ tok :: after → Reader.run {} before = .ok r →
        r.Meets tok) ∧
      (∀ r i, Reader.run {} (Token.ofText t) = .ok r → r.expecting ≠ .colon i) ∧
      ∀ n text, Document.parse t = .error (.missingColon n text) →
        ∃ k line, n = k + 1 ∧ (t.splitOn '\n')[k]? = some line ∧ text = dropReturn line := by
  have horderly := Token.isOrderly_ofText t
  refine ⟨⟨Token.flatMap_text_ofText t, Token.text_ne_nil_ofText t, horderly⟩, ?_, ?_, ?_⟩
  · intro before tok after r htokens hrun
    rw [htokens] at horderly
    exact Reader.meets_of_run horderly hrun
  · exact fun r i hrun => Reader.expecting_ne_colon_of_run horderly hrun i
  · exact fun n text h => parse_eq_missingColon h

/-- A field, and a line that has white space in front of its colon. -/
def badLineText : Text := "A: b\r\nx y: z\r\n".toList

/-- Behind the name of the field the reader gets its colon, and the line is quoted without its line break. -/
theorem tokens_met_badLineText :
    (({} : Reader).startField ['A']).Meets ⟨.colon, [':']⟩ ∧
    Document.parse badLineText = .error (.missingColon 2 "x y: z".toList) ∧
    ∃ k line, 2 = k + 1 ∧ (badLineText.splitOn '\n')[k]? = some line ∧ "x y: z".toList = dropReturn line := by
  obtain ⟨-, hmeets, -, hquotes⟩ := tokens_met badLineText
  have hparse : Document.parse badLineText = .error (.missingColon 2 "x y: z".toList) := by decide
  refine ⟨?_, hparse, hquotes _ _ hparse⟩
  exact hmeets [⟨.key, ['A']⟩] _ ((Token.ofText badLineText).drop 2) _ (by decide) rfl

end Document

end Packaging.Stanza
