import Packaging.Proofs.Changelog.Reading

/-!
# Signed entries

Every entry that was read has a package and a version from its header, and from its trailer an author
whose name can be told from the address.

## What is proved

* `identity?_renderIdentity` — a name and an address are read from what is written for them, though not
  always the same ones: the name ends at the first `<`.
* `isSigned_of_parse` — all entries of a changelog that was read are signed.
-/

namespace Packaging.Changelog

open Text

/-! ### Identities -/

/-- Of an identity that was written, the name that is read goes up to the first `<`. -/
theorem identity?_renderIdentity (name address : Text) :
    ∃ before name' address', identity? (renderIdentity name address) = some (trim before, address') ∧
      name ++ [' '] = before ++ name' ∧ '<' ∉ before ∧ ('<' ∉ name → name' = []) := by
  have hrender : renderIdentity name address = (name ++ [' ']) ++ '<' :: (address ++ ['>']) := by
    simp [renderIdentity]
  have hmem : '<' ∈ renderIdentity name address := by simp [hrender]
  obtain ⟨before, after, hcut⟩ := exists_cut? hmem
  obtain ⟨hbefore, htext⟩ := cut?_eq_some_iff.mp hcut
  rw [hrender] at htext
  obtain ⟨more, hname, hafter⟩ : ∃ more, name ++ [' '] = before ++ more ∧
      '<' :: after = more ++ '<' :: (address ++ ['>']) := by
    rcases List.append_eq_append_iff.mp htext with ⟨m, hm, hrest⟩ | ⟨m, hm, hrest⟩
    · cases m with
      | nil => exact ⟨[], by simpa using hm.symm, by simpa using hrest.symm⟩
      | cons c m =>
        obtain rfl : '<' = c := (List.cons.inj hrest).1
        exact absurd (by simp [hm]) hbefore
    · exact ⟨m, hm, hrest⟩
  obtain ⟨address', haddress⟩ : ∃ address', after = address' ++ ['>'] := by
    cases more with
    | nil => exact ⟨address, (List.cons.inj hafter).2⟩
    | cons c more => exact ⟨more ++ '<' :: address, by rw [(List.cons.inj hafter).2]; simp⟩
  refine ⟨before, more, trim address', ?_, hname, hbefore, fun hlt => ?_⟩
  · have hdrop : dropEnd? ['>'] after = some address' := dropEnd?_eq_some_iff.mpr haddress
    simp [identity?, hcut, hdrop]
  · -- what follows the name begins with a `<`, and there is none in the name
    cases more with
    | nil => rfl
    | cons c more =>
      obtain rfl : '<' = c := (List.cons.inj hafter).1
      have hmem : '<' ∈ name ++ [' '] := by simp [hname]
      simp [hlt] at hmem

/-- A trimmed name without a `<` is read as it is written. -/
theorem identity?_of_isTrimmed {name : Text} (hname : IsTrimmed name) (hlt : '<' ∉ name)
    (address : Text) : ∃ address', identity? (renderIdentity name address) = some (name, address') := by
  obtain ⟨before, more, address', hidentity, htext, -, hmore⟩ := identity?_renderIdentity name address
  rw [hmore hlt, List.append_nil] at htext
  refine ⟨address', ?_⟩
  rw [hidentity, ← htext]
  cases name with
  | nil => rfl
  | cons c name =>
    have hhead : (c :: name ++ [' ']).head?.any isBlank = false := by simpa using hname.head
    have hend : trimEnd (c :: name ++ [' ']) = trimEnd (c :: name) := by
      have hblank : isBlank ' ' = true := by decide
      simp [trimEnd, trimEndOf, hblank]
    rw [trim, trimStart_eq_self hhead, hend, trimEnd_eq_self hname.last]

/-- No newline gets into a name. -/
theorem newline_not_mem_identity? {name : Text} (h : '\n' ∉ name) (address : Text) :
    ∃ name' address', identity? (renderIdentity name address) = some (name', address') ∧ '\n' ∉ name' := by
  obtain ⟨before, more, address', hidentity, htext, -, -⟩ := identity?_renderIdentity name address
  refine ⟨trim before, address', hidentity, fun hmem => ?_⟩
  have hname : '\n' ∈ name ++ [' '] := htext ▸ List.mem_append_left more (mem_of_mem_trim hmem)
  simp [h] at hname

/-! ### Entries -/

namespace Entry

/-- The entry has a package, a version and an author whose name is one line. -/
structure IsSigned (e : Entry) : Prop where
  package : e.package.isSome
  version : e.version.isSome
  maintainer : ∃ name address, e.maintainer? = some (name, address) ∧ '\n' ∉ name

/-- The entry has a package and a version, and waits for its trailer. -/
structure IsHeaded (e : Entry) : Prop where
  package : e.package.isSome
  version : e.version.isSome

variable {e : Entry}

theorem isHeaded_of_ofHeader {n : Nat} {line : Text} {h : Header} (he : ofHeader n line h = .ok e) :
    e.IsHeaded := by
  obtain ⟨version, -, hadd⟩ := ofHeader_eq_ok_iff.mp he
  have hparts := addSettings_eq_some hadd
  exact ⟨by rw [hparts]; rfl, by rw [hparts]; rfl⟩

theorem IsHeaded.close {line : Text} {t : Trailer} (he : e.IsHeaded) (hline : '\n' ∉ line)
    (ht : Trailer.parse? line = some t) : (e.close t).IsSigned := by
  obtain ⟨name, address, rest, date, rfl, -, -, rfl⟩ := Trailer.parse?_eq_some_iff.mp ht
  have hname : '\n' ∉ name := fun hmem => hline (by simp [hmem])
  exact ⟨he.package, he.version, newline_not_mem_identity? hname address⟩

theorem IsSigned.addTrailing (he : e.IsSigned) (line : Text) : (e.addTrailing line).IsSigned :=
  ⟨he.package, he.version, he.maintainer⟩

end Entry

/-! ### Reading -/

namespace Reader

/-- All closed entries are signed, and the open one has what a header gives. -/
structure Signs (r : Reader) : Prop where
  entries : ∀ e ∈ r.entries, e.IsSigned
  current : ∀ start e, r.current = some (start, e) → e.IsHeaded

theorem signs_empty : Signs {} := ⟨by simp, by simp⟩

variable {r r' : Reader} {line : Text} {n : Nat}

theorem Signs.takes (h : r.Signs) (hnew : '\n' ∉ line) (htakes : r.Takes n line r') : r'.Signs := by
  obtain ⟨hentries, hcurrent⟩ := h
  cases htakes with
  | @trailer es start e _ _ t ht =>
    have he : (e.close t).IsSigned := (hcurrent start e rfl).close hnew ht
    exact ⟨List.forall_mem_append.mpr ⟨hentries, List.forall_mem_singleton.mpr he⟩, nofun⟩
  | @change es start e =>
    refine ⟨hentries, fun start' e' hopen => ?_⟩
    cases hopen
    exact ⟨(hcurrent start e rfl).package, (hcurrent start e rfl).version⟩
  | header _ he =>
    refine ⟨hentries, fun start' e' hopen => ?_⟩
    cases hopen
    exact Entry.isHeaded_of_ofHeader he
  | trailing =>
    obtain ⟨hinit, hlast⟩ := List.forall_mem_append.mp hentries
    have he := (List.forall_mem_singleton.mp hlast).addTrailing line
    exact ⟨List.forall_mem_append.mpr ⟨hinit, List.forall_mem_singleton.mpr he⟩, hcurrent⟩
  | blank => exact signs_empty

theorem Signs.run (h : r.Signs) {input : List Text} (hinput : ∀ l ∈ input, '\n' ∉ l)
    (hrun : r.run n input = .ok r') : r'.Signs :=
  run_induction (fun r _ => r.Signs) ('\n' ∉ ·) (fun h hnew htakes => h.takes hnew htakes) [] h hinput
    hrun

end Reader

/-- All entries of a changelog that was read are signed. -/
theorem isSigned_of_parse {t : Text} {c : Changelog} (h : parse t = .ok c) :
    ∀ e ∈ c.entries, e.IsSigned :=
  (Reader.signs_empty.run (fun _ => newline_not_mem_of_mem_lines) (parse_eq_ok_iff_run.mp h)).entries

end Packaging.Changelog
