import Packaging.Proofs.Stanza.Canonical
import Packaging.Proofs.Stanza.Groups

/-!
# Writing what was read

What is read from a text keeps no comment, no value that was replaced, and no white space but that of
values, so there is nothing left that writing could pass over the next time. Only a carriage return can
still be lost. One at the end of a line belongs to the line break; if there are two, the other one is
read into the value, and there it stands before a line break when the value is written.

## What is proved

* `Line.hasNoReturns_of_mem_occurrences` — lines of a value that end with a carriage return come from
  lines of the text that do.
* `parse_render_of_hasSingleReturns` — so a text none of whose lines ends with two carriage returns is
  normal after it was read and written once.
-/

namespace Packaging.Stanza

open Text

/-! ### Carriage returns in values -/

theorem hasNoReturns_of_line {line : Text} (hnew : '\n' ∉ line) (h : line.getLast? ≠ some '\r') :
    HasNoReturns line := by
  rw [HasNoReturns, List.splitOn_eq_singleton hnew]
  exact List.forall_mem_singleton.mpr h

theorem HasNoReturns.append {value further : Text} (h : HasNoReturns value)
    (hfurther : HasNoReturns further) : HasNoReturns (value ++ '\n' :: further) := by
  rw [HasNoReturns, List.splitOn_append_cons_self]
  exact List.forall_mem_append.mpr ⟨h, hfurther⟩

/-- The value of a field is the end of its line. -/
theorem suffix_of_ofText {line name value : Text} (h : Line.ofText line = .field name value) :
    value <:+ line := by
  unfold Line.ofText at h
  split at h
  · cases h
  split at h
  · cases h
  split at h
  · cases h
  unfold Line.ofUnindented at h
  split at h
  · rename_i cutName text hcut
    split at h
    · obtain ⟨-, rfl⟩ := cut?_eq_some_iff.mp hcut
      cases h
      exact ((List.dropWhile_suffix isIndent).trans (List.suffix_cons ':' text)).trans
        (List.suffix_append name _)
    · cases h
  · cases h

namespace Line

/-- What the line gives a value has no carriage return at the end of a line. -/
def KeepsNoReturns : Line → Prop
  | .continuation text => HasNoReturns text
  | .field _ value => HasNoReturns value
  | .blank | .comment | .bad _ => True

theorem keepsNoReturns_ofText {line : Text} (hnew : '\n' ∉ line) (h : line.getLast? ≠ some '\r') :
    (ofText line).KeepsNoReturns := by
  cases hline : ofText line with
  | blank | comment | bad => trivial
  | continuation text =>
    obtain ⟨rfl, -, -⟩ := ofText_eq_continuation hline
    exact hasNoReturns_of_line hnew h
  | field name value =>
    obtain ⟨start, rfl⟩ := suffix_of_ofText hline
    refine hasNoReturns_of_line (fun hmem => hnew (List.mem_append_right start hmem)) fun hlast => h ?_
    rw [List.getLast?_append, hlast, Option.some_or]

theorem hasNoReturns_append_furtherText {ls : List Line} (h : ∀ line ∈ ls, line.KeepsNoReturns)
    {value : Text} (hvalue : HasNoReturns value) : HasNoReturns (value ++ furtherText ls) := by
  induction ls generalizing value with
  | nil => rwa [furtherText, List.append_nil]
  | cons line ls ih =>
    obtain ⟨hline, hls⟩ := List.forall_mem_cons.mp h
    cases line with
    | continuation text =>
      have hnext := ih hls (hvalue.append hline)
      rwa [List.append_assoc] at hnext
    | field => rwa [furtherText, List.append_nil]
    | blank | comment | bad => exact ih hls hvalue

theorem hasNoReturns_of_mem_occurrences {ls : List Line} (h : ∀ line ∈ ls, line.KeepsNoReturns) :
    ∀ f ∈ occurrences ls, HasNoReturns f.value := by
  induction ls with
  | nil => simp [occurrences]
  | cons line ls ih =>
    obtain ⟨hline, hls⟩ := List.forall_mem_cons.mp h
    cases line with
    | field name value =>
      exact List.forall_mem_cons.mpr ⟨hasNoReturns_append_furtherText hls hline, ih hls⟩
    | blank | comment | continuation | bad => exact ih hls

end Line

theorem hasNoReturns_ofOccurrences {fs : List Field} (h : ∀ f ∈ fs, HasNoReturns f.value) :
    ∀ f ∈ (Paragraph.ofOccurrences fs).fields, HasNoReturns f.value := by
  intro f hf
  obtain ⟨name, -, rfl⟩ := List.mem_map.mp hf
  change HasNoReturns (Paragraph.lastValue fs name)
  unfold Paragraph.lastValue
  cases hfind : fs.reverse.find? (·.name == name) with
  | none => exact hasNoReturns_of_line (by simp) (by simp)
  | some g => exact h g (List.mem_reverse.mp (List.mem_of_find?_eq_some hfind))

/-! ### Texts -/

/-- No line of the text ends with two carriage returns. -/
def HasSingleReturns (t : Text) : Prop := ∀ line ∈ t.splitOn '\n', ¬ ['\r', '\r'] <:+ line

instance (t : Text) : Decidable (HasSingleReturns t) :=
  inferInstanceAs (Decidable (∀ line ∈ t.splitOn '\n', ¬ ['\r', '\r'] <:+ line))

/-- Of a single carriage return at the end of a line none is left. -/
theorem getLast?_dropReturn_ne {line : Text} (h : ¬ ['\r', '\r'] <:+ line) :
    (dropReturn line).getLast? ≠ some '\r' := by
  intro hlast
  by_cases hreturn : line.getLast? = some '\r'
  · obtain ⟨body, rfl⟩ := List.getLast?_eq_some_iff.mp hreturn
    rw [dropReturn_append (by simp)] at hlast
    obtain ⟨start, hstart⟩ := List.getLast?_eq_some_iff.mp hlast
    have hbody : body = start ++ ['\r'] := by simpa [dropReturn] using hstart
    exact h ⟨start, by simp [hbody]⟩
  · rw [dropReturn_eq_self hreturn] at hlast
    exact hreturn hlast

theorem keepsNoReturns_of_mem_all {t : Text} (ht : HasSingleReturns t) :
    ∀ line ∈ Line.all t, line.KeepsNoReturns := by
  intro line hline
  obtain ⟨piece, hpiece, rfl⟩ := List.mem_map.mp hline
  exact Line.keepsNoReturns_ofText
    (fun hmem => not_mem_of_mem_splitOn hpiece (mem_of_mem_dropReturn hmem))
    (getLast?_dropReturn_ne (ht piece hpiece))

/-- The values that are read from the text have no carriage return at the end of a line. -/
theorem hasNoReturns_of_parse {t : Text} {d : Document} (ht : HasSingleReturns t)
    (h : Document.parse t = .ok d) : ∀ p ∈ d.paragraphs, ∀ f ∈ p.fields, HasNoReturns f.value := by
  rw [Document.parse_eq_readByLines] at h
  unfold Document.readByLines at h
  split at h
  · cases h
  cases h
  intro p hp
  obtain ⟨group, hgroup, rfl⟩ := List.mem_map.mp hp
  have hmem : ∀ line ∈ group, line ∈ Line.all t := fun line hline =>
    mem_of_mem_splitOnP (List.mem_filter.mp hgroup).1 hline
  exact hasNoReturns_ofOccurrences
    (Line.hasNoReturns_of_mem_occurrences fun line hline => keepsNoReturns_of_mem_all ht line (hmem line hline))

/-- **What was read from a text is read again** after it was written, if no line of the text ends with
two carriage returns. -/
theorem parse_render_of_hasSingleReturns {t : Text} {d : Document} (ht : HasSingleReturns t)
    (h : Document.parse t = .ok d) : Document.parse d.render = .ok d := by
  have hread := readable_of_parse h
  have hcompact : d.compact = d :=
    congrArg Document.mk (List.filter_eq_self.mpr fun p hp => by simp [(hread p hp).1])
  rw [(parse_render_iff d).mpr fun p hp _ => ⟨(hread p hp).2, hasNoReturns_of_parse ht h p hp⟩, hcompact]

/-- A text with comments, white space of all kinds, a field that comes again and goes on behind a comment,
carriage returns, and no newline at its end. -/
def wildText : Text := "# head\r\nA:\t 1 \r\n\r\n \u00a0\n\nB: 2\nC:\r\nB:\r\n# more\n\t3\u00a0\r\n 4\r".toList

def wildDocument : Document :=
  ⟨[⟨[⟨['A'], "1 ".toList⟩]⟩, ⟨[⟨['B'], "\n\t3\u00a0\n 4".toList⟩, ⟨['C'], []⟩]⟩]⟩

theorem parse_render_wildText :
    HasSingleReturns wildText ∧ Document.parse wildText = .ok wildDocument ∧
      Document.parse wildDocument.render = .ok wildDocument := by
  have ht : HasSingleReturns wildText := by decide +kernel
  have h : Document.parse wildText = .ok wildDocument := by decide +kernel
  exact ⟨ht, h, parse_render_of_hasSingleReturns ht h⟩

/-- Of two carriage returns one is read into the value, and lost the next time. -/
example : Document.parse "A: x\r\r".toList = .ok ⟨[⟨[⟨['A'], "x\r".toList⟩]⟩]⟩ ∧
    Document.parse (Document.render ⟨[⟨[⟨['A'], "x\r".toList⟩]⟩]⟩) = .ok ⟨[⟨[⟨['A'], ['x']⟩]⟩]⟩ := by
  decide +kernel

end Packaging.Stanza
