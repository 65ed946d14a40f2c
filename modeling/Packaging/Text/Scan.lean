import Packaging.Text.Basic

/-!
# Scanning

Finding all occurrences of something in a text, from left to right and without overlap. A recogniser
looks at the start of a text; it says what it found there and what comes after it.
-/

namespace Packaging.Text

/-- What stands at the start of a text, and the rest. -/
abbrev Recogniser (α : Type) := Text → Option (α × Text)

/-- A text as what was found in it and the characters between. An occurrence has at least one
character. -/
def scan {α : Type} (recognise : Recogniser α) : Text → List (Char ⊕ α)
  | [] => []
  | c :: t =>
    match recognise (c :: t) with
    | some (found, rest) =>
      if rest.length ≤ t.length then .inr found :: scan recognise rest
      else .inl c :: scan recognise t
    | none => .inl c :: scan recognise t
termination_by t => t.length
decreasing_by all_goals simp only [List.length_cons]; omega

/-- All occurrences, in order. -/
def findAll {α : Type} (recognise : Recogniser α) (t : Text) : List α :=
  (scan recognise t).filterMap fun
    | .inl _ => none
    | .inr found => some found

/-- The text with another text in the place of each occurrence. -/
def replaceAll {α : Type} (recognise : Recogniser α) (replacement : α → Text) (t : Text) : Text :=
  (scan recognise t).flatMap fun
    | .inl c => [c]
    | .inr found => replacement found

/-- The text with another text in the place of the first occurrence; `none` if there is none. -/
def replaceFirst? {α : Type} (recognise : Recogniser α) (replacement : α → Text) :
    Text → Option Text
  | [] => none
  | c :: t =>
    match recognise (c :: t) with
    | some (found, rest) => some (replacement found ++ rest)
    | none => (replaceFirst? recognise replacement t).map (c :: ·)

end Packaging.Text
