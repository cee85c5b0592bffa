/-
  Matching brackets: the place where the bracket opened at an offset is closed.
-/
import MemberOrder.Text.Basic

namespace MemberOrder.Brackets

/-- The brackets that pair up: curly, square and round ones. -/
def all : List (Char × Char) := [('{', '}'), ('[', ']'), ('(', ')')]

/-- Curly and square brackets. -/
def data : List (Char × Char) := [('{', '}'), ('[', ']')]

/-- Curly brackets. -/
def curly : List (Char × Char) := [('{', '}')]

/-- Reads on from `i` with the closing brackets still expected, innermost first. -/
def closeFrom (pairs : List (Char × Char)) (t : Text) :
    (fuel i : Nat) → (expected : List Char) → Option Nat
  | 0, _, _ => none
  | fuel + 1, i, expected =>
    match t[i]? with
    | none => none
    | some c =>
      match pairs.lookup c with
      | some closer => closeFrom pairs t fuel (i + 1) (closer :: expected)
      | none =>
        if pairs.any (·.2 == c) then
          match expected with
          | [] => none
          | want :: outer =>
            if want != c then none
            else if outer.isEmpty then some i
            else closeFrom pairs t fuel (i + 1) outer
        else closeFrom pairs t fuel (i + 1) expected

/-- Where the bracket at `start` is closed; nothing when the text ends first or a bracket of
the wrong kind comes first. -/
def close? (pairs : List (Char × Char)) (t : Text) (start : Nat) : Option Nat :=
  closeFrom pairs t (t.size - start) start []

end MemberOrder.Brackets
