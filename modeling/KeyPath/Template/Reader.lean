import KeyPath.Template

/-!
Reading a template. An ampersand takes the longest run of digits and parentheses behind it, a square
bracket all up to the next closing one, and every other character stands for itself. A `Flaw` says
why the leftmost ampersand or bracket that cannot be read is refused.
-/
namespace KeyPath
set_option autoImplicit false

inductive Flaw where
  | unclosedBracket
  | emptyBrackets
  | indexTooLarge
  | neitherIndexNorReference
  | badReferenceInBrackets
  | badReference
deriving DecidableEq, Repr

def Flaw.reason : Flaw → Text
  | .unclosedBracket => "unterminated '['".toList
  | .emptyBrackets => "empty '[]'".toList
  | .indexTooLarge => "array index out of range".toList
  | .neitherIndexNorReference => "'[]' must hold an index or a '&' reference".toList
  | .badReferenceInBrackets => "invalid '&' reference inside '[]'".toList
  | .badReference => "expected '&', '&N', '&(G)' or '&N(G)'".toList

/-! ## References -/

/-- The level of a reference may be left out and is 0 then. -/
def Reference.readUp? (s : Text) : Option Nat :=
  if s = [] then some 0 else Numeral.read? s

/-- Reads `N(G)`, where `N` and `(G)` may each be left out. -/
def Reference.read? (s : Text) : Option Reference :=
  match readUp? (s.takeWhile Char.isDigit), s.dropWhile Char.isDigit with
  | some up, [] => some ⟨up, 0⟩
  | some up, '(' :: s =>
    match Numeral.read? (s.takeWhile Char.isDigit), s.dropWhile Char.isDigit with
    | some group, [')'] => some ⟨up, group⟩
    | _, _ => none
  | _, _ => none

/-- The characters that an ampersand draws into its reference. -/
def Reference.isBodyChar (c : Char) : Bool := c.isDigit || c == '(' || c == ')'

/-! ## Pieces -/

def Piece.readReference (body : Text) : Except Flaw Piece :=
  match Reference.read? body with
  | some r => .ok (.insert r)
  | none => .error .badReference

/-- Reads what stands between square brackets. -/
def Piece.readBracketed (body : Text) : Except Flaw Piece :=
  if body = [] then .error .emptyBrackets
  else if body.all Char.isDigit then
    match Numeral.read? body with
    | some n => .ok (.index n)
    | none => .error .indexTooLarge
  else match body with
    | '&' :: body =>
      match Reference.read? body with
      | some r => .ok (.insertIndex r)
      | none => .error .badReferenceInBrackets
    | _ => .error .neitherIndexNorReference

/-! ## Templates -/

def Template.read : Text → Except Flaw Template
  | [] => .ok []
  | c :: s =>
    if c = '[' then
      if ']' ∈ s then do
        let p ← Piece.readBracketed (s.takeWhile (· != ']'))
        let ps ← read (s.dropWhile (· != ']')).tail
        return p :: ps
      else .error .unclosedBracket
    else if c = '&' then do
      let p ← Piece.readReference (s.takeWhile Reference.isBodyChar)
      let ps ← read (s.dropWhile Reference.isBodyChar)
      return p :: ps
    else (read s).map (addChar c)
termination_by s => s.length
decreasing_by
  · have h := (List.dropWhile_suffix (l := s) (· != ']')).length_le
    rw [List.length_tail, List.length_cons]; omega
  · have h := (List.dropWhile_suffix (l := s) Reference.isBodyChar).length_le
    rw [List.length_cons]; omega
  · simp

end KeyPath
