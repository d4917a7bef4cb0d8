import KeyPath.Numeral

/-!
Templates: texts with places that are filled from the path matched so far. A reference `&N(G)` stands
for sub-key `G` of the node `N` levels up; `[n]` is a fixed index, and `[&N(G)]` an index that is read
from the sub-key. `Template.write` writes every part of every reference.
-/
namespace KeyPath
set_option autoImplicit false

/-- Sub-key `group` of the node `up` levels above the newest one. -/
structure Reference where
  up : Nat
  group : Nat
deriving DecidableEq, Repr

inductive Piece where
  | text (s : Text)
  | index (n : Nat)
  | insert (r : Reference)
  | insertIndex (r : Reference)
deriving DecidableEq, Repr

abbrev Template := List Piece

def Reference.write (r : Reference) : Text :=
  '&' :: Numeral.write r.up ++ '(' :: Numeral.write r.group ++ [')']

namespace Piece

/-- What the piece takes from the matched path. -/
def reference? : Piece → Option Reference
  | text _ | index _ => none
  | insert r | insertIndex r => some r

def write : Piece → Text
  | text s => s
  | index n => Text.bracketed (Numeral.write n)
  | insert r => r.write
  | insertIndex r => r.write.bracketed

end Piece

namespace Template

def write (ps : Template) : Text := ps.flatMap Piece.write

/-- A character in front of a template joins the text that the template starts with. -/
def addChar (c : Char) : Template → Template
  | .text s :: ps => .text (c :: s) :: ps
  | ps => .text [c] :: ps

end Template
end KeyPath
