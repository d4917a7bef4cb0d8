import KeyPath.Glob
import KeyPath.Numeral

/-!
Regular expressions as far as globs need them: characters, lazy groups of any text, and the anchors at the two ends.
`Regex.leftmostFirst` is the match that a backtracking search finds first: the leftmost one, and of those that start
there the one that is preferred, where a lazy group prefers to take less.

Compiling and running expressions is left to an `Engine`, of which nothing is known but what the two classes behind it
say: `Engine.LeftmostFirst` for what a match captures, `Engine.WordSized` for how many groups there can be.
-/
namespace KeyPath
set_option autoImplicit false

inductive Regex.Item where
  | char (c : Char)
  | lazyGroup
  | start
  | stop
deriving DecidableEq, Repr

/-- The dot of a group takes line ends only if `dotAll` is set. -/
structure Regex where
  dotAll : Bool
  items : List Regex.Item
deriving DecidableEq, Repr

namespace Regex

def groups (r : Regex) : Nat := r.items.count .lazyGroup

/-! ## Reading a source -/

/-- The item of a symbol. Metacharacters stand for themselves when they are escaped, and of the others only the
anchors are items. -/
def Item.ofSymbol? : Glob.Symbol → Option Item
  | .star => some .lazyGroup
  | .escaped c => if c ∈ Glob.metacharacters then some (.char c) else none
  | .plain c =>
    if c = '^' then some .start
    else if c = '$' then some .stop
    else if c ∈ Glob.metacharacters then none
    else some (.char c)

def Item.ofSymbols? : List Glob.Symbol → Option (List Item)
  | [] => some []
  | symbol :: symbols => do
    let item ← ofSymbol? symbol
    (item :: ·) <$> ofSymbols? symbols

def readItems? (source : Text) : Option (List Item) := (Glob.readSource source).bind Item.ofSymbols?

/-- Reads a source, which may start with the flag for the dot. -/
def read? (source : Text) : Option Regex :=
  match Text.after? "(?s)".toList source with
  | some rest => (readItems? rest).map (⟨true, ·⟩)
  | none => (readItems? source).map (⟨false, ·⟩)

/-! ## The match that is preferred -/

/-- A way to match: the text that is taken, and what each group takes of it. -/
structure Way where
  taken : Text
  groups : List Text
deriving DecidableEq, Repr

/-- The whole match, and behind it the groups, all of which take part. -/
def Way.captures (w : Way) : List (Option Text) := some w.taken :: w.groups.map some

/-- The texts that a dot can take again and again, each with what stands behind it, the shortest first. -/
def splits (dotAll : Bool) : Text → List (Text × Text)
  | [] => [([], [])]
  | c :: u =>
    ([], c :: u) ::
      if dotAll || c != '\n' then (splits dotAll u).map fun (t, v) => (c :: t, v) else []

/-- The ways to match the items between two texts, the preferred ones first. -/
def ways (dotAll : Bool) : List Item → Text → Text → List Way
  | [], _, _ => [⟨[], []⟩]
  | .char _ :: _, _, [] => []
  | .char c :: items, before, d :: u =>
    if c = d then (ways dotAll items (before ++ [d]) u).map fun w => ⟨d :: w.taken, w.groups⟩ else []
  | .lazyGroup :: items, before, rest =>
    (splits dotAll rest).flatMap fun (t, v) =>
      (ways dotAll items (before ++ t) v).map fun w => ⟨t ++ w.taken, t :: w.groups⟩
  | .start :: items, before, rest => if before = [] then ways dotAll items before rest else []
  | .stop :: items, before, rest => if rest = [] then ways dotAll items before rest else []

/-- The preferred way at the leftmost place where there is one. -/
def leftmostFirst (r : Regex) (text : Text) : Option Way :=
  ((splits true text).flatMap fun (before, rest) => ways r.dotAll r.items before rest).head?

end Regex

/-! ## Engines -/

/-- A library that compiles regular expressions and runs them. -/
class Engine where
  /-- Why a source is not compiled, if it is not. -/
  refusal? (source : Text) : Option Text
  /-- What the first match of a source in a text captures: the whole match, and behind it one entry for each
  group, which is empty if the group takes no part. -/
  captures? (source text : Text) : Option (List (Option Text))

namespace Engine

/-- The first match is the leftmost-first one. A limit on the size of what is compiled plays no part in what a
source means. -/
class LeftmostFirst [Engine] : Prop where
  captures?_of_read? {source : Text} {r : Regex} (h : Regex.read? source = some r) (text : Text) :
    captures? source text = (r.leftmostFirst text).map Regex.Way.captures

/-- The groups of an expression that is compiled are counted in one word, together with the whole match. -/
class WordSized [Engine] : Prop where
  groups_lt_of_read? {source : Text} {r : Regex} (htaken : refusal? source = none) (h : Regex.read? source = some r) :
    r.groups + 1 < Numeral.bound

end Engine
end KeyPath
