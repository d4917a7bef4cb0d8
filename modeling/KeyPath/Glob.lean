import KeyPath.Text

/-!
Globs: keys in which a star stands for any text. A glob is kept as the text in front of the first star
and one text behind each star, none of which holds a star itself, so `Glob.key` gives back the key that
`Glob.ofKey` was made from.
-/
namespace KeyPath
set_option autoImplicit false

structure Glob where
  first : Text
  rest : List Text
deriving DecidableEq, Repr

namespace Glob

def ofKey : Text → Glob
  | [] => ⟨[], []⟩
  | c :: s =>
    let g := ofKey s
    if c = '*' then ⟨[], g.first :: g.rest⟩ else ⟨c :: g.first, g.rest⟩

def key (g : Glob) : Text := g.first ++ g.rest.flatMap ('*' :: ·)

/-- The number of texts that a match captures. -/
def stars (g : Glob) : Nat := g.rest.length

theorem key_ofKey (s : Text) : (ofKey s).key = s := by
  induction s with
  | nil => rfl
  | cons c s ih =>
    rw [key] at ih
    by_cases hc : c = '*' <;> simp [ofKey, key, hc, ih]

theorem stars_ofKey (s : Text) : (ofKey s).stars = s.count '*' := by
  induction s with
  | nil => rfl
  | cons c s ih =>
    rw [stars] at ih
    by_cases hc : c = '*' <;> simp [ofKey, stars, hc, ih]

/-! ## The same language as a regular expression -/

/-- The characters that have a meaning of their own in a regular expression. -/
def metacharacters : List Char :=
  ['\\', '.', '+', '*', '?', '(', ')', '|', '[', ']', '\x7b', '\x7d', '^', '$', '#', '&', '-', '~']

def escape (s : Text) : Text := s.flatMap fun c => if c ∈ metacharacters then ['\\', c] else [c]

/-- A star is the shortest match of anything, line ends included. -/
def regex (g : Glob) : Text :=
  "(?s)^".toList ++ escape g.first ++ (g.rest.flatMap fun s => "(.*?)".toList ++ escape s) ++ "$".toList

/-! ## The symbols of a regular expression -/

/-- What a reader of a regular expression meets. -/
inductive Symbol where
  | escaped (c : Char)
  | star
  | plain (c : Char)
deriving DecidableEq, Repr

/-- Reads the source of a regular expression; a backslash at its end has nothing to stand in front of. -/
def readSource : Text → Option (List Symbol)
  | [] => some []
  | ['\\'] => none
  | '\\' :: c :: s => (readSource s).map (.escaped c :: ·)
  | '(' :: '.' :: '*' :: '?' :: ')' :: s => (readSource s).map (.star :: ·)
  | c :: s => (readSource s).map (.plain c :: ·)

theorem readSource_plain {c : Char} (hslash : c ≠ '\\') (hopen : c ≠ '(') (s : Text) :
    readSource (c :: s) = (readSource s).map (.plain c :: ·) := by
  rw [readSource]
  · simp [hslash]
  · simp [hslash]
  · simp [hopen]

end Glob
end KeyPath
