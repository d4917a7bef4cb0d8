import KeyPath.Spec
import KeyPath.Trail

/-!
Rendering: exact keys stand for themselves and templates are filled from the trail. The faults of a
template come in the order of its pieces, and of one reference in the order level, kind of the node,
sub-key, index.
-/
namespace KeyPath
set_option autoImplicit false

/-! ## Sub-keys -/

/-- Sub-key 0 of an exact key is the key, and sub-key `n` the text that the `n`-th star captured. -/
def Pattern.capture : Pattern → Nat → Except Fault Text
  | .leaf (.exact key groups), index =>
    match (key :: groups)[index]? with
    | some s => .ok s
    | none => .error (.noSuchCapture key index (groups.length + 1))
  | p, _ => .error (.unsupported .capture p.kind p.key)

theorem Pattern.capture_exact_eq_ok_iff {key s : Text} {groups : List Text} {index : Nat} :
    (Pattern.leaf (.exact key groups)).capture index = .ok s ↔ (key :: groups)[index]? = some s := by
  rw [Pattern.capture]
  cases (key :: groups)[index]? <;> simp

/-- The sub-key that a reference stands for. -/
def Trail.resolve (t : Trail) (r : Reference) : Except Fault Text := do
  let p ← t.up r.up
  p.capture r.group

/-! ## Templates -/

def Piece.render (t : Trail) : Piece → Except Fault Text
  | .text s => .ok s
  | .index n => .ok (Text.bracketed (Numeral.write n))
  | .insert r => t.resolve r
  | .insertIndex r => do
    let s ← t.resolve r
    match Numeral.readSigned? s with
    | some n => .ok (Text.bracketed (Numeral.write n))
    | none => .error (.notAnIndex s)

theorem Piece.render_insertIndex {t : Trail} {r : Reference} {s : Text} (hs : t.resolve r = .ok s) :
    (Piece.insertIndex r).render t = match Numeral.readSigned? s with
      | some n => .ok (Text.bracketed (Numeral.write n))
      | none => .error (.notAnIndex s) := by
  rw [Piece.render, hs]
  rfl

def Template.render (t : Trail) : Template → Except Fault Text
  | [] => .ok []
  | p :: ps => do
    let s ← p.render t
    let u ← Template.render t ps
    return s ++ u

/-! ## Patterns and paths -/

def Pattern.render (t : Trail) : Pattern → Except Fault Text
  | .leaf (.exact key _) => .ok key
  | .leaf (.template _ pieces) => pieces.render t
  | p => .error (.unsupported .render p.kind p.key)

def Spec.render (t : Trail) : Spec → Except Fault (List Text)
  | [] => .ok []
  | p :: ps => do
    let s ← p.render t
    let ss ← Spec.render t ps
    return s :: ss

/-- Renders an output path that is given as text; the parts are those of its levels. -/
def Spec.renderOutput [Engine] (t : Trail) (output : Text) : Logged (List Text) := do
  let levels ← Spec.ofOutput output
  Logged.ofExcept (levels.render t)

end KeyPath
