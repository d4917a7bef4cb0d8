import KeyPath.Fault

/-!
Computations that keep a journal. A `Logged` value has the entries that were made, in order, and the
outcome; a fault ends the computation and leaves the entries that were made before it.
-/
namespace KeyPath
set_option autoImplicit false

inductive Entry where
  | compiled (key : Text) (kind : Kind)
  | tried (key pattern : Text) (matched : Bool)
deriving DecidableEq, Repr

def Entry.line : Entry → Text
  | .compiled key kind => "DEBUG compiled key ".toList ++ key.quoted ++ " as ".toList ++ kind.name ++ " pattern".toList
  | .tried key pattern matched =>
    "TRACE key ".toList ++ key.quoted ++ (if matched then " matched " else " did not match ").toList ++ pattern.quoted

structure Logged (α : Type) where
  entries : List Entry
  outcome : Except Fault α

namespace Logged

variable {α β : Type}

protected def pure (a : α) : Logged α := ⟨[], .ok a⟩

protected def bind (x : Logged α) (f : α → Logged β) : Logged β :=
  match x.outcome with
  | .error fault => ⟨x.entries, .error fault⟩
  | .ok a =>
    let y := f a
    ⟨x.entries ++ y.entries, y.outcome⟩

protected def map (f : α → β) (x : Logged α) : Logged β := ⟨x.entries, x.outcome.map f⟩

instance : Monad Logged where
  pure := Logged.pure
  bind := Logged.bind
  map := Logged.map

def fail (fault : Fault) : Logged α := ⟨[], .error fault⟩

def note (entry : Entry) : Logged Unit := ⟨[entry], .ok ()⟩

def ofExcept (x : Except Fault α) : Logged α := ⟨[], x⟩

/-- Goes on after a fault, with the outcome as the value. -/
def attempt (x : Logged α) : Logged (Except Fault α) := ⟨x.entries, .ok x.outcome⟩

/-! ## The outcome of each operation -/

@[simp] theorem outcome_pure (a : α) : (pure a : Logged α).outcome = .ok a := rfl

@[simp] theorem outcome_bind (x : Logged α) (f : α → Logged β) :
    (x >>= f).outcome = x.outcome >>= fun a => (f a).outcome := by
  cases x with
  | mk entries outcome => cases outcome <;> rfl

@[simp] theorem outcome_map (f : α → β) (x : Logged α) : (f <$> x).outcome = x.outcome.map f := rfl

@[simp] theorem outcome_fail (fault : Fault) : (fail fault : Logged α).outcome = .error fault := rfl

@[simp] theorem outcome_note (entry : Entry) : (note entry).outcome = .ok () := rfl

@[simp] theorem outcome_ofExcept (x : Except Fault α) : (ofExcept x).outcome = x := rfl

@[simp] theorem outcome_attempt (x : Logged α) : x.attempt.outcome = .ok x.outcome := rfl

/-! ## The entries of each operation -/

@[simp] theorem entries_pure (a : α) : (pure a : Logged α).entries = [] := rfl

theorem entries_bind_ok {x : Logged α} {a : α} (h : x.outcome = .ok a) (f : α → Logged β) :
    (x >>= f).entries = x.entries ++ (f a).entries := by
  show (Logged.bind x f).entries = _
  rw [Logged.bind, h]

theorem entries_bind_error {x : Logged α} {fault : Fault} (h : x.outcome = .error fault) (f : α → Logged β) :
    (x >>= f).entries = x.entries := by
  show (Logged.bind x f).entries = _
  rw [Logged.bind, h]

@[simp] theorem entries_map (f : α → β) (x : Logged α) : (f <$> x).entries = x.entries := rfl

@[simp] theorem entries_fail (fault : Fault) : (fail fault : Logged α).entries = [] := rfl

@[simp] theorem entries_note (entry : Entry) : (note entry).entries = [entry] := rfl

@[simp] theorem entries_ofExcept (x : Except Fault α) : (ofExcept x).entries = [] := rfl

@[simp] theorem entries_attempt (x : Logged α) : x.attempt.entries = x.entries := rfl

end Logged
end KeyPath
