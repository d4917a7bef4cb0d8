import KeyPath.Proofs.Lookup
import KeyPath.Proofs.Template.Rendering

/-!
Which templates can be rendered. `Piece.Yields` tells what a piece is rendered to, and `Piece.Fails` why it
cannot be. A template fails as the first of its pieces that fails, and otherwise it is rendered to what its
pieces yield, one behind the other (`render_by_pieces`).
-/
namespace KeyPath
set_option autoImplicit false

/-! ## Pieces -/

/-- A captured index: digits, with at most one plus sign in front. -/
def Numeral.DenotesSigned (s : Text) (n : Nat) : Prop :=
  Denotes s n ∨ ∃ digits, s = '+' :: digits ∧ Denotes digits n

theorem Numeral.readSigned?_eq_some_iff {s : Text} {n : Nat} :
    readSigned? s = some n ↔ DenotesSigned s n := by
  unfold readSigned?
  split
  · next digits =>
    rw [read?_eq_some_iff_denotes]
    constructor
    · exact fun h => .inr ⟨digits, rfl, h⟩
    · rintro (h | ⟨_, hdigits, h⟩)
      · exact absurd (h.2.1 '+' List.mem_cons_self) (by decide)
      · obtain rfl := (List.cons.inj hdigits).2
        exact h
  · next hplus =>
    rw [read?_eq_some_iff_denotes]
    constructor
    · exact .inl
    · rintro (h | ⟨digits, rfl, -⟩)
      · exact h
      · exact absurd rfl (hplus digits)

theorem Numeral.readSigned?_eq_none_iff {s : Text} : readSigned? s = none ↔ ∀ n, ¬ DenotesSigned s n := by
  rw [Option.eq_none_iff_forall_ne_some]
  exact forall_congr' fun n => not_congr readSigned?_eq_some_iff

section
variable (t : Trail)

/-- Why a piece cannot be rendered. -/
inductive Piece.Fails : Piece → Fault → Prop
  | insert {r : Reference} {fault : Fault} (h : r.Fails t fault) : Fails (.insert r) fault
  | insertIndex {r : Reference} {fault : Fault} (h : r.Fails t fault) : Fails (.insertIndex r) fault
  | notAnIndex {r : Reference} {s : Text} (h : r.Yields t s) (hs : ∀ n, ¬ Numeral.DenotesSigned s n) :
      Fails (.insertIndex r) (.notAnIndex s)

/-- What a piece is rendered to. -/
inductive Piece.Yields : Piece → Text → Prop
  | text (s : Text) : Yields (.text s) s
  | index (n : Nat) : Yields (.index n) (Text.bracketed (Numeral.write n))
  | insert {r : Reference} {s : Text} (h : r.Yields t s) : Yields (.insert r) s
  | insertIndex {r : Reference} {s : Text} {n : Nat} (h : r.Yields t s) (hn : Numeral.DenotesSigned s n) :
      Yields (.insertIndex r) (Text.bracketed (Numeral.write n))

end

namespace Piece

variable {t : Trail} {p : Piece} {s : Text} {fault : Fault}

theorem yields_or_fails (t : Trail) (p : Piece) : (∃ s, p.Yields t s) ∨ ∃ fault, p.Fails t fault := by
  cases p with
  | text s => exact .inl ⟨s, .text s⟩
  | index n => exact .inl ⟨_, .index n⟩
  | insert r =>
    obtain ⟨s, h⟩ | ⟨fault, h⟩ := r.yields_or_fails t
    · exact .inl ⟨s, .insert h⟩
    · exact .inr ⟨fault, .insert h⟩
  | insertIndex r =>
    obtain ⟨s, h⟩ | ⟨fault, h⟩ := r.yields_or_fails t
    · cases hs : Numeral.readSigned? s with
      | some n => exact .inl ⟨_, .insertIndex h (Numeral.readSigned?_eq_some_iff.mp hs)⟩
      | none => exact .inr ⟨_, .notAnIndex h (Numeral.readSigned?_eq_none_iff.mp hs)⟩
    · exact .inr ⟨fault, .insertIndex h⟩

theorem render_of_yields (h : p.Yields t s) : p.render t = .ok s := by
  cases h with
  | text s => rfl
  | index n => rfl
  | insert h => exact Trail.resolve_of_yields h
  | insertIndex h hn =>
    rw [render_insertIndex (Trail.resolve_of_yields h), Numeral.readSigned?_eq_some_iff.mpr hn]

theorem render_of_fails (h : p.Fails t fault) : p.render t = .error fault := by
  cases h with
  | insert h => exact Trail.resolve_of_fails h
  | insertIndex h =>
    rw [render, Trail.resolve_of_fails h]
    rfl
  | notAnIndex h hs =>
    rw [render_insertIndex (Trail.resolve_of_yields h), Numeral.readSigned?_eq_none_iff.mpr hs]

theorem render_toldBy (t : Trail) (p : Piece) : ToldBy (p.render t) (p.Yields t) (p.Fails t) :=
  toldBy_of_total (fun _ => render_of_yields) (fun _ => render_of_fails) (p.yields_or_fails t)

theorem not_fails_of_yields (h : p.Yields t s) (fault : Fault) : ¬ p.Fails t fault := by
  intro hfault
  cases (render_of_yields h).symm.trans (render_of_fails hfault)

end Piece

/-! ## Templates -/

namespace Template

variable {t : Trail} {pieces before behind : Template} {p : Piece} {fault : Fault} {texts : List Text}

/-- All pieces yield something, or there is a first one that fails. -/
theorem yields_or_first_fails (t : Trail) (pieces : Template) :
    (∃ texts, List.Forall₂ (Piece.Yields t) pieces texts) ∨
      ∃ before p behind texts fault, pieces = before ++ p :: behind ∧
        List.Forall₂ (Piece.Yields t) before texts ∧ p.Fails t fault := by
  obtain ⟨texts, htexts⟩ | ⟨before, p, behind, texts, fault, hpieces, htexts, hp⟩ :=
    exists_results_or_first_fault (Piece.render t) pieces
  · exact .inl ⟨texts, htexts.imp fun p s => ((p.render_toldBy t).ok_iff s).mp⟩
  · exact .inr ⟨before, p, behind, texts, fault, hpieces, htexts.imp fun q s => ((q.render_toldBy t).ok_iff s).mp,
      ((p.render_toldBy t).error_iff fault).mp hp⟩

theorem exists_yields_iff :
    (∃ texts, List.Forall₂ (Piece.Yields t) pieces texts) ↔ ∀ p ∈ pieces, ∀ fault, ¬ p.Fails t fault := by
  constructor
  · rintro ⟨texts, htexts⟩ p hp
    obtain ⟨s, -, hs⟩ := exists_of_mem_forall₂ htexts.flip hp
    exact Piece.not_fails_of_yields hs
  · intro hnone
    obtain hyields | ⟨before, p, behind, -, fault, rfl, -, hp⟩ := yields_or_first_fails t pieces
    · exact hyields
    · exact absurd hp (hnone p (List.mem_append_right before List.mem_cons_self) fault)

theorem render_of_yields (h : List.Forall₂ (Piece.Yields t) pieces texts) : pieces.render t = .ok texts.flatten := by
  induction h with
  | nil => rfl
  | cons hp _ ih =>
    rw [render_cons, Piece.render_of_yields hp, ih]
    rfl

theorem render_of_first_fails (hbefore : List.Forall₂ (Piece.Yields t) before texts) (hp : p.Fails t fault) :
    Template.render t (before ++ p :: behind) = .error fault := by
  rw [render_append, render_of_yields hbefore, render_cons, Piece.render_of_fails hp]
  rfl

theorem render_toldBy (t : Trail) (pieces : Template) :
    ToldBy (pieces.render t) (fun s => ∃ texts, List.Forall₂ (Piece.Yields t) pieces texts ∧ s = texts.flatten)
      fun fault => ∃ before p behind, pieces = before ++ p :: behind ∧
        (∀ q ∈ before, ∀ cause, ¬ Piece.Fails t q cause) ∧ Piece.Fails t p fault := by
  refine toldBy_of_total ?yields ?fails ?total
  case yields =>
    rintro _ ⟨texts, htexts, rfl⟩
    exact render_of_yields htexts
  case fails =>
    rintro fault ⟨before, p, behind, rfl, hbefore, hp⟩
    obtain ⟨texts, htexts⟩ := exists_yields_iff.mpr hbefore
    exact render_of_first_fails htexts hp
  case total =>
    obtain ⟨texts, htexts⟩ | ⟨before, p, behind, texts, fault, hpieces, htexts, hp⟩ :=
      yields_or_first_fails t pieces
    · exact .inl ⟨_, texts, htexts, rfl⟩
    · exact .inr ⟨fault, before, p, behind, hpieces, exists_yields_iff.mp ⟨texts, htexts⟩, hp⟩

theorem exists_render_eq_error_iff :
    (∃ fault, pieces.render t = .error fault) ↔ ∃ p ∈ pieces, ∃ fault, Piece.Fails t p fault := by
  constructor
  · rintro ⟨fault, h⟩
    obtain ⟨before, p, behind, rfl, -, hp⟩ := ((render_toldBy t pieces).error_iff fault).mp h
    exact ⟨p, List.mem_append_right before List.mem_cons_self, fault, hp⟩
  · rintro ⟨p, hmem, cause, hp⟩
    obtain hyields | ⟨before, q, behind, texts, fault, rfl, htexts, hq⟩ := yields_or_first_fails t pieces
    · exact absurd hp (exists_yields_iff.mp hyields p hmem cause)
    · exact ⟨fault, render_of_first_fails htexts hq⟩

end Template

/-! ## The rendering of a template -/

/-- A template fails if and only if one of its pieces does, and with the fault of the first one. Otherwise it is
rendered to what its pieces yield, one behind the other. Whatever the levels and the sub-keys of its references
are, looking them up takes no difference below zero and asks for no place that is not there. -/
theorem render_by_pieces (key : Text) (pieces : Template) (t : Trail) :
    let rendered := (Pattern.leaf (.template key pieces)).render t
    ((∃ fault, rendered = .error fault) ↔ ∃ p ∈ pieces, ∃ fault, Piece.Fails t p fault) ∧
      (∀ fault, rendered = .error fault ↔ ∃ before p behind, pieces = before ++ p :: behind ∧
        (∀ q ∈ before, ∀ cause, ¬ Piece.Fails t q cause) ∧ Piece.Fails t p fault) ∧
      ((∀ p ∈ pieces, ∀ fault, ¬ Piece.Fails t p fault) →
        ∃ texts, List.Forall₂ (Piece.Yields t) pieces texts ∧ rendered = .ok texts.flatten) ∧
      (∀ s, rendered = .ok s ↔ ∃ texts, List.Forall₂ (Piece.Yields t) pieces texts ∧ s = texts.flatten) ∧
      (t.depth < Numeral.bound →
        ∀ up group : UInt64, t.resolveWord up group = some (t.resolve ⟨up.toNat, group.toNat⟩)) := by
  intro rendered
  have htold := Template.render_toldBy t pieces
  refine ⟨Template.exists_render_eq_error_iff, htold.error_iff, ?_, htold.ok_iff,
    fun hdepth => Trail.resolveWord_eq hdepth⟩
  intro hnone
  obtain ⟨texts, htexts⟩ := Template.exists_yields_iff.mpr hnone
  exact ⟨texts, htexts, Template.render_of_yields htexts⟩

end KeyPath
