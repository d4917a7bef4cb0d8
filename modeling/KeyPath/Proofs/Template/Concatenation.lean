import KeyPath.Proofs.Template.Rendering
import KeyPath.Regex.Tabled

/-!
Keys written side by side. A key may be continued by any text that its last reference does not take in: the whole
is read as the two parts are, except that texts join at the seam, and it is refused where the second part is
(`Template.read_append_eq_error`). So the rendering of the whole is the rendering of the first part followed by
that of the second (`render_of_key_append`).
-/
namespace KeyPath
set_option autoImplicit false

/-! ## Reading -/

namespace Template
variable {a b : Text} {ps : Template}

theorem Spelling.append_of_head? {qs : Template} (ha : Spelling a [] ps) (hb : Spelling b [] qs)
    (hfirst : ∀ c, b.head? = some c → Reference.isBodyChar c = false) : Spelling (a ++ b) [] (ps ++ qs) := by
  apply Spelling.append _ hb
  rw [List.append_nil]
  exact ha.of_rest hfirst

/-- What is wrong with the second part is wrong with the whole. -/
theorem read_append_eq_error {flaw : Flaw} (ha : Spelling a [] ps)
    (hfirst : ∀ c, b.head? = some c → Reference.isBodyChar c = false) (hb : read b = .error flaw) :
    read (a ++ b) = .error flaw := by
  rw [(ha.of_rest hfirst).read, hb]
  rfl

end Template

/-! ## Keys -/

/-- Two keys without bars, stars and at-signs, the second of which does not begin with a digit or a parenthesis.
If both compile, so does the one key that they make up, and on every trail its rendering is that of the first key
followed by that of the second. If only the second is refused, the whole is refused for the same flaw. -/
theorem render_of_key_append [Engine] {a b : Text} (ha : '|' ∉ a ∧ '*' ∉ a ∧ '@' ∉ a) (hb : '|' ∉ b ∧ '*' ∉ b ∧ '@' ∉ b)
    (hfirst : ∀ c, b.head? = some c → Reference.isBodyChar c = false) {p : Pattern}
    (hp : (Pattern.ofKey a).outcome = .ok p) :
    (∀ q, (Pattern.ofKey b).outcome = .ok q → ∃ whole, (Pattern.ofKey (a ++ b)).outcome = .ok whole ∧
        ∀ t : Trail, whole.render t = followedBy (p.render t) (q.render t)) ∧
      ∀ fault, (Pattern.ofKey b).outcome = .error fault → ∃ flaw, fault = .malformed b flaw ∧
        (Pattern.ofKey (a ++ b)).outcome = .error (.malformed (a ++ b) flaw) := by
  obtain ⟨habar, hastar, haat⟩ := ha
  obtain ⟨hbbar, hbstar, hbat⟩ := hb
  have hfree : ∀ c, c ∉ a → c ∉ b → c ∉ a ++ b := fun c hca hcb => by simp [hca, hcb]
  have hbar := hfree '|' habar hbbar
  have hstar := hfree '*' hastar hbstar
  have hat := hfree '@' haat hbat
  obtain ⟨ps, hps⟩ := (Pattern.exists_ofKey_iff_spelling habar hastar haat).mp ⟨p, hp⟩
  constructor
  · intro q hq
    obtain ⟨qs, hqs⟩ := (Pattern.exists_ofKey_iff_spelling hbbar hbstar hbat).mp ⟨q, hq⟩
    have hwhole := hps.append_of_head? hqs hfirst
    obtain ⟨whole, hkey⟩ := (Pattern.exists_ofKey_iff_spelling hbar hstar hat).mpr ⟨_, hwhole⟩
    refine ⟨whole, hkey, fun t => ?_⟩
    rw [Pattern.render_of_spelling hbar hstar hat hkey hwhole, Template.render_append,
      Pattern.render_of_spelling habar hastar haat hp hps, Pattern.render_of_spelling hbbar hbstar hbat hq hqs]
  · intro fault hfault
    obtain ⟨flaw, hread, rfl⟩ := (Pattern.outcome_ofKey_eq_error_iff hbbar hbstar).mp hfault
    refine ⟨flaw, rfl, (Pattern.outcome_ofKey_eq_error_iff hbar hstar).mpr ⟨flaw, ?_, rfl⟩⟩
    exact Template.read_append_eq_error hps hfirst hread

open scoped Tabled

/-- The texts on both sides of the seam become one piece, and a bracket that is left open is left open in the
whole. -/
theorem render_of_key_append_seam :
    (∃ whole, (Pattern.ofKey "a&1b-&(1)".toList).outcome = .ok whole ∧
        whole.render ⟨[.leaf (.exact "n5".toList [['5']]), .leaf (.exact ['r'] [])]⟩ = .ok "arb-5".toList) ∧
      (Pattern.ofKey "a&1b-[".toList).outcome = .error (.malformed "a&1b-[".toList .unclosedBracket) := by
  have hread : Template.read "a&1b".toList = .ok [.text ['a'], .insert ⟨1, 0⟩, .text ['b']] := by decide +kernel
  have hfirst : (Pattern.ofKey "a&1b".toList).outcome = .ok (.leaf (.template "a&1b".toList _)) :=
    Pattern.outcome_ofKey_template rfl (by decide) (by decide) hread
  constructor
  · have hread' : Template.read "-&(1)".toList = .ok [.text ['-'], .insert ⟨0, 1⟩] := by decide +kernel
    have hsecond : (Pattern.ofKey "-&(1)".toList).outcome = .ok (.leaf (.template "-&(1)".toList _)) :=
      Pattern.outcome_ofKey_template rfl (by decide) (by decide) hread'
    have hdash : ∀ c, "-&(1)".toList.head? = some c → Reference.isBodyChar c = false := by
      rintro c ⟨⟩
      rfl
    obtain ⟨whole, hwhole, hrender⟩ := (render_of_key_append (by decide) (by decide) hdash hfirst).1 _ hsecond
    exact ⟨whole, hwhole, hrender _⟩
  · have hread' : Template.read "-[".toList = .error .unclosedBracket := by decide +kernel
    have hsecond : (Pattern.ofKey "-[".toList).outcome = .error (.malformed "-[".toList .unclosedBracket) :=
      (Pattern.outcome_ofKey_eq_error_iff (by decide) (by decide)).mpr ⟨_, hread', rfl⟩
    have hdash : ∀ c, "-[".toList.head? = some c → Reference.isBodyChar c = false := by
      rintro c ⟨⟩
      rfl
    obtain ⟨flaw, hflaw, hwhole⟩ := (render_of_key_append (by decide) (by decide) hdash hfirst).2 _ hsecond
    obtain rfl : Flaw.unclosedBracket = flaw := (Fault.malformed.inj hflaw).2
    exact hwhole

end KeyPath
