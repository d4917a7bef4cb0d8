import KeyPath.Proofs.Compiled
import KeyPath.Regex.Tabled

/-!
The source of the regular expression of a glob, read back. Reading it from the left, a backslash makes the character
behind it stand for itself, a star is written `(.*?)`, and every other character stands for itself. Each character of
the key is written as one such symbol (`Glob.Symbol.ofChar`), and what is written for it is read as that symbol again
whatever stands behind it, since no character that starts a backslash pair or a group is left without a backslash. So
the source gives back the key (`regex_gives_back_key`), and different keys have different sources.
-/
namespace KeyPath
set_option autoImplicit false

namespace Glob

/-! ## Symbols -/

namespace Symbol

def write : Symbol → Text
  | escaped c => ['\\', c]
  | star => ['(', '.', '*', '?', ')']
  | plain c => [c]

/-- The character of the key that the symbol stands for. -/
def char : Symbol → Char
  | escaped c | plain c => c
  | star => '*'

/-- The symbol that a character of the key is written as. -/
def ofChar (c : Char) : Symbol :=
  if c = '*' then star else if c ∈ metacharacters then escaped c else plain c

theorem ofChar_cases (c : Char) :
    (c = '*' ∧ ofChar c = star) ∨ (c ≠ '*' ∧ c ∈ metacharacters ∧ ofChar c = escaped c) ∨
      (c ≠ '*' ∧ c ∉ metacharacters ∧ ofChar c = plain c) := by
  by_cases hstar : c = '*'
  · simp [ofChar, hstar]
  · by_cases hmeta : c ∈ metacharacters <;> simp [ofChar, hstar, hmeta]

theorem char_ofChar (c : Char) : (ofChar c).char = c := by
  obtain ⟨rfl, h⟩ | ⟨-, -, h⟩ | ⟨-, -, h⟩ := ofChar_cases c <;> simp [h, char]

theorem ofChar_eq_star_iff {c : Char} : ofChar c = star ↔ c = '*' := by
  obtain ⟨rfl, h⟩ | ⟨hstar, -, h⟩ | ⟨hstar, -, h⟩ := ofChar_cases c
  · simp [h]
  · simp [h, hstar]
  · simp [h, hstar]

theorem not_mem_of_ofChar_eq_plain {c d : Char} (h : ofChar c = plain d) : d ∉ metacharacters := by
  obtain ⟨-, h'⟩ | ⟨-, -, h'⟩ | ⟨-, hmeta, h'⟩ := ofChar_cases c
  · simp [h'] at h
  · simp [h'] at h
  · obtain rfl : c = d := plain.inj (h'.symm.trans h)
    exact hmeta

/-- Outside the stars the symbols are written as the escaped text is. -/
theorem write_ofChar {c : Char} (hstar : c ≠ '*') : (ofChar c).write = escape [c] := by
  obtain ⟨rfl, -⟩ | ⟨-, hmeta, h⟩ | ⟨-, hmeta, h⟩ := ofChar_cases c
  · exact absurd rfl hstar
  · simp [h, hmeta, write, escape]
  · simp [h, hmeta, write, escape]

end Symbol

/-! ## Reading -/

/-- What is written for a character is read as its symbol, whatever stands behind it. -/
theorem readSource_write_ofChar (c : Char) (s : Text) :
    readSource ((Symbol.ofChar c).write ++ s) = (readSource s).map (Symbol.ofChar c :: ·) := by
  cases h : Symbol.ofChar c with
  | escaped d => rfl
  | star => rfl
  | plain d =>
    -- A character without a backslash is no metacharacter, so it starts neither a pair nor a group.
    have hmeta := Symbol.not_mem_of_ofChar_eq_plain h
    have hslash : d ≠ '\\' := by rintro rfl; exact hmeta (by decide)
    have hopen : d ≠ '(' := by rintro rfl; exact hmeta (by decide)
    exact readSource_plain hslash hopen s

/-! ## The source of a key -/

/-- The symbols of the key, one after the other. -/
def source (key : Text) : Text := key.flatMap fun c => (Symbol.ofChar c).write

theorem source_eq (key : Text) : source key =
    escape (ofKey key).first ++ (ofKey key).rest.flatMap fun s => Symbol.star.write ++ escape s := by
  induction key with
  | nil => rfl
  | cons c key ih =>
    rw [source, List.flatMap_cons, ← source, ih]
    by_cases hstar : c = '*'
    · have hkey : ofKey (c :: key) = ⟨[], (ofKey key).first :: (ofKey key).rest⟩ := by simp only [ofKey, hstar, if_true]
      rw [hkey, Symbol.ofChar_eq_star_iff.mpr hstar, List.flatMap_cons, ← List.append_assoc]
      rfl
    · have hkey : ofKey (c :: key) = ⟨c :: (ofKey key).first, (ofKey key).rest⟩ := by simp only [ofKey, hstar, if_false]
      have hescape : escape (c :: (ofKey key).first) = escape [c] ++ escape (ofKey key).first := by
        simp only [escape, List.flatMap_cons, List.flatMap_nil, List.append_nil]
      rw [hkey, Symbol.write_ofChar hstar, hescape, List.append_assoc]

theorem regex_ofKey (key : Text) : (ofKey key).regex = "(?s)^".toList ++ source key ++ "$".toList := by
  have hstar : Symbol.star.write = "(.*?)".toList := rfl
  rw [source_eq, hstar, ← List.append_assoc]
  rfl

/-! ## What is read back -/

theorem readSource_source (key : Text) : readSource (source key) = some (key.map Symbol.ofChar) := by
  induction key with
  | nil => rfl
  | cons c key ih =>
    rw [source, List.flatMap_cons, readSource_write_ofChar, ← source, ih, Option.map_some, List.map_cons]

theorem map_char_ofChar (key : Text) : (key.map Symbol.ofChar).map Symbol.char = key := by
  rw [List.map_map]
  exact List.map_id'' Symbol.char_ofChar key

theorem count_star_ofChar (key : Text) : (key.map Symbol.ofChar).count .star = key.count '*' := by
  unfold List.count
  rw [List.countP_map]
  refine List.countP_congr fun c _ => ?_
  simp [Symbol.ofChar_eq_star_iff]

theorem eq_of_ofKey [Engine] {key : Text} {g : Glob} (h : (Pattern.ofKey key).outcome = .ok (.leaf (.glob g))) :
    g = ofKey key := by
  have hglob : Pattern.leaf (.glob g) = .leaf (.glob (ofKey key)) := Pattern.eq_glob_of_ofKey h rfl
  simpa using hglob

theorem source_injective : Function.Injective source := by
  intro key key' h
  have hsymbols : key.map Symbol.ofChar = key'.map Symbol.ofChar := by
    apply Option.some.inj
    rw [← readSource_source, ← readSource_source, h]
  rw [← map_char_ofChar key, hsymbols, map_char_ofChar]

end Glob

/-- The source of the regular expression of a glob, without its two ends, can be read as symbols from the left. They
stand for the characters of the key, with one star for each star of the key and no other ones, and none of the
characters without a backslash has a meaning of its own. No two globs have the same source. -/
theorem regex_gives_back_key [Engine] {key : Text} {g : Glob}
    (h : (Pattern.ofKey key).outcome = .ok (.leaf (.glob g))) :
    ∃ (source : Text) (symbols : List Glob.Symbol), g.regex = "(?s)^".toList ++ source ++ "$".toList ∧
      Glob.readSource source = some symbols ∧ symbols.flatMap Glob.Symbol.write = source ∧
      symbols.map Glob.Symbol.char = key ∧ symbols.count .star = g.stars ∧ g.stars = key.count '*' ∧
      (∀ c, .plain c ∈ symbols → c ∉ Glob.metacharacters) ∧
      ∀ key' g', (Pattern.ofKey key').outcome = .ok (.leaf (.glob g')) → g'.regex = g.regex → key' = key := by
  obtain rfl := Glob.eq_of_ofKey h
  refine ⟨Glob.source key, key.map Glob.Symbol.ofChar, Glob.regex_ofKey key, Glob.readSource_source key, ?write,
    Glob.map_char_ofChar key, ?count, Glob.stars_ofKey key, ?plain, ?injective⟩
  case write => rw [List.flatMap_map, Glob.source]
  case count => rw [Glob.count_star_ofChar, Glob.stars_ofKey]
  case plain =>
    intro c hc
    obtain ⟨d, -, hd⟩ := List.mem_map.mp hc
    exact Glob.Symbol.not_mem_of_ofChar_eq_plain hd
  case injective =>
    intro key' g' h' hregex
    obtain rfl := Glob.eq_of_ofKey h'
    rw [Glob.regex_ofKey, Glob.regex_ofKey] at hregex
    exact Glob.source_injective (List.append_cancel_left (List.append_cancel_right hregex))

open scoped Tabled

/-- The key looks like a group in front of a backslash that does not escape its star. -/
theorem regex_gives_back_key_lookalike :
    let key := "(.*?)\\*$".toList
    let g : Glob := ⟨"(.".toList, ["?)\\".toList, ['$']]⟩
    (Pattern.ofKey key).outcome = .ok (.leaf (.glob g)) ∧
      (∃ symbols, Glob.readSource "\\(\\.(.*?)\\?\\)\\\\(.*?)\\$".toList = some symbols ∧
        symbols.map Glob.Symbol.char = key ∧ symbols.count .star = 2) ∧
      ∀ g', (Pattern.ofKey "(.*?)*$".toList).outcome = .ok (.leaf (.glob g')) → g'.regex ≠ g.regex := by
  intro key g
  have hkey : (Pattern.ofKey key).outcome = .ok (.leaf (.glob g)) := rfl
  obtain ⟨source, symbols, hregex, hread, -, hchars, hstars, -, -, hsame⟩ := regex_gives_back_key hkey
  have hsource : g.regex = "(?s)^".toList ++ "\\(\\.(.*?)\\?\\)\\\\(.*?)\\$".toList ++ "$".toList := by decide
  rw [List.append_cancel_left (List.append_cancel_right (hregex.symm.trans hsource))] at hread
  refine ⟨hkey, ⟨symbols, hread, hchars, hstars⟩, fun g' h' heq => ?_⟩
  have hother : "(.*?)*$".toList ≠ key := by decide
  exact hother (hsame _ g' h' heq)

end KeyPath
