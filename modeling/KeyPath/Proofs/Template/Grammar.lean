import KeyPath.Template.Reader

/-!
The grammar of templates, piece by piece. `Piece.Spelling u rest p` says that the text `u`, with `rest`
behind it, is written for the piece `p`, and `Flaw.At` says why a text that begins with an ampersand or a
bracket cannot be read on. Reading takes a written piece off the text (`Piece.Spelling.read`) and stops at
a flaw (`Flaw.At.read`), and there is always one of the two (`spelling_or_flaw_of_ne_nil`).
-/
namespace KeyPath
set_option autoImplicit false

/-! ## Longest runs -/

section
variable {α : Type} {f : α → Bool} {xs rest : List α}

theorem takeWhile_run (hxs : ∀ x ∈ xs, f x = true) (hrest : ∀ x, rest.head? = some x → f x = false) :
    (xs ++ rest).takeWhile f = xs := by
  rw [List.takeWhile_append_of_pos hxs]
  cases rest with
  | nil => rw [List.takeWhile_nil, List.append_nil]
  | cons y rest => rw [List.takeWhile_cons_of_neg (by rw [hrest y rfl]; decide), List.append_nil]

theorem dropWhile_run (hxs : ∀ x ∈ xs, f x = true) (hrest : ∀ x, rest.head? = some x → f x = false) :
    (xs ++ rest).dropWhile f = rest := by
  rw [List.dropWhile_append_of_pos hxs]
  cases rest with
  | nil => rfl
  | cons y rest => rw [List.dropWhile_cons_of_neg (by rw [hrest y rfl]; decide)]

theorem head?_dropWhile_eq_false {x : α} (h : (xs.dropWhile f).head? = some x) : f x = false := by
  have hnot := List.head?_dropWhile_not f xs
  rw [h] at hnot
  exact hnot

end

/-! ## Numbers -/

/-- A written number: one digit or more, leading zeros included, for a number below the bound. -/
def Numeral.Denotes (s : Text) (n : Nat) : Prop :=
  s ≠ [] ∧ (∀ c ∈ s, c.isDigit = true) ∧ Numeral.value s = n ∧ n < Numeral.bound

theorem Numeral.read?_eq_some_iff_denotes {s : Text} {n : Nat} :
    Numeral.read? s = some n ↔ Numeral.Denotes s n := by
  rw [Numeral.read?_eq_some_iff, List.all_eq_true]
  constructor
  · rintro ⟨hne, hdigits, hlt, rfl⟩
    exact ⟨hne, hdigits, rfl, hlt⟩
  · rintro ⟨hne, hdigits, rfl, hlt⟩
    exact ⟨hne, hdigits, hlt, rfl⟩

theorem Numeral.denotes_write {n : Nat} (h : n < Numeral.bound) : Numeral.Denotes (Numeral.write n) n :=
  Numeral.read?_eq_some_iff_denotes.mp (Numeral.read?_write h)

/-! ## References -/

/-- `N(G)`, where `N` and `(G)` may each be left out and are 0 then. -/
inductive Reference.Body : Text → Reference → Prop
  | bare : Body [] ⟨0, 0⟩
  | up {u : Text} {n : Nat} (hu : Numeral.Denotes u n) : Body u ⟨n, 0⟩
  | group {g : Text} {m : Nat} (hg : Numeral.Denotes g m) : Body ('(' :: (g ++ [')'])) ⟨0, m⟩
  | both {u g : Text} {n m : Nat} (hu : Numeral.Denotes u n) (hg : Numeral.Denotes g m) :
      Body (u ++ '(' :: (g ++ [')'])) ⟨n, m⟩

namespace Reference

theorem isBodyChar_of_isDigit {c : Char} (h : c.isDigit = true) : isBodyChar c = true := by
  rw [isBodyChar, h]
  rfl

theorem Body.isBodyChar {b : Text} {r : Reference} (h : Body b r) : ∀ c ∈ b, isBodyChar c = true := by
  have hgroup : ∀ {g : Text} {m : Nat}, Numeral.Denotes g m →
      ∀ c ∈ '(' :: (g ++ [')']), Reference.isBodyChar c = true := by
    intro g m hg c hc
    rcases List.mem_cons.mp hc with rfl | hc
    · decide
    · rcases List.mem_append.mp hc with hc | hc
      · exact isBodyChar_of_isDigit (hg.2.1 c hc)
      · obtain rfl := List.mem_singleton.mp hc
        decide
  cases h with
  | bare =>
    intro c hc
    cases hc
  | up hu => exact fun c hc => isBodyChar_of_isDigit (hu.2.1 c hc)
  | group hg => exact hgroup hg
  | both hu hg =>
    intro c hc
    rcases List.mem_append.mp hc with hc | hc
    · exact isBodyChar_of_isDigit (hu.2.1 c hc)
    · exact hgroup hg c hc

theorem readUp?_of_denotes {u : Text} {n : Nat} (hu : Numeral.Denotes u n) : readUp? u = some n := by
  rw [readUp?, if_neg hu.1]
  exact Numeral.read?_eq_some_iff_denotes.mpr hu

theorem read?_of_up {u : Text} {n : Nat} (hdigits : ∀ c ∈ u, c.isDigit = true) (hup : readUp? u = some n) :
    read? u = some ⟨n, 0⟩ ∧
      ∀ {g : Text} {m : Nat}, Numeral.Denotes g m → read? (u ++ '(' :: (g ++ [')'])) = some ⟨n, m⟩ := by
  constructor
  · have hend : ∀ c, ([] : Text).head? = some c → c.isDigit = false := by
      intro c hc
      cases hc
    have htake := takeWhile_run hdigits hend
    have hdrop := dropWhile_run hdigits hend
    rw [List.append_nil] at htake hdrop
    rw [read?, htake, hdrop, hup]
  · intro g m hg
    have hopen : ∀ c, ('(' :: (g ++ [')'])).head? = some c → c.isDigit = false := by
      intro c hc
      obtain rfl := Option.some.inj hc
      decide
    have hclose : ∀ c, [')'].head? = some c → c.isDigit = false := by
      intro c hc
      obtain rfl := Option.some.inj hc
      decide
    rw [read?, takeWhile_run hdigits hopen, dropWhile_run hdigits hopen, hup]
    simp only [takeWhile_run hg.2.1 hclose, dropWhile_run hg.2.1 hclose,
      Numeral.read?_eq_some_iff_denotes.mpr hg]

theorem body_of_up {u : Text} {n : Nat} (hup : readUp? u = some n) :
    Body u ⟨n, 0⟩ ∧
      ∀ {g : Text} {m : Nat}, Numeral.Denotes g m → Body (u ++ '(' :: (g ++ [')'])) ⟨n, m⟩ := by
  rw [readUp?] at hup
  split at hup
  · next hu =>
    obtain rfl : 0 = n := Option.some.inj hup
    subst hu
    exact ⟨.bare, fun hg => .group hg⟩
  · have hu := Numeral.read?_eq_some_iff_denotes.mp hup
    exact ⟨.up hu, fun hg => .both hu hg⟩

theorem read?_eq_some_iff {b : Text} {r : Reference} : read? b = some r ↔ Body b r := by
  constructor
  · intro h
    have hb : b.takeWhile Char.isDigit ++ b.dropWhile Char.isDigit = b := List.takeWhile_append_dropWhile
    unfold read? at h
    split at h
    · next up hup hdrop =>
      obtain rfl : _ = r := Option.some.inj h
      rw [hdrop, List.append_nil] at hb
      rw [← hb]
      exact (body_of_up hup).1
    · next up s hup hdrop =>
      have hs : s.takeWhile Char.isDigit ++ s.dropWhile Char.isDigit = s := List.takeWhile_append_dropWhile
      split at h
      · next group hgroup hclose =>
        obtain rfl : _ = r := Option.some.inj h
        rw [hdrop, ← hs, hclose] at hb
        rw [← hb]
        exact (body_of_up hup).2 (Numeral.read?_eq_some_iff_denotes.mp hgroup)
      · cases h
    · cases h
  · intro h
    have hnil : ∀ c ∈ ([] : Text), c.isDigit = true := by
      intro c hc
      cases hc
    cases h with
    | bare => exact (read?_of_up hnil rfl).1
    | up hu => exact (read?_of_up hu.2.1 (readUp?_of_denotes hu)).1
    | group hg => exact (read?_of_up hnil rfl).2 hg
    | both hu hg => exact (read?_of_up hu.2.1 (readUp?_of_denotes hu)).2 hg

end Reference

/-! ## Pieces -/

/-- The text `u`, with `rest` behind it, is written for the piece. An ampersand takes the longest run of
digits and parentheses, so `rest` starts with none of them. -/
inductive Piece.Spelling : Text → Text → Piece → Prop
  | char {c : Char} {rest : Text} (hamp : c ≠ '&') (hbracket : c ≠ '[') : Spelling [c] rest (.text [c])
  | insert {b rest : Text} {r : Reference} (hb : r.Body b)
      (hrest : ∀ c, rest.head? = some c → Reference.isBodyChar c = false) :
      Spelling ('&' :: b) rest (.insert r)
  | index {d rest : Text} {n : Nat} (hd : Numeral.Denotes d n) : Spelling ('[' :: (d ++ [']'])) rest (.index n)
  | insertIndex {b rest : Text} {r : Reference} (hb : r.Body b) :
      Spelling ('[' :: '&' :: (b ++ [']'])) rest (.insertIndex r)

/-- Why a text that begins with an ampersand or a bracket cannot be read on. -/
inductive Flaw.At : Text → Flaw → Prop
  | unclosedBracket {s : Text} (hs : ']' ∉ s) : At ('[' :: s) .unclosedBracket
  | emptyBrackets {s : Text} : At ('[' :: ']' :: s) .emptyBrackets
  | indexTooLarge {d s : Text} (hne : d ≠ []) (hd : ∀ c ∈ d, c.isDigit = true)
      (hlarge : Numeral.bound ≤ Numeral.value d) : At ('[' :: (d ++ ']' :: s)) .indexTooLarge
  | neitherIndexNorReference {b s : Text} (hne : b ≠ []) (hclose : ']' ∉ b)
      (hb : ¬ ∀ c ∈ b, c.isDigit = true) (hamp : b.head? ≠ some '&') :
      At ('[' :: (b ++ ']' :: s)) .neitherIndexNorReference
  | badReferenceInBrackets {b s : Text} (hclose : ']' ∉ b) (hb : ∀ r, ¬ Reference.Body b r) :
      At ('[' :: '&' :: (b ++ ']' :: s)) .badReferenceInBrackets
  | badReference {b s : Text} (hb : ∀ c ∈ b, Reference.isBodyChar c = true)
      (hs : ∀ c, s.head? = some c → Reference.isBodyChar c = false) (hbad : ∀ r, ¬ Reference.Body b r) :
      At ('&' :: (b ++ s)) .badReference

theorem Reference.read?_eq_none {b : Text} (h : ∀ r, ¬ Body b r) : read? b = none := by
  cases hr : read? b with
  | none => rfl
  | some r => exact absurd (read?_eq_some_iff.mp hr) (h r)

namespace Template

/-- What reading does with a piece in front of the rest: a text joins the text that the rest starts with. -/
def put : Piece → Template → Template
  | .text s, ps => s.foldr addChar ps
  | p, ps => p :: ps

theorem read_nil : read [] = .ok [] := by rw [read]

theorem read_char {c : Char} (hamp : c ≠ '&') (hbracket : c ≠ '[') (s : Text) :
    read (c :: s) = (read s).map (addChar c) := by
  rw [read, if_neg hbracket, if_neg hamp]

theorem read_ampersand {b rest : Text} (hb : ∀ c ∈ b, Reference.isBodyChar c = true)
    (hrest : ∀ c, rest.head? = some c → Reference.isBodyChar c = false) :
    read ('&' :: (b ++ rest)) = Piece.readReference b >>= fun p => (read rest).map (p :: ·) := by
  rw [read, if_neg (by decide), if_pos rfl, takeWhile_run hb hrest, dropWhile_run hb hrest]
  cases Piece.readReference b <;> rfl

theorem read_unclosed {s : Text} (hs : ']' ∉ s) : read ('[' :: s) = .error .unclosedBracket := by
  rw [read, if_pos rfl, if_neg hs]

theorem read_bracket {b : Text} (hb : ']' ∉ b) (rest : Text) :
    read ('[' :: (b ++ ']' :: rest)) = Piece.readBracketed b >>= fun p => (read rest).map (p :: ·) := by
  have hinside : ∀ c ∈ b, (c != ']') = true := by
    intro c hc
    rw [bne_iff_ne]
    rintro rfl
    exact hb hc
  have hclose : ∀ c, (']' :: rest).head? = some c → (c != ']') = false := by
    intro c hc
    obtain rfl := Option.some.inj hc
    decide
  have hmem : ']' ∈ b ++ ']' :: rest := List.mem_append_right b List.mem_cons_self
  rw [read, if_pos rfl, if_pos hmem, takeWhile_run hinside hclose, dropWhile_run hinside hclose, List.tail_cons]
  cases Piece.readBracketed b <;> rfl

end Template

theorem Piece.readBracketed_reference {b : Text} :
    readBracketed ('&' :: b) = match Reference.read? b with
      | some r => .ok (.insertIndex r)
      | none => .error .badReferenceInBrackets := by
  rw [readBracketed, if_neg (List.cons_ne_nil _ _), List.all_cons]
  rfl

theorem Piece.readBracketed_digits {d : Text} (hne : d ≠ []) (hd : ∀ c ∈ d, c.isDigit = true) :
    readBracketed d = match Numeral.read? d with
      | some n => .ok (.index n)
      | none => .error .indexTooLarge := by
  unfold readBracketed
  exact (if_neg hne).trans (if_pos (List.all_eq_true.mpr hd))

theorem Piece.readBracketed_other {b : Text} (hne : b ≠ []) (hb : ¬ ∀ c ∈ b, c.isDigit = true)
    (hamp : b.head? ≠ some '&') : readBracketed b = .error .neitherIndexNorReference := by
  unfold readBracketed
  rw [if_neg hne, if_neg (by rwa [List.all_eq_true])]
  split
  · exact absurd rfl hamp
  · rfl

theorem not_mem_of_isDigit {d : Text} (hd : ∀ c ∈ d, c.isDigit = true) : ']' ∉ d :=
  fun h => absurd (hd ']' h) (by decide)

theorem not_mem_of_isBodyChar {b : Text} (hb : ∀ c ∈ b, Reference.isBodyChar c = true) : ']' ∉ b :=
  fun h => absurd (hb ']' h) (by decide)

theorem Piece.Spelling.read {u rest : Text} {p : Piece} (h : p.Spelling u rest) :
    Template.read (u ++ rest) = (Template.read rest).map (Template.put p) := by
  cases h with
  | char hamp hbracket => exact Template.read_char hamp hbracket rest
  | insert hb hrest =>
    rw [List.cons_append, Template.read_ampersand hb.isBodyChar hrest, Piece.readReference,
      Reference.read?_eq_some_iff.mpr hb]
    rfl
  | @index d rest n hd =>
    rw [List.cons_append, List.append_assoc, List.singleton_append,
      Template.read_bracket (not_mem_of_isDigit hd.2.1) rest, Piece.readBracketed_digits hd.1 hd.2.1,
      Numeral.read?_eq_some_iff_denotes.mpr hd]
    rfl
  | @insertIndex b rest r hb =>
    have hclose : ']' ∉ '&' :: b := by
      rw [List.mem_cons, not_or]
      exact ⟨by decide, not_mem_of_isBodyChar hb.isBodyChar⟩
    have hbracket := Template.read_bracket hclose rest
    rw [Piece.readBracketed_reference, Reference.read?_eq_some_iff.mpr hb] at hbracket
    rw [List.cons_append, List.cons_append, List.append_assoc, List.singleton_append]
    exact hbracket

theorem Flaw.At.read {s : Text} {flaw : Flaw} (h : flaw.At s) : Template.read s = .error flaw := by
  cases h with
  | unclosedBracket hs => exact Template.read_unclosed hs
  | @emptyBrackets s => exact Template.read_bracket List.not_mem_nil s
  | indexTooLarge hne hd hlarge =>
    have hnone : Numeral.read? _ = none := if_neg fun hread => Nat.not_lt_of_le hlarge hread.2.2
    rw [Template.read_bracket (not_mem_of_isDigit hd), Piece.readBracketed_digits hne hd, hnone]
    rfl
  | neitherIndexNorReference hne hclose hb hamp =>
    rw [Template.read_bracket hclose, Piece.readBracketed_other hne hb hamp]
    rfl
  | @badReferenceInBrackets b s hclose hb =>
    have hclose' : ']' ∉ '&' :: b := by
      rw [List.mem_cons, not_or]
      exact ⟨by decide, hclose⟩
    have hbracket := Template.read_bracket hclose' s
    rw [Piece.readBracketed_reference, Reference.read?_eq_none hb] at hbracket
    exact hbracket
  | badReference hb hs hbad =>
    rw [Template.read_ampersand hb hs, Piece.readReference, Reference.read?_eq_none hbad]
    rfl

/-! ## Every text goes on -/

theorem spelling_or_flaw_of_bracket (s : Text) :
    (∃ u rest p, '[' :: s = u ++ rest ∧ u ≠ [] ∧ Piece.Spelling u rest p) ∨ ∃ flaw, Flaw.At ('[' :: s) flaw := by
  by_cases hmem : ']' ∈ s
  · obtain ⟨b, rest, rfl, hclose⟩ := List.eq_append_cons_of_mem hmem
    have hcut : ∀ b' : Text, '[' :: (b' ++ ']' :: rest) = '[' :: (b' ++ [']']) ++ rest := by
      intro b'
      rw [List.cons_append, List.append_assoc, List.singleton_append]
    by_cases hne : b = []
    · subst hne
      exact .inr ⟨_, .emptyBrackets⟩
    · by_cases hd : ∀ c ∈ b, c.isDigit = true
      · rcases Nat.lt_or_ge (Numeral.value b) Numeral.bound with hlt | hge
        · exact .inl ⟨_, rest, _, hcut b, List.cons_ne_nil _ _, .index ⟨hne, hd, rfl, hlt⟩⟩
        · exact .inr ⟨_, .indexTooLarge hne hd hge⟩
      · by_cases hamp : b.head? = some '&'
        · obtain ⟨b, rfl⟩ := List.head?_eq_some_iff.mp hamp
          by_cases hbody : ∃ r, Reference.Body b r
          · obtain ⟨r, hr⟩ := hbody
            exact .inl ⟨_, rest, _, hcut ('&' :: b), List.cons_ne_nil _ _, .insertIndex hr⟩
          · have hclose' : ']' ∉ b := fun h => hclose (List.mem_cons_of_mem _ h)
            exact .inr ⟨_, .badReferenceInBrackets hclose' fun r hr => hbody ⟨r, hr⟩⟩
        · exact .inr ⟨_, .neitherIndexNorReference hne hclose hd hamp⟩
  · exact .inr ⟨_, .unclosedBracket hmem⟩

theorem spelling_or_flaw_of_ampersand (s : Text) :
    (∃ u rest p, '&' :: s = u ++ rest ∧ u ≠ [] ∧ Piece.Spelling u rest p) ∨ ∃ flaw, Flaw.At ('&' :: s) flaw := by
  have hs : s.takeWhile Reference.isBodyChar ++ s.dropWhile Reference.isBodyChar = s :=
    List.takeWhile_append_dropWhile
  have hb : ∀ c ∈ s.takeWhile Reference.isBodyChar, Reference.isBodyChar c = true :=
    List.all_eq_true.mp List.all_takeWhile
  have hrest : ∀ c, (s.dropWhile Reference.isBodyChar).head? = some c → Reference.isBodyChar c = false :=
    fun c hc => head?_dropWhile_eq_false hc
  by_cases hbody : ∃ r, Reference.Body (s.takeWhile Reference.isBodyChar) r
  · obtain ⟨r, hr⟩ := hbody
    refine .inl ⟨_, _, _, ?_, List.cons_ne_nil _ _, .insert hr hrest⟩
    rw [List.cons_append, hs]
  · have hflaw := Flaw.At.badReference hb hrest fun r hr => hbody ⟨r, hr⟩
    rw [hs] at hflaw
    exact .inr ⟨_, hflaw⟩

theorem spelling_or_flaw_of_ne_nil {k : Text} (hk : k ≠ []) :
    (∃ u rest p, k = u ++ rest ∧ u ≠ [] ∧ Piece.Spelling u rest p) ∨ ∃ flaw, Flaw.At k flaw := by
  cases k with
  | nil => exact absurd rfl hk
  | cons c s =>
    by_cases hbracket : c = '['
    · subst hbracket
      exact spelling_or_flaw_of_bracket s
    · by_cases hamp : c = '&'
      · subst hamp
        exact spelling_or_flaw_of_ampersand s
      · exact .inl ⟨[c], s, _, rfl, List.cons_ne_nil _ _, .char hamp hbracket⟩

end KeyPath
