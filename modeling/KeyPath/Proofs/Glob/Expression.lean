import KeyPath.Accept
import KeyPath.Regex.Tabled

/-!
A glob and its regular expression. The source of the expression is read as the items of `Glob.expression`,
since escaping leaves every character its own meaning (`read?_regex`), and the leftmost-first match of these
items is what the search of the glob finds (`leftmostFirst_expression`). So an engine with leftmost-first
matches captures what `Glob.captures?` has (`groups?_eq_captures?`), and the engine of the program is one.
-/
namespace KeyPath
set_option autoImplicit false

open Regex

namespace Glob

/-! ## Reading the source -/

/-- The items behind the first segment. -/
def itemsRest : List Text → List Item
  | [] => [.stop]
  | s :: segments => .lazyGroup :: (s.map .char ++ itemsRest segments)

def expression (g : Glob) : Regex := ⟨true, .start :: (g.first.map .char ++ itemsRest g.rest)⟩

theorem readItems?_cons {source u : Text} {symbol : Symbol} {item : Item}
    (hread : readSource source = (readSource u).map (symbol :: ·)) (hitem : Item.ofSymbol? symbol = some item) :
    readItems? source = (readItems? u).map (item :: ·) := by
  unfold readItems?
  rw [hread]
  cases readSource u with
  | none => rfl
  | some symbols =>
    show Item.ofSymbols? (symbol :: symbols) = (Item.ofSymbols? symbols).map (item :: ·)
    rw [Item.ofSymbols?, hitem]
    rfl

theorem readItems?_star (u : Text) : readItems? ("(.*?)".toList ++ u) = (readItems? u).map (.lazyGroup :: ·) :=
  readItems?_cons (by rfl) (by rfl)

theorem readItems?_plain {c : Char} (hc : c ∉ metacharacters) (u : Text) :
    readItems? (c :: u) = (readItems? u).map (.char c :: ·) := by
  have hne : ∀ d ∈ metacharacters, c ≠ d := fun d hd h => hc (h ▸ hd)
  have hitem : Item.ofSymbol? (.plain c) = some (.char c) := by
    simp [Item.ofSymbol?, hne '^' (by decide), hne '$' (by decide), hc]
  exact readItems?_cons (readSource_plain (hne '\\' (by decide)) (hne '(' (by decide)) u) hitem

/-- An escaped text is read as its characters, whatever stands behind it. -/
theorem readItems?_escape_append (s u : Text) :
    readItems? (escape s ++ u) = (readItems? u).map (s.map .char ++ ·) := by
  induction s with
  | nil => simp [escape]
  | cons c s ih =>
    have hchar : readItems? (escape (c :: s) ++ u) = (readItems? (escape s ++ u)).map (.char c :: ·) := by
      by_cases hc : c ∈ metacharacters
      · have hescape : escape (c :: s) ++ u = '\\' :: c :: (escape s ++ u) := by simp [escape, hc]
        rw [hescape]
        exact readItems?_cons rfl (if_pos hc)
      · have hescape : escape (c :: s) ++ u = c :: (escape s ++ u) := by simp [escape, hc]
        rw [hescape, readItems?_plain hc]
    rw [hchar, ih, Option.map_map]
    rfl

theorem readItems?_rest (segments : List Text) :
    readItems? ((segments.flatMap fun s => "(.*?)".toList ++ escape s) ++ "$".toList) = some (itemsRest segments) := by
  induction segments with
  | nil => rfl
  | cons s segments ih =>
    rw [List.flatMap_cons, List.append_assoc, List.append_assoc, readItems?_star, readItems?_escape_append, ih]
    rfl

theorem read?_regex (g : Glob) : Regex.read? g.regex = some g.expression := by
  have hflag : Text.after? "(?s)".toList g.regex = some ('^' :: (escape g.first ++
      ((g.rest.flatMap fun s => "(.*?)".toList ++ escape s) ++ "$".toList))) := by
    have hanchor : "(?s)^".toList = "(?s)".toList ++ ['^'] := by decide
    apply Text.after?_eq_some_iff.mpr
    show "(?s)^".toList ++ escape g.first ++ (g.rest.flatMap fun s => "(.*?)".toList ++ escape s) ++ "$".toList = _
    rw [hanchor, List.append_assoc, List.append_assoc, List.append_assoc]
    rfl
  have hstart (u : Text) : readItems? ('^' :: u) = (readItems? u).map (.start :: ·) := readItems?_cons rfl rfl
  rw [Regex.read?, hflag]
  show (readItems? _).map _ = _
  rw [hstart, readItems?_escape_append, readItems?_rest]
  rfl

/-! ## The preferred match -/

/-- The ways take all of `u`, and the captures of the preferred one are those that were found. -/
def Prefers (ws : List Way) (u : Text) (found : Option (List Text)) : Prop :=
  ws.head? = found.map fun captures => ⟨u, captures⟩

variable {next : Text → Option (List Text)}

theorem prefers_ways_chars {items : List Item} (h : ∀ before v, Prefers (ways true items before v) v (next v))
    (s before u : Text) :
    Prefers (ways true (s.map .char ++ items) before u) u ((Text.after? s u).bind next) := by
  induction s generalizing before u with
  | nil => exact h before u
  | cons c s ih =>
    cases u with
    | nil => rfl
    | cons d u =>
      by_cases hcd : c = d
      · subst hcd
        have hrest := ih (before ++ [c]) u
        unfold Prefers at hrest ⊢
        simp [ways, Text.after?, hrest, Function.comp_def]
      · simp [Prefers, ways, Text.after?, hcd]

/-- A lazy group that takes one character more. -/
def grow (c : Char) (w : Way) : Way := ⟨c :: w.taken, lengthen c w.groups⟩

/-- The ways from a lazy group on: it takes nothing, or it takes one character more than in a way behind that. -/
theorem flatMap_splits_cons (c : Char) (u : Text) (f : Text → Text → List Way) :
    ((splits true (c :: u)).flatMap fun (t, v) => (f t v).map fun w => ⟨t ++ w.taken, t :: w.groups⟩) =
      (f [] (c :: u)).map (fun w => ⟨w.taken, [] :: w.groups⟩) ++
        ((splits true u).flatMap fun (t, v) =>
          (f (c :: t) v).map fun w => ⟨t ++ w.taken, t :: w.groups⟩).map (grow c) := by
  have hsplits : splits true (c :: u) = ([], c :: u) :: (splits true u).map fun (t, v) => (c :: t, v) := rfl
  rw [hsplits, List.flatMap_cons, List.flatMap_map, List.map_flatMap]
  simp [grow, lengthen, Function.comp_def]

/-- What a lazy group takes is the shortest text behind which the rest can go on. -/
theorem prefers_splits {s : Text} {f : Text → Text → List Way}
    (h : ∀ t v, Prefers (f t v) v ((Text.after? s v).bind next)) (u : Text) :
    Prefers ((splits true u).flatMap fun (t, v) => (f t v).map fun w => ⟨t ++ w.taken, t :: w.groups⟩) u
      (searchStar s next u) := by
  induction u generalizing f with
  | nil =>
    have hhere := h [] []
    unfold Prefers at hhere ⊢
    simp [splits, searchStar, hhere, Function.comp_def]
  | cons c u ih =>
    have hhere := h [] (c :: u)
    have hlater := @ih (fun t v => f (c :: t) v) fun t v => h (c :: t) v
    unfold Prefers at hhere hlater ⊢
    rw [flatMap_splits_cons, List.head?_append, List.head?_map, hhere, List.head?_map, hlater, searchStar]
    cases (Text.after? s (c :: u)).bind next with
    | some captures => rfl
    | none => simp [grow, Function.comp_def]

theorem prefers_ways_rest (segments : List Text) (before u : Text) :
    Prefers (ways true (itemsRest segments) before u) u (searchRest segments u) := by
  induction segments generalizing before u with
  | nil =>
    by_cases hu : u = [] <;> simp [Prefers, itemsRest, ways, searchRest, hu]
  | cons s segments ih =>
    rw [itemsRest, ways, searchRest]
    exact prefers_splits (fun t v => prefers_ways_chars ih s (before ++ t) v) u

/-- A match starts at the start of the text. -/
theorem flatMap_splits_start (items : List Item) (text : Text) :
    ((splits true text).flatMap fun (before, rest) => ways true (.start :: items) before rest) =
      ways true items [] text := by
  cases text with
  | nil => simp [splits, ways]
  | cons c u => simp [splits, ways, List.flatMap_map]

theorem leftmostFirst_expression (g : Glob) (text : Text) :
    g.expression.leftmostFirst text = (g.search text).map fun captures => ⟨text, captures⟩ := by
  unfold expression leftmostFirst
  rw [flatMap_splits_start]
  exact prefers_ways_chars (prefers_ways_rest g.rest) g.first [] text

example : (Regex.read? (Glob.ofKey "a-*".toList).regex).bind (·.leftmostFirst "a-\n-".toList) =
    some ⟨"a-\n-".toList, ["\n-".toList]⟩ := by decide

/-! ## Engines -/

theorem groups_expression (g : Glob) : g.expression.groups = g.stars := by
  have hchars (s : Text) (items : List Item) :
      (s.map Item.char ++ items).count .lazyGroup = items.count .lazyGroup := by
    simp [List.count_eq_zero]
  have hrest (segments : List Text) : (itemsRest segments).count .lazyGroup = segments.length := by
    induction segments with
    | nil => rfl
    | cons s segments ih => rw [itemsRest, List.count_cons_self, hchars, ih, List.length_cons]
  show (Item.start :: (g.first.map Item.char ++ itemsRest g.rest)).count .lazyGroup = g.rest.length
  rw [List.count_cons_of_ne (by decide), hchars, hrest]

/-- The stars of a glob that is compiled are counted in one word. -/
theorem stars_lt_of_refusal? [Engine] [Engine.WordSized] {g : Glob} (h : Engine.refusal? g.regex = none) :
    g.stars + 1 < Numeral.bound := by
  have hgroups := Engine.WordSized.groups_lt_of_read? h (read?_regex g)
  rwa [groups_expression] at hgroups

/-- The captures of a glob are the groups of its expression. -/
theorem groups?_eq_captures? [Engine] [Engine.LeftmostFirst] (g : Glob) (key : Text) :
    g.groups? key = g.captures? key := by
  unfold groups?
  rw [Engine.LeftmostFirst.captures?_of_read? (read?_regex g), leftmostFirst_expression, captures?_eq_search]
  cases g.search key with
  | none => rfl
  | some captures => simp [Way.captures, Function.comp_def]

end Glob

namespace Tabled

theorem eq_items_of_glob? {items : List Item} {g : Glob} (h : Item.glob? items = some g) :
    items = g.first.map .char ++ Glob.itemsRest g.rest := by
  fun_induction Item.glob? items generalizing g with
  | case1 =>
    obtain rfl := Option.some.inj h
    rfl
  | case2 c items ih =>
    obtain ⟨g', hg', rfl⟩ := Option.map_eq_some_iff.mp h
    rw [ih hg']
    rfl
  | case3 items ih =>
    obtain ⟨g', hg', rfl⟩ := Option.map_eq_some_iff.mp h
    rw [ih hg']
    rfl
  | case4 => cases h

theorem eq_expression_of_glob? {r : Regex} {g : Glob} (h : r.glob? = some g) : r = g.expression := by
  unfold Regex.glob? at h
  split at h
  · next items =>
    rw [eq_items_of_glob? h]
    rfl
  · cases h

theorem captures?_of_read? {source : Text} {r : Regex} (h : Regex.read? source = some r) (text : Text) :
    captures? source text = (r.leftmostFirst text).map Way.captures := by
  unfold captures?
  rw [h, Option.bind_eq_bind, Option.bind_some]
  cases hglob : r.glob? with
  | none => simp
  | some g =>
    obtain rfl := eq_expression_of_glob? hglob
    simp [Glob.leftmostFirst_expression, ← Glob.captures?_eq_search, Way.captures, Function.comp_def]

theorem groups_le_of_refusal? {source : Text} {r : Regex} (htaken : refusal? source = none)
    (h : Regex.read? source = some r) : r.groups ≤ maxGroups := by
  by_cases hle : r.groups ≤ maxGroups
  · exact hle
  · simp [refusal?, h, hle] at htaken

open scoped Tabled

instance : Engine.LeftmostFirst := ⟨captures?_of_read?⟩

instance : Engine.WordSized where
  groups_lt_of_read? := by
    intro source r htaken h
    have hle := groups_le_of_refusal? htaken h
    unfold maxGroups at hle
    unfold Numeral.bound
    omega

end Tabled
end KeyPath
