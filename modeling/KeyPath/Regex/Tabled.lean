import KeyPath.Glob.Search
import KeyPath.Regex

/-!
The engine of the program. It follows `Regex.leftmostFirst`, but for the expressions of globs, where the ways to match
are too many to list, it reads the glob back from the expression and looks the captures up in the table of
`Glob.captures?`.
-/
namespace KeyPath
set_option autoImplicit false

namespace Regex

/-- The glob of the items that stand behind the first anchor of its expression. -/
def Item.glob? : List Item → Option Glob
  | [.stop] => some ⟨[], []⟩
  | .char c :: items => (glob? items).map fun g => ⟨c :: g.first, g.rest⟩
  | .lazyGroup :: items => (glob? items).map fun g => ⟨[], g.first :: g.rest⟩
  | _ => none

def glob? : Regex → Option Glob
  | ⟨true, .start :: items⟩ => Item.glob? items
  | _ => none

end Regex

namespace Tabled

/-- The most groups that are taken. The limit of the library is 10485760 bytes for what it compiles an
expression to, and characters count towards it as groups do. This is the number of groups that were measured
to fit where there is nothing else: the key of 10443 stars is taken, and the key of 10444 stars is refused. -/
def maxGroups : Nat := 10443

def sizeLimitNotice : Text := "Compiled regex exceeds size limit of 10485760 bytes.".toList

def refusal? (source : Text) : Option Text :=
  match Regex.read? source with
  | some r => if r.groups ≤ maxGroups then none else some sizeLimitNotice
  | none => some "unsupported expression".toList

def captures? (source text : Text) : Option (List (Option Text)) := do
  let r ← Regex.read? source
  match r.glob? with
  | some g => (g.captures? text).map fun captures => some text :: captures.map some
  | none => (r.leftmostFirst text).map Regex.Way.captures

scoped instance engine : Engine := ⟨refusal?, captures?⟩

end Tabled
end KeyPath
