import DesignSystem.Tree

/-! Aliases: which token category a property of an element draws from. -/

namespace DesignSystem

/-- The property names of each category, in the order of the document. -/
abbrev Aliases := List (String × List String)

/-- A property name without the modifiers before it: what follows the last `=`. -/
def bareProperty (property : String) : String :=
  String.ofList (property.toList.reverse.takeWhile (· != '=')).reverse

namespace Aliases

/-- The property names of a row: the items of a list, a single value, or the keys of
nested entries. -/
def properties : Node → List String
  | .leaf (.list items) => items.map Value.display
  | .leaf v => [v.display]
  | .branch entries => entries.map (·.1)

/-- Reads an `aliases` section. The rows stand in its `tokens` entry if that is a branch,
and otherwise in the section itself. -/
def ofSection (entries : Tree) : Aliases :=
  ((entries.branch? "tokens").getD entries).map fun e => (e.1, properties e.2)

/-- The first category that lists a property, or the bare property itself. -/
def resolve (aliases : Aliases) (property : String) : String :=
  let bare := bareProperty property
  ((aliases.find? fun row => row.2.contains bare).map (·.1)).getD bare

end Aliases

end DesignSystem
