import DesignSystem.Alias
import DesignSystem.Breakpoint
import DesignSystem.Document

/-! A design system: the sections of a document read for what they mean. -/

namespace DesignSystem

/-- Tokens are entries of categories, elements are declarations. -/
structure Design where
  widths : Widths
  aliases : Aliases
  tokens : Tree
  elements : Tree

namespace Design

/-- The entries of a section. A section that is missing or has a value has none. -/
def sectionOf (t : Tree) (name : String) : Tree :=
  (t.branch? name).getD []

/-- Reads the sections of a document whose tiers start at the given widths. -/
def ofTree (start : Widths) (t : Tree) : Design where
  widths := start.override (sectionOf t "breakpoints")
  aliases := Aliases.ofSection (sectionOf t "aliases")
  tokens := sectionOf t "tokens"
  elements := sectionOf t "elements"

/-- The token categories. An entry with a value is none. -/
def categories (s : Design) : List (String × Tree) :=
  s.tokens.filterMap fun e => e.2.branch?.map (e.1, ·)

end Design

end DesignSystem
