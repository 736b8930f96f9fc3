import DesignSystem.Element

/-! The resolved system: what a renderer needs to write style sheets. -/

namespace DesignSystem

structure Stylesheet where
  tokens : Tokens
  batches : List (Batch TokenValue)
  elements : List Element

namespace Design

def resolver (s : Design) : Resolver :=
  ⟨s.widths, s.aliases, s.tokenRecords⟩

/-- Resolves all tokens and elements. An element with a value has no declaration. -/
def resolve (s : Design) : Stylesheet where
  tokens := s.tokenRecords
  batches := s.tokenSet.batched
  elements := s.elements.map fun e => s.resolver.element e.1 e.2.entries

end Design

namespace Stylesheet

def element? (s : Stylesheet) (name : String) : Option Element :=
  s.elements.find? (·.name == name)

end Stylesheet

end DesignSystem
