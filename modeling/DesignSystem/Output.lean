import DesignSystem.Hyphen
import DesignSystem.Stylesheet

/-! The resolved system as it is written out. Every name stands with its hyphenated form, and a
token that a value names is left out where there is none. -/

namespace DesignSystem

/-- A name and its hyphenated form. -/
structure Label where
  name : String
  hyphenated : String
  deriving DecidableEq

def Label.of (name : String) : Label :=
  ⟨name, hyphenate name⟩

structure TokenEntry where
  category : Label
  name : Label
  value : Value

structure TokenRecord extends TokenEntry where
  width : Nat

structure TierEntry where
  width : Nat
  value : Value
  token? : Option TokenEntry

structure PropertyEntry where
  name : Label
  values : List TierEntry

structure BatchedEntry where
  name : Label
  value : Value
  token? : Option TokenEntry

structure ElementEntry where
  name : Label
  groups : List (Group PropertyEntry)
  batches : List (Batch (Group BatchedEntry))

structure Output where
  tokens : List TokenRecord
  batches : List (Batch TokenEntry)
  elements : List ElementEntry

section Entries

def Batch.map {α β : Type} (f : α → β) (b : Batch α) : Batch β :=
  ⟨b.width, b.entries.map f⟩

def Group.map {α β : Type} (f : α → β) (g : Group α) : Group β :=
  ⟨g.selector, g.properties.map f⟩

def TokenValue.entry (t : TokenValue) : TokenEntry :=
  ⟨.of t.category, .of t.name, t.value⟩

def Token.record (t : Token) : TokenRecord :=
  ⟨t.toTokenValue.entry, t.width⟩

def TierValue.entry (v : TierValue) : TierEntry :=
  ⟨v.width, v.value, v.token?.map TokenValue.entry⟩

def Property.entry (p : Property) : PropertyEntry :=
  ⟨.of p.name, p.values.map TierValue.entry⟩

def BatchedProperty.entry (p : BatchedProperty) : BatchedEntry :=
  ⟨.of p.name, p.value, p.token?.map TokenValue.entry⟩

def Element.entry (e : Element) : ElementEntry :=
  ⟨.of e.name, e.groups.map (Group.map Property.entry),
    e.batches.map (Batch.map (Group.map BatchedProperty.entry))⟩

def Stylesheet.output (s : Stylesheet) : Output :=
  ⟨s.tokens.map Token.record, s.batches.map (Batch.map TokenValue.entry),
    s.elements.map Element.entry⟩

end Entries

section Fields

def Batch.json {α : Type} (entry : α → Json) (name : String) (b : Batch α) : Json :=
  .object [("breakpointWidth", .ofNat b.width), (name, .list (b.entries.map entry))]

def Group.json {α : Type} (property : α → Json) (g : Group α) : Json :=
  .object [("modifierPath", .text g.selector.modifiers), ("state", .text g.selector.states),
    ("properties", .list (g.properties.map property))]

def TokenEntry.namesJson (t : TokenEntry) : List (String × Json) :=
  [("category", .text t.category.name), ("name", .text t.name.name),
    ("hyphenCategory", .text t.category.hyphenated), ("hyphenName", .text t.name.hyphenated)]

def TokenEntry.json (t : TokenEntry) : Json :=
  .object (t.namesJson ++ [("value", t.value.json)])

def TokenRecord.json (t : TokenRecord) : Json :=
  .object (t.namesJson ++ [("breakpointWidth", .ofNat t.width), ("value", t.value.json)])

/-- The field of a token that a value names. Without one there is no field. -/
def tokenJson (token? : Option TokenEntry) : List (String × Json) :=
  (token?.map fun t => ("matchedToken", t.json)).toList

def TierEntry.json (v : TierEntry) : Json :=
  .object ([("breakpointWidth", .ofNat v.width), ("value", v.value.json)] ++ tokenJson v.token?)

def PropertyEntry.json (p : PropertyEntry) : Json :=
  .object [("name", .text p.name.name), ("hyphenName", .text p.name.hyphenated),
    ("perBreakpointValues", .list (p.values.map TierEntry.json))]

def BatchedEntry.json (p : BatchedEntry) : Json :=
  .object ([("name", .text p.name.name), ("hyphenName", .text p.name.hyphenated),
    ("value", p.value.json)] ++ tokenJson p.token?)

def ElementEntry.json (e : ElementEntry) : Json :=
  .object [("name", .text e.name.name), ("hyphenName", .text e.name.hyphenated),
    ("groupedProperties", .list (e.groups.map (Group.json PropertyEntry.json))),
    ("batchedProperties",
      .list (e.batches.map (Batch.json (Group.json BatchedEntry.json) "groups")))]

def Output.json (o : Output) : Json :=
  .object [("groupedTokens", .list (o.tokens.map TokenRecord.json)),
    ("batchedTokens", .list (o.batches.map (Batch.json TokenEntry.json "entries"))),
    ("elements", .list (o.elements.map ElementEntry.json))]

def Stylesheet.json (s : Stylesheet) : Json :=
  s.output.json

end Fields

end DesignSystem
