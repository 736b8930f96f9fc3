import DesignSystem.Token

/-! Elements: their properties, grouped by selector and batched by width. An entry of a
declaration is a leaf, a set of values per tier, a state, or a modifier. Below states and
modifiers stand further declarations. -/

namespace DesignSystem

inductive EntryKind where
  | leaf
  | tierSet
  | state
  | modifier
  deriving DecidableEq

/-- Entries that are no set of values per tier belong to a state if the key starts with a
colon, and to a modifier otherwise. -/
def EntryKind.of (key : String) : Node → EntryKind
  | .leaf _ => leaf
  | .branch entries =>
    if isTierSet entries then tierSet
    else if key.toList.head? = some ':' then state
    else modifier

/-- What properties apply to: the modifiers on the way to them joined by `=`, and the
states on the way to them in a row. -/
structure Selector where
  modifiers : String
  states : String
  deriving DecidableEq

namespace Selector

/-- The element itself. -/
def plain : Selector :=
  ⟨"", ""⟩

def addModifier (s : Selector) (key : String) : Selector :=
  { s with modifiers := if s.modifiers.isEmpty then key else s.modifiers ++ "=" ++ key }

def addState (s : Selector) (key : String) : Selector :=
  { s with states := s.states ++ key }

end Selector

/-- A value of a property from a width on, with the token that it names. -/
structure TierValue where
  width : Nat
  value : Value
  token? : Option TokenValue
  deriving DecidableEq

structure Property where
  name : String
  values : List TierValue
  deriving DecidableEq

/-- A property as it stands in a batch. -/
structure BatchedProperty where
  name : String
  value : Value
  token? : Option TokenValue
  deriving DecidableEq

/-- Properties that share a selector. -/
structure Group (α : Type) where
  selector : Selector
  properties : List α
  deriving DecidableEq

namespace Group

variable {α : Type}

/-- Adds a property to the group of a selector. A new group comes last. -/
def add (s : Selector) (p : α) : List (Group α) → List (Group α)
  | [] => [⟨s, [p]⟩]
  | g :: rest =>
    if g.selector = s then ⟨s, g.properties ++ [p]⟩ :: rest else g :: add s p rest

def find? (groups : List (Group α)) (s : Selector) : Option (Group α) :=
  groups.find? (·.selector == s)

end Group

structure Element where
  name : String
  groups : List (Group Property)
  batches : List (Batch (Group BatchedProperty))

/-- What is collected of an element: its groups, and the same values in batches. -/
structure ElementOutput where
  groups : List (Group Property)
  batches : List (Batch (Group BatchedProperty))

namespace ElementOutput

def start : ElementOutput :=
  ⟨[], Batch.start⟩

/-- Adds a value of a property to the batch of its width. -/
def addValue (out : ElementOutput) (s : Selector) (name : String) (v : TierValue) :
    ElementOutput :=
  { out with batches := Batch.touch (Group.add s ⟨name, v.value, v.token?⟩) v.width out.batches }

/-- Adds a property to the group of its selector. -/
def addProperty (out : ElementOutput) (s : Selector) (p : Property) : ElementOutput :=
  { out with groups := Group.add s p out.groups }

end ElementOutput

/-- What declarations are resolved against. -/
structure Resolver where
  widths : Widths
  aliases : Aliases
  tokens : Tokens

namespace Resolver

/-- A value of a property together with the token that it names. -/
def tierValue (r : Resolver) (property : String) (width : Nat) (v : Value) : TierValue :=
  ⟨width, v, r.tokens.reference? (r.aliases.resolve property) v width⟩

/-- Adds a property with one value. -/
def addLeaf (r : Resolver) (s : Selector) (property : String) (v : Value) (out : ElementOutput) :
    ElementOutput :=
  let value := r.tierValue property 0 v
  (out.addValue s property value).addProperty s ⟨property, [value]⟩

/-- Adds the value of a property for a tier, and keeps it behind those of other tiers. -/
def addTier (r : Resolver) (s : Selector) (property : String)
    (done : ElementOutput × List TierValue) (e : String × Node) :
    ElementOutput × List TierValue :=
  match r.widths.ofName? e.1, e.2 with
  | some width, .leaf v =>
    let value := r.tierValue property width v
    (done.1.addValue s property value, done.2 ++ [value])
  | _, _ => done

/-- Adds a property with a set of values per tier. -/
def addTierSet (r : Resolver) (s : Selector) (property : String) (values : Tree)
    (out : ElementOutput) : ElementOutput :=
  let (out, values) := values.foldl (r.addTier s property) (out, [])
  out.addProperty s ⟨property, values⟩

mutual

/-- Adds what one entry below a selector has. -/
def walkEntry (r : Resolver) (s : Selector) (key : String) (out : ElementOutput) :
    Node → ElementOutput
  | .leaf v => r.addLeaf s key v out
  | .branch entries =>
    match EntryKind.of key (.branch entries) with
    | .tierSet => r.addTierSet s key entries out
    | .state => r.walk (s.addState key) out entries
    | _ => r.walk (s.addModifier key) out entries

/-- Adds what a declaration below a selector has, in the order of the document. -/
def walk (r : Resolver) (s : Selector) (out : ElementOutput) :
    List (String × Node) → ElementOutput
  | [] => out
  | (key, n) :: rest => r.walk s (r.walkEntry s key out n) rest

end

/-- Resolves a declaration in one pass. -/
def element (r : Resolver) (name : String) (declaration : Tree) : Element :=
  let out := r.walk .plain .start declaration
  ⟨name, out.groups, Batch.sort out.batches⟩

end Resolver

namespace Element

def group? (e : Element) (s : Selector) : Option (Group Property) :=
  Group.find? e.groups s

def batch? (e : Element) (width : Nat) : Option (Batch (Group BatchedProperty)) :=
  Batch.find? e.batches width

end Element

end DesignSystem
