import DesignSystem.Batch
import DesignSystem.Design

/-! Tokens: named values, one record for each tier at which a token has a value. -/

namespace DesignSystem

/-- A token and a value of it: what a property refers to. -/
structure TokenValue where
  category : String
  name : String
  value : Value
  deriving DecidableEq

/-- A token value and the width from which it holds. -/
structure Token extends TokenValue where
  width : Nat
  deriving DecidableEq

/-- Token records in the order of the document. -/
abbrev Tokens := List Token

/-- What is collected of the tokens of a system: their records, and the same values in batches. -/
structure TokenSet where
  grouped : Tokens
  batched : List (Batch TokenValue)

namespace TokenSet

def start : TokenSet :=
  ⟨[], Batch.start⟩

/-- Adds a record behind the others, and its value to the batch of its width. -/
def add (set : TokenSet) (t : Token) : TokenSet :=
  ⟨set.grouped ++ [t], Batch.touch (· ++ [t.toTokenValue]) t.width set.batched⟩

/-- Adds the value of a token for a tier. An entry whose key names no tier is passed over, and
one without a value too. -/
def addTier (widths : Widths) (category name : String) (set : TokenSet) (e : String × Node) :
    TokenSet :=
  match widths.ofName? e.1, e.2 with
  | some width, .leaf v => set.add ⟨⟨category, name, v⟩, width⟩
  | _, _ => set

/-- Adds the values of one entry of a category. -/
def addEntry (widths : Widths) (category : String) (set : TokenSet) (e : String × Node) :
    TokenSet :=
  match e.2 with
  | .leaf v => set.add ⟨⟨category, e.1, v⟩, 0⟩
  | .branch values => values.foldl (addTier widths category e.1) set

def addCategory (widths : Widths) (set : TokenSet) (c : String × Tree) : TokenSet :=
  c.2.foldl (addEntry widths c.1) set

def finish (set : TokenSet) : TokenSet :=
  { set with batched := Batch.sort set.batched }

end TokenSet

namespace Design

/-- The tokens of a system in one pass through its categories. -/
def tokenSet (s : Design) : TokenSet :=
  (s.categories.foldl (TokenSet.addCategory s.widths) .start).finish

/-- The token records of a system. -/
def tokenRecords (s : Design) : Tokens :=
  s.tokenSet.grouped

end Design

namespace Tokens

/-- The records in batches. -/
def batches (tokens : Tokens) : List (Batch TokenValue) :=
  (tokens.foldl TokenSet.add .start).finish.batched

/-- The latest record of a token at a width. -/
def atWidth? (tokens : Tokens) (category name : String) (width : Nat) : Option Token :=
  tokens.reverse.find? fun t => t.width == width && t.category == category && t.name == name

/-- The record of a token at a width, or the one at the base. -/
def find? (tokens : Tokens) (category name : String) (width : Nat) : Option Token :=
  (tokens.atWidth? category name width).or (tokens.atWidth? category name 0)

/-- The token that a property value names. Only a text names one. -/
def reference? (tokens : Tokens) (category : String) (value : Value) (width : Nat) :
    Option TokenValue :=
  value.text?.bind fun name => (tokens.find? category name width).map Token.toTokenValue

end Tokens

end DesignSystem
