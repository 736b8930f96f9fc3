import DesignSystem.Yaml.Token

/-! YAML documents as trees of scalars, sequences and mappings. -/

namespace DesignSystem.Yaml

inductive Node where
  | scalar (text : String) (isPlain : Bool)
  | sequence (items : List Node)
  | mapping (entries : List (Node × Node))
  deriving Inhabited

namespace Node

/-- What stands where a node is left out. -/
def empty : Node :=
  .scalar "" true

/-- Whether the next token is one of `ends`. -/
def stopsAt (ends : List Token) (ts : List Token) : Bool :=
  ts.head?.any (ends.contains ·)

mutual

/-- Reads a node. A sequence that is a key or a value of a block mapping needs no column of
its own. -/
def read? : Nat → Bool → List Token → Option (Node × List Token)
  | 0, _, _ => none
  | fuel + 1, inMapping, ts =>
    match ts with
    | .scalar text isPlain :: rest => some (.scalar text isPlain, rest)
    | .listOpen :: rest => (readList? fuel rest).map fun (items, ts) => (.sequence items, ts)
    | .mapOpen :: rest => (readMap? fuel rest).map fun (entries, ts) => (.mapping entries, ts)
    | .blockSequence :: rest =>
      (readItems? fuel rest).map fun (items, ts) => (.sequence items, ts)
    | .blockMapping :: rest =>
      (readEntries? fuel rest).map fun (entries, ts) => (.mapping entries, ts)
    | .dash :: _ =>
      if inMapping then (readDashes? fuel ts).map fun (items, ts) => (.sequence items, ts)
      else none
    | _ => none

/-- Reads a node, which is left out before `ends`. -/
def readOr? : Nat → Bool → List Token → List Token → Option (Node × List Token)
  | 0, _, _, _ => none
  | fuel + 1, inMapping, ends, ts =>
    if stopsAt ends ts then some (.empty, ts) else read? fuel inMapping ts

/-- Reads the items of a block sequence. -/
def readItems? : Nat → List Token → Option (List Node × List Token)
  | 0, _ => none
  | fuel + 1, ts =>
    match ts with
    | .dash :: rest => do
      let (item, rest) ← readOr? fuel false [.dash, .blockEnd] rest
      let (items, rest) ← readItems? fuel rest
      return (item :: items, rest)
    | .blockEnd :: rest => some ([], rest)
    | _ => none

/-- Reads the items of a sequence without a column of its own. -/
def readDashes? : Nat → List Token → Option (List Node × List Token)
  | 0, _ => none
  | fuel + 1, ts =>
    match ts with
    | .dash :: rest => do
      let (item, rest) ← readOr? fuel false [.dash, .key, .value, .blockEnd] rest
      let (items, rest) ← readDashes? fuel rest
      return (item :: items, rest)
    | _ => some ([], ts)

/-- Reads the entries of a block mapping. -/
def readEntries? : Nat → List Token → Option (List (Node × Node) × List Token)
  | 0, _ => none
  | fuel + 1, ts =>
    match ts with
    | .key :: rest => do
      let ends := [.key, .value, .blockEnd]
      let (key, rest) ← readOr? fuel true ends rest
      let (value, rest) ← readValue? fuel true ends rest
      let (entries, rest) ← readEntries? fuel rest
      return ((key, value) :: entries, rest)
    | .blockEnd :: rest => some ([], rest)
    | _ => none

/-- Reads the value of an entry. Without a value token it is left out. -/
def readValue? : Nat → Bool → List Token → List Token → Option (Node × List Token)
  | 0, _, _, _ => none
  | fuel + 1, inMapping, ends, ts =>
    match ts with
    | .value :: rest => readOr? fuel inMapping ends rest
    | _ => some (.empty, ts)

/-- Reads the items of a list in brackets. An entry with a key is a mapping of its own. -/
def readList? : Nat → List Token → Option (List Node × List Token)
  | 0, _ => none
  | fuel + 1, ts =>
    match ts with
    | .listClose :: rest => some ([], rest)
    | _ => do
      let (item, rest) ←
        match ts with
        | .key :: rest => do
          let (key, rest) ← readOr? fuel false [.value, .comma, .listClose] rest
          let (value, rest) ← readValue? fuel false [.comma, .listClose] rest
          some (Node.mapping [(key, value)], rest)
        | _ => read? fuel false ts
      match rest with
      | .comma :: rest =>
        let (items, rest) ← readList? fuel rest
        return (item :: items, rest)
      | .listClose :: rest => return ([item], rest)
      | _ => none

/-- Reads the entries of a mapping in braces. A key may stand without a value. -/
def readMap? : Nat → List Token → Option (List (Node × Node) × List Token)
  | 0, _ => none
  | fuel + 1, ts =>
    match ts with
    | .mapClose :: rest => some ([], rest)
    | _ => do
      let (entry, rest) ←
        match ts with
        | .key :: rest => do
          let (key, rest) ← readOr? fuel false [.value, .comma, .mapClose] rest
          let (value, rest) ← readValue? fuel false [.comma, .mapClose] rest
          some ((key, value), rest)
        | _ => do
          let (key, rest) ← read? fuel false ts
          some ((key, Node.empty), rest)
      match rest with
      | .comma :: rest =>
        let (entries, rest) ← readMap? fuel rest
        return (entry :: entries, rest)
      | .mapClose :: rest => return ([entry], rest)
      | _ => none

end

/-- The root of the one document that tokens make up. -/
def ofTokens? (ts : List Token) : Option Node := do
  let fuel := 2 * ts.length + 2
  let (root, rest) ←
    match ts with
    | [] => some (empty, [])
    | .documentStart :: [] => some (empty, [])
    | .documentStart :: rest => readOr? fuel false [.documentStart, .documentEnd] rest
    | _ => read? fuel false ts
  if rest.all (· == .documentEnd) then some root else none

/-- The root of the document that a text holds. -/
def ofText? (text : String) : Option Node :=
  (tokens? text).bind ofTokens?

end Node

end DesignSystem.Yaml
