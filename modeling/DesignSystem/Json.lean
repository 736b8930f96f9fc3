/-! JSON data and its text. The fields of an object keep their order. -/

namespace DesignSystem

inductive Json where
  | null
  | bool (b : Bool)
  | number (numeral : List Char)
  | text (s : String)
  | list (items : List Json)
  | object (fields : List (String × Json))

namespace Json

def ofNat (n : Nat) : Json :=
  .number (Nat.toDigits 10 n)

/-- What stands at a line break of a given depth, and between a key and its value. -/
structure Layout where
  lineBreak : Nat → List Char
  colon : List Char

def compact : Layout :=
  ⟨fun _ => [], [':']⟩

/-- One item on a line, two spaces per level. -/
def pretty : Layout :=
  ⟨fun depth => '\n' :: List.replicate (2 * depth) ' ', [':', ' ']⟩

def layout (isPretty : Bool) : Layout :=
  if isPretty then pretty else compact

def escape (c : Char) : List Char :=
  match c with
  | '"' => ['\\', '"']
  | '\\' => ['\\', '\\']
  | '\x08' => ['\\', 'b']
  | '\x0c' => ['\\', 'f']
  | '\n' => ['\\', 'n']
  | '\r' => ['\\', 'r']
  | '\t' => ['\\', 't']
  | _ =>
    if c.toNat < 32 then
      ['\\', 'u', '0', '0', Nat.digitChar (c.toNat / 16), Nat.digitChar (c.toNat % 16)]
    else [c]

def quote (s : String) : List Char :=
  '"' :: s.toList.flatMap escape ++ ['"']

mutual

def print (l : Layout) (depth : Nat) : Json → List Char
  | .null => ['n', 'u', 'l', 'l']
  | .bool true => ['t', 'r', 'u', 'e']
  | .bool false => ['f', 'a', 'l', 's', 'e']
  | .number numeral => numeral
  | .text s => quote s
  | .list [] => ['[', ']']
  | .list (j :: rest) =>
    '[' :: (l.lineBreak (depth + 1) ++ print l (depth + 1) j ++ printItems l (depth + 1) rest ++
      l.lineBreak depth ++ [']'])
  | .object [] => ['{', '}']
  | .object ((k, j) :: rest) =>
    '{' :: (l.lineBreak (depth + 1) ++ quote k ++ l.colon ++ print l (depth + 1) j ++
      printFields l (depth + 1) rest ++ l.lineBreak depth ++ ['}'])

/-- The items after the first. -/
def printItems (l : Layout) (depth : Nat) : List Json → List Char
  | [] => []
  | j :: rest => ',' :: (l.lineBreak depth ++ print l depth j ++ printItems l depth rest)

/-- The fields after the first. -/
def printFields (l : Layout) (depth : Nat) : List (String × Json) → List Char
  | [] => []
  | (k, j) :: rest =>
    ',' :: (l.lineBreak depth ++ quote k ++ l.colon ++ print l depth j ++
      printFields l depth rest)

end

def render (j : Json) (isPretty : Bool) : String :=
  String.ofList (j.print (layout isPretty) 0)

end Json

end DesignSystem
