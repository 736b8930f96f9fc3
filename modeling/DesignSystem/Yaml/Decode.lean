import DesignSystem.Yaml.Node

/-! What the nodes of a YAML document stand for where a certain kind of value is expected. A
quoted scalar is a text only. -/

namespace DesignSystem.Yaml.Node

/-- Every scalar is a text. -/
def text? : Node → Option String
  | .scalar text _ => some text
  | _ => none

/-- The text of a plain scalar. -/
def plain? : Node → Option String
  | .scalar text true => some text
  | _ => none

/-- Where nothing is written there is a sequence without items. -/
def items? : Node → Option (List Node)
  | .sequence items => some items
  | .scalar "" true => some []
  | _ => none

def texts? (n : Node) : Option (List String) :=
  n.items?.bind (·.mapM text?)

/-- The entries of a mapping whose keys are scalars. Where nothing is written there is a
mapping without entries. -/
def entries? : Node → Option (List (String × Node))
  | .mapping entries => entries.mapM fun (key, value) => key.text?.map (·, value)
  | .scalar "" true => some []
  | _ => none

def bool? (n : Node) : Option Bool :=
  match n.plain? with
  | some "true" | some "True" | some "TRUE" => some true
  | some "false" | some "False" | some "FALSE" => some false
  | _ => none

/-- The number that digits of a radix up to 16 stand for. -/
def numeral? (radix : Nat) (ds : List Char) : Option Nat :=
  if ds.isEmpty then none
  else
    ds.foldlM
      (fun n c => do
        let d ← hexDigit? c
        if d < radix then some (radix * n + d) else none)
      0

/-- A numeral may have a plus sign, and a letter after a zero names its radix. A decimal
numeral has no leading zero. -/
def nat? (n : Node) : Option Nat := do
  let text ← n.plain?
  let digits :=
    match text.toList with
    | '+' :: cs => cs
    | cs => cs
  match digits with
  | '0' :: 'x' :: ds => numeral? 16 ds
  | '0' :: 'o' :: ds => numeral? 8 ds
  | '0' :: 'b' :: ds => numeral? 2 ds
  | '0' :: _ :: _ => none
  | ds => numeral? 10 ds

end DesignSystem.Yaml.Node
