import DesignSystem.Binary64.Shortest
import DesignSystem.Json
import DesignSystem.Text

/-! The value of a line: a number, a truth value, a text, or a list written with commas.
There is no escaping, so outside quoted texts every comma separates items. -/

namespace DesignSystem

inductive Value where
  | number (n : Binary64)
  | bool (b : Bool)
  | text (s : String)
  | list (items : List Value)

instance : Inhabited Value :=
  ⟨.list []⟩

namespace Value

mutual

def decEq : (v w : Value) → Decidable (v = w)
  | .number m, .number n => decidable_of_iff (m = n) (by simp)
  | .bool a, .bool b => decidable_of_iff (a = b) (by simp)
  | .text s, .text t => decidable_of_iff (s = t) (by simp)
  | .list vs, .list ws =>
    have := decEqItems vs ws
    decidable_of_iff (vs = ws) (by simp)
  | .number _, .bool _ | .number _, .text _ | .number _, .list _
  | .bool _, .number _ | .bool _, .text _ | .bool _, .list _
  | .text _, .number _ | .text _, .bool _ | .text _, .list _
  | .list _, .number _ | .list _, .bool _ | .list _, .text _ => isFalse nofun

def decEqItems : (vs ws : List Value) → Decidable (vs = ws)
  | [], [] => isTrue rfl
  | [], _ :: _ | _ :: _, [] => isFalse nofun
  | v :: vs, w :: ws =>
    have := decEq v w
    have := decEqItems vs ws
    decidable_of_iff (v = w ∧ vs = ws) (by simp)

end

instance : DecidableEq Value :=
  decEq

/-- A finite number, with white space around it allowed. -/
def readNumber? (raw : List Char) : Option Binary64 :=
  (Binary64.read? (trim raw)).filter Binary64.isFinite

/-- The value of a text that is no list. -/
def ofItem (raw : List Char) : Value :=
  match readNumber? raw with
  | some n => .number n
  | none =>
    if raw = ['t', 'r', 'u', 'e'] then .bool true
    else if raw = ['f', 'a', 'l', 's', 'e'] then .bool false
    else .text (String.ofList raw)

def opensQuote (raw : List Char) : Bool :=
  match trimStart raw with
  | c :: _ => c == '"' || c == '\''
  | [] => false

/-- Whether a text is a list: it has a comma, and none of its parts opens with a quote. -/
def isListText (raw : List Char) : Bool :=
  raw.contains ',' && !(raw.splitOn ',').any opensQuote

/-- The value of a text, none if it is empty. -/
def coerce? (raw : String) : Option Value :=
  let cs := raw.toList
  if cs.isEmpty then none
  else if isListText cs then some (.list ((cs.splitOn ',').map ofItem))
  else some (ofItem cs)

mutual

/-- A value as it stands on a line. -/
def plain : Value → List Char
  | .number n => n.plain
  | .bool true => ['t', 'r', 'u', 'e']
  | .bool false => ['f', 'a', 'l', 's', 'e']
  | .text s => s.toList
  | .list [] => []
  | .list (v :: rest) => plain v ++ plainItems rest

/-- The items after the first. -/
def plainItems : List Value → List Char
  | [] => []
  | v :: rest => ',' :: (plain v ++ plainItems rest)

end

def display (v : Value) : String :=
  String.ofList v.plain

mutual

def json : Value → Json
  | .number n => n.json?.elim .null .number
  | .bool b => .bool b
  | .text s => .text s
  | .list items => .list (jsonItems items)

def jsonItems : List Value → List Json
  | [] => []
  | v :: rest => json v :: jsonItems rest

end

mutual

/-- Equality that compares numbers by value. -/
def same : Value → Value → Bool
  | .number m, .number n => m.same n
  | .bool a, .bool b => a == b
  | .text s, .text t => s == t
  | .list vs, .list ws => sameItems vs ws
  | _, _ => false

def sameItems : List Value → List Value → Bool
  | [], [] => true
  | v :: vs, w :: ws => same v w && sameItems vs ws
  | _, _ => false

end

def text? : Value → Option String
  | .text s => some s
  | _ => none

def number? : Value → Option Binary64
  | .number n => some n
  | _ => none

end Value

end DesignSystem
