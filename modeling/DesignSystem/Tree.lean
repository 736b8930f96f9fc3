import DesignSystem.Value

/-! The tree of a document. Each level lists its entries in the order in which their keys
were first written, and everything after it relies on that order. -/

namespace DesignSystem

inductive Node where
  | leaf (value : Value)
  | branch (entries : List (String × Node))

instance : Inhabited Node :=
  ⟨.branch []⟩

abbrev Tree := List (String × Node)

namespace Node

/-- The entries of a branch. A leaf has none. -/
def entries : Node → Tree
  | .leaf _ => []
  | .branch t => t

def branch? : Node → Option Tree
  | .leaf _ => none
  | .branch t => some t

def leaf? : Node → Option Value
  | .leaf v => some v
  | .branch _ => none

def isBranch (n : Node) : Bool :=
  n.branch?.isSome

/-- What stands for a value that may be missing: a leaf or an empty branch. -/
def ofValue? : Option Value → Node
  | some v => .leaf v
  | none => .branch []

end Node

namespace Tree

mutual

def decEqNode : (m n : Node) → Decidable (m = n)
  | .leaf v, .leaf w => decidable_of_iff (v = w) (by simp)
  | .branch s, .branch t =>
    have := decEq s t
    decidable_of_iff (s = t) (by simp)
  | .leaf _, .branch _ | .branch _, .leaf _ => isFalse nofun

def decEq : (s t : List (String × Node)) → Decidable (s = t)
  | [], [] => isTrue rfl
  | [], _ :: _ | _ :: _, [] => isFalse nofun
  | (j, m) :: s, (k, n) :: t =>
    have := decEqNode m n
    have := decEq s t
    decidable_of_iff ((j = k ∧ m = n) ∧ s = t) (by simp)

end

instance : DecidableEq Node :=
  decEqNode

def get? (t : Tree) (key : String) : Option Node :=
  t.lookup key

def branch? (t : Tree) (key : String) : Option Tree :=
  (get? t key).bind Node.branch?

def keys (t : Tree) : List String :=
  t.map (·.1)

/-- Changes the node of a key in its place. A new key comes last. -/
def alter (f : Option Node → Node) (key : String) : Tree → Tree
  | [] => [(key, f none)]
  | (k, n) :: rest => if k = key then (k, f (some n)) :: rest else (k, n) :: alter f key rest

def insert (key : String) (node : Node) : Tree → Tree :=
  alter (fun _ => node) key

/-- Replaces the node of a key that is there. -/
def replace? (key : String) (node : Node) (t : Tree) : Option Tree :=
  if (get? t key).isSome then some (insert key node t) else none

def ofList (entries : List (String × Node)) : Tree :=
  entries.foldl (fun t e => insert e.1 e.2 t) []

/-- Changes the entries at the end of a path. On the way there missing keys are added,
and leaves lose their values and become branches. -/
def alterAt (f : Tree → Tree) : List String → Tree → Tree
  | [], t => f t
  | key :: path, t =>
    alter (fun n => .branch (alterAt f path (n.elim [] Node.entries))) key t

/-- Makes every key of a path a branch. -/
def openPath (path : List String) (t : Tree) : Tree :=
  alterAt id path t

def insertAt (path : List String) (key : String) (node : Node) (t : Tree) : Tree :=
  alterAt (insert key node) path t

/-- The node at the end of a path from a node. -/
def nodeAt? : List String → Node → Option Node
  | [], n => some n
  | key :: path, n => (get? n.entries key).bind (nodeAt? path)

/-- The node at the end of a path. -/
def at? (t : Tree) (path : List String) : Option Node :=
  nodeAt? path (.branch t)

mutual

def sameNode : Node → Node → Bool
  | .leaf v, .leaf w => v.same w
  | .branch s, .branch t => same s t
  | _, _ => false

/-- Equality of entries and of their order, with numbers compared by value. -/
def same : List (String × Node) → List (String × Node) → Bool
  | [], [] => true
  | (j, m) :: s, (k, n) :: t => j == k && sameNode m n && same s t
  | _, _ => false

end

mutual

def nodeJson : Node → Json
  | .leaf v => v.json
  | .branch t => .object (jsonFields t)

def jsonFields : List (String × Node) → List (String × Json)
  | [] => []
  | (k, n) :: rest => (k, nodeJson n) :: jsonFields rest

end

def json (t : Tree) : Json :=
  .object (jsonFields t)

end Tree

end DesignSystem
