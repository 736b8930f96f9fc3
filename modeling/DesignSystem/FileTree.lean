import DesignSystem.Path

/-! Trees of files and folders. -/

namespace DesignSystem

/-- A file or a folder. Files hold an `α`. The items of a folder are sorted by name, and no
name is repeated. -/
inductive Item (α : Type) where
  | file (content : α)
  | folder (items : List (String × Item α))
  deriving Inhabited

/-- The names that lead from the root to an item. -/
abbrev Place := List String

namespace Item

variable {α : Type}

def isFolder : Item α → Bool
  | .file _ => false
  | .folder _ => true

def child? (name : String) : Item α → Option (Item α)
  | .file _ => none
  | .folder items => items.lookup name

/-- The item at a place below. -/
def at? : Place → Item α → Option (Item α)
  | [], item => some item
  | name :: rest, item => (item.child? name).bind (at? rest)

/-- Puts an item in its place among sorted ones. It replaces an item of its name. -/
def enter (name : String) (item : Item α) : List (String × Item α) → List (String × Item α)
  | [] => [(name, item)]
  | e :: rest =>
    if name = e.1 then (name, item) :: rest
    else if name < e.1 then (name, item) :: e :: rest
    else e :: enter name item rest

/-- The tree with an item put at a place, if that place lies in a folder. -/
def put : Place → Item α → Item α → Item α
  | [], _, new => new
  | _ :: _, .file content, _ => .file content
  | name :: rest, .folder items, new =>
    match rest, items.lookup name with
    | [], _ => .folder (enter name new items)
    | _ :: _, none => .folder items
    | _ :: _, some item => .folder (enter name (put rest item new) items)

/-- Removes the item at a place. -/
def erase : Place → Item α → Item α
  | [], item => item
  | _ :: _, .file content => .file content
  | name :: rest, .folder items =>
    match rest, items.lookup name with
    | [], _ => .folder (items.filter (·.1 != name))
    | _ :: _, none => .folder items
    | _ :: _, some item => .folder (enter name (erase rest item) items)

mutual

/-- The tree with other contents. -/
def map {β : Type} (f : α → β) : Item α → Item β
  | .file content => .file (f content)
  | .folder items => .folder (mapItems f items)

def mapItems {β : Type} (f : α → β) : List (String × Item α) → List (String × Item β)
  | [] => []
  | (name, item) :: rest => (name, map f item) :: mapItems f rest

end

mutual

/-- The paths of all files of an item that lies at a path. A folder comes with its items, each
with its own. Nothing is sorted here: the walk goes by name because the items of a folder are
given by name, which lemmas on the order take as a hypothesis. -/
def files (p : Path) : Item α → List Path
  | .file _ => [p]
  | .folder items => filesBelow p items

def filesBelow (p : Path) : List (String × Item α) → List Path
  | [] => []
  | (name, item) :: rest => files (p.join ⟨name⟩) item ++ filesBelow p rest

end

end Item

end DesignSystem
