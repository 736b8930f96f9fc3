/-! Paths of files. A path keeps its spelling. Paths are compared by their components, to
which empty parts and inner dots do not belong. -/

namespace DesignSystem

structure Path where
  text : String
  deriving DecidableEq

inductive Component where
  | root
  | here
  | up
  | name (s : String)
  deriving DecidableEq

namespace Path

/-- A part that names nothing: an empty one or a dot. -/
def isIdle (part : List Char) : Bool :=
  part.isEmpty || part == ['.']

/-- The component that a part stands for. -/
def component? (part : List Char) : Option Component :=
  if isIdle part then none
  else if part = ['.', '.'] then some .up
  else some (.name (String.ofList part))

/-- What a path starts with, and the parts after it. A dot counts only at the start. -/
def split (p : Path) : Option Component × List (List Char) :=
  match p.text.toList.splitOn '/' with
  | [] :: part :: rest => (some .root, part :: rest)
  | ['.'] :: rest => (some .here, rest)
  | parts => (none, parts)

def components (p : Path) : List Component :=
  p.split.1.toList ++ p.split.2.filterMap component?

def isAbsolute (p : Path) : Bool :=
  p.split.1 == some .root

/-- Whether two spellings are one path. -/
def same (p q : Path) : Bool :=
  p.components == q.components

/-- The path of a start and parts. -/
def unsplit (start : Option Component) (parts : List (List Char)) : Path :=
  let body := ['/'].intercalate parts
  ⟨String.ofList <|
    match start with
    | some .root => '/' :: body
    | some .here => if parts.isEmpty then ['.'] else '.' :: '/' :: body
    | _ => body⟩

/-- Parts without the idle ones at their end. -/
def trimEnd (parts : List (List Char)) : List (List Char) :=
  (parts.reverse.dropWhile isIdle).reverse

/-- The path without its last component. A path without components and the root itself have
none. -/
def parent? (p : Path) : Option Path :=
  match p.split with
  | (start, parts) =>
    match trimEnd parts with
    | [] => if start = some .here then some ⟨""⟩ else none
    | part :: rest => some (unsplit start (trimEnd (part :: rest).dropLast))

def climb : Nat → Path → List Path
  | 0, _ => []
  | n + 1, p =>
    match p.parent? with
    | none => []
    | some folder => p :: climb n folder

/-- The path, the folder that it lies in, and so on outward. What has no folder around it is
left out. -/
def chain (p : Path) : List Path :=
  climb p.components.length p

/-- A path below a folder. An absolute path stands for itself. -/
def join (folder p : Path) : Path :=
  if p.isAbsolute then p
  else if folder.text.isEmpty || folder.text.toList.getLast? == some '/' then
    ⟨folder.text ++ p.text⟩
  else ⟨folder.text ++ "/" ++ p.text⟩

/-- Drops parts up to and including a number of components. -/
def dropComponents : Nat → List (List Char) → List (List Char)
  | 0, parts => parts
  | _ + 1, [] => []
  | n + 1, part :: rest =>
    if isIdle part then dropComponents (n + 1) rest else dropComponents n rest

/-- The rest of a path that lies in an absolute folder. -/
def relativeTo? (p folder : Path) : Option Path :=
  if folder.isAbsolute && folder.components.isPrefixOf p.components then
    let rest := dropComponents (folder.components.length - 1) p.split.2
    some (unsplit none (trimEnd (rest.dropWhile isIdle)))
  else none

def fileName? (p : Path) : Option String :=
  match p.components.getLast? with
  | some (.name s) => some s
  | _ => none

/-- The parts of a name before and after its last dot. A dot at the start separates
nothing. -/
def splitName (name : String) : List Char × Option (List Char) :=
  let cs := name.toList
  let after := (cs.reverse.takeWhile (· != '.')).reverse
  let before := cs.take (cs.length - after.length - 1)
  if before.isEmpty then (cs, none) else (before, some after)

/-- The file name without its extension. -/
def stem? (p : Path) : Option String :=
  p.fileName?.map fun name => String.ofList (splitName name).1

def extension? (p : Path) : Option String :=
  p.fileName?.bind fun name => (splitName name).2.map String.ofList

end Path

end DesignSystem
