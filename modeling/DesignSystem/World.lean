import DesignSystem.Machine

/-! A machine whose disk is a tree of files and folders. There are no links, and everybody may do
everything. Every path is walked from the root or from the working folder, one part at a time. -/

namespace DesignSystem

/-- What a file holds: a text, or bytes that are no text. -/
inductive Content where
  | text (s : String)
  | bytes (bs : List UInt8)
  deriving DecidableEq

namespace Content

def ofBytes (bs : List UInt8) : Content :=
  match String.fromUTF8? ⟨bs.toArray⟩ with
  | some s => text s
  | none => bytes bs

def text? : Content → Option String
  | text s => some s
  | bytes _ => none

end Content

abbrev World := Machine (Item Content)

/-- The parts that lead to a folder, and the last part. A slash at the end asks for a
folder. -/
structure Route where
  folders : List String
  last : String
  wantsFolder : Bool

/-- The parts of a path. An empty path leads nowhere. -/
def Path.route? (p : Path) : Option Route :=
  let cs := p.text.toList
  if cs.isEmpty then none
  else
    let parts := ((cs.splitOn '/').filter (!·.isEmpty)).map String.ofList
    match parts.getLast? with
    | none => some ⟨[], ".", true⟩
    | some last => some ⟨parts.dropLast, last, cs.getLast? == some '/'⟩

namespace Place

/-- Where a part leads from a folder. The root lies in itself. -/
def step (place : Place) (part : String) : Place :=
  if part = "." then place
  else if part = ".." then place.dropLast
  else place ++ [part]

end Place

namespace World

/-- Goes on to a folder. -/
def walk (w : World) (place : Place) (part : String) : Except FileError Place :=
  let next := place.step part
  match w.root.at? next with
  | some (.folder _) => .ok next
  | some (.file _) => .error .notFolder
  | none => .error .missing

/-- The place that a path leads to, where an item may be missing. Its folder has to be
there. -/
def locate (w : World) (p : Path) : Except FileError (Route × Place) :=
  match p.route? with
  | none => .error .missing
  | some route => do
    let start ← w.walk (if p.isAbsolute then [] else w.workingPlace) "."
    let folder ← route.folders.foldlM w.walk start
    return (route, folder.step route.last)

/-- The item that a path leads to. -/
def find (w : World) (p : Path) : Except FileError (Item Content) := do
  let (route, place) ← w.locate p
  match w.root.at? place with
  | none => .error .missing
  | some (.file content) =>
    if route.wantsFolder then .error .notFolder else .ok (.file content)
  | some item => .ok item

def find? (w : World) (p : Path) : Option (Item Content) :=
  (w.find p).toOption

def read (w : World) (p : Path) : Except FileError String := do
  match ← w.find p with
  | .folder _ => .error .isFolder
  | .file content =>
    match content.text? with
    | some s => .ok s
    | none => .error .notText

def put (w : World) (place : Place) (item : Item Content) : World :=
  { w with root := w.root.put place item }

/-- Writes a file, which may be there or not. Its folder has to be there. -/
def write (w : World) (p : Path) (text : String) : Except FileError World := do
  let (route, place) ← w.locate p
  if route.wantsFolder then .error .isFolder
  else
    match w.root.at? place with
    | some (.folder _) => .error .isFolder
    | _ => .ok (w.put place (.file (.text text)))

/-- Makes an empty folder in a folder. -/
def makeFolder (w : World) (p : Path) : Except FileError World := do
  let (_, place) ← w.locate p
  match w.root.at? place with
  | some _ => .error .alreadyThere
  | none => .ok (w.put place (.folder []))

/-- Removes a file or a folder. -/
def remove (w : World) (p : Path) : Except FileError World := do
  let (_, place) ← w.locate p
  return { w with root := w.root.erase place }

/-- A machine that has printed nothing. -/
def fresh (root : Item Content) (place : Place) : World :=
  ⟨root, place, "", ""⟩

/-- A result and the disk after it. Where an error is the disk stays as it is. -/
def settle (root : Item Content) (next : Except FileError World) :
    Except FileError Unit × Item Content :=
  match next with
  | .ok w => (.ok (), w.root)
  | .error e => (.error e, root)

instance : Disk (Item Content) where
  isFolder? root place p := ((fresh root place).find? p).map Item.isFolder
  outline? root place p := ((fresh root place).find? p).map (Item.map fun _ => ())
  read root place p := (fresh root place).read p
  write root place p text := settle root ((fresh root place).write p text)
  makeFolder root place p := settle root ((fresh root place).makeFolder p)

end World

end DesignSystem
