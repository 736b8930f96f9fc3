import DesignSystem.Host
import DesignSystem.Manifest

/-! The documents of a folder. Lists of documents are merged by the paths themselves and not
by their spellings. -/

namespace DesignSystem

namespace Path

/-- The extension of documents. -/
def documentExtension : String :=
  "ssf"

def isDocument (p : Path) : Bool :=
  p.extension? == some documentExtension

/-- Adds a path unless it is among the others. -/
def addNew (found : List Path) (p : Path) : List Path :=
  if found.any (·.same p) then found else found ++ [p]

/-- Adds paths behind others. Of two spellings of one path the first stays. -/
def merge (found more : List Path) : List Path :=
  more.foldl addNew found

end Path

/-- The documents of a file or a folder at a path that are not excluded. -/
def Item.documents {α : Type} (item : Item α) (manifest : Manifest) (p : Path) : List Path :=
  (item.files p).filter fun q => !manifest.excluded q && q.isDocument

section

variable {m : Type → Type} [Monad m] [Host m]

/-- The documents at a path or below it. They are walked by name as far as the outline of the
machine has its items sorted by name. -/
def scan (manifest : Manifest) (p : Path) : m (List Path) := do
  match ← Host.outline? p with
  | none => return []
  | some item => return item.documents manifest p

/-- The documents of all sources. Those that are not absolute lie below `base`. -/
def scanSources (manifest : Manifest) (base : Path) (sources : List String) : m (List Path) :=
  sources.foldlM
    (fun found source => do return Path.merge found (← scan manifest (base.join ⟨source⟩))) []

end

end DesignSystem
