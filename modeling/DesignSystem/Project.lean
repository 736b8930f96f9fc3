import DesignSystem.Failure
import DesignSystem.Scan
import DesignSystem.Stylesheet

/-! Projects: where documents are found, and how they are loaded. -/

namespace DesignSystem

/-- The documents of a project in the order in which they were found. -/
structure Project where
  root : Path
  manifest : Manifest
  hasManifest : Bool
  documents : List Path

/-- A design that was read from a file. -/
structure LoadedDesign where
  path : Path
  design : Design

/-- The name that output files of a document get. -/
def Path.outputName (p : Path) : String :=
  p.stem?.getD "system"

section

variable {m : Type → Type} [Monad m] [Host m]

def readDocument (p : Path) : ExceptT Failure m String :=
  attempt .readFile p (Host.read p)

/-- Reads a document whose tiers start from given widths. -/
def loadDesign (start : Widths) (p : Path) : ExceptT Failure m LoadedDesign := do
  return ⟨p, Design.ofTree start (parse (← readDocument p))⟩

def Manifest.load [ManifestReader] (p : Path) : ExceptT Failure m Manifest := do
  match Manifest.parse? (← attempt .readManifest p (Host.read p)) with
  | some manifest => return manifest
  | none => throw .invalidManifest

/-- The manifest at a path, if there is one. -/
def Manifest.load? [ManifestReader] (p : Path) : ExceptT Failure m (Option Manifest) := do
  if ← ExceptT.lift (Host.isThere p) then return some (← Manifest.load p) else return none

namespace Project

/-- The project in a folder. -/
def discover [ManifestReader] (root : Path) : ExceptT Failure m Project := do
  let manifest? ← Manifest.load? (root.join Manifest.fileName)
  let manifest := manifest?.getD .standard
  let documents ← ExceptT.lift (scanSources manifest root manifest.effectiveSources)
  return ⟨root, manifest, manifest?.isSome, documents⟩

/-- The documents that one given path stands for: those of a folder, or the path itself. -/
def documentsAt (manifest : Manifest) (p : Path) : m (List Path) := do
  match ← Host.isFolder? p with
  | some true => scan manifest p
  | some false => return if p.isDocument then [p] else []
  | none => return []

/-- The project of given paths. -/
def ofPaths (manifest : Manifest) (paths : List Path) : m Project := do
  let documents ← paths.foldlM
    (fun found p => do return Path.merge found (← documentsAt manifest p)) []
  let root := (paths.head?.bind Path.parent?).getD ⟨"."⟩
  return ⟨root, manifest, false, documents⟩

/-- Loads all documents in order. The first one that cannot be read ends this. -/
def load (project : Project) : ExceptT Failure m (List LoadedDesign) :=
  project.documents.mapM (loadDesign project.manifest.widths)

end Project

end

end DesignSystem
