import DesignSystem.Build
import DesignSystem.Starter

/-! The commands of the program. -/

namespace DesignSystem

/-- The shells that complete command lines. -/
inductive Shell where
  | bash
  | elvish
  | fish
  | powershell
  | zsh
  deriving DecidableEq

namespace Shell

def all : List Shell :=
  [bash, elvish, fish, powershell, zsh]

def name : Shell → String
  | bash => "bash"
  | elvish => "elvish"
  | fish => "fish"
  | powershell => "powershell"
  | zsh => "zsh"

def ofName? (name : String) : Option Shell :=
  all.find? (·.name == name)

end Shell

inductive Command where
  | build (options : BuildOptions)
  | showTree (file : Path) (pretty : Bool)
  | format (file : Path) (inPlace : Bool)
  | init (folder : Path) (force : Bool)
  | completions (shell : Shell)
  deriving DecidableEq

/-- The name of the document that a new project starts with. -/
def starterName : Path :=
  ⟨"system.ssf"⟩

section

variable {m : Type → Type} [Monad m] [Host m]

/-- Prints the tree of a document. -/
def printTree (file : Path) (pretty : Bool) : ExceptT Failure m Unit := do
  let source ← readDocument file
  ExceptT.lift (Host.print ((Tree.json (parse source)).render pretty ++ "\n"))

/-- Prints a document in its tidy form, or gives its file that form if it has another one. -/
def formatFile (file : Path) (inPlace : Bool) : ExceptT Failure m Unit := do
  let source ← readDocument file
  let tidy := format source
  if !inPlace then ExceptT.lift (Host.print tidy)
  else if tidy = source then
    ExceptT.lift do Host.status "Unchanged" (← Host.display file)
  else
    attempt .writeFile file (Host.write file tidy)
    ExceptT.lift do Host.status "Formatted" (← Host.display file)

/-- Fails if something is at a path. -/
def refuseExisting (file : Path) : ExceptT Failure m Unit := do
  if ← ExceptT.lift (Host.isThere file) then
    throw (.occupied (← ExceptT.lift (Host.display file)))

def createFile (file : Path) (text : String) : ExceptT Failure m Unit := do
  attempt .writeFile file (Host.write file text)
  ExceptT.lift do Host.status "Created" (← Host.display file)

/-- Starts a project in a folder with a manifest and a document. -/
def initProject (folder : Path) (force : Bool) : ExceptT Failure m Unit := do
  let manifest := folder.join Manifest.fileName
  let document := folder.join starterName
  if !force then [manifest, document].forM refuseExisting
  if !(← ExceptT.lift (Host.isThere folder)) then
    attempt .makeFolder folder (Host.makeFolders folder)
  createFile manifest starterManifest
  createFile document starterDocument

/-- Runs a command. The scripts for shells are not part of this library. -/
def Command.run [ManifestReader] : Command → ExceptT Failure m Unit
  | build options => DesignSystem.build options
  | showTree file pretty => printTree file pretty
  | format file inPlace => formatFile file inPlace
  | init folder force => initProject folder force
  | completions _ => return ()

end

end DesignSystem
