import DesignSystem.Host

/-! Why a command fails. Reading a document as a tree and resolving it never fails. Files,
manifests and missing documents do. What a reader of manifests says of its text is left out. -/

namespace DesignSystem

/-- What was tried with a file or a folder. -/
inductive Action where
  | readFile
  | readManifest
  | writeFile
  | writeOutput
  | makeFolder
  | makeOutputFolder
  deriving DecidableEq

def Action.name : Action → String
  | readFile => "read file"
  | readManifest => "read manifest"
  | writeFile => "write file"
  | writeOutput => "write output"
  | makeFolder => "create directory"
  | makeOutputFolder => "create output directory"

inductive Failure where
  | access (path : Path) (action : Action) (cause : FileError)
  | invalidManifest
  | noDocuments
  | occupied (place : String)
  deriving DecidableEq

namespace Failure

def message : Failure → String
  | access path action cause =>
    "IO error with " ++ path.text ++ ": Failed to " ++ action.name ++ ": " ++ cause.message
  | invalidManifest => "Parse error: Invalid manifest"
  | noDocuments => "Build error: No .ssf files found"
  | occupied place => "Build error: " ++ place ++ " already exists"

def code : Failure → String
  | access _ _ _ => "siam::io"
  | invalidManifest => "siam::parse"
  | noDocuments => "siam::build"
  | occupied _ => "siam::build"

/-- What to do about it. -/
def help? : Failure → Option String
  | access _ _ _ => none
  | invalidManifest => some "Check siam.yaml syntax"
  | noDocuments => some "Pass a file or directory, or run \x60siam init\x60"
  | occupied _ => some "Use --force to overwrite"

end Failure

/-- Tries something with a file or a folder. -/
def attempt {m : Type → Type} [Monad m] {α : Type} (action : Action) (p : Path)
    (result : m (Except FileError α)) : ExceptT Failure m α :=
  ExceptT.mk do return (← result).mapError (.access p action)

end DesignSystem
