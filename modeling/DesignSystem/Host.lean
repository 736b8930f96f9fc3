import DesignSystem.FileTree

/-! What commands need of the machine that they run on. -/

namespace DesignSystem

/-- Why a file or a folder could not be used. -/
inductive FileError where
  | missing
  | notFolder
  | isFolder
  | alreadyThere
  | notText
  | other (reason : String)
  deriving DecidableEq

def FileError.message : FileError → String
  | missing => "No such file or directory (os error 2)"
  | notFolder => "Not a directory (os error 20)"
  | isFolder => "Is a directory (os error 21)"
  | alreadyThere => "File exists (os error 17)"
  | notText => "stream did not contain valid UTF-8"
  | other reason => reason

/-- A machine with files. `outline?` gives all names below a path. Texts are printed to the
standard output and reported to the standard error. -/
class Host (m : Type → Type) where
  workingFolder : m Path
  isFolder? : Path → m (Option Bool)
  outline? : Path → m (Option (Item Unit))
  read : Path → m (Except FileError String)
  write : Path → String → m (Except FileError Unit)
  makeFolder : Path → m (Except FileError Unit)
  print : String → m Unit
  report : String → m Unit

namespace Host

variable {m : Type → Type} [Monad m] [Host m]

def isThere (p : Path) : m Bool := do
  return (← isFolder? p).isSome

/-- Makes a folder unless it is there already. -/
def ensureFolder (p : Path) : m (Except FileError Unit) := do
  match ← makeFolder p with
  | .error .alreadyThere =>
    match ← isFolder? p with
    | some true => return .ok ()
    | _ => return .error .alreadyThere
  | result => return result

/-- Makes the folders of a list, each of which lies in the next one. Only when one cannot be
made because the next one is missing are the later ones made first. -/
def ensureChain : List Path → m (Except FileError Unit)
  | [] => return .ok ()
  | p :: outer => do
    match ← ensureFolder p with
    | .error .missing =>
      match ← ensureChain outer with
      | .ok () => ensureFolder p
      | .error e => return .error e
    | result => return result

/-- Makes a folder and the folders that it lies in, where they are missing. -/
def makeFolders (p : Path) : m (Except FileError Unit) :=
  ensureChain p.chain

/-- A path as messages show it: below the working folder it is relative to that folder. -/
def display (p : Path) : m String := do
  match p.relativeTo? (← workingFolder) with
  | some rest => return if rest.text.isEmpty then "." else rest.text
  | none => return p.text

/-- Reports what is being done. Verbs end in one column. -/
def status (verb message : String) : m Unit :=
  report (String.ofList (verb.toList.leftpad 12 ' ') ++ " " ++ message ++ "\n")

end Host

end DesignSystem
