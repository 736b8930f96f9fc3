import DesignSystem.CommandLine

/-! The program on a real machine. -/

namespace DesignSystem

/-- What an error of the machine means for a file or a folder. The machine may give an error number
with either sign, so both are taken. -/
def fileError (e : IO.Error) : FileError :=
  match e with
  | .noFileOrDirectory _ _ _ => .missing
  | .alreadyExists _ _ _ => .alreadyThere
  | .inappropriateType _ code _ =>
    if code = 20 || code = 0 - 20 then .notFolder
    else if code = 21 || code = 0 - 21 then .isFolder
    else .other (toString e)
  | e => .other (toString e)

def caught {α : Type} (act : IO α) : IO (Except FileError α) := do
  match ← act.toBaseIO with
  | .ok a => return .ok a
  | .error e => return .error (fileError e)

/-- All names below a path. Items that cannot be read are left out. -/
partial def outline (text : String) : IO (Item Unit) := do
  let place ← IO.FS.realPath text
  if !(← place.isDir) then return .file ()
  let mut items := []
  for entry in ← place.readDir do
    match ← (outline entry.path.toString).toBaseIO with
    | .ok item => items := Item.enter entry.fileName item items
    | .error _ => continue
  return .folder items

def readText (p : Path) : IO (Except FileError String) := do
  match ← caught (IO.FS.readBinFile p.text) with
  | .error e => return .error e
  | .ok bytes =>
    match String.fromUTF8? bytes with
    | some s => return .ok s
    | none => return .error .notText

instance : Host IO where
  workingFolder := do
    match ← caught IO.currentDir with
    | .ok place => return ⟨place.toString⟩
    | .error _ => return ⟨""⟩
  isFolder? p := do
    match ← caught (IO.FS.realPath p.text) with
    | .ok place => return some (← place.isDir)
    | .error _ => return none
  outline? p := do return (← caught (outline p.text)).toOption
  read := readText
  write p text := caught (IO.FS.writeFile p.text text)
  makeFolder p := caught (IO.FS.createDir p.text)
  print text := IO.print text
  report text := IO.eprint text

def usage : String :=
  unlines [
    "Usage: siam [-v] <COMMAND>",
    "",
    "Commands:",
    "  build [PATHS]... [-o DIR] [--stdout] [--pretty]",
    "  parse <FILE> [--pretty]",
    "  fmt <FILE> [-w]",
    "  init [PATH] [--force]",
    "  completions <SHELL>"]

def Refusal.message : Refusal → String
  | unknownWord => "unexpected argument"
  | badValue => "invalid value"
  | unneededValue => "unexpected value for a flag"
  | repeated => "argument used more than once"
  | missingValue => "required argument missing"
  | unknownCommand => "unrecognized subcommand"
  | missingCommand => "subcommand missing"
  | nothingGiven => "nothing to do"
  | helpAsked => usage
  | versionAsked => "siam 0.4.0\n"

end DesignSystem

open DesignSystem in
def main (words : List String) : IO UInt32 := do
  match Invocation.ofWords words with
  | .error .helpAsked =>
    IO.print Refusal.helpAsked.message
    return 0
  | .error .versionAsked =>
    IO.print Refusal.versionAsked.message
    return 0
  | .error refusal =>
    IO.eprint ("error: " ++ refusal.message ++ "\n\n" ++ usage)
    return 2
  | .ok invocation =>
    match ← (invocation.command.run : ExceptT Failure IO Unit).run with
    | .ok () => return 0
    | .error failure =>
      IO.eprintln failure.message
      if let some help := failure.help? then IO.eprintln ("help: " ++ help)
      return 1
