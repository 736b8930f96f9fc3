import DesignSystem.Output
import DesignSystem.Project

/-! Building a project: every document is resolved, and the result is written as JSON. All
documents are loaded before anything is written. -/

namespace DesignSystem

structure BuildOptions where
  paths : List Path
  output? : Option Path
  toStdout : Bool
  pretty : Bool
  deriving DecidableEq

/-- A count with its noun. -/
def plural (n : Nat) (one many : String) : String :=
  toString n ++ " " ++ if n = 1 then one else many

namespace LoadedDesign

def json (loaded : LoadedDesign) (pretty : Bool) : String :=
  loaded.design.resolve.json.render pretty

def outputPath (loaded : LoadedDesign) (folder : Path) : Path :=
  folder.join ⟨loaded.path.outputName ++ ".json"⟩

end LoadedDesign

section

variable {m : Type → Type} [Monad m] [Host m]

/-- Writes a text into a folder that is made if it is not there. -/
def writeOutput (folder file : Path) (text : String) : ExceptT Failure m Unit := do
  if !(← ExceptT.lift (Host.isThere folder)) then
    attempt .makeOutputFolder folder (Host.makeFolders folder)
  attempt .writeOutput file (Host.write file text)

/-- The project that the options name, or the one in the working folder. -/
def BuildOptions.project [ManifestReader] (options : BuildOptions) : ExceptT Failure m Project := do
  if options.paths.isEmpty then Project.discover ⟨"."⟩
  else
    let manifest? ← Manifest.load? Manifest.fileName
    ExceptT.lift (Project.ofPaths (manifest?.getD .standard) options.paths)

/-- Reports the widths in a manifest that have no effect. -/
def reportIgnored (manifest : Manifest) : m Unit :=
  manifest.ignoredBreakpoints.forM fun name =>
    Host.status "Ignoring" ("breakpoint '" ++ name ++ "' in " ++ Manifest.fileName.text)

/-- Resolves one document, and prints or writes the result. -/
def buildOne (toStdout pretty : Bool) (folder : Path) (loaded : LoadedDesign) :
    ExceptT Failure m Unit := do
  ExceptT.lift do Host.status "Resolving" (← Host.display loaded.path)
  let text := loaded.json pretty
  if toStdout then ExceptT.lift (Host.print (text ++ "\n"))
  else
    let file := loaded.outputPath folder
    writeOutput folder file text
    ExceptT.lift do Host.status "Wrote" (← Host.display file)

def build [ManifestReader] (options : BuildOptions) : ExceptT Failure m Unit := do
  let project ← options.project
  if project.documents.isEmpty then throw .noDocuments
  ExceptT.lift (reportIgnored project.manifest)
  let pretty := options.pretty || project.manifest.pretty
  let folder := options.output?.getD (project.root.join project.manifest.output)
  let designs ← project.load
  designs.forM (buildOne options.toStdout pretty folder)
  ExceptT.lift (Host.status "Finished" (plural designs.length "system" "systems"))

end

end DesignSystem
