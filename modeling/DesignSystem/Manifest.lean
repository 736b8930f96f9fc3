import DesignSystem.Breakpoint
import DesignSystem.Pattern

/-! The manifest of a project: where its documents are, where output goes, and the widths that
all its documents start from. -/

namespace DesignSystem

/-- Breakpoints are sorted by name, and no name is repeated. -/
structure Manifest where
  sources : List String
  output : Path
  excludes : List Pattern
  pretty : Bool
  breakpoints : List (String × Nat)

/-- A reader of the format in which manifests are written. It tells which texts hold a manifest, and
which one. Nothing else is known of the format. -/
class ManifestReader where
  manifest? : String → Option Manifest

namespace Manifest

/-- The name of the file that holds the manifest. -/
def fileName : Path :=
  ⟨"siam.yaml"⟩

/-- The manifest of a project that has none. -/
def standard : Manifest :=
  ⟨[], ⟨"dist"⟩, [], false, []⟩

def same (m n : Manifest) : Bool :=
  m.sources == n.sources && m.output.same n.output && m.excludes == n.excludes &&
    m.pretty == n.pretty && m.breakpoints == n.breakpoints

/-- Reads a manifest. A blank text is the standard one. -/
def parse? [ManifestReader] (text : String) : Option Manifest :=
  if (trim text.toList).isEmpty then some standard
  else ManifestReader.manifest? text

/-- The widths that documents start from. Names of no tier have no effect. -/
def widths (m : Manifest) : Widths :=
  m.breakpoints.foldl
    (fun w e =>
      match Tier.ofName? e.1 with
      | some t => w.set t e.2
      | none => w)
    .standard

/-- Whether an entry has no effect: it names no tier, or it moves the base. -/
def isIgnored (entry : String × Nat) : Bool :=
  match Tier.ofName? entry.1 with
  | some .base => entry.2 != 0
  | some _ => false
  | none => true

def ignoredBreakpoints (m : Manifest) : List String :=
  (m.breakpoints.filter isIgnored).map (·.1)

def excluded (m : Manifest) (p : Path) : Bool :=
  m.excludes.any (·.covers p)

/-- Without sources the whole project is one. -/
def effectiveSources (m : Manifest) : List String :=
  if m.sources.isEmpty then ["."] else m.sources

end Manifest

end DesignSystem
