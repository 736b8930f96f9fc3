import DesignSystem.Proofs.InnerPaths
import DesignSystem.Proofs.MergedScans
import DesignSystem.Proofs.OverlookedFolders
import DesignSystem.Yaml.Manifest

/-! A project in two places. It is found alike in both, with the same documents below it, unless a
source leads out of its folder or a pattern covers a document in one of the places alone. -/

namespace DesignSystem

section Joining

variable {r s q : Path} {place : Place}

namespace Item

variable {α : Type}

mutual

/-- The files below a joined path are those below the path, all joined to the folder. -/
theorem files_join (r : Path) : {item : Item α} → item.Ordered → {s : Path} →
    s.isAbsolute = false → item.files (r.join s) = (item.files s).map r.join
  | .file _, _, _, _ => rfl
  | .folder _, h, _, hs => filesBelow_join r h hs

theorem filesBelow_join (r : Path) : {items : List (String × Item α)} → OrderedItems items →
    {s : Path} → s.isAbsolute = false →
    filesBelow (r.join s) items = (filesBelow s items).map r.join
  | [], _, _, _ => rfl
  | (name, item) :: rest, ⟨hname, _, hitem, hrest⟩, s, hs => by
    have hjoin : (s.join ⟨name⟩).isAbsolute = false := (s.isAbsolute_join hname).trans hs
    rw [filesBelow, filesBelow, List.map_append, Path.join_join hs hname,
      files_join r hitem hjoin, filesBelow_join r hrest hs]

end

end Item

end Joining

namespace World

open Machine

variable {w : World} {r : Path} {items : List (String × Item Content)}

end World

namespace Path

variable {r r₁ r₂ p q : Path}

end Path

namespace World

open Machine

variable {w : World} {r : Path} {items : List (String × Item Content)}

end World

/-- Of some paths below a folder, those that are not excluded where the folder lies, each once. -/
def Manifest.listed (manifest : Manifest) (paths : List Path) (r : Path) : List Path :=
  Path.distinct ((paths.map r.join).filter (!manifest.excluded ·))

end DesignSystem
