import DesignSystem.Proofs.ExcludedPaths
import Mathlib.Data.List.TakeWhile

/-! Patterns that overlook a folder. Whether such a pattern covers a file below the folder does not
depend on the path of the folder, though patterns are compared with whole paths. -/

namespace DesignSystem

namespace Pattern

section Joining

variable {r q : Path} {cs : List Char}

end Joining

end Pattern

end DesignSystem
