import DesignSystem.Path
import DesignSystem.Text

/-! Patterns of paths that a project leaves out. -/

namespace DesignSystem

structure Pattern where
  text : String
  deriving DecidableEq

namespace Pattern

/-- Whether a path leads into a folder of that name, at its start or farther down. -/
def entersFolder (folder path : List Char) : Bool :=
  occursIn ('/' :: folder ++ ['/']) path || (folder ++ ['/']).isPrefixOf path

/-- The folder of a pattern that ends in `/*`. -/
def folder? (pattern : List Char) : Option (List Char) :=
  before? ['/', '*'] pattern

/-- After a leading `**/` a pattern is the end of a path, or everything in a folder if it ends
in `/*`. After a leading `*` a pattern without a slash is the end of a path. Another pattern is
everything in a folder if it ends in `/*`, and else a part of a path. -/
def covers (pattern : Pattern) (path : Path) : Bool :=
  let p := pattern.text.toList
  let cs := path.text.toList
  match after? ['*', '*', '/'] p with
  | some rest => (folder? rest).elim (rest.isSuffixOf cs) (entersFolder · cs)
  | none =>
    if p.head? == some '*' && !p.contains '/' then p.tail.isSuffixOf cs
    else (folder? p).elim (occursIn p cs) (entersFolder · cs)

end Pattern

end DesignSystem
