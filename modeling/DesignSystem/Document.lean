import DesignSystem.Line
import DesignSystem.Tree

/-! Documents as trees. A line belongs to the last line before it that is one tab
shallower. No text is refused: a line without such a line before it belongs to the root,
and a line with a value loses the value when another line is placed below it. -/

namespace DesignSystem

/-- The path of the last line at each depth. -/
abbrev Rail := List (Option (List String))

namespace Rail

/-- The path of the line to which a line of the given depth belongs. -/
def parent (rail : Rail) : Nat → List String
  | 0 => []
  | depth + 1 => (rail[depth]?.getD none).getD []

def record (path : List String) : Nat → Rail → Rail
  | 0, [] => [some path]
  | 0, _ :: rest => some path :: rest
  | depth + 1, [] => none :: record path depth []
  | depth + 1, entry :: rest => entry :: record path depth rest

end Rail

/-- Places a line into the tree of the lines before it. -/
def placeLine (convert : String → Option Value) (state : Tree × Rail) (line : Line) :
    Tree × Rail :=
  let (tree, rail) := state
  let parent := rail.parent line.depth
  (tree.insertAt parent line.name (Node.ofValue? (convert line.value)),
    rail.record (parent ++ [line.name]) line.depth)

def treeOfLines (convert : String → Option Value) (lines : List Line) : Tree :=
  (lines.foldl (placeLine convert) ([], [])).1

/-- The tree of a document whose values are read by `convert`. -/
def parseWith (convert : String → Option Value) (source : String) : Tree :=
  treeOfLines convert (documentLines source)

def parse (source : String) : Tree :=
  parseWith Value.coerce? source

mutual

def Node.print (depth : Nat) : Node → List Char
  | .leaf v => ' ' :: v.plain ++ ['\n']
  | .branch t => '\n' :: Tree.print (depth + 1) t

/-- The lines of a tree below a given depth, a leaf with its value after one space. -/
def Tree.print (depth : Nat) : List (String × Node) → List Char
  | [] => []
  | (k, n) :: rest =>
    List.replicate depth '\t' ++ k.toList ++ n.print depth ++ Tree.print depth rest

end

/-- The tree as a document. -/
def emit (t : Tree) : String :=
  String.ofList (Tree.print 0 t)

end DesignSystem
