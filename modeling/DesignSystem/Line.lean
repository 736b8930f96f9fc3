import DesignSystem.Text

/-! The lines of a document. A line that is not blank has a depth, a name and a value. -/

namespace DesignSystem

/-- The value is the words after the name with single spaces between them, or empty. -/
structure Line where
  depth : Nat
  name : String
  value : String
  deriving DecidableEq

namespace Line

def isTab (c : Char) : Bool :=
  c == '\t'

/-- The number of tabs at the start. -/
def countTabs (cs : List Char) : Nat :=
  (cs.takeWhile isTab).length

/-- Reads a line, unless it is blank. -/
def read? (cs : List Char) : Option Line :=
  match words (cs.dropWhile isTab) with
  | [] => none
  | name :: rest =>
    some ⟨countTabs cs, String.ofList name, String.ofList ([' '].intercalate rest)⟩

def print (line : Line) : List Char :=
  List.replicate line.depth '\t' ++ line.name.toList ++
    (if line.value.isEmpty then [] else ' ' :: line.value.toList) ++ ['\n']

end Line

/-- The lines of a document that are not blank. -/
def documentLines (source : String) : List Line :=
  (textLines source.toList).filterMap Line.read?

/-- The document with its blank lines dropped and its words spaced by one. Depths, names
and values stay as written. -/
def format (source : String) : String :=
  String.ofList ((documentLines source).flatMap Line.print)

end DesignSystem
