/-! The characters of a YAML text with their places. Tokens depend on the line and the
column of a character, so the places are found once, before tokens are read. -/

namespace DesignSystem.Yaml

structure Letter where
  char : Char
  line : Nat
  column : Nat

/-- Whether a YAML text may hold the character. -/
def isPrintable (c : Char) : Bool :=
  let n := c.toNat
  n == 9 || n == 10 || n == 13 || n == 0x85 || (0x20 ≤ n && n ≤ 0x7e) ||
    (0xa0 ≤ n && n != 0xfeff && n != 0xfffe && n != 0xffff)

/-- The characters that end a line, once `place` has made one of the usual line breaks. -/
def isBreak (c : Char) : Bool :=
  c == '\n' || c == '\u2028' || c == '\u2029'

def isSpace (c : Char) : Bool :=
  c == ' ' || c == '\t'

/-- Finds the places of characters. A carriage return, with a line feed after it or without
one, and a next-line character become a line feed. -/
def place (line column : Nat) : List Char → List Letter
  | [] => []
  | '\r' :: '\n' :: rest => ⟨'\n', line, column⟩ :: place (line + 1) 0 rest
  | c :: rest =>
    if c == '\r' || c == '\u0085' then ⟨'\n', line, column⟩ :: place (line + 1) 0 rest
    else if isBreak c then ⟨c, line, column⟩ :: place (line + 1) 0 rest
    else ⟨c, line, column⟩ :: place line (column + 1) rest

/-- The characters of a text without its byte order mark, unless one of them is not allowed. -/
def letters? (text : String) : Option (List Letter) :=
  let cs :=
    match text.toList with
    | '\ufeff' :: cs => cs
    | cs => cs
  if cs.all isPrintable then some (place 0 0 cs) else none

/-- Whether a word ends here. -/
def atGap : List Letter → Bool
  | [] => true
  | l :: _ => isSpace l.char || isBreak l.char

/-- Whether a document starts or ends here: three dashes or three dots stand alone at the
start of a line. -/
def atMarker : List Letter → Bool
  | a :: b :: c :: rest =>
    a.column == 0 && (a.char == '-' || a.char == '.') && b.char == a.char &&
      c.char == a.char && atGap rest
  | _ => false

end DesignSystem.Yaml
