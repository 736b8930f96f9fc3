import DesignSystem.Yaml.Letter

/-! Plain and quoted YAML scalars. A scalar may go on over several lines: one line break in
it is a space, and of several the first one is dropped. Texts are kept in reverse while they
are read. -/

namespace DesignSystem.Yaml

/-- The white space after the last character of a scalar, latest first. Once a line has
ended, the spaces around line breaks do not count. The first line break is missing when it
was escaped. -/
inductive Gap where
  | spaces (cs : List Char)
  | breaks (first? : Option Char) (more : List Char)

namespace Gap

def crossesLine : Gap → Bool
  | spaces _ => false
  | breaks _ _ => true

def isEmpty : Gap → Bool
  | spaces cs => cs.isEmpty
  | breaks _ _ => false

/-- The white space with one more character. -/
def add (c : Char) : Gap → Gap
  | spaces cs => if isBreak c then breaks (some c) [] else spaces (c :: cs)
  | breaks first? more => if isBreak c then breaks first? (c :: more) else breaks first? more

/-- The text with what the white space stands for. -/
def fill (text : List Char) : Gap → List Char
  | spaces cs => cs ++ text
  | breaks (some '\n') [] => ' ' :: text
  | breaks (some '\n') more => more ++ text
  | breaks first? more => more ++ (first?.toList ++ text)

end Gap

/-- Whether the character separates the items of a list or a mapping in brackets. -/
def isFlowMark (c : Char) : Bool :=
  c == ',' || c == '[' || c == ']' || c == '\x7b' || c == '\x7d'

/-- A scalar that has been read, and what follows it. -/
structure Reading where
  text : String
  crossesLine : Bool
  rest : List Letter

/-- Reads on in a plain scalar. Outside brackets it ends at a line whose first character is
left of column `floor`. -/
def readPlain (inFlow : Bool) (floor : Nat) (text : List Char) (gap : Gap) :
    List Letter → Option Reading
  | [] => some ⟨String.ofList text.reverse, gap.crossesLine, []⟩
  | l :: rest =>
    let c := l.char
    let done := some ⟨String.ofList text.reverse, gap.crossesLine, l :: rest⟩
    if isSpace c || isBreak c then
      if c == '\t' && gap.crossesLine && decide (l.column < floor) then none
      else readPlain inFlow floor text (gap.add c) rest
    else if gap.crossesLine && !inFlow && decide (l.column < floor) then done
    else if atMarker (l :: rest) || (c == '#' && !gap.isEmpty) then done
    else if c == ':' && atGap rest then done
    else if inFlow && c == ':' && rest.head?.any (fun m => isFlowMark m.char || m.char == '?')
    then none
    else if inFlow && isFlowMark c then done
    else readPlain inFlow floor (c :: gap.fill text) (.spaces []) rest

/-- Where a quoted scalar is being read: after a whole character, after a quote that ends the
scalar or is doubled, after a backslash, or inside a character code. -/
inductive Spot where
  | between
  | quote
  | backslash
  | code (left value : Nat)

/-- The character that a letter after a backslash stands for. -/
def escaped? : Char → Option Char
  | '0' => some '\x00'
  | 'a' => some '\x07'
  | 'b' => some '\x08'
  | 't' | '\t' => some '\t'
  | 'n' => some '\n'
  | 'v' => some '\x0b'
  | 'f' => some '\x0c'
  | 'r' => some '\r'
  | 'e' => some '\x1b'
  | ' ' => some ' '
  | '"' => some '"'
  | '/' => some '/'
  | '\\' => some '\\'
  | 'N' => some '\u0085'
  | '_' => some '\u00a0'
  | 'L' => some '\u2028'
  | 'P' => some '\u2029'
  | _ => none

/-- The number of digits of a character code. -/
def codeLength? : Char → Option Nat
  | 'x' => some 2
  | 'u' => some 4
  | 'U' => some 8
  | _ => none

def hexDigit? (c : Char) : Option Nat :=
  let n := c.toNat
  if c.isDigit then some (n - '0'.toNat)
  else if 'a' ≤ c ∧ c ≤ 'f' then some (n - 'a'.toNat + 10)
  else if 'A' ≤ c ∧ c ≤ 'F' then some (n - 'A'.toNat + 10)
  else none

/-- Reads on in a quoted scalar. -/
def readQuoted (mark : Char) (text : List Char) (gap : Gap) :
    Spot → List Letter → Option Reading
  | .quote, [] => some ⟨String.ofList text.reverse, false, []⟩
  | _, [] => none
  | .quote, l :: rest =>
    if mark == '\'' && l.char == '\'' then readQuoted mark ('\'' :: text) gap .between rest
    else some ⟨String.ofList text.reverse, false, l :: rest⟩
  | .backslash, l :: rest =>
    let c := l.char
    if isBreak c then readQuoted mark text (.breaks none []) .between rest
    else
      match escaped? c, codeLength? c with
      | some d, _ => readQuoted mark (d :: text) gap .between rest
      | none, some n => readQuoted mark text gap (.code n 0) rest
      | none, none => none
  | .code left value, l :: rest =>
    match hexDigit? l.char with
    | none => none
    | some d =>
      let value := 16 * value + d
      if 1 < left then readQuoted mark text gap (.code (left - 1) value) rest
      else if value.isValidChar then
        readQuoted mark (Char.ofNat value :: text) gap .between rest
      else none
  | .between, l :: rest =>
    let c := l.char
    if isSpace c || isBreak c then readQuoted mark text (gap.add c) .between rest
    else if atMarker (l :: rest) then none
    else
      let text := gap.fill text
      if c == mark then readQuoted mark text (.spaces []) .quote rest
      else if c == '\\' && mark == '"' then readQuoted mark text (.spaces []) .backslash rest
      else readQuoted mark (c :: text) (.spaces []) .between rest

end DesignSystem.Yaml
