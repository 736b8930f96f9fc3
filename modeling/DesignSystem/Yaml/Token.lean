import DesignSystem.Yaml.Scalar

/-! The tokens of a YAML text. Columns become tokens that open and close block collections,
and the start of a simple key is known only when the colon after it is found. -/

namespace DesignSystem.Yaml

inductive Token where
  | documentStart
  | documentEnd
  | blockSequence
  | blockMapping
  | blockEnd
  | listOpen
  | listClose
  | mapOpen
  | mapClose
  | comma
  | dash
  | key
  | value
  | scalar (text : String) (isPlain : Bool)
  deriving DecidableEq

/-- A token that may turn out to start a simple key: its place, and the number of tokens
before it. In a block collection a token at the column of the collection has to be a key. -/
structure Candidate where
  line : Nat
  column : Nat
  before : Nat
  isDue : Bool

/-- The state between two tokens. `tokens` has the latest token first, `columns` the column of
the innermost block collection. `outer` has one entry for each open bracket: the candidate
that was waiting when the bracket opened. -/
structure Scan where
  tokens : List Token
  columns : List Nat
  mayStartKey : Bool
  candidate : Option Candidate
  outer : List (Option Candidate)

namespace Scan

def start : Scan :=
  ⟨[], [], true, none, []⟩

def inFlow (s : Scan) : Bool :=
  !s.outer.isEmpty

def add (t : Token) (s : Scan) : Scan :=
  { s with tokens := t :: s.tokens }

def allowKey (allowed : Bool) (s : Scan) : Scan :=
  { s with mayStartKey := allowed }

/-- Passes over blanks, comments and line breaks. Outside brackets a key may start after a
line break. -/
def skip (s : Scan) (inComment : Bool) : List Letter → Scan × List Letter
  | [] => (s, [])
  | l :: rest =>
    let c := l.char
    if isBreak c then (s.allowKey (s.mayStartKey || !s.inFlow)).skip false rest
    else if inComment || c == ' ' || (c == '\t' && (s.inFlow || !s.mayStartKey)) then
      s.skip inComment rest
    else if c == '#' then s.skip true rest
    else (s, l :: rest)

/-- Whether a candidate is too far back to be a key. -/
def isStale (l : Letter) (k : Candidate) : Bool :=
  k.line < l.line || k.column + 1024 < l.column

def forget (k? : Option Candidate) : Option (Option Candidate) :=
  if k?.any (·.isDue) then none else some none

/-- Gives up the candidates that are too far back. -/
def dropStale (l : Letter) (s : Scan) : Option Scan := do
  let drop (k? : Option Candidate) := if k?.any (isStale l) then forget k? else some k?
  return { s with candidate := ← drop s.candidate, outer := ← s.outer.mapM drop }

/-- Gives up the candidate at hand. -/
def dropKey (s : Scan) : Option Scan := do
  return { s with candidate := ← forget s.candidate }

/-- Notes that the next token may be a key. -/
def saveKey (l : Letter) (s : Scan) : Option Scan :=
  if s.mayStartKey then do
    let s ← s.dropKey
    let isDue := !s.inFlow && s.columns.head? == some l.column
    return { s with candidate := some ⟨l.line, l.column, s.tokens.length, isDue⟩ }
  else some s

def closeBlocks : List Nat → (Nat → Bool) → List Token → List Nat × List Token
  | [], _, tokens => ([], tokens)
  | c :: columns, isInner, tokens =>
    if isInner c then closeBlocks columns isInner (.blockEnd :: tokens)
    else (c :: columns, tokens)

/-- Closes the block collections whose columns satisfy `isInner`. -/
def unroll (isInner : Nat → Bool) (s : Scan) : Scan :=
  if s.inFlow then s
  else
    let (columns, tokens) := closeBlocks s.columns isInner s.tokens
    { s with columns, tokens }

/-- Opens a block collection at a column right of the innermost one. Its token goes behind the
first `before` tokens. -/
def roll (opening : Token) (column before : Nat) (s : Scan) : Scan :=
  if s.inFlow || s.columns.head?.any (column ≤ ·) then s
  else
    let (later, earlier) := s.tokens.splitAt (s.tokens.length - before)
    { s with columns := column :: s.columns, tokens := later ++ opening :: earlier }

/-- Makes a key of the candidate. -/
def useKey (k : Candidate) (s : Scan) : Scan :=
  let (later, earlier) := s.tokens.splitAt (s.tokens.length - k.before)
  let s := { s with tokens := later ++ Token.key :: earlier, candidate := none }
  s.roll .blockMapping k.column k.before

/-- An indicator of a block collection opens one, where a key might start. -/
def openBlock (opening : Token) (l : Letter) (s : Scan) : Option Scan :=
  if s.inFlow then some s
  else if s.mayStartKey then some (s.roll opening l.column s.tokens.length)
  else none

def readMarker (l : Letter) (s : Scan) : Option Scan := do
  let s ← (s.unroll fun _ => true).dropKey
  return (s.add (if l.char == '-' then .documentStart else .documentEnd)).allowKey false

def openFlow (t : Token) (l : Letter) (s : Scan) : Option Scan := do
  let s ← s.saveKey l
  return { s.add t with candidate := none, outer := s.candidate :: s.outer, mayStartKey := true }

def closeFlow (t : Token) (s : Scan) : Option Scan := do
  let s ← s.dropKey
  let s := s.add t
  return { s with
    candidate := (s.outer.head?.getD none), outer := s.outer.tail, mayStartKey := false }

def readComma (s : Scan) : Option Scan := do
  return ((← s.dropKey).add .comma).allowKey true

def readDash (l : Letter) (s : Scan) : Option Scan := do
  let s ← (← s.openBlock .blockSequence l).dropKey
  return (s.add .dash).allowKey true

def readKey (l : Letter) (s : Scan) : Option Scan := do
  let s ← (← s.openBlock .blockMapping l).dropKey
  return (s.add .key).allowKey (!s.inFlow)

def readValue (l : Letter) (s : Scan) : Option Scan :=
  match s.candidate with
  | some k => some (((s.useKey k).add .value).allowKey false)
  | none => do
    let s ← s.openBlock .blockMapping l
    return (s.add .value).allowKey (!s.inFlow)

def readScalar (isPlain : Bool) (l : Letter) (s : Scan) (r? : Option Reading) :
    Option (Scan × List Letter) := do
  let s ← s.saveKey l
  let r ← r?
  return ((s.add (.scalar r.text isPlain)).allowKey r.crossesLine, r.rest)

/-- The column from which the lines of a plain scalar may go on. -/
def floor (s : Scan) : Nat :=
  match s.columns with
  | [] => 0
  | c :: _ => c + 1

/-- The characters that start no plain scalar. The first three of them do when the next
character belongs to the same word. -/
def isIndicator (c : Char) : Bool :=
  "-?:,[]\x7b\x7d#&*!|>'\"%@\x60".toList.contains c

/-- Reads the token that starts with a letter. -/
def readToken (s : Scan) (l : Letter) (rest : List Letter) : Option (Scan × List Letter) := do
  let s := (← s.dropStale l).unroll (l.column < ·)
  let here (s? : Option Scan) : Option (Scan × List Letter) := s?.map (·, rest)
  if atMarker (l :: rest) then return (← s.readMarker l, rest.drop 2)
  match l.char with
  | '[' => here (s.openFlow .listOpen l)
  | '\x7b' => here (s.openFlow .mapOpen l)
  | ']' => here (s.closeFlow .listClose)
  | '\x7d' => here (s.closeFlow .mapClose)
  | ',' => here s.readComma
  | '\'' => s.readScalar false l (readQuoted '\'' [] (.spaces []) .between rest)
  | '"' => s.readScalar false l (readQuoted '"' [] (.spaces []) .between rest)
  | c =>
    let standsAlone := atGap rest
    if c == '-' && standsAlone then here (s.readDash l)
    else if c == '?' && (s.inFlow || standsAlone) then here (s.readKey l)
    else if c == ':' && (s.inFlow || standsAlone) then here (s.readValue l)
    else if c == '-' || c == '?' || c == ':' || !(isSpace c || isIndicator c) then
      s.readScalar true l (readPlain s.inFlow s.floor [] (.spaces []) (l :: rest))
    else none

/-- The end of the text closes all block collections. -/
def finish (s : Scan) : Option (List Token) := do
  let s ← (s.unroll fun _ => true).dropKey
  return s.tokens.reverse

/-- Reads tokens to the end of the text. Each takes at least one letter. -/
def readAll : Nat → Scan → List Letter → Option (List Token)
  | 0, _, _ => none
  | fuel + 1, s, ls =>
    match s.skip false ls with
    | (s, []) => s.finish
    | (s, l :: rest) =>
      match s.readToken l rest with
      | none => none
      | some (s, rest) => readAll fuel s rest

end Scan

/-- The tokens of a text, in order. -/
def tokens? (text : String) : Option (List Token) := do
  let ls ← letters? text
  Scan.start.readAll (ls.length + 1) ls

end DesignSystem.Yaml
