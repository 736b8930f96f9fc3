import DesignSystem.Command
import DesignSystem.Yaml.Manifest

/-! Command lines. The words of a command line are read from left to right. A value that has
been given is looked at when the next option comes, or at the end. So of two faults the one
that is noticed first counts. Commands that are started in this way read manifests as YAML. -/

namespace DesignSystem

/-- Why a command line starts no command. -/
inductive Refusal where
  | unknownWord
  | badValue
  | unneededValue
  | repeated
  | missingValue
  | unknownCommand
  | missingCommand
  | nothingGiven
  | helpAsked
  | versionAsked
  deriving DecidableEq

inductive Verb where
  | build
  | parse
  | fmt
  | init
  | completions
  deriving DecidableEq

/-- What a command line says. -/
structure Invocation where
  command : Command
  verbosity : Nat

/-- How much is logged. -/
def Invocation.logLevel (i : Invocation) : String :=
  match i.verbosity with
  | 0 => "warn"
  | 1 => "info"
  | 2 => "debug"
  | _ => "trace"

namespace Verb

def all : List Verb :=
  [build, parse, fmt, init, completions]

def name : Verb → String
  | build => "build"
  | parse => "parse"
  | fmt => "fmt"
  | init => "init"
  | completions => "completions"

def ofName? (name : String) : Option Verb :=
  all.find? (·.name == name)

/-- Whether the word for a command names one, or asks for help. -/
def isKnown (word : String) : Bool :=
  (ofName? word).isSome || word == "help"

end Verb

namespace CommandLine

inductive Switch where
  | stdout
  | pretty
  | inPlace
  | force
  deriving DecidableEq

/-- What an option is for. Only `output` takes a value. -/
inductive Purpose where
  | verbose
  | help
  | version
  | switch (s : Switch)
  | output

structure OptionName where
  long : String
  short? : Option Char
  purpose : Purpose

def sharedOptions : List OptionName :=
  [⟨"verbose", some 'v', .verbose⟩, ⟨"help", some 'h', .help⟩]

/-- The options before the command. -/
def outerOptions : List OptionName :=
  ⟨"version", some 'V', .version⟩ :: sharedOptions

def options : Verb → List OptionName
  | .build =>
    [⟨"output", some 'o', .output⟩, ⟨"stdout", none, .switch .stdout⟩,
      ⟨"pretty", none, .switch .pretty⟩] ++ sharedOptions
  | .parse => ⟨"pretty", none, .switch .pretty⟩ :: sharedOptions
  | .fmt => ⟨"write", some 'w', .switch .inPlace⟩ :: sharedOptions
  | .init => ⟨"force", none, .switch .force⟩ :: sharedOptions
  | .completions => sharedOptions

/-- Whether a word may be given to a command. -/
def accepts : Verb → String → Bool
  | .completions, word => (Shell.ofName? word).isSome
  | _, word => !word.isEmpty

/-- What has been given and not been looked at. -/
inductive Pending where
  | nothing
  | output (value? : Option String)
  | words (ws : List String)

/-- What has been read. Words are what is left beside options. -/
structure Progress where
  accepts : String → Bool
  verbosity : Nat
  switches : List Switch
  output? : Option String
  words : List String
  pending : Pending

namespace Progress

def start (accepts : String → Bool) : Progress :=
  ⟨accepts, 0, [], none, [], .nothing⟩

/-- Looks at what is pending. -/
def settle (p : Progress) : Except Refusal Progress :=
  match p.pending with
  | .nothing => .ok p
  | .output none => .error .badValue
  | .output (some value) =>
    if p.output?.isSome then .error .repeated
    else if value.isEmpty then .error .badValue
    else .ok { p with output? := some value, pending := .nothing }
  | .words ws =>
    if ws.all p.accepts then .ok { p with words := p.words ++ ws, pending := .nothing }
    else .error .badValue

/-- The greatest count of an option that may be repeated. -/
def countLimit : Nat :=
  255

def apply (p : Progress) : Purpose → Except Refusal Progress
  | .verbose => do
    let p ← p.settle
    return { p with verbosity := min countLimit (p.verbosity + 1) }
  | .help => do
    let _ ← p.settle
    throw .helpAsked
  | .version => do
    let _ ← p.settle
    throw .versionAsked
  | .switch s => do
    let p ← p.settle
    if p.switches.contains s then throw .repeated
    return { p with switches := s :: p.switches }
  | .output => do
    let p ← p.settle
    return { p with pending := .output none }

/-- Gives an option its value. -/
def assign (p : Progress) (value : String) : Except Refusal Progress := do
  let p ← p.settle
  { p with pending := .output (some value) }.settle

/-- Reads what follows two dashes. -/
def readLong (known : List OptionName) (p : Progress) (text : List Char) :
    Except Refusal Progress :=
  let name := text.takeWhile (· != '=')
  match known.find? (·.long.toList == name), text.dropWhile (· != '=') with
  | none, _ => .error .unknownWord
  | some option, [] => p.apply option.purpose
  | some option, _ :: value =>
    match option.purpose with
    | .output => p.assign (String.ofList value)
    | _ => .error .unneededValue

/-- Reads the letters that follow one dash. What follows the letter of an option with a value
is its value, with an equals sign before it or without one. -/
def readShort (known : List OptionName) (p : Progress) : List Char → Except Refusal Progress
  | [] => .ok p
  | c :: rest =>
    match known.find? (·.short? == some c) with
    | none => .error .unknownWord
    | some option =>
      match option.purpose, rest with
      | .output, '=' :: value => p.assign (String.ofList value)
      | .output, _ :: _ => p.assign (String.ofList rest)
      | purpose, _ => do (← p.apply purpose).readShort known rest

/-- Whether the next word is the value of an option. -/
def awaitsValue (p : Progress) : Bool :=
  match p.pending with
  | .output none => true
  | _ => false

/-- Takes a word. A command that takes several words looks at adjacent ones together. -/
def takeWord (p : Progress) (most? : Option Nat) (word : String) : Except Refusal Progress :=
  match p.pending, most? with
  | .words ws, none => .ok { p with pending := .words (ws ++ [word]) }
  | .words ws, some most =>
    if p.words.length + ws.length < most then do
      return { ← p.settle with pending := .words [word] }
    else .error .unknownWord
  | _, _ =>
    if most?.any (· ≤ p.words.length) then .error .unknownWord
    else do return { ← p.settle with pending := .words [word] }

end Progress

/-- What a word is by its dashes. -/
inductive Shape where
  | separator
  | long (text : List Char)
  | short (text : List Char)
  | plain

def shape (word : String) : Shape :=
  match word.toList with
  | ['-', '-'] => .separator
  | '-' :: '-' :: text => .long text
  | '-' :: c :: rest => .short (c :: rest)
  | _ => .plain

/-- The number of words that a command takes at most. -/
def mostWords? : Verb → Option Nat
  | .build => none
  | _ => some 1

/-- Reads the words that follow a command. After a separator no word is an option. -/
def readWords (verb : Verb) : Bool → Progress → List String → Except Refusal Progress
  | _, p, [] => p.settle
  | true, p, word :: rest => do
    readWords verb true (← p.takeWord (mostWords? verb) word) rest
  | false, p, word :: rest =>
    match shape word with
    | .separator => readWords verb true p rest
    | .long text => do readWords verb false (← p.readLong (options verb) text) rest
    | .short text => do readWords verb false (← p.readShort (options verb) text) rest
    | .plain =>
      if p.awaitsValue then readWords verb false { p with pending := .output (some word) } rest
      else do readWords verb false (← p.takeWord (mostWords? verb) word) rest

/-- The command that a verb and what follows it make up. -/
def command (verb : Verb) (p : Progress) : Except Refusal Command :=
  let has (s : Switch) := p.switches.contains s
  match verb, p.words with
  | .build, ws => .ok (.build ⟨ws.map Path.mk, p.output?.map Path.mk, has .stdout, has .pretty⟩)
  | .init, ws => .ok (.init ⟨ws.head?.getD "."⟩ (has .force))
  | _, [] => .error .missingValue
  | .parse, file :: _ => .ok (.showTree ⟨file⟩ (has .pretty))
  | .fmt, file :: _ => .ok (.format ⟨file⟩ (has .inPlace))
  | .completions, shell :: _ =>
    match Shell.ofName? shell with
    | some shell => .ok (.completions shell)
    | none => .error .badValue

/-- Help may be asked for one command. -/
def readHelp : List String → Refusal
  | [] => .helpAsked
  | [word] => if Verb.isKnown word then .helpAsked else .unknownCommand
  | _ => .unknownCommand

/-- Reads the words up to the command. Verbosity that is given after the command counts more
than verbosity before it. -/
def readOuter : Bool → Progress → List String → Except Refusal Invocation
  | _, p, [] => .error (if p.verbosity = 0 then .nothingGiven else .missingCommand)
  | true, _, word :: _ => .error (if Verb.isKnown word then .unknownWord else .unknownCommand)
  | false, p, word :: rest =>
    match Verb.ofName? word with
    | some verb => do
      let inner ← readWords verb false (.start (accepts verb)) rest
      let verbosity := if inner.verbosity = 0 then p.verbosity else inner.verbosity
      return ⟨← command verb inner, verbosity⟩
    | none =>
      if word = "help" then .error (readHelp rest)
      else
        match shape word with
        | .separator => readOuter true p rest
        | .long text => do readOuter false (← p.readLong outerOptions text) rest
        | .short text => do readOuter false (← p.readShort outerOptions text) rest
        | .plain => .error .unknownCommand

end CommandLine

/-- Reads a command line without the name of the program. -/
def Invocation.ofWords (words : List String) : Except Refusal Invocation :=
  CommandLine.readOuter false (.start fun _ => true) words

end DesignSystem
