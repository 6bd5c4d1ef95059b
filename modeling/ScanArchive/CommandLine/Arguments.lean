import ScanArchive.Layout

/-!
# Arguments

A command line names one command and one archive.  Options may stand before the command and
behind it, and what stands behind it counts more; at either place an option is given at most
once.  Behind two dashes alone, no word is an option.  A word that asks for help is answered
where it stands, so that faults behind it, and some in front of it, are passed over.
-/

namespace ScanArchive.CommandLine

/-! ## Commands -/

inductive Command where
  | header
  | summary
  | verify
  deriving DecidableEq, Repr

namespace Command

def all : List Command := [header, summary, verify]

def name : Command → String
  | header => "header"
  | summary => "summary"
  | verify => "verify"

def ofName? (name : String) : Option Command := all.find? (·.name = name)

@[simp] theorem ofName?_name (c : Command) : ofName? c.name = some c := by
  cases c <;> decide

def purpose : Command → String
  | header => "Print the scan header and its format version"
  | summary => "List entries with their type, version, size and node counts"
  | verify => "Decode and validate every entry"

end Command

/-! ## Words -/

inductive Setting where
  | format
  | log
  deriving DecidableEq, Repr

def Setting.name : Setting → String
  | format => "--format"
  | log => "--log"

structure Options where
  json : Bool := false
  /-- the container to expect, which is found out if it is not given -/
  format : Option ContainerFormat := none
  /-- which events to log -/
  log : Option String := none
  deriving DecidableEq, Repr

inductive Topic where
  | program
  | command (c : Command)
  /-- the command that gives help -/
  | help
  deriving DecidableEq, Repr

inductive Misuse where
  | noCommand
  | unknownCommand (word : String)
  | unknownOption (word : String)
  | noValue (setting : Setting)
  | unknownValue (setting : Setting) (value : String)
  | repeated (option : String)
  /-- a word behind the archive -/
  | surplus (word : String)
  | noArchive
  deriving DecidableEq, Repr

def Misuse.message : Misuse → String
  | noCommand => "a command is required but none was given"
  | unknownCommand word => "unrecognized command '" ++ word ++ "'"
  | unknownOption word => "unexpected option '" ++ word ++ "'"
  | noValue setting => "a value is required for '" ++ setting.name ++ "' but none was given"
  | unknownValue setting value => "invalid value '" ++ value ++ "' for '" ++ setting.name ++ "'"
  | repeated option => "the option '" ++ option ++ "' cannot be used multiple times"
  | surplus word => "unexpected argument '" ++ word ++ "'"
  | noArchive => "an archive is required but none was given"

/-- Why a command line asks nothing about an archive. -/
inductive Detour where
  | help (topic : Topic)
  | misuse (fault : Misuse)
  deriving DecidableEq, Repr

/-- What a word of a command line is by itself. -/
inductive Word where
  | json
  | help
  /-- an option that takes a value, with the value if it is attached -/
  | setting (setting : Setting) (value : Option String)
  | separator
  | unknown
  | plain
  deriving DecidableEq, Repr

namespace Word

def splitValue (word : String) : String × Option String :=
  let name := word.toList.takeWhile (· ≠ '=')
  match word.toList.dropWhile (· ≠ '=') with
  | [] => (String.ofList name, none)
  | _ :: value => (String.ofList name, some (String.ofList value))

/-- Options start with two dashes, or are single letters behind one; a single dash is none. -/
def ofText (word : String) : Word :=
  match word.toList with
  | ['-', '-'] => separator
  | '-' :: '-' :: _ =>
    match splitValue word with
    | ("--json", none) => json
    | ("--help", none) => help
    | ("--format", value) => setting .format value
    | ("--log", value) => setting .log value
    | _ => unknown
  | '-' :: 'h' :: _ => help
  | '-' :: _ :: _ => unknown
  | _ => plain

end Word

namespace Options

def setJson (o : Options) : Except Detour Options :=
  if o.json then .error (.misuse (.repeated "--json")) else .ok { o with json := true }

/-- Gives a value to an option that has none yet. -/
def set (o : Options) (setting : Setting) (value : String) : Except Detour Options :=
  match setting with
  | .format =>
    if o.format.isSome then .error (.misuse (.repeated setting.name))
    else match [.zip, .tarZstd].find? (fun f : ContainerFormat => f.name = value) with
      | some format => .ok { o with format }
      | none => .error (.misuse (.unknownValue setting value))
  | .log =>
    if o.log.isSome then .error (.misuse (.repeated setting.name))
    else .ok { o with log := value }

/-- Options that count, and others that stand in for what they leave open. -/
def orElse (o fallback : Options) : Options :=
  { json := o.json || fallback.json
    format := o.format <|> fallback.format
    log := o.log <|> fallback.log }

end Options

/--
The options at one place.  A value that is a word of its own is only looked at when something
else follows at this place, or when the command line is at its end.
-/
structure Collected where
  options : Options := {}
  /-- the option that was given last, with its value, unless that has been looked at -/
  last : Option (Setting × String) := none

/-- The options after a look at the last value. -/
def Collected.settle (c : Collected) : Except Detour Options :=
  match c.last with
  | some (setting, value) => c.options.set setting value
  | none => .ok c.options

structure Progress where
  before : Collected := {}
  here : Collected := {}
  command : Option Command := none
  archive : Option String := none
  /-- the option whose value is the next word -/
  pending : Option Setting := none
  /-- whether two dashes have been read -/
  literal : Bool := false

namespace Progress

/-- Whose help is meant when it is asked for. -/
def topic (p : Progress) : Topic :=
  match p.command with
  | some c => .command c
  | none => .program

def settle (p : Progress) : Except Detour Progress := do
  return { p with here := { options := ← p.here.settle } }

/--
Takes a word as the command or as the archive.  The command starts a new place; the last value
in front of it waits until everything behind it has been read.
-/
def operand (p : Progress) (word : String) : Except Detour Progress :=
  match p.command, p.archive with
  | some _, none => do return { ← p.settle with archive := word }
  | some _, some _ => .error (.misuse (.surplus word))
  | none, _ =>
    match Command.ofName? word, p.literal with
    | some c, false => .ok { p with command := c, before := p.here, here := {} }
    | _, _ => .error (.misuse (.unknownCommand word))

def helpOn : List String → Detour
  | [] => .help .program
  | ["help"] => .help .help
  | [word] =>
    match Command.ofName? word with
    | some c => .help (.command c)
    | none => .misuse (.unknownCommand word)
  | _ :: word :: _ => .misuse (.unknownCommand word)

def read (p : Progress) : List String → Except Detour Progress
  | [] => .ok p
  | word :: rest => do
    if p.literal then
      -- Behind two dashes the command itself is not recognized any more.
      let p ← p.operand word
      read p rest
    else
      match p.pending, Word.ofText word with
      | some setting, .plain =>
        -- The value is looked at later: a fault in front of that one comes first.
        let here := { p.here with last := some (setting, word) }
        read { p with here, pending := none } rest
      | some setting, _ => throw (.misuse (.noValue setting))
      | none, .plain =>
        if p.command = none ∧ word = "help" then throw (helpOn rest)
        let p ← p.operand word
        read p rest
      | none, .separator => read { p with literal := true } rest
      | none, .json =>
        let options ← p.here.settle
        let options ← options.setJson
        read { p with here := { options } } rest
      | none, .setting setting none =>
        let p ← p.settle
        read { p with pending := some setting } rest
      | none, .setting setting (some value) =>
        let options ← p.here.settle
        let options ← options.set setting value
        read { p with here := { options } } rest
      | none, .help =>
        let p ← p.settle
        throw (.help p.topic)
      | none, .unknown => throw (.misuse (.unknownOption word))

end Progress

structure Invocation where
  command : Command
  path : String
  options : Options
  deriving DecidableEq, Repr

def Invocation.parse (words : List String) : Except Detour Invocation := do
  let p ← Progress.read {} words
  match p.pending, p.command, p.archive with
  | some setting, _, _ => throw (.misuse (.noValue setting))
  | none, none, _ => throw (.misuse .noCommand)
  | none, some _, none => throw (.misuse .noArchive)
  | none, some command, some path =>
    let here ← p.here.settle
    let before ← p.before.settle
    return { command, path, options := here.orElse before }

end ScanArchive.CommandLine
