/-!
# Command line arguments

The arguments name one input and any of the options, each at most once. Options have a
long form after two dashes and some a short one after one dash; short ones may share a
dash. The value of an option is the rest of its argument or the next argument, which
then must not look like an option. After two dashes alone everything is input.
-/

namespace ScriptCheck.CommandLine

/-- An option that is given or not. -/
inductive Flag where
  | silent
  | verbose
  | dumpTokens
  | dumpTree
  | dumpGraph
deriving DecidableEq, Inhabited

/-- An option with a value. -/
inductive Setting where
  | output
  | title
deriving DecidableEq, Inhabited

inductive Opt where
  | flag (f : Flag)
  | setting (s : Setting)
  | help
  | version
deriving DecidableEq, Inhabited

/-- The option of a long name. -/
def Opt.ofLong? : String → Option Opt
  | "output" => some (.setting .output)
  | "title" => some (.setting .title)
  | "silent" => some (.flag .silent)
  | "verbose" => some (.flag .verbose)
  | "dump-tokens" => some (.flag .dumpTokens)
  | "dump-ast" => some (.flag .dumpTree)
  | "dump-graph" => some (.flag .dumpGraph)
  | "help" => some .help
  | "version" => some .version
  | _ => none

/-- The option of a short name. -/
def Opt.ofShort? : Char → Option Opt
  | 'o' => some (.setting .output)
  | 's' => some (.flag .silent)
  | 'v' => some (.flag .verbose)
  | 'h' => some .help
  | 'V' => some .version
  | _ => none

/-- What is wrong with some arguments. -/
inductive UsageError where
  | unknownOption (name : String)
  | unexpectedValue (name : String)
  | missingValue (s : Setting)
  | emptyPath
  | repeated
  | extraInput (arg : String)
  | missingInput
deriving DecidableEq, Inhabited

def Setting.describe : Setting → String
  | .output => "--output <OUTPUT>"
  | .title => "--title <TITLE>"

def UsageError.describe : UsageError → String
  | .unknownOption name => s!"unexpected argument '{name}' found"
  | .unexpectedValue name => s!"unexpected value for '{name}' found; no more were expected"
  | .missingValue s => s!"a value is required for '{s.describe}' but none was supplied"
  | .emptyPath => "a path must not be empty"
  | .repeated => "an option cannot be used multiple times"
  | .extraInput arg => s!"unexpected argument '{arg}' found"
  | .missingInput => "the following required arguments were not provided:\n  <INPUT>"

/-- What the arguments read so far say. -/
structure Draft where
  input : Option String
  settings : List (Setting × String)
  flags : List Flag
deriving Inhabited

/-- What to do with an input. -/
structure Job where
  input : String
  settings : List (Setting × String)
  flags : List Flag
deriving Inhabited

/-- What is asked for. -/
inductive Request where
  | help
  | version
  | run (job : Job)
deriving Inhabited

namespace Draft

def empty : Draft := ⟨none, [], []⟩

def addFlag (d : Draft) (f : Flag) : Except UsageError Draft :=
  if f ∈ d.flags then .error .repeated else .ok { d with flags := f :: d.flags }

def addSetting (d : Draft) (s : Setting) (value : String) : Except UsageError Draft :=
  if (d.settings.lookup s).isSome then .error .repeated
  else if s = .output ∧ value.isEmpty then .error .emptyPath
  else .ok { d with settings := (s, value) :: d.settings }

def addInput (d : Draft) (arg : String) : Except UsageError Draft :=
  if arg.isEmpty then .error .emptyPath
  else if d.input.isSome then .error (.extraInput arg)
  else .ok { d with input := some arg }

/-- Takes the arguments after the options have ended. -/
def addInputs (d : Draft) : List String → Except UsageError Draft
  | [] => .ok d
  | arg :: args => do (← d.addInput arg).addInputs args

/-- The request that all arguments make. -/
def finish (d : Draft) : Except UsageError Request :=
  match d.input with
  | none => .error .missingInput
  | some input => .ok (.run ⟨input, d.settings, d.flags⟩)

end Draft

/-- What an argument with options in it leads to. -/
inductive Step where
  | go (d : Draft)
  | await (d : Draft) (s : Setting)
  | stop (r : Request)

/-- The rest of an argument as a value; a sign of equality may come before it. -/
def attachedValue : List Char → String
  | '=' :: cs => String.ofList cs
  | cs => String.ofList cs

/-- Reads short options that share a dash. -/
def Draft.shortOptions (d : Draft) : List Char → Except UsageError Step
  | [] => .ok (.go d)
  | c :: cs =>
    match Opt.ofShort? c with
    | none => .error (.unknownOption s!"-{c}")
    | some .help => .ok (.stop .help)
    | some .version => .ok (.stop .version)
    | some (.flag f) => do (← d.addFlag f).shortOptions cs
    | some (.setting s) =>
      match cs with
      | [] => .ok (.await d s)
      | c :: cs => return .go (← d.addSetting s (attachedValue (c :: cs)))

/-- Reads a long option, whose value may stand behind a sign of equality. -/
def Draft.longOption (d : Draft) (text : List Char) : Except UsageError Step :=
  let name := String.ofList (text.takeWhile (· ≠ '='))
  let value? := match text.dropWhile (· ≠ '=') with
    | [] => none
    | _ :: cs => some (String.ofList cs)
  match Opt.ofLong? name, value? with
  | none, _ => .error (.unknownOption s!"--{name}")
  | some (.setting s), none => .ok (.await d s)
  | some (.setting s), some value => return .go (← d.addSetting s value)
  | some _, some _ => .error (.unexpectedValue s!"--{name}")
  | some .help, none => .ok (.stop .help)
  | some .version, none => .ok (.stop .version)
  | some (.flag f), none => return .go (← d.addFlag f)

/-- Is an argument made of options? One dash alone is not. -/
def looksLikeOption (arg : String) : Bool :=
  match arg.toList with
  | '-' :: _ :: _ => true
  | _ => false

/-- Reads one argument. -/
def Draft.step (d : Draft) (arg : String) : Except UsageError Step :=
  match arg.toList with
  | '-' :: '-' :: text => d.longOption text
  | '-' :: c :: cs => d.shortOptions (c :: cs)
  | _ => return .go (← d.addInput arg)

/-- Reads arguments from left to right. What asks for help or the version ends reading. -/
def Draft.read (d : Draft) : List String → Except UsageError Request
  | [] => d.finish
  | "--" :: args => do (← d.addInputs args).finish
  | arg :: args => do
    match ← d.step arg with
    | .stop request => .ok request
    | .go d => d.read args
    | .await d s =>
      match args with
      | [] => .error (.missingValue s)
      | value :: args =>
        if looksLikeOption value then .error (.missingValue s)
        else do (← d.addSetting s value).read args

/-- The request that arguments make. -/
def parse (args : List String) : Except UsageError Request := Draft.empty.read args

namespace Job

def has (job : Job) (f : Flag) : Bool := job.flags.contains f

def output? (job : Job) : Option String := job.settings.lookup .output

def title? (job : Job) : Option String := job.settings.lookup .title

end Job

end ScriptCheck.CommandLine
