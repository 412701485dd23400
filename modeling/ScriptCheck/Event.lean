import ScriptCheck.Text.Plain

/-!
# Events of a run

While it works, an analysis writes to the error stream and to a log. Both are kept as
one list of events, in the order in which they happen.
-/

namespace ScriptCheck

inductive Level where
  | info
  | debug
deriving DecidableEq, Inhabited

def Level.describe : Level → String
  | .info => "INFO"
  | .debug => "DEBUG"

/-- The parts of the program that write to the log. -/
inductive Origin where
  | session
  | check
  | graph
  | command
deriving DecidableEq, Inhabited

/-- The name of a part in the log. -/
def Origin.describe : Origin → String
  | .session => "pie_analyzer::driver"
  | .check => "pie_analyzer::frontend::sema::analyzer"
  | .graph => "pie_analyzer::graph::builder"
  | .command => "pie_analyzer"

/-- An entry of the log. -/
structure LogRecord where
  level : Level
  origin : Origin
  text : String
deriving DecidableEq, Inhabited

/-- The level, in a field of five, and the part of the program in brackets, then the text.
Further lines of a text are indented by four columns, and commands to the terminal are
left out. -/
def LogRecord.line (r : LogRecord) : String :=
  let level := match r.level with
    | .info => "INFO "
    | .debug => "DEBUG"
  let text := "\n    ".intercalate (r.text.splitOn "\n")
  Text.plain s!"[{level} {r.origin.describe}] {text}\n"

inductive Event where
  | log (record : LogRecord)
  | print (text : String)
deriving DecidableEq, Inhabited

namespace Event

def info (origin : Origin) (text : String) : Event := .log ⟨.info, origin, text⟩

def debug (origin : Origin) (text : String) : Event := .log ⟨.debug, origin, text⟩

/-- The part of the error stream that is not log. -/
def printed (events : List Event) : String :=
  String.join (events.map fun
    | .print text => text
    | .log _ => "")

/-- The log alone. -/
def records (events : List Event) : List LogRecord :=
  events.filterMap fun
    | .log record => some record
    | .print _ => none

/-- The error stream, with the log in it or without. -/
def stream (verbose : Bool) (events : List Event) : String :=
  String.join (events.map fun
    | .print text => text
    | .log record => if verbose then record.line else "")

end Event

end ScriptCheck
