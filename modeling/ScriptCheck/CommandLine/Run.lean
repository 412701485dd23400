import ScriptCheck.CommandLine.Arguments
import ScriptCheck.Session

/-!
# Running a command line

A run reads the input, analyzes it, and on success writes the call graph where it is asked
for. It ends with a status: zero, one if the input is unreadable, faulty or the graph
cannot be written, two if the arguments make no sense.
-/

namespace ScriptCheck.CommandLine

/-- What a run leaves, files apart. -/
structure Output where
  status : Nat
  stdout : String
  stderr : String
deriving DecidableEq, Inhabited

def versionText : String := "pie-analyzer 0.1.0\n"

def usageText : String := "Usage: pie-analyzer [OPTIONS] <INPUT>\n"

def helpText : String :=
  "Semantic analyzer and call graph builder for Piethon scripts\n\n" ++ usageText ++
  "\nArguments:\n" ++
  "  <INPUT>  Input script (.pie)\n" ++
  "\nOptions:\n" ++
  "  -o, --output <OUTPUT>  Write the call graph to this file (Graphviz DOT)\n" ++
  "      --title <TITLE>    Title of the exported graph (defaults to the input file name)\n" ++
  "  -s, --silent           Do not print diagnostics\n" ++
  "  -v, --verbose          Verbose output\n" ++
  "      --dump-tokens      Dump tokens (for debugging)\n" ++
  "      --dump-ast         Dump AST (for debugging)\n" ++
  "      --dump-graph       Print the call graph as DOT to stdout\n" ++
  "  -h, --help             Print help\n" ++
  "  -V, --version          Print version\n"

namespace Job

def options (job : Job) : Options :=
  ⟨job.has .silent, job.has .dumpTokens, job.has .dumpTree⟩

/-- The title of the graph: the one given, or the name of the input. -/
def graphTitle? (job : Job) : Option String := job.title? <|> Path.stem? job.input

/-- The output of a run with these events, in which a fatal error comes last. -/
def close (job : Job) (status : Nat) (stdout : String) (events : List Event) : Output :=
  ⟨status, stdout, Event.stream (job.has .verbose) events⟩

/-- A fatal error with its causes, the nearest first. -/
def fatal (causes : List String) : Event :=
  .print ("error: " ++ ": ".intercalate causes ++ "\n")

/-- Prints and writes the call graph as asked for. -/
def deliver {m : Type → Type} [Monad m] (files : FileAccess m) (job : Job) (script : Script)
    (title : String) (events : List Event) : m Output := do
  let graph := CallGraph.ofScript script
  let stdout := if job.has .dumpGraph then Dot.render graph title else ""
  match job.output? with
  | none => return job.close 0 stdout events
  | some path =>
    let reply ← graph.write files path title
    match reply.result with
    | .ok () => return job.close 0 stdout (events ++ reply.events)
    | .error (.cannotWrite path cause) =>
      let error := SessionError.cannotWrite path cause
      return job.close 1 stdout (events ++ [fatal [error.describe, cause.describe]])
    | .error error => return job.close 1 stdout (events ++ [fatal [error.describe]])

/-- Analyzes the text of the input. -/
def analyze {m : Type → Type} [Monad m] (files : FileAccess m) (job : Job) (text : String) :
    m Output := do
  let source : Source := ⟨job.input, text⟩
  let events := Trace.ofAnalysis job.options source
  match source.analyze with
  | .error ds =>
    let summary := if job.has .silent then
        [Event.print s!"{job.input}: {ds.length} diagnostic(s)\n"]
      else []
    return job.close 1 "" (events ++ summary)
  | .ok checked =>
    let script := checked.script
    let events := events ++
      [.info .command s!"{job.input}: no errors in {script.procedures.length} procedure(s)"]
    if job.output?.isNone && !job.has .dumpGraph then
      return job.close 0 "" events
    else
      let events := events ++ Trace.ofGraph script
      match job.graphTitle? with
      | some title => job.deliver files script title events
      | none =>
        return job.close 1 "" (events ++ [fatal [s!"cannot derive a graph title from '{job.input}'"]])

/-- Reads the input and analyzes it. -/
def run {m : Type → Type} [Monad m] (files : FileAccess m) (job : Job) : m Output := do
  let unreadable (cause : String) : Output :=
    job.close 1 "" [fatal [s!"cannot read '{job.input}'", cause]]
  match ← files.read job.input with
  | .error cause => return unreadable cause.describe
  | .ok bytes =>
    match String.fromUTF8? bytes with
    | none => return unreadable "stream did not contain valid UTF-8"
    | some text => job.analyze files text

end Job

/-- Does what the arguments ask for. -/
def run {m : Type → Type} [Monad m] (files : FileAccess m) (args : List String) : m Output :=
  match parse args with
  | .error error => return ⟨2, "", s!"error: {error.describe}\n\n{usageText}"⟩
  | .ok .help => return ⟨0, helpText, ""⟩
  | .ok .version => return ⟨0, versionText, ""⟩
  | .ok (.run job) => job.run files

end ScriptCheck.CommandLine
