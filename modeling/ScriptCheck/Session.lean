import ScriptCheck.Analysis
import ScriptCheck.CallGraph.Dot
import ScriptCheck.Files

/-!
# Sessions

A session holds the source at hand and the last call graph that was built. Every check
starts from the source alone, so nothing is carried over from earlier ones.
-/

namespace ScriptCheck

/-- The state between two requests. -/
structure Session where
  options : Options
  source : Option Source
  graph : Option CallGraph

/-- Why a request cannot be met. -/
inductive SessionError where
  | noSource
  | noGraph
  | invalidScript (count : Nat)
  | cannotWrite (path : String) (cause : FileError)
deriving DecidableEq, Inhabited

def SessionError.describe : SessionError → String
  | .noSource => "no script source has been set"
  | .noGraph => "no call graph has been built"
  | .invalidScript count => s!"script has {count} diagnostic(s); no call graph can be built"
  | .cannotWrite path cause => s!"cannot write '{path}': {cause.describe}"

/-- The result of a request, and what was written meanwhile. -/
structure Reply (α : Type) where
  result : Except SessionError α
  events : List Event

namespace Session

def start (options : Options) : Session := ⟨options, none, none⟩

def setSource (s : Session) (source : Source) : Session := { s with source := some source }

def removeSource (s : Session) : Session := { s with source := none }

/-- Analyzes the source at hand. -/
def check (s : Session) : Reply Verdict :=
  match s.source with
  | none => ⟨.error .noSource, []⟩
  | some source => ⟨.ok source.analyze, Trace.ofAnalysis s.options source⟩

/-- Analyzes the source at hand and builds its call graph. -/
def buildGraph (s : Session) : Reply CallGraph :=
  let checked := s.check
  match checked.result with
  | .error e => ⟨.error e, checked.events⟩
  | .ok (.error ds) => ⟨.error (.invalidScript ds.length), checked.events⟩
  | .ok (.ok script) =>
    ⟨.ok script.callGraph,
      checked.events ++ .info .session "building call graph..." ::
        Trace.ofGraph script.script⟩

/-- Keeps a graph that was built. -/
def keep (s : Session) (reply : Reply CallGraph) : Session :=
  match reply.result with
  | .ok graph => { s with graph := some graph }
  | .error _ => s

end Session

/-- Writes a call graph to a file. -/
def CallGraph.write {m : Type → Type} [Monad m] (files : FileAccess m) (graph : CallGraph)
    (path title : String) : m (Reply Unit) := do
  match ← files.write path (Dot.render graph title) with
  | .ok () => return ⟨.ok (), [.info .session s!"call graph written to {path}"]⟩
  | .error cause => return ⟨.error (.cannotWrite path cause), []⟩

/-- Writes the last call graph to a file. -/
def Session.saveGraph {m : Type → Type} [Monad m] (files : FileAccess m) (s : Session)
    (path title : String) : m (Reply Unit) :=
  match s.graph with
  | none => return ⟨.error .noGraph, []⟩
  | some graph => graph.write files path title

end ScriptCheck
