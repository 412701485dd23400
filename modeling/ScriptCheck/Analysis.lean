import ScriptCheck.Reading.Script
import ScriptCheck.CallGraph
import ScriptCheck.Report
import ScriptCheck.Tree.Outline
import ScriptCheck.Event

/-!
# Analysis of a source

A source is read and, if it is a script, checked. The outcome is the checked script or
all diagnostics; it does not depend on what is printed meanwhile. The trace is what an
analysis writes: listings on request, the log, and reports of the diagnostics.
-/

namespace ScriptCheck

/-- What can be printed along with an analysis. -/
structure Options where
  silent : Bool := false
  dumpTokens : Bool := false
  dumpTree : Bool := false
deriving DecidableEq, Inhabited

/-- The outcome of an analysis. -/
abbrev Verdict := Except (List Diagnostic) CheckedScript

namespace Verdict

/-- The verdict on a script in the terms of its source. -/
def ofCheck (source : Source) : Except (List Finding) CheckedScript → Verdict
  | .ok checked => .ok checked
  | .error findings => .error (findings.map (Finding.locate source))

end Verdict

namespace Source

/-- Checks a tree that is said to come from this source. -/
def checkScript (source : Source) (script : Script) : Verdict :=
  .ofCheck source script.check

/-- Reads the text and checks the script in it. A text that is no script is not checked:
its diagnostics are the faults of reading alone. -/
def analyze (source : Source) : Verdict :=
  match Script.read source.text with
  | .ok script => source.checkScript script
  | .error faults => .error (faults.map fun f => f.toFinding.locate source)

end Source

namespace Trace

/-- The log of findings as they are made. -/
def ofFindings (source : Source) (findings : List Finding) : List Event :=
  findings.map fun f => .debug .check (f.locate source).message

/-- The log of checking a script. -/
def ofCheck (source : Source) (script : Script) : List Event :=
  let defined := script.procedures.length - script.repeated.length
  ofFindings source script.repeated ++
    [.debug .check s!"collected {defined} procedure signature(s)"] ++
    script.procedures.flatMap (fun p =>
      .debug .check s!"checking procedure '{p.name.name}'" ::
        ofFindings source (p.findings script.globals)) ++
    [.debug .check
      s!"checked {script.procedures.length} procedure(s) in '{source.name}': {script.findings.length} diagnostic(s)"]

/-- The log of building a call graph. -/
def ofGraph (script : Script) : List Event :=
  script.procedures.map fun p =>
    .debug .graph s!"'{p.name.name}' has {p.callees.length} call site(s)"

/-- The listing of a text's pieces. -/
def tokenDump (text : String) : String :=
  let line : Piece → String
    | .token l => l.listing
    | .stray c span => (⟨.stray c, span⟩ : Fault).describe
  "=== Tokens ===\n" ++ String.join ((Piece.scan text).map fun p => line p ++ "\n") ++
    "=== End Tokens ===\n\n"

/-- The listing of a syntax tree. -/
def treeDump (script : Script) : String :=
  "=== AST ===\n" ++ script.outline.print 0 ++ "\n=== End AST ===\n\n"

/-- What reading and checking write. -/
def ofReading (options : Options) (source : Source) : List Event :=
  match Script.read source.text with
  | .ok script =>
    (if options.dumpTree then [.print (treeDump script)] else []) ++
      [.info .session "checking..."] ++ ofCheck source script
  | .error faults =>
    [.debug .session s!"{faults.length} parse error(s); skipping semantic checks"]

/-- What the outcome of an analysis writes. -/
def ofVerdict (options : Options) (source : Source) : Verdict → List Event
  | .ok _ => []
  | .error ds =>
    .info .session s!"{ds.length} diagnostic(s)" ::
      if options.silent then [] else [.print (Report.renderAll source ds)]

/-- All that an analysis writes. -/
def ofAnalysis (options : Options) (source : Source) : List Event :=
  [.info .session s!"analyzing {source.name}"] ++
    (if options.dumpTokens then [.print (tokenDump source.text)] else []) ++
    [.info .session "parsing..."] ++
    ofReading options source ++ ofVerdict options source source.analyze

end Trace

end ScriptCheck
