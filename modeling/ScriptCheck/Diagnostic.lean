import ScriptCheck.Source
import ScriptCheck.Fault
import ScriptCheck.Ty

/-!
# Diagnostics

A problem says what is wrong, a finding where in the text, and a diagnostic gives the
place as lines and columns of a named source. The wording of problems is fixed here.
-/

namespace ScriptCheck

/-- What is wrong with a script. -/
inductive Problem where
  | malformed (message : String)
  | duplicate (name : String) (kind : SymbolKind)
  | unknown (name : String)
  | mismatch (expected actual : Ty)
  | argCount (expected provided : Nat)
  | returnCount (expected : Nat)
deriving DecidableEq, Inhabited

namespace Problem

/-- Did reading fail, so that nothing was checked? -/
def isMalformed : Problem → Bool
  | .malformed _ => true
  | _ => false

/-- The broad class of a problem. -/
def category (p : Problem) : String :=
  if p.isMalformed then "Parse error" else "Semantic error"

/-- The short name of the kind of problem. -/
def code : Problem → String
  | .malformed _ => "ParseError"
  | .duplicate _ _ => "DupSymbol"
  | .unknown _ => "NoSuchSymbol"
  | .mismatch _ _ => "TypeMismatch"
  | .argCount _ _ => "ArgCountMismatch"
  | .returnCount _ => "TooFewOrTooManyReturns"

/-- The one-line message about a problem at the described place. -/
def describe (place : String) : Problem → String
  | .malformed message => s!">> Parse Error ({place}) - {message}"
  | .duplicate name kind => s!">> Duplicate {kind.describe} symbol ({place}) - {name}"
  | .unknown name => s!">> No such symbol ({place}) - {name}"
  | .mismatch expected actual =>
    s!">> Type mismatch ({place}) - expected: {expected.describe}, but got: {actual.describe}"
  | .argCount expected provided =>
    s!">> Operation call too few args ({place}) - expected: {expected}, but got: {provided}"
  | .returnCount expected =>
    s!">> Too many or too few return statements ({place}) - expected: {expected} return statement"

/-- The text beside the marked source. -/
def label : Problem → String
  | .malformed message => message
  | .duplicate name kind => s!"duplicate {kind.describe} symbol '{name}'"
  | .unknown name => s!"no such symbol '{name}'"
  | .mismatch _ _ => "type mismatch"
  | .argCount expected provided => s!"expected {expected} argument(s), but got {provided}"
  | .returnCount expected => s!"expected {expected} return statement"

/-- What is said below the marked source, if anything. -/
def note? : Problem → Option String
  | .mismatch expected actual =>
    some s!"expected: {expected.describe}, but got: {actual.describe}"
  | _ => none

end Problem

/-- A problem and its place in the text. -/
structure Finding where
  problem : Problem
  span : Span
deriving DecidableEq, Inhabited

/-- A problem and its place in a named source. -/
structure Diagnostic where
  problem : Problem
  location : Location
deriving DecidableEq, Inhabited

def Diagnostic.message (d : Diagnostic) : String := d.problem.describe d.location.describe

/-- The finding in the terms of a source. -/
def Finding.locate (source : Source) (f : Finding) : Diagnostic :=
  ⟨f.problem, source.locate f.span⟩

/-- A fault as a finding. -/
def Fault.toFinding (f : Fault) : Finding := ⟨.malformed f.message, f.span⟩

end ScriptCheck
