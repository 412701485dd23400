import ScriptCheck.Token

/-!
# Syntax errors

Reading a script collects faults: characters that begin no token, and places where
the grammar wanted something else. A fault is a cause and a span; its wording is
fixed here and nowhere else.
-/

namespace ScriptCheck

/-- How deep expressions may nest. -/
def nestingLimit : Nat := 64

/-- What the grammar looks for at some place. -/
inductive Wanted where
  | token (t : Token)
  | identifier
  | type
  | statement
  | assignOrCall
  | expression
deriving DecidableEq, Inhabited

def Wanted.describe : Wanted → String
  | .token t => t.describe
  | .identifier => "identifier"
  | .type => "type"
  | .statement => "statement"
  | .assignOrCall => "':=' or '(' after identifier"
  | .expression => "expression"

/-- Why a text is not a script. -/
inductive Cause where
  | stray (char : Char)
  | unexpected (wanted : Wanted) (found : Option Token)
  | tooDeep
  | outOfRange (literal : String)
deriving DecidableEq, Inhabited

def Cause.describe : Cause → String
  | .stray char => s!"unexpected character '{char}'"
  | .unexpected wanted found => s!"expected {wanted.describe}, found {Token.describe? found}"
  | .tooDeep => s!"expression nested deeper than {nestingLimit} levels"
  | .outOfRange literal => s!"integer literal '{literal}' does not fit in Int32"

/-- A cause and its place. -/
structure Fault where
  cause : Cause
  span : Span
deriving DecidableEq, Inhabited

namespace Fault

/-- Is it about a character, and not about the order of tokens? -/
def isLexical (f : Fault) : Bool :=
  match f.cause with
  | .stray _ => true
  | _ => false

def message (f : Fault) : String := f.cause.describe

/-- The part of reading that found the fault. -/
def stage (f : Fault) : String := if f.isLexical then "Lexer" else "Parser"

/-- The one-line form, with the byte range. -/
def describe (f : Fault) : String :=
  s!"{f.stage} error at {f.span.describe}: {f.message}"

end Fault

end ScriptCheck
