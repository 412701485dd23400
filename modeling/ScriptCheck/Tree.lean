import ScriptCheck.Operator

/-!
# Syntax trees

A script is a list of procedures, a procedure a list of statements. Parentheses
leave no node; they widen the span of the expression inside. A call that stands in
an expression therefore has two spans: that of the expression, and that of the call
itself, from the callee to its closing parenthesis.
-/

namespace ScriptCheck

/-- A name as it stands in the text. -/
structure Ident where
  name : String
  span : Span
deriving DecidableEq, Inhabited

inductive Expr where
  | int (value : Int) (span : Span)
  | bool (value : Bool) (span : Span)
  | var (name : String) (span : Span)
  | call (callee : Ident) (args : List Expr) (callSpan : Span) (span : Span)
  | binary (op : BinaryOp) (left right : Expr) (span : Span)
  | unary (op : UnaryOp) (operand : Expr) (span : Span)
deriving Inhabited

namespace Expr

/-- Where an expression stands, parentheses around it included. -/
def span : Expr → Span
  | .int _ s | .bool _ s | .var _ s | .call _ _ _ s | .binary _ _ _ s | .unary _ _ s => s

/-- The same expression with another span; nothing inside changes. -/
def withSpan (s : Span) : Expr → Expr
  | .int value _ => .int value s
  | .bool value _ => .bool value s
  | .var name _ => .var name s
  | .call callee args callSpan _ => .call callee args callSpan s
  | .binary op left right _ => .binary op left right s
  | .unary op operand _ => .unary op operand s

@[simp] theorem span_withSpan (s : Span) (e : Expr) : (e.withSpan s).span = s := by
  cases e <;> rfl

/-- An operator between two expressions covers both. -/
def join (op : BinaryOp) (left right : Expr) : Expr :=
  .binary op left right (left.span.merge right.span)

end Expr

/-- A call that stands as a statement. -/
structure Call where
  callee : Ident
  args : List Expr
  span : Span
deriving Inhabited

/-- A call as an expression; without parentheses around it both spans agree. -/
def Call.toExpr (c : Call) : Expr := .call c.callee c.args c.span c.span

inductive Stmt where
  | declare (target : Ident) (type : Ty) (init : Option Expr) (span : Span)
  | assign (target : Ident) (value : Expr) (span : Span)
  | call (call : Call) (span : Span)
  | ret (value : Option Expr) (span : Span)
deriving Inhabited

def Stmt.span : Stmt → Span
  | .declare _ _ _ s | .assign _ _ s | .call _ s | .ret _ s => s

/-- A formal parameter; its span runs from the name to the type. -/
structure Param where
  name : String
  type : Ty
  span : Span
deriving DecidableEq, Inhabited

structure Procedure where
  name : Ident
  params : List Param
  returns : Ty
  body : List Stmt
  span : Span
deriving Inhabited

structure Script where
  procedures : List Procedure
deriving Inhabited

/-- The declared names, in order and with repeats. -/
def Script.names (s : Script) : List String := s.procedures.map (·.name.name)

end ScriptCheck
