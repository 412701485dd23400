import ScriptCheck.Tree

/-!
# The rules of well-typed scripts

What a correct script is, said without a checker: no findings, no order of checking and no
type for faulty expressions. Names in a body are judged by position. A statement sees the
parameters and the variables that statements before it declare, so an initializer does
not see its own variable; calls see all procedures of the script, earlier and later ones.
-/
namespace ScriptCheck

/-- The operator table: `op.Takes left right result`. -/
inductive BinaryOp.Takes : BinaryOp → Ty → Ty → Ty → Prop where
  | arithmetic {op : BinaryOp} (h : op ∈ [.add, .sub, .mul, .div, .mod]) :
      Takes op .int32 .int32 .int32
  | ordering {op : BinaryOp} (h : op ∈ [.lt, .le, .gt, .ge]) : Takes op .int32 .int32 .bool
  | equality {op : BinaryOp} {t : Ty} (h : op ∈ [.eq, .ne]) (ht : t ≠ .void) : Takes op t t .bool
  | logical {op : BinaryOp} (h : op ∈ [.and, .or]) : Takes op .bool .bool .bool

inductive UnaryOp.Takes : UnaryOp → Ty → Ty → Prop where
  | neg : Takes .neg .int32 .int32
  | not : Takes .not .bool .bool

/-- The parameters and variables that can be used somewhere, with their declared types. -/
abbrev Context := List (String × Ty)

mutual

/-- In a script of these procedures, where these names can be used, the expression has the
type. -/
inductive HasType (procedures : List Procedure) (names : Context) : Expr → Ty → Prop where
  | int (value : Int) (s : Span) : HasType procedures names (.int value s) .int32
  | bool (value : Bool) (s : Span) : HasType procedures names (.bool value s) .bool
  | var {x : String} {t : Ty} (s : Span) (h : (x, t) ∈ names) :
      HasType procedures names (.var x s) t
  | call {callee : Ident} {args : List Expr} {p : Procedure} (callSpan s : Span)
      (hp : p ∈ procedures) (hname : p.name.name = callee.name)
      (hargs : HaveTypes procedures names args (p.params.map (·.type))) :
      HasType procedures names (.call callee args callSpan s) p.returns
  | binary {op : BinaryOp} {left right : Expr} {t u result : Ty} (s : Span)
      (hleft : HasType procedures names left t) (hright : HasType procedures names right u)
      (hop : op.Takes t u result) : HasType procedures names (.binary op left right s) result
  | unary {op : UnaryOp} {operand : Expr} {t result : Ty} (s : Span)
      (hoperand : HasType procedures names operand t) (hop : op.Takes t result) :
      HasType procedures names (.unary op operand s) result

/-- As many expressions as types, each of its type. -/
inductive HaveTypes (procedures : List Procedure) (names : Context) :
    List Expr → List Ty → Prop where
  | nil : HaveTypes procedures names [] []
  | cons {e : Expr} {t : Ty} {es : List Expr} {ts : List Ty}
      (he : HasType procedures names e t) (hes : HaveTypes procedures names es ts) :
      HaveTypes procedures names (e :: es) (t :: ts)

end

/-- A statement of a procedure that returns `returns`. -/
inductive Stmt.WellTyped (procedures : List Procedure) (names : Context) (returns : Ty) :
    Stmt → Prop where
  | declare {target : Ident} {type : Ty} {init : Option Expr} (s : Span)
      (h : ∀ e ∈ init, HasType procedures names e type) :
      WellTyped procedures names returns (.declare target type init s)
  | assign {target : Ident} {value : Expr} {t : Ty} (s : Span) (htarget : (target.name, t) ∈ names)
      (hvalue : HasType procedures names value t) :
      WellTyped procedures names returns (.assign target value s)
  | call {c : Call} {t : Ty} (s : Span) (h : HasType procedures names c.toExpr t) :
      WellTyped procedures names returns (.call c s)
  | bareReturn (s : Span) (h : returns = .void) : WellTyped procedures names returns (.ret none s)
  | valueReturn {e : Expr} (s : Span) (h : HasType procedures names e returns) :
      WellTyped procedures names returns (.ret (some e) s)

/-- The variable that a statement declares. -/
def Stmt.declared? : Stmt → Option (String × Ty)
  | .declare target type _ _ => some (target.name, type)
  | _ => none

def Stmt.isReturn : Stmt → Bool
  | .ret _ _ => true
  | _ => false

namespace Procedure

/-- The parameters, and the variables of the given statements. -/
def namesAfter (p : Procedure) (before : List Stmt) : Context :=
  p.params.map (fun q => (q.name, q.type)) ++ before.filterMap Stmt.declared?

/-- A procedure that is in order, within a script of these procedures. -/
structure WellTyped (procedures : List Procedure) (p : Procedure) : Prop where
  distinct : ((p.namesAfter p.body).map (·.1)).Nodup
  stmts : ∀ before stmt after, p.body = before ++ stmt :: after →
    stmt.WellTyped procedures (p.namesAfter before) p.returns
  atMostOneReturn : p.body.countP Stmt.isReturn ≤ 1
  oneReturn : p.returns ≠ .void → p.body.countP Stmt.isReturn = 1

/-- The types that a procedure declares: its own, those of its parameters and those of its
variables. -/
def declaredTypes (p : Procedure) : List Ty :=
  p.returns :: (p.namesAfter p.body).map (·.2)

end Procedure

namespace Script

/-- A script that is in order. -/
structure WellTyped (s : Script) : Prop where
  distinct : s.names.Nodup
  procedures : ∀ p ∈ s.procedures, p.WellTyped s.procedures

/-- No declaration uses the type of faulty expressions. -/
def Declarable (s : Script) : Prop := ∀ p ∈ s.procedures, .error ∉ p.declaredTypes

instance (s : Script) : Decidable s.Declarable :=
  inferInstanceAs (Decidable (∀ p ∈ s.procedures, .error ∉ p.declaredTypes))

end Script

end ScriptCheck
