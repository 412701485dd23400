import ScriptCheck.Tree
import ScriptCheck.Outline

/-!
# Outlines of syntax trees

Every node is a record of its kind and span; names in it come from a text that was read,
so they need no escapes between quotes.
-/

namespace ScriptCheck

def Span.outline (s : Span) : Outline :=
  .record "Span" [("start", .word (toString s.start)), ("end", .word (toString s.stop))]

def Ty.outline (t : Ty) : Outline := .word t.describe

def BinaryOp.outline : BinaryOp → Outline
  | .add => .word "Add"
  | .sub => .word "Sub"
  | .mul => .word "Mul"
  | .div => .word "Div"
  | .mod => .word "Mod"
  | .eq => .word "Eq"
  | .ne => .word "Ne"
  | .lt => .word "Lt"
  | .le => .word "Le"
  | .gt => .word "Gt"
  | .ge => .word "Ge"
  | .and => .word "And"
  | .or => .word "Or"

def UnaryOp.outline : UnaryOp → Outline
  | .neg => .word "Neg"
  | .not => .word "Not"

/-- A node of a kind at a place. -/
def Outline.node (name : String) (kind : Outline) (span : Span) : Outline :=
  .record name [("kind", kind), ("span", span.outline)]

/-- A call, with its arguments already outlined. -/
def Outline.call (callee : Ident) (args : List Outline) (span : Span) : Outline :=
  .record "Call"
    [("callee", .text callee.name), ("callee_span", callee.span.outline),
     ("args", .list args), ("span", span.outline)]

mutual

def Expr.outline : Expr → Outline
  | .int value span => .node "Expr" (.group "IntLiteral" (.word (toString value))) span
  | .bool value span => .node "Expr" (.group "BoolLiteral" (.word (toString value))) span
  | .var name span => .node "Expr" (.group "Identifier" (.text name)) span
  | .call callee args callSpan span =>
    .node "Expr" (.group "Call" (.call callee (Expr.outlines args) callSpan)) span
  | .binary op left right span =>
    .node "Expr"
      (.record "Binary" [("op", op.outline), ("left", left.outline), ("right", right.outline)])
      span
  | .unary op operand span =>
    .node "Expr" (.record "Unary" [("op", op.outline), ("operand", operand.outline)]) span

def Expr.outlines : List Expr → List Outline
  | [] => []
  | e :: es => e.outline :: Expr.outlines es

end

def Stmt.outline : Stmt → Outline
  | .declare target type init span =>
    .node "Stmt"
      (.record "VarDecl"
        [("name", .text target.name), ("name_span", target.span.outline),
         ("ty", type.outline), ("init", .option (init.map Expr.outline))])
      span
  | .assign target value span =>
    .node "Stmt"
      (.record "Assign"
        [("target", .text target.name), ("target_span", target.span.outline),
         ("value", value.outline)])
      span
  | .call c span =>
    .node "Stmt" (.group "Call" (.call c.callee (Expr.outlines c.args) c.span)) span
  | .ret value span =>
    .node "Stmt" (.group "Return" (.option (value.map Expr.outline))) span

def Param.outline (p : Param) : Outline :=
  .record "ParamDecl"
    [("name", .text p.name), ("ty", p.type.outline), ("span", p.span.outline)]

def Procedure.outline (p : Procedure) : Outline :=
  .record "ProcDecl"
    [("name", .text p.name.name), ("name_span", p.name.span.outline),
     ("params", .list (p.params.map Param.outline)), ("return_type", p.returns.outline),
     ("body", .list (p.body.map Stmt.outline)), ("span", p.span.outline)]

def Script.outline (s : Script) : Outline :=
  .record "Script" [("procedures", .list (s.procedures.map Procedure.outline))]

end ScriptCheck
