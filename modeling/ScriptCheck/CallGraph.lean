import ScriptCheck.Check
import ScriptCheck.Digraph

/-!
# Call graphs

The graph of a script has its procedures as vertices, in the order of declaration,
and one edge per call. The calls of a procedure come in the order of the text, a call
before those in its arguments.
-/

namespace ScriptCheck

/-- A procedure as a vertex. -/
structure ProcNode where
  name : String
deriving DecidableEq, Inhabited

/-- The name followed by the sign of a call. -/
def ProcNode.describe (n : ProcNode) : String := s!"{n.name}(..)"

instance : ToString ProcNode := ⟨ProcNode.describe⟩

abbrev CallGraph := Digraph ProcNode

mutual

/-- The names that an expression calls, one per call. -/
def Expr.callees : Expr → List String
  | .int _ _ | .bool _ _ | .var _ _ => []
  | .call callee args _ _ => callee.name :: Expr.calleesAll args
  | .binary _ left right _ => left.callees ++ right.callees
  | .unary _ operand _ => operand.callees

/-- The names that expressions call, one after the other. -/
def Expr.calleesAll : List Expr → List String
  | [] => []
  | e :: es => e.callees ++ Expr.calleesAll es

end

/-- The names that a statement calls. -/
def Stmt.callees : Stmt → List String
  | .declare _ _ none _ => []
  | .declare _ _ (some e) _ => e.callees
  | .assign _ value _ => value.callees
  | .call c _ => c.callee.name :: Expr.calleesAll c.args
  | .ret none _ => []
  | .ret (some e) _ => e.callees

/-- The names that a procedure calls, one per call. -/
def Procedure.callees (p : Procedure) : List String := p.body.flatMap Stmt.callees

/-- The vertex of a procedure. -/
def Procedure.node (p : Procedure) : ProcNode := ⟨p.name.name⟩

namespace CallGraph

/-- A graph with one more edge per name that a procedure calls. -/
def addCalls (g : CallGraph) (p : Procedure) : CallGraph :=
  p.callees.foldl (fun g callee => g.addEdge p.node ⟨callee⟩) g

/-- The vertices of a script without any edge. -/
def ofDeclarations (s : Script) : CallGraph :=
  s.procedures.foldl (fun g p => g.addVertex p.node) .empty

/-- The calls of a script. -/
def ofScript (s : Script) : CallGraph := s.procedures.foldl addCalls (ofDeclarations s)

end CallGraph

/-- The calls of a checked script. -/
def CheckedScript.callGraph (c : CheckedScript) : CallGraph := .ofScript c.script

end ScriptCheck
