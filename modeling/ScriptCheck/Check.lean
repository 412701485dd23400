import ScriptCheck.Scope
import ScriptCheck.Diagnostic
import ScriptCheck.Order

/-!
# Checking scripts

The procedures of a script are declared first, all of them, so that bodies may call
forward. Then each body is checked on its own, statement by statement, in a scope that
starts with the parameters and grows with each declaration. An expression that has a
complaint has the type `error`, which agrees with everything, so nothing is reported
because of it. All findings are kept; checking never stops early.
-/

namespace ScriptCheck

/-- What names mean at some place of a body. -/
structure Env where
  globals : GlobalTable
  scope : LocalScope

/-- A mismatch, unless the types agree. -/
def expectType (expected actual : Ty) (span : Span) : List Finding :=
  if actual.agrees expected then [] else [⟨.mismatch expected actual, span⟩]

/-- The type of a name, and a complaint if it has none. -/
def Env.resolve (env : Env) (name : String) (span : Span) : Ty × List Finding :=
  match env.scope.lookup name with
  | some b => (b.type, [])
  | none => (.error, [⟨.unknown name, span⟩])

/-- What a call means before its arguments are looked at: the types to expect of
them, the type of the call, and complaints about the callee or the argument count. -/
def Env.callee (env : Env) (callee : Ident) (provided : Nat) (span : Span) :
    List Ty × Ty × List Finding :=
  match env.globals.lookup callee.name with
  | none => ([], .error, [⟨.unknown callee.name, callee.span⟩])
  | some sig =>
    (sig.types, sig.returns,
      if sig.types.length = provided then [] else [⟨.argCount sig.types.length provided, span⟩])

/-- The type of an operator application, and a complaint about the operand at fault. -/
def operatorType (result : Except OperandMismatch Ty) (place : Operand → Span) :
    Ty × List Finding :=
  match result with
  | .ok t => (t, [])
  | .error m => (.error, expectType m.expected m.actual (place m.operand))

mutual

/-- The type of an expression and the findings inside it. -/
def Env.infer (env : Env) : Expr → Ty × List Finding
  | .int _ _ => (.int32, [])
  | .bool _ _ => (.bool, [])
  | .var name span => env.resolve name span
  | .call callee args callSpan _ =>
    let (types, result, found) := env.callee callee args.length callSpan
    (result, found ++ env.inferArgs types args)
  | .binary op left right _ =>
    let (leftType, inLeft) := env.infer left
    let (rightType, inRight) := env.infer right
    if leftType.isError || rightType.isError then
      (.error, inLeft ++ inRight)
    else
      let (t, found) := operatorType (op.resultType leftType rightType) fun
        | .right => right.span
        | _ => left.span
      (t, inLeft ++ inRight ++ found)
  | .unary op operand _ =>
    let (operandType, inside) := env.infer operand
    if operandType.isError then
      (.error, inside)
    else
      let (t, found) := operatorType (op.resultType operandType) fun _ => operand.span
      (t, inside ++ found)

/-- The findings in arguments and between them and the expected types. Arguments that
no type is expected of are looked at all the same. -/
def Env.inferArgs (env : Env) (types : List Ty) : List Expr → List Finding
  | [] => []
  | arg :: args =>
    let (t, found) := env.infer arg
    let fit := match types with
      | [] => []
      | expected :: _ => expectType expected t arg.span
    found ++ fit ++ env.inferArgs types.tail args

end

/-- The findings of an expression that must have the expected type. -/
def Env.expect (env : Env) (expected : Ty) (e : Expr) : List Finding :=
  let (t, found) := env.infer e
  found ++ expectType expected t e.span

/-- A scope with one more name, and a complaint if the name is taken. -/
def LocalScope.declare (scope : LocalScope) (name : String) (b : Binding) :
    LocalScope × List Finding :=
  match scope.define name b with
  | .ok scope' => (scope', [])
  | .error dup => (scope, [⟨.duplicate name dup.kind, dup.span⟩])

/-- How far the check of a body has come. -/
structure Progress where
  scope : LocalScope
  returns : Nat

/-- The scope after a statement, the returns up to it, and its findings. Only the
second return of a body is one too many; later ones are not reported again. -/
def Progress.step (globals : GlobalTable) (expected : Ty) (p : Progress) (stmt : Stmt) :
    Progress × List Finding :=
  let env : Env := ⟨globals, p.scope⟩
  match stmt with
  | .declare target type init _ =>
    let found := match init with
      | none => []
      | some e => env.expect type e
    let (scope, dup) := p.scope.declare target.name ⟨.var, type, target.span⟩
    (⟨scope, p.returns⟩, found ++ dup)
  | .assign target value _ =>
    let (type, missing) := env.resolve target.name target.span
    (p, missing ++ env.expect type value)
  | .call c _ =>
    let (types, _, found) := env.callee c.callee c.args.length c.span
    (p, found ++ env.inferArgs types c.args)
  | .ret value span =>
    let surplus := if p.returns = 1 then [⟨.returnCount 1, span⟩] else []
    let found := match value with
      | none => expectType expected .void span
      | some e => env.expect expected e
    (⟨p.scope, p.returns + 1⟩, surplus ++ found)

/-- The findings of statements in a row, and where they lead. -/
def Progress.run (globals : GlobalTable) (expected : Ty) (p : Progress) :
    List Stmt → Progress × List Finding
  | [] => (p, [])
  | stmt :: stmts =>
    let (p', found) := p.step globals expected stmt
    let (last, more) := Progress.run globals expected p' stmts
    (last, found ++ more)

/-- The scope that parameters make, and complaints about repeated ones. -/
def LocalScope.declareParams (scope : LocalScope) : List Param → LocalScope × List Finding
  | [] => (scope, [])
  | p :: ps =>
    let (scope', found) := scope.declare p.name ⟨.param, p.type, p.span⟩
    let (last, more) := LocalScope.declareParams scope' ps
    (last, found ++ more)

/-- The findings inside a procedure, given the procedures of its script. -/
def Procedure.findings (globals : GlobalTable) (p : Procedure) : List Finding :=
  let (scope, repeated) := LocalScope.declareParams .empty p.params
  let (last, found) := Progress.run globals p.returns ⟨scope, 0⟩ p.body
  let missing :=
    if last.returns = 0 ∧ p.returns ≠ .void then [⟨.returnCount 1, p.name.span⟩] else []
  repeated ++ found ++ missing

/-- The table that procedures make, and complaints about repeated names. -/
def GlobalTable.declareAll (globals : GlobalTable) :
    List Procedure → GlobalTable × List Finding
  | [] => (globals, [])
  | p :: ps =>
    let (globals', found) : GlobalTable × List Finding :=
      match globals.define p.name.name p.signature with
      | .ok more => (more, [])
      | .error dup => (globals, [⟨.duplicate dup.name .proc, dup.span⟩])
    let (last, more) := GlobalTable.declareAll globals' ps
    (last, found ++ more)

namespace Script

/-- The procedures that calls refer to. -/
def globals (s : Script) : GlobalTable := (GlobalTable.declareAll .empty s.procedures).1

/-- The findings about declared procedure names. -/
def repeated (s : Script) : List Finding := (GlobalTable.declareAll .empty s.procedures).2

/-- All findings in the order they are made: first those about procedure names, then
those of each procedure. -/
def findings (s : Script) : List Finding :=
  s.repeated ++ s.procedures.flatMap (Procedure.findings s.globals)

end Script

/-- A script in which nothing was found. -/
structure CheckedScript where
  script : Script
  clean : script.findings = []

/-- The script itself if nothing is wrong with it, else all findings in the order of
the text. -/
def Script.check (s : Script) : Except (List Finding) CheckedScript :=
  if h : s.findings = [] then .ok ⟨s, h⟩
  else .error (Order.sort (·.span.start) s.findings)

end ScriptCheck
