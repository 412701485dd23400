import ScriptCheck.Proofs.Scope
import ScriptCheck.Proofs.Tree.Moved

/-!
# Checking a script that stands elsewhere

The check of a script looks at names, types and numbers of arguments, never at places. It
only hands places on, to say where something was found. So a script whose spans are moved
has the same findings, each at its moved place and all in the order they are made, and it
has the same call graph.
-/
namespace ScriptCheck

def Finding.move (m : Move) (f : Finding) : Finding := ⟨f.problem, m f.span⟩

def Signature.move (m : Move) (sig : Signature) : Signature :=
  ⟨sig.name, sig.params.map (Param.move m), sig.returns, m sig.span⟩

def Binding.move (m : Move) (b : Binding) : Binding := ⟨b.kind, b.type, m b.span⟩

/-! ## Tables -/

namespace Table

variable {α : Type} (f : α → α) (t : Table α) (x : String) (a : α)

/-- The table with every entry changed by `f`, under the same names. -/
def map : Table α := ⟨t.entries.map fun (y, b) => (y, f b)⟩

theorem lookup_map : (t.map f).lookup x = (t.lookup x).map f := lookup_map_snd f t.entries x

/-- A definition is taken or refused whatever the entries are changed to. -/
theorem define_map : (t.map f).define x (f a) =
    match t.define x a with
    | .ok more => .ok (more.map f)
    | .error e => .error (f e) := by
  unfold define
  rw [lookup_map]
  cases t.lookup x with
  | some b => rfl
  | none => simp [map]

end Table

/-- What names mean at some place, with the places of their declarations moved. -/
def Env.move (m : Move) (env : Env) : Env :=
  ⟨env.globals.map (Signature.move m), env.scope.map (Binding.move m)⟩

/-- A type and findings, with the findings moved. -/
def Finding.moveTyped (m : Move) (r : Ty × List Finding) : Ty × List Finding :=
  (r.1, r.2.map (Finding.move m))

/-- Where the operands of an operator between two expressions stand. -/
def Expr.operandSpan (left right : Expr) : Operand → Span
  | .right => right.span
  | _ => left.span

section

variable {env : Env} {op : BinaryOp} {left right : Expr} (s : Span)

theorem Env.infer_binary_silent
    (h : ((env.infer left).1.isError || (env.infer right).1.isError) = true) :
    env.infer (.binary op left right s) =
      (.error, (env.infer left).2 ++ (env.infer right).2) := by
  rw [Env.infer]
  exact if_pos h

theorem Env.infer_binary
    (h : ((env.infer left).1.isError || (env.infer right).1.isError) = false) :
    env.infer (.binary op left right s) =
      let result := operatorType (op.resultType (env.infer left).1 (env.infer right).1)
        (left.operandSpan right)
      (result.1, (env.infer left).2 ++ (env.infer right).2 ++ result.2) := by
  rw [Env.infer]
  exact if_neg (by rw [h]; decide)

theorem Env.infer_unary_silent {op : UnaryOp} (h : (env.infer left).1.isError = true) :
    env.infer (.unary op left s) = (.error, (env.infer left).2) := by
  rw [Env.infer]
  exact if_pos h

theorem Env.infer_unary {op : UnaryOp} (h : (env.infer left).1.isError = false) :
    env.infer (.unary op left s) =
      let result := operatorType (op.resultType (env.infer left).1) fun _ => left.span
      (result.1, (env.infer left).2 ++ result.2) := by
  rw [Env.infer]
  exact if_neg (by rw [h]; decide)

end

section

variable (m : Move)

/-! ## Expressions -/

theorem expectType_move (expected actual : Ty) (s : Span) :
    expectType expected actual (m s) = (expectType expected actual s).map (Finding.move m) := by
  unfold expectType
  split <;> rfl

theorem Env.resolve_move (env : Env) (x : String) (s : Span) :
    (env.move m).resolve x (m s) = Finding.moveTyped m (env.resolve x s) := by
  have hlookup : (env.move m).scope.lookup x = (env.scope.lookup x).map (Binding.move m) :=
    Table.lookup_map _ _ _
  unfold Env.resolve
  rw [hlookup]
  cases env.scope.lookup x <;> rfl

theorem Signature.types_move (sig : Signature) : (sig.move m).types = sig.types := by
  show (sig.params.map (Param.move m)).map (·.type) = sig.params.map (·.type)
  rw [List.map_map]
  rfl

theorem Env.callee_move (env : Env) (callee : Ident) (provided : Nat) (s : Span) :
    (env.move m).callee (callee.move m) provided (m s) =
      ((env.callee callee provided s).1,
        Finding.moveTyped m (env.callee callee provided s).2) := by
  have hlookup : (env.move m).globals.lookup (callee.move m).name =
      (env.globals.lookup callee.name).map (Signature.move m) := Table.lookup_map _ _ _
  unfold Env.callee
  rw [hlookup]
  cases env.globals.lookup callee.name with
  | none => rfl
  | some sig =>
    simp only [Option.map_some, Signature.types_move, Finding.moveTyped]
    split <;> rfl

theorem operatorType_move (result : Except OperandMismatch Ty) {place place' : Operand → Span}
    (h : ∀ o, place' o = m (place o)) :
    operatorType result place' = Finding.moveTyped m (operatorType result place) := by
  unfold operatorType
  cases result with
  | ok t => rfl
  | error mismatch =>
    dsimp only
    rw [h, expectType_move]
    rfl

theorem Expr.operandSpan_move (left right : Expr) (o : Operand) :
    (left.move m).operandSpan (right.move m) o = m (left.operandSpan right o) := by
  cases o <;> exact Expr.span_move m _

mutual

theorem Env.infer_move (env : Env) : ∀ e : Expr,
    (env.move m).infer (e.move m) = Finding.moveTyped m (env.infer e)
  | .int _ _ => by
    rw [Expr.move, Env.infer, Env.infer]
    rfl
  | .bool _ _ => by
    rw [Expr.move, Env.infer, Env.infer]
    rfl
  | .var x s => by
    rw [Expr.move, Env.infer, Env.infer, Env.resolve_move]
  | .call callee args callSpan s => by
    have hlength : (Expr.moveAll m args).length = args.length := by
      rw [Expr.moveAll_eq_map, List.length_map]
    rw [Expr.move, Env.infer, Env.infer, hlength, Env.callee_move]
    simp only [Env.inferArgs_move env args, Finding.moveTyped, List.map_append]
  | .binary op left right s => by
    have hl := Env.infer_move env left
    have hr := Env.infer_move env right
    have hop := operatorType_move m
      (op.resultType (env.infer left).1 (env.infer right).1) (Expr.operandSpan_move m left right)
    cases herror : ((env.infer left).1.isError || (env.infer right).1.isError) with
    | true =>
      rw [Expr.move, Env.infer_binary_silent s herror,
        Env.infer_binary_silent _ (by rw [hl, hr]; exact herror), hl, hr]
      simp only [Finding.moveTyped, List.map_append]
    | false =>
      rw [Expr.move, Env.infer_binary s herror,
        Env.infer_binary _ (by rw [hl, hr]; exact herror), hl, hr]
      simp only [Finding.moveTyped, List.map_append] at hop ⊢
      rw [hop]
  | .unary op operand s => by
    have hoperand := Env.infer_move env operand
    have hop := operatorType_move m (op.resultType (env.infer operand).1)
      fun _ => Expr.span_move m operand
    cases herror : (env.infer operand).1.isError with
    | true =>
      rw [Expr.move, Env.infer_unary_silent s herror,
        Env.infer_unary_silent _ (by rw [hoperand]; exact herror), hoperand]
      rfl
    | false =>
      rw [Expr.move, Env.infer_unary s herror,
        Env.infer_unary _ (by rw [hoperand]; exact herror), hoperand]
      simp only [Finding.moveTyped, List.map_append] at hop ⊢
      rw [hop]

theorem Env.inferArgs_move (env : Env) : ∀ (args : List Expr) (types : List Ty),
    (env.move m).inferArgs types (Expr.moveAll m args) =
      (env.inferArgs types args).map (Finding.move m)
  | [], types => by
    rw [Expr.moveAll, Env.inferArgs, Env.inferArgs, List.map_nil]
  | arg :: args, types => by
    rw [Expr.moveAll, Env.inferArgs, Env.inferArgs, Env.infer_move env arg, Expr.span_move,
      Env.inferArgs_move env args]
    cases types with
    | nil => simp only [Finding.moveTyped, List.map_append, List.map_nil]
    | cons t types => simp only [Finding.moveTyped, expectType_move, List.map_append]

end

theorem Env.expect_move (env : Env) (expected : Ty) (e : Expr) :
    (env.move m).expect expected (e.move m) = (env.expect expected e).map (Finding.move m) := by
  simp only [Env.expect, Env.infer_move, Finding.moveTyped, Expr.span_move, expectType_move,
    List.map_append]

/-! ## Statements -/

theorem LocalScope.declare_move (scope : LocalScope) (x : String) (b : Binding) :
    LocalScope.declare (scope.map (Binding.move m)) x (b.move m) =
      ((scope.declare x b).1.map (Binding.move m), (scope.declare x b).2.map (Finding.move m)) := by
  unfold LocalScope.declare
  rw [Table.define_map]
  cases scope.define x b <;> rfl

theorem LocalScope.declareParams_move (scope : LocalScope) (ps : List Param) :
    LocalScope.declareParams (scope.map (Binding.move m)) (ps.map (Param.move m)) =
      ((scope.declareParams ps).1.map (Binding.move m),
        (scope.declareParams ps).2.map (Finding.move m)) := by
  induction ps generalizing scope with
  | nil => rfl
  | cons p ps ih =>
    have hp : LocalScope.declare (scope.map (Binding.move m)) (p.move m).name
        ⟨.param, (p.move m).type, (p.move m).span⟩ = _ :=
      LocalScope.declare_move m scope p.name ⟨.param, p.type, p.span⟩
    simp only [List.map_cons, LocalScope.declareParams, hp, ih, List.map_append]

def Progress.move (p : Progress) : Progress := ⟨p.scope.map (Binding.move m), p.returns⟩

theorem Progress.step_move (globals : GlobalTable) (expected : Ty) (p : Progress) (stmt : Stmt) :
    (p.move m).step (globals.map (Signature.move m)) expected (stmt.move m) =
      ((p.step globals expected stmt).1.move m,
        (p.step globals expected stmt).2.map (Finding.move m)) := by
  have hexpect (t : Ty) (e : Expr) :
      Env.expect ⟨globals.map (Signature.move m), (p.move m).scope⟩ t (e.move m) =
        (Env.expect ⟨globals, p.scope⟩ t e).map (Finding.move m) :=
    Env.expect_move m ⟨globals, p.scope⟩ t e
  cases stmt with
  | declare target t init s =>
    have hdeclare : LocalScope.declare (p.move m).scope (target.move m).name
        ⟨.var, t, (target.move m).span⟩ = _ :=
      LocalScope.declare_move m p.scope target.name ⟨.var, t, target.span⟩
    cases init with
    | none => simp only [Stmt.move, Option.map_none, Progress.step, hdeclare, List.nil_append]; rfl
    | some e =>
      simp only [Stmt.move, Option.map_some, Progress.step, hdeclare, hexpect, List.map_append]
      rfl
  | assign target value s =>
    have hresolve : Env.resolve ⟨globals.map (Signature.move m), (p.move m).scope⟩
        (target.move m).name (target.move m).span = _ :=
      Env.resolve_move m ⟨globals, p.scope⟩ target.name target.span
    simp only [Stmt.move, Progress.step, hresolve, hexpect, Finding.moveTyped, List.map_append]
  | call c s =>
    have hcallee : Env.callee ⟨globals.map (Signature.move m), (p.move m).scope⟩
        (c.callee.move m) c.args.length (m c.span) = _ :=
      Env.callee_move m ⟨globals, p.scope⟩ c.callee c.args.length c.span
    have hargs (types : List Ty) :
        Env.inferArgs ⟨globals.map (Signature.move m), (p.move m).scope⟩ types
          (c.args.map (Expr.move m)) = _ :=
      Expr.moveAll_eq_map m c.args ▸ Env.inferArgs_move m ⟨globals, p.scope⟩ c.args types
    simp only [Stmt.move, Call.move, Progress.step, List.length_map, hcallee, hargs,
      Finding.moveTyped, List.map_append]
  | ret value s =>
    have hsurplus :
        (if (p.move m).returns = 1 then [(⟨.returnCount 1, m s⟩ : Finding)] else []) =
          (if p.returns = 1 then [⟨.returnCount 1, s⟩] else []).map (Finding.move m) := by
      by_cases h : p.returns = 1
      · rw [if_pos h, if_pos (show (p.move m).returns = 1 from h)]
        rfl
      · rw [if_neg h, if_neg (show ¬(p.move m).returns = 1 from h)]
        rfl
    cases value with
    | none =>
      simp only [Stmt.move, Option.map_none, Progress.step, hsurplus, expectType_move,
        List.map_append]
      rfl
    | some e =>
      simp only [Stmt.move, Option.map_some, Progress.step, hsurplus, hexpect, List.map_append]
      rfl

theorem Progress.run_move (globals : GlobalTable) (expected : Ty) (p : Progress)
    (stmts : List Stmt) :
    Progress.run (globals.map (Signature.move m)) expected (p.move m) (stmts.map (Stmt.move m)) =
      ((Progress.run globals expected p stmts).1.move m,
        (Progress.run globals expected p stmts).2.map (Finding.move m)) := by
  induction stmts generalizing p with
  | nil => rfl
  | cons stmt stmts ih =>
    simp only [List.map_cons, Progress.run, Progress.step_move, ih, List.map_append]

/-! ## Procedures and scripts -/

theorem Procedure.findings_move (globals : GlobalTable) (p : Procedure) :
    (p.move m).findings (globals.map (Signature.move m)) =
      (p.findings globals).map (Finding.move m) := by
  have hparams : LocalScope.declareParams .empty (p.params.map (Param.move m)) = _ :=
    LocalScope.declareParams_move m .empty p.params
  have hbody (scope : LocalScope) : Progress.run (globals.map (Signature.move m)) p.returns
      ⟨scope.map (Binding.move m), 0⟩ (p.body.map (Stmt.move m)) = _ :=
    Progress.run_move m globals p.returns ⟨scope, 0⟩ p.body
  simp only [Procedure.findings, Procedure.move, hparams, hbody, Progress.move, List.map_append]
  split <;> rfl

theorem GlobalTable.declareAll_move (globals : GlobalTable) (ps : List Procedure) :
    GlobalTable.declareAll (globals.map (Signature.move m)) (ps.map (Procedure.move m)) =
      ((globals.declareAll ps).1.map (Signature.move m),
        (globals.declareAll ps).2.map (Finding.move m)) := by
  induction ps generalizing globals with
  | nil => rfl
  | cons p ps ih =>
    have hdefine : Table.define (globals.map (Signature.move m)) (p.move m).name.name
        (p.move m).signature = _ :=
      Table.define_map (Signature.move m) globals p.name.name p.signature
    rw [List.map_cons, GlobalTable.declareAll, GlobalTable.declareAll, hdefine]
    cases globals.define p.name.name p.signature with
    | ok more => simp only [ih, List.nil_append]
    | error dup => simp only [ih, List.map_append]; rfl

theorem Script.globals_move (s : Script) :
    (s.move m).globals = s.globals.map (Signature.move m) :=
  congrArg Prod.fst (GlobalTable.declareAll_move m .empty s.procedures)

theorem Script.repeated_move (s : Script) :
    (s.move m).repeated = s.repeated.map (Finding.move m) :=
  congrArg Prod.snd (GlobalTable.declareAll_move m .empty s.procedures)

/-- The same is found in a moved script, at the moved places and in the same order. -/
theorem Script.findings_move (s : Script) :
    (s.move m).findings = s.findings.map (Finding.move m) := by
  have hbodies : (s.move m).procedures.flatMap (Procedure.findings (s.move m).globals) =
      (s.procedures.flatMap (Procedure.findings s.globals)).map (Finding.move m) := by
    rw [Script.globals_move, Script.move, List.flatMap_map, List.map_flatMap]
    exact congrArg (List.flatMap · s.procedures)
      (funext fun p => Procedure.findings_move m s.globals p)
  rw [Script.findings, Script.findings, Script.repeated_move, hbodies, List.map_append]

/-! ## Call graphs -/

mutual

theorem Expr.callees_move : ∀ e : Expr, (e.move m).callees = e.callees
  | .int _ _ | .bool _ _ | .var _ _ => rfl
  | .call callee args callSpan s => by
    rw [Expr.move, Expr.callees, Expr.callees, Expr.calleesAll_move args]
    rfl
  | .binary op left right s => by
    rw [Expr.move, Expr.callees, Expr.callees, left.callees_move, right.callees_move]
  | .unary op operand s => by
    rw [Expr.move, Expr.callees, Expr.callees, operand.callees_move]

theorem Expr.calleesAll_move :
    ∀ es : List Expr, Expr.calleesAll (Expr.moveAll m es) = Expr.calleesAll es
  | [] => rfl
  | e :: es => by
    rw [Expr.moveAll, Expr.calleesAll, Expr.calleesAll, e.callees_move, Expr.calleesAll_move es]

end

theorem Stmt.callees_move (stmt : Stmt) : (stmt.move m).callees = stmt.callees := by
  cases stmt with
  | declare target t init s =>
    cases init with
    | none => rfl
    | some e => exact e.callees_move m
  | assign target value s => exact value.callees_move m
  | call c s =>
    show c.callee.name :: Expr.calleesAll (c.args.map (Expr.move m)) = _
    rw [← Expr.moveAll_eq_map, Expr.calleesAll_move]
    rfl
  | ret value s =>
    cases value with
    | none => rfl
    | some e => exact e.callees_move m

theorem CallGraph.addCalls_move (g : CallGraph) (p : Procedure) :
    g.addCalls (p.move m) = g.addCalls p := by
  have hcallees : (p.move m).callees = p.callees := by
    show (p.body.map (Stmt.move m)).flatMap Stmt.callees = p.body.flatMap Stmt.callees
    rw [List.flatMap_map]
    exact congrArg (List.flatMap · p.body) (funext (Stmt.callees_move m))
  unfold CallGraph.addCalls
  rw [hcallees]
  rfl

/-- A moved script has the same call graph. -/
theorem CallGraph.ofScript_move (s : Script) : ofScript (s.move m) = ofScript s := by
  unfold ofScript ofDeclarations
  rw [Script.move, List.foldl_map, List.foldl_map]
  exact congrArg (List.foldl · _ s.procedures)
    (funext fun g => funext fun p => CallGraph.addCalls_move m g p)

end

end ScriptCheck
