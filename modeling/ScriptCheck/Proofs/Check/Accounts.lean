import ScriptCheck.Proofs.CallGraph
import ScriptCheck.Proofs.Check.Moved

/-!
# Where findings are made

Every finding of a body is made at one place: at a node of an expression, about its own name
or operands, at a statement, about its own name or place, or where an expression is used and a
type is expected of it. What is found in a statement is what is found at these places, and the
place of a statement is given by the statements before it.
-/
namespace ScriptCheck

/-! ## Members and those before them -/

section

variable {α β : Type}

/-- What `f` gives for each member of a list, from those before it and the member itself. -/
def flatMapAfter (f : List α → α → List β) (before : List α) : List α → List β
  | [] => []
  | x :: xs => f before x ++ flatMapAfter f (before ++ [x]) xs

theorem mem_flatMapAfter_iff {f : List α → α → List β} {before xs : List α} {y : β} :
    y ∈ flatMapAfter f before xs ↔
      ∃ front x back, xs = front ++ x :: back ∧ y ∈ f (before ++ front) x := by
  induction xs generalizing before with
  | nil => simp [flatMapAfter]
  | cons x xs ih =>
    rw [flatMapAfter, List.mem_append, ih]
    constructor
    · rintro (hy | ⟨front, x', back, rfl, hy⟩)
      · exact ⟨[], x, xs, rfl, by simpa using hy⟩
      · exact ⟨x :: front, x', back, rfl, by simpa using hy⟩
    · rintro ⟨front, x', back, hxs, hy⟩
      cases front with
      | nil =>
        cases hxs
        exact .inl (by simpa using hy)
      | cons x'' front =>
        cases hxs
        exact .inr ⟨front, x', back, rfl, by simpa using hy⟩

theorem filter_flatMapAfter (q : β → Bool) (f : List α → α → List β) (before xs : List α) :
    (flatMapAfter f before xs).filter q = flatMapAfter (fun b x => (f b x).filter q) before xs := by
  induction xs generalizing before with
  | nil => rfl
  | cons x xs ih => rw [flatMapAfter, flatMapAfter, List.filter_append, ih]

theorem flatMapAfter_perm {f g : List α → α → List β} (h : ∀ b x, (f b x).Perm (g b x))
    (before xs : List α) : (flatMapAfter f before xs).Perm (flatMapAfter g before xs) := by
  induction xs generalizing before with
  | nil => exact .refl _
  | cons x xs ih => exact (h before x).append (ih _)

theorem flatMapAfter_append (f : List α → α → List β) (before xs ys : List α) :
    flatMapAfter f before (xs ++ ys) =
      flatMapAfter f before xs ++ flatMapAfter f (before ++ xs) ys := by
  induction xs generalizing before with
  | nil => simp [flatMapAfter]
  | cons x xs ih => simp [flatMapAfter, ih]

end

/-! ## Expressions -/

/-- An expression where a type is expected of it. -/
structure Use where
  expected : Ty
  value : Expr

/-- The complaint about a value that does not have the expected type. -/
def Env.judge (env : Env) (use : Use) : List Finding :=
  expectType use.expected (env.infer use.value).1 use.value.span

/-- The arguments of a call that a type is expected of, as far as the callee has parameters. -/
def Env.argUses (env : Env) : Expr → List Use
  | .call callee args _ _ =>
    match env.globals.lookup callee.name with
    | some sig => List.zipWith Use.mk sig.types args
    | none => []
  | _ => []

/-- What is found at an operator, behind all that is found in its operands. -/
def Env.report (env : Env) : Expr → List Finding
  | .binary op left right s =>
    (env.infer (.binary op left right s)).2.drop ((env.infer left).2 ++ (env.infer right).2).length
  | .unary op operand s =>
    (env.infer (.unary op operand s)).2.drop (env.infer operand).2.length
  | _ => []

/-- What is found at a node of an expression. -/
def Env.own (env : Env) : Expr → List Finding
  | .var x s => (env.resolve x s).2
  | .call callee args callSpan s =>
    (env.callee callee args.length callSpan).2.2 ++
      (env.argUses (.call callee args callSpan s)).flatMap env.judge
  | e => env.report e

section

variable {env : Env} {op : BinaryOp} {left right : Expr} (s : Span)

theorem Env.report_binary_silent
    (h : ((env.infer left).1.isError || (env.infer right).1.isError) = true) :
    env.report (.binary op left right s) = [] := by
  rw [Env.report, Env.infer_binary_silent s h, List.drop_length]

theorem Env.report_binary
    (h : ((env.infer left).1.isError || (env.infer right).1.isError) = false) :
    env.report (.binary op left right s) =
      (operatorType (op.resultType (env.infer left).1 (env.infer right).1)
        (left.operandSpan right)).2 := by
  rw [Env.report, Env.infer_binary s h]
  exact List.drop_left

theorem Env.report_unary_silent {op : UnaryOp} (h : (env.infer left).1.isError = true) :
    env.report (.unary op left s) = [] := by
  rw [Env.report, Env.infer_unary_silent s h, List.drop_length]

theorem Env.report_unary {op : UnaryOp} (h : (env.infer left).1.isError = false) :
    env.report (.unary op left s) =
      (operatorType (op.resultType (env.infer left).1) fun _ => left.span).2 := by
  rw [Env.report, Env.infer_unary s h]
  exact List.drop_left

/-- Both operands are always looked at, and then the operator. -/
theorem Env.infer_binary_findings : (env.infer (.binary op left right s)).2 =
    (env.infer left).2 ++ (env.infer right).2 ++ env.report (.binary op left right s) := by
  cases h : (env.infer left).1.isError || (env.infer right).1.isError with
  | true => rw [Env.report_binary_silent s h, Env.infer_binary_silent s h, List.append_nil]
  | false => rw [Env.report_binary s h, Env.infer_binary s h]

theorem Env.infer_unary_findings {op : UnaryOp} : (env.infer (.unary op left s)).2 =
    (env.infer left).2 ++ env.report (.unary op left s) := by
  cases h : (env.infer left).1.isError with
  | true => rw [Env.report_unary_silent s h, Env.infer_unary_silent s h, List.append_nil]
  | false => rw [Env.report_unary s h, Env.infer_unary s h]

end

theorem Env.callee_types (env : Env) (callee : Ident) (args : List Expr) (callSpan s : Span) :
    List.zipWith Use.mk (env.callee callee args.length callSpan).1 args =
      env.argUses (.call callee args callSpan s) := by
  rw [Env.argUses, Env.callee]
  cases env.globals.lookup callee.name <;> rfl

mutual

/-- What is found in an expression is what is found at its nodes. -/
theorem Env.infer_perm (env : Env) : ∀ e : Expr,
    (env.infer e).2.Perm (e.nodes.flatMap env.own)
  | .int _ _ => .refl _
  | .bool _ _ => .refl _
  | .var x s => by
    rw [Env.infer, Expr.nodes, List.flatMap_cons, List.flatMap_nil, List.append_nil]
    exact .refl _
  | .call callee args callSpan s => by
    rw [Env.infer, Expr.nodes, List.flatMap_cons, Env.own, List.append_assoc,
      ← env.callee_types callee args callSpan s]
    exact (Env.inferArgs_perm env args _).append_left _
  | .binary op left right s => by
    rw [Env.infer_binary_findings, Expr.nodes, List.flatMap_cons, List.flatMap_append]
    exact (((Env.infer_perm env left).append (Env.infer_perm env right)).append_right _).trans
      List.perm_append_comm
  | .unary op operand s => by
    rw [Env.infer_unary_findings, Expr.nodes, List.flatMap_cons]
    exact ((Env.infer_perm env operand).append_right _).trans List.perm_append_comm

theorem Env.inferArgs_perm (env : Env) : ∀ (args : List Expr) (types : List Ty),
    (env.inferArgs types args).Perm
      ((List.zipWith Use.mk types args).flatMap env.judge ++
        (Expr.nodesAll args).flatMap env.own)
  | [], types => by
    rw [Env.inferArgs, List.zipWith_nil_right]
    exact .refl _
  | arg :: args, [] => by
    have hsplit : env.inferArgs [] (arg :: args) =
        (env.infer arg).2 ++ [] ++ env.inferArgs [] args := rfl
    rw [hsplit, List.append_nil, Expr.nodesAll, List.flatMap_append]
    exact (Env.infer_perm env arg).append (Env.inferArgs_perm env args [])
  | arg :: args, t :: types => by
    have hsplit : env.inferArgs (t :: types) (arg :: args) =
        (env.infer arg).2 ++ env.judge ⟨t, arg⟩ ++ env.inferArgs types args := rfl
    rw [hsplit, Expr.nodesAll, List.flatMap_append, List.zipWith_cons_cons, List.flatMap_cons]
    refine (((Env.infer_perm env arg).append_right _).append
      (Env.inferArgs_perm env args types)).trans ?_
    -- The complaint about the argument moves to the front, past what is found inside it.
    rw [List.append_assoc, List.append_assoc]
    refine (List.perm_append_comm_assoc _ _ _).trans (List.Perm.append_left _ ?_)
    exact List.perm_append_comm_assoc _ _ _

end

/-! ## Findings by their kind -/

/-- The findings of one kind. -/
def Finding.coded (code : String) (fs : List Finding) : List Finding :=
  fs.filter (·.problem.code = code)

namespace Finding

variable {code : String} {fs gs : List Finding}

theorem coded_append : coded code (fs ++ gs) = coded code fs ++ coded code gs :=
  List.filter_append _ _

theorem coded_flatMap {α : Type} (xs : List α) (f : α → List Finding) :
    coded code (xs.flatMap f) = xs.flatMap fun x => coded code (f x) :=
  List.filter_flatMap

theorem coded_perm (code : String) (h : fs.Perm gs) : (coded code fs).Perm (coded code gs) :=
  h.filter _

theorem coded_eq_nil (h : ∀ f ∈ fs, f.problem.code ≠ code) : coded code fs = [] :=
  List.filter_eq_nil_iff.2 fun f hf => by simpa using h f hf

theorem coded_eq_self (h : ∀ f ∈ fs, f.problem.code = code) : coded code fs = fs :=
  List.filter_eq_self.2 fun f hf => by simpa using h f hf

end Finding

theorem eq_of_mem_expectType {expected actual : Ty} {s : Span} {f : Finding}
    (h : f ∈ expectType expected actual s) : f = ⟨.mismatch expected actual, s⟩ := by
  unfold expectType at h
  split at h
  · cases h
  · exact List.mem_singleton.1 h

theorem code_of_mem_expectType {expected actual : Ty} {s : Span} {f : Finding}
    (h : f ∈ expectType expected actual s) : f.problem.code = "TypeMismatch" := by
  rw [eq_of_mem_expectType h]
  rfl

theorem code_of_mem_operatorType {result : Except OperandMismatch Ty} {place : Operand → Span}
    {f : Finding} (h : f ∈ (operatorType result place).2) : f.problem.code = "TypeMismatch" := by
  cases result with
  | ok t => cases h
  | error m => exact code_of_mem_expectType h

namespace Env

variable (env : Env)

theorem code_of_mem_judges {uses : List Use} {f : Finding} (h : f ∈ uses.flatMap env.judge) :
    f.problem.code = "TypeMismatch" := by
  obtain ⟨use, _, hf⟩ := List.mem_flatMap.1 h
  exact code_of_mem_expectType hf

theorem code_of_mem_report {e : Expr} {f : Finding} (h : f ∈ env.report e) :
    f.problem.code = "TypeMismatch" := by
  cases e with
  | binary op left right s =>
    cases hsilent : (env.infer left).1.isError || (env.infer right).1.isError with
    | true =>
      rw [report_binary_silent s hsilent] at h
      cases h
    | false =>
      rw [report_binary s hsilent] at h
      exact code_of_mem_operatorType h
  | unary op operand s =>
    cases hsilent : (env.infer operand).1.isError with
    | true =>
      rw [report_unary_silent s hsilent] at h
      cases h
    | false =>
      rw [report_unary s hsilent] at h
      exact code_of_mem_operatorType h
  | int | bool | var | call => cases h

end Env

/-! ## Statements -/

/-- The value of a statement where a type is expected of it. Nothing is expected of what is
assigned to an unknown name. -/
def Env.stmtUses (env : Env) (returns : Ty) : Stmt → List Use
  | .declare _ type init _ => init.toList.map (Use.mk type)
  | .assign target value _ =>
    match env.scope.lookup target.name with
    | some b => [⟨b.type, value⟩]
    | none => []
  | .call _ _ => []
  | .ret value _ => value.toList.map (Use.mk returns)

namespace Progress

variable (globals : GlobalTable) (returns : Ty) (p : Progress)

/-- What names mean to the next statement. -/
def env : Env := ⟨globals, p.scope⟩

/-- What is found at a statement itself, apart from its expressions. -/
def own : Stmt → List Finding
  | .declare target type _ _ => (p.scope.declare target.name ⟨.var, type, target.span⟩).2
  | .assign target _ _ => ((p.env globals).resolve target.name target.span).2
  | .call _ _ => []
  | .ret value s =>
    (if p.returns = 1 then [⟨.returnCount 1, s⟩] else []) ++
      if value.isNone then expectType returns .void s else []

theorem expect_perm (env : Env) (expected : Ty) (e : Expr) :
    (env.expect expected e).Perm (env.judge ⟨expected, e⟩ ++ e.nodes.flatMap env.own) :=
  ((env.infer_perm e).append_right _).trans List.perm_append_comm

/-- What is found in a statement is what is found at the statement, where its value is used and
at the nodes of its expressions. -/
theorem step_perm (stmt : Stmt) : (p.step globals returns stmt).2.Perm
    (p.own globals returns stmt ++ ((p.env globals).stmtUses returns stmt).flatMap
      (p.env globals).judge ++ stmt.nodes.flatMap (p.env globals).own) := by
  have hvalue (expected : Ty) (e : Expr) : ((p.env globals).expect expected e).Perm
      (((some e).toList.map (Use.mk expected)).flatMap (p.env globals).judge ++
        ((some e).toList.flatMap Expr.nodes).flatMap (p.env globals).own) := by
    simpa using expect_perm (p.env globals) expected e
  cases stmt with
  | declare target type init s =>
    cases init with
    | none => simp [own, step, Env.stmtUses, Stmt.nodes]
    | some e =>
      rw [List.append_assoc]
      exact ((hvalue type e).append_right _).trans List.perm_append_comm
  | assign target value s =>
    rw [List.append_assoc]
    refine List.Perm.append_left _ ?_
    have hexpect := expect_perm (p.env globals)
      ((p.env globals).resolve target.name target.span).1 value
    have huse : ((p.env globals).stmtUses returns (.assign target value s)).flatMap
        (p.env globals).judge =
          (p.env globals).judge ⟨((p.env globals).resolve target.name target.span).1, value⟩ := by
      rw [Env.stmtUses, Env.resolve]
      cases (p.env globals).scope.lookup target.name with
      | some b => simp
      | none => simp [Env.judge, expectType, Ty.agrees, Ty.isError]
    rw [huse]
    exact hexpect
  | call c s =>
    have hcall := (p.env globals).infer_perm c.toExpr
    rw [Call.toExpr, Env.infer] at hcall
    exact hcall
  | ret value s =>
    cases value with
    | none => simp [own, step, Env.stmtUses, Stmt.nodes]
    | some e =>
      have hown : p.own globals returns (.ret (some e) s) =
          if p.returns = 1 then [⟨.returnCount 1, s⟩] else [] := List.append_nil _
      rw [hown, List.append_assoc]
      exact (hvalue returns e).append_left _

/-! ## Bodies -/

theorem run_concat (stmts : List Stmt) (stmt : Stmt) :
    (run globals returns p (stmts ++ [stmt])).1 =
      ((run globals returns p stmts).1.step globals returns stmt).1 := by
  induction stmts generalizing p with
  | nil => rfl
  | cons st stmts ih => exact ih (p.step globals returns st).1

/-- Each statement is checked from where those before it lead. -/
theorem run_eq_flatMapAfter (before stmts : List Stmt) :
    (run globals returns (run globals returns p before).1 stmts).2 =
      flatMapAfter (fun b stmt => ((run globals returns p b).1.step globals returns stmt).2)
        before stmts := by
  induction stmts generalizing before with
  | nil => rfl
  | cons stmt stmts ih =>
    rw [flatMapAfter, ← ih, run_concat]
    rfl

end Progress

namespace Procedure

variable (globals : GlobalTable) (p : Procedure)

/-- How far the check has come after the given statements of a body. -/
def progressAfter (before : List Stmt) : Progress :=
  (Progress.run globals p.returns ⟨(LocalScope.declareParams .empty p.params).1, 0⟩ before).1

/-- What is found when a statement is checked behind others. -/
def stmtFindings (before : List Stmt) (stmt : Stmt) : List Finding :=
  ((p.progressAfter globals before).step globals p.returns stmt).2

/-- The complaint about a body that never returns, though it should. -/
def lacking : List Finding :=
  if (p.progressAfter globals p.body).returns = 0 ∧ p.returns ≠ .void then
    [⟨.returnCount 1, p.name.span⟩]
  else []

/-- What is found in a procedure: repeated parameters, what is found in its statements where
they stand, and a missing return. -/
theorem findings_eq : p.findings globals =
    (LocalScope.declareParams .empty p.params).2 ++
      flatMapAfter (p.stmtFindings globals) [] p.body ++ p.lacking globals := by
  have hrun := Progress.run_eq_flatMapAfter globals p.returns
    ⟨(LocalScope.declareParams .empty p.params).1, 0⟩ [] p.body
  exact congrArg (fun found => (LocalScope.declareParams .empty p.params).2 ++ found ++
    p.lacking globals) hrun

end Procedure

end ScriptCheck
