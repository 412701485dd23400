import Mathlib.Data.List.Perm.Basic
import ScriptCheck.Proofs.Check.Accounts
import ScriptCheck.Proofs.Check.Modular
import ScriptCheck.Proofs.Typing.Agreement

/-!
# Names mean their first declaration

What a name means to a statement is settled by the text: the parameters and the variables of
the statements before it, the first of which counts. The checker carries a table along instead,
which grows with each declaration. Both answer alike at every statement, whatever was found on
the way, so names are reported as unknown or as repeated just where the text says so.
-/
namespace ScriptCheck

/-! ## Declarations in the text -/

/-- The variable that a statement declares, as it is bound. -/
def Stmt.binding? : Stmt → Option (String × Binding)
  | .declare target type _ _ => some (target.name, ⟨.var, type, target.span⟩)
  | _ => none

/-- The parameters, and the variables of the given statements. -/
def Procedure.bindingsAfter (p : Procedure) (before : List Stmt) : List (String × Binding) :=
  p.params.map LocalScope.ofParam ++ before.filterMap Stmt.binding?

/-- The name of a procedure, as it is declared in a script. -/
def Procedure.binding (p : Procedure) : String × Binding :=
  (p.name.name, ⟨.proc, p.returns, p.name.span⟩)

/-- The complaint about a declaration, if its name was declared before. -/
def refuse (before : List (String × Binding)) (d : String × Binding) : List Finding :=
  if d.1 ∈ before.map (·.1) then [⟨.duplicate d.1 d.2.kind, d.2.span⟩] else []

/-- The complaint about a return behind `n` others. -/
def surplus (n : Nat) (s : Span) : List Finding :=
  if n = 1 then [⟨.returnCount 1, s⟩] else []

/-- One complaint about each declaration that is not the first of its name. -/
def refusals (ds : List (String × Binding)) : List Finding := flatMapAfter refuse [] ds

/-- The repeated declarations: of procedures in the script, and of parameters and variables in
each procedure. -/
def Script.refused (s : Script) : List Finding :=
  refusals (s.procedures.map Procedure.binding) ++
    s.procedures.flatMap fun p => refusals (p.bindingsAfter p.body)

/-- A complaint about a name, unless it is one of the declared ones. -/
def missing (declared : List String) (x : Ident) : List Finding :=
  if x.name ∈ declared then [] else [⟨.unknown x.name, x.span⟩]

/-- The name at a node, if it is not declared: of a variable, or of a callee. -/
def Expr.missing (locals procedures : List String) : Expr → List Finding
  | .var x s => ScriptCheck.missing locals ⟨x, s⟩
  | .call callee _ _ _ => ScriptCheck.missing procedures callee
  | _ => []

/-- The variable that a statement assigns to. -/
def Stmt.assigned? : Stmt → Option Ident
  | .assign target _ _ => some target
  | _ => none

/-- The undeclared names of a statement: the target of an assignment, and those in expressions. -/
def Stmt.missing (locals procedures : List String) (stmt : Stmt) : List Finding :=
  stmt.assigned?.toList.flatMap (ScriptCheck.missing locals) ++
    stmt.nodes.flatMap (Expr.missing locals procedures)

/-- The undeclared names of a script, each statement seeing what is declared before it. -/
def Script.missing (s : Script) : List Finding :=
  s.procedures.flatMap fun p => flatMapAfter
    (fun before stmt => stmt.missing ((p.namesAfter before).map (·.1)) s.names) [] p.body

/-- The type of the first declaration of a name, and a complaint if there is none. -/
def Context.resolve (names : Context) (x : Ident) : Ty × List Finding :=
  match names.lookup x.name with
  | some t => (t, [])
  | none => (.error, [⟨.unknown x.name, x.span⟩])

/-! ## Tables that answer like a text -/

section

variable {α : Type} {ds : List (String × α)} {x : String} {a : α}

theorem isSome_lookup_iff : (ds.lookup x).isSome = true ↔ x ∈ ds.map (·.1) := by
  rw [← Option.ne_none_iff_isSome, ne_eq, lookup_none_iff_keys, Decidable.not_not]

/-- Looking a name up gives the first of the declarations. -/
def Table.Answers (t : Table α) (ds : List (String × α)) : Prop := ∀ x, t.lookup x = ds.lookup x

theorem Table.Answers.insert {t : Table α} (h : t.Answers ds) (x : String) (a : α) :
    (t.insert x a).Answers (ds ++ [(x, a)]) := by
  intro y
  rw [Table.lookup_insert, List.lookup_append, h y, List.lookup_cons, List.lookup_nil]
  by_cases hy : y = x
  · simp [hy]
  · simp [hy, beq_false_of_ne hy]

end

namespace LocalScope

variable {scope : LocalScope} {ds : List (String × Binding)}

/-- Declaring a name inserts it, and complains if the name is taken. -/
theorem declare_eq (h : scope.Answers ds) (d : String × Binding) :
    scope.declare d.1 d.2 = (scope.insert d.1 d.2, refuse ds d) := by
  have htaken : (scope.lookup d.1).isSome = true ↔ d.1 ∈ ds.map (·.1) := by
    rw [h, isSome_lookup_iff]
  unfold declare Table.insert Table.define refuse
  cases hd : scope.lookup d.1 with
  | none =>
    rw [hd] at htaken
    rw [if_neg (fun hmem => by cases htaken.2 hmem)]
  | some b =>
    rw [hd] at htaken
    rw [if_pos (htaken.1 rfl)]

theorem declareParams_eq (h : scope.Answers ds) (ps : List Param) :
    (scope.declareParams ps).1.Answers (ds ++ ps.map ofParam) ∧
      (scope.declareParams ps).2 = flatMapAfter refuse ds (ps.map ofParam) := by
  induction ps generalizing scope ds with
  | nil => exact ⟨by simpa [declareParams] using h, rfl⟩
  | cons p ps ih =>
    obtain ⟨hscope, hfound⟩ := ih (h.insert p.name ⟨.param, p.type, p.span⟩)
    rw [declareParams, declare_eq h (p.name, ⟨.param, p.type, p.span⟩)]
    dsimp only
    rw [hfound]
    exact ⟨by simpa [ofParam] using hscope, rfl⟩

end LocalScope

namespace Progress

variable {p : Progress} {ds : List (String × Binding)}

/-- A statement adds the variable that it declares, and nothing else. -/
theorem answers_step (globals : GlobalTable) (returns : Ty) (h : p.scope.Answers ds)
    (stmt : Stmt) :
    (p.step globals returns stmt).1.scope.Answers (ds ++ stmt.binding?.toList) := by
  cases stmt with
  | declare target type init s =>
    have hdeclare := LocalScope.declare_eq h (target.name, ⟨.var, type, target.span⟩)
    show (p.scope.declare target.name _).1.Answers _
    rw [hdeclare]
    exact h.insert _ _
  | assign | call | ret => exact (List.append_nil ds).symm ▸ h

theorem answers_run (globals : GlobalTable) (returns : Ty) (h : p.scope.Answers ds)
    (stmts : List Stmt) :
    (run globals returns p stmts).1.scope.Answers (ds ++ stmts.filterMap Stmt.binding?) := by
  induction stmts generalizing p ds with
  | nil => simpa [run] using h
  | cons stmt stmts ih =>
    have hrest := ih (answers_step globals returns h stmt)
    have hcons : (stmt :: stmts).filterMap Stmt.binding? =
        stmt.binding?.toList ++ stmts.filterMap Stmt.binding? := by
      cases hb : stmt.binding? <;> simp [hb]
    rw [hcons, ← List.append_assoc]
    exact hrest

end Progress

theorem Table.answers_empty {α : Type} : (Table.empty : Table α).Answers [] := fun _ => rfl

/-- At every statement the table answers like the declarations before it. -/
theorem Procedure.answers_progressAfter (globals : GlobalTable) (p : Procedure)
    (before : List Stmt) :
    (p.progressAfter globals before).scope.Answers (p.bindingsAfter before) := by
  have hparams := (LocalScope.declareParams_eq Table.answers_empty p.params).1
  exact Progress.answers_run globals p.returns hparams before

theorem Procedure.namesAfter_eq (p : Procedure) (before : List Stmt) :
    p.namesAfter before = (p.bindingsAfter before).map fun d => (d.1, d.2.type) := by
  have hstmt (stmt : Stmt) : (stmt.binding?.map fun d => (d.1, d.2.type)) = stmt.declared? := by
    cases stmt <;> rfl
  rw [namesAfter, bindingsAfter, List.map_append, List.map_map, List.map_filterMap]
  simp only [hstmt]
  rfl

/-! ## Complaints about names -/

open ScriptCheck.Finding (coded coded_append coded_flatMap coded_perm coded_eq_nil coded_eq_self)

namespace Env

variable (env : Env)

/-- At a node there are complaints about names, argument counts and types, and no others. -/
theorem coded_own {code : String} (hname : "NoSuchSymbol" ≠ code)
    (hcount : "ArgCountMismatch" ≠ code) (htype : "TypeMismatch" ≠ code) (e : Expr) :
    coded code (env.own e) = [] := by
  have hreport : coded code (env.report e) = [] :=
    coded_eq_nil fun f hf => by rwa [env.code_of_mem_report hf]
  cases e with
  | var x s =>
    rw [own, resolve]
    cases env.scope.lookup x with
    | none => exact coded_eq_nil (List.forall_mem_singleton.2 hname)
    | some b => rfl
  | call callee args callSpan s =>
    have hargs : coded code ((env.argUses (.call callee args callSpan s)).flatMap env.judge) = [] :=
      coded_eq_nil fun f hf => by rwa [env.code_of_mem_judges hf]
    rw [own, coded_append, hargs, List.append_nil, Env.callee]
    cases env.globals.lookup callee.name with
    | none => exact coded_eq_nil (List.forall_mem_singleton.2 hname)
    | some sig =>
      dsimp only
      split
      · rfl
      · exact coded_eq_nil (List.forall_mem_singleton.2 hcount)
  | int | bool | binary | unary => exact hreport

/-- The names that can be used are these, and those that can be called. -/
structure Knows (env : Env) (locals procedures : List String) : Prop where
  locals : ∀ x, (env.scope.lookup x).isSome = true ↔ x ∈ locals
  procedures : ∀ x, (env.globals.lookup x).isSome = true ↔ x ∈ procedures

section

variable {env : Env} {locals procedures : List String}

theorem Knows.resolve (h : env.Knows locals procedures) (x : Ident) :
    (env.resolve x.name x.span).2 = missing locals x := by
  have hx := h.locals x.name
  rw [Env.resolve, missing]
  cases hlookup : env.scope.lookup x.name with
  | none =>
    rw [hlookup] at hx
    rw [if_neg fun hmem => by cases hx.2 hmem]
  | some b =>
    rw [hlookup] at hx
    rw [if_pos (hx.1 rfl)]

theorem Knows.callee (h : env.Knows locals procedures) (x : Ident) (provided : Nat) (s : Span) :
    coded "NoSuchSymbol" (env.callee x provided s).2.2 = missing procedures x := by
  have hx := h.procedures x.name
  rw [Env.callee, missing]
  cases hlookup : env.globals.lookup x.name with
  | none =>
    rw [hlookup] at hx
    rw [if_neg fun hmem => by cases hx.2 hmem]
    rfl
  | some sig =>
    rw [hlookup] at hx
    rw [if_pos (hx.1 rfl)]
    dsimp only
    split <;> rfl

/-- At a node just its own name can be unknown. -/
theorem Knows.own (h : env.Knows locals procedures) (e : Expr) :
    coded "NoSuchSymbol" (env.own e) = e.missing locals procedures := by
  have hreport : coded "NoSuchSymbol" (env.report e) = [] :=
    coded_eq_nil fun f hf => by simp [env.code_of_mem_report hf]
  cases e with
  | var x s =>
    rw [Env.own, h.resolve ⟨x, s⟩, Expr.missing]
    refine coded_eq_self fun f hf => ?_
    rw [missing] at hf
    split at hf
    · cases hf
    · cases List.mem_singleton.1 hf
      rfl
  | call callee args callSpan s =>
    have hargs : coded "NoSuchSymbol"
        ((env.argUses (.call callee args callSpan s)).flatMap env.judge) = [] :=
      coded_eq_nil fun f hf => by simp [env.code_of_mem_judges hf]
    rw [Env.own, coded_append, hargs, List.append_nil, h.callee, Expr.missing]
  | int | bool | binary | unary => exact hreport

end

end Env

theorem missing_coded (declared : List String) (x : Ident) :
    coded "NoSuchSymbol" (missing declared x) = missing declared x := by
  unfold missing
  split <;> rfl

theorem code_of_mem_refuse {before : List (String × Binding)} {d : String × Binding} {f : Finding}
    (h : f ∈ refuse before d) : f.problem.code = "DupSymbol" := by
  unfold refuse at h
  split at h
  · cases List.mem_singleton.1 h
    rfl
  · cases h

theorem code_of_mem_refusals {before ds : List (String × Binding)} {f : Finding}
    (h : f ∈ flatMapAfter refuse before ds) : f.problem.code = "DupSymbol" := by
  obtain ⟨front, d, back, _, hf⟩ := mem_flatMapAfter_iff.1 h
  exact code_of_mem_refuse hf

namespace Progress

variable (p : Progress) (globals : GlobalTable) (returns : Ty)

/-- Complaints other than mismatches are made at the statement and at the nodes of its
expressions. -/
theorem coded_step {code : String} (hcode : "TypeMismatch" ≠ code) (stmt : Stmt) :
    (coded code (p.step globals returns stmt).2).Perm (coded code (p.own globals returns stmt) ++
      stmt.nodes.flatMap fun e => coded code ((p.env globals).own e)) := by
  have huses : coded code (((p.env globals).stmtUses returns stmt).flatMap
      (p.env globals).judge) = [] :=
    coded_eq_nil fun f hf => by rwa [(p.env globals).code_of_mem_judges hf]
  have hstep := coded_perm code (p.step_perm globals returns stmt)
  rwa [coded_append, coded_append, huses, List.append_nil, coded_flatMap] at hstep

/-- A return is about types and about the number of returns. -/
theorem coded_own_ret {code : String} (hcode : "TypeMismatch" ≠ code)
    (hreturns : "TooFewOrTooManyReturns" ≠ code) (value : Option Expr) (s : Span) :
    coded code (p.own globals returns (.ret value s)) = [] := by
  refine coded_eq_nil fun f hf => ?_
  rcases List.mem_append.1 hf with hf | hf
  · split at hf
    · cases List.mem_singleton.1 hf
      exact hreturns
    · cases hf
  · split at hf
    · rwa [code_of_mem_expectType hf]
    · cases hf

variable {p} {ds : List (String × Binding)} {locals procedures : List String}

theorem unknowns_step (h : (p.env globals).Knows locals procedures) (stmt : Stmt) :
    (coded "NoSuchSymbol" (p.step globals returns stmt).2).Perm
      (stmt.missing locals procedures) := by
  have hown : coded "NoSuchSymbol" (p.own globals returns stmt) =
      stmt.assigned?.toList.flatMap (missing locals) := by
    cases stmt with
    | declare target type init s =>
      rw [own, LocalScope.declare]
      cases p.scope.define target.name ⟨.var, type, target.span⟩ <;> rfl
    | assign target value s =>
      rw [own, h.resolve target, missing_coded]
      exact (List.append_nil _).symm
    | call c s => rfl
    | ret value s => exact p.coded_own_ret globals returns (by decide) (by decide) value s
  have hstep := p.coded_step globals returns (show _ ≠ "NoSuchSymbol" by decide) stmt
  simp only [hown, h.own] at hstep
  exact hstep

theorem duplicates_step (h : p.scope.Answers ds) (stmt : Stmt) :
    (coded "DupSymbol" (p.step globals returns stmt).2).Perm
      (stmt.binding?.toList.flatMap (refuse ds)) := by
  have hown : coded "DupSymbol" (p.own globals returns stmt) =
      stmt.binding?.toList.flatMap (refuse ds) := by
    cases stmt with
    | declare target type init s =>
      rw [own, LocalScope.declare_eq h (target.name, ⟨.var, type, target.span⟩),
        coded_eq_self fun f hf => code_of_mem_refuse hf]
      exact (List.append_nil _).symm
    | assign target value s =>
      rw [own, Env.resolve]
      cases (p.env globals).scope.lookup target.name <;> rfl
    | call c s => rfl
    | ret value s => exact p.coded_own_ret globals returns (by decide) (by decide) value s
  have hnodes : (stmt.nodes.flatMap fun e => coded "DupSymbol" ((p.env globals).own e)) = [] :=
    List.flatMap_eq_nil_iff.2 fun e _ => Env.coded_own _ (by decide) (by decide) (by decide) e
  have hstep := p.coded_step globals returns (show _ ≠ "DupSymbol" by decide) stmt
  rwa [hown, hnodes, List.append_nil] at hstep

end Progress

/-! ## Procedures and scripts -/

/-- Members that give nothing can be left out. -/
theorem flatMapAfter_filterMap {α β γ : Type} (g : α → Option γ) (f : List γ → γ → List β)
    (front : List γ) (before xs : List α) :
    flatMapAfter (fun b x => (g x).toList.flatMap (f (front ++ b.filterMap g))) before xs =
      flatMapAfter f (front ++ before.filterMap g) (xs.filterMap g) := by
  induction xs generalizing before with
  | nil => rfl
  | cons x xs ih =>
    rw [flatMapAfter, ih, List.filterMap_append]
    cases hx : g x with
    | none => simp [hx]
    | some y => simp [hx, flatMapAfter]

namespace Procedure

variable (globals : GlobalTable) (p : Procedure)

theorem coded_lacking {code : String} (h : "TooFewOrTooManyReturns" ≠ code) :
    coded code (p.lacking globals) = [] := by
  refine coded_eq_nil fun f hf => ?_
  unfold lacking at hf
  split at hf
  · cases List.mem_singleton.1 hf
    exact h
  · cases hf

/-- In a procedure each repeated parameter or variable is reported. -/
theorem duplicates_findings : (coded "DupSymbol" (p.findings globals)).Perm
    (refusals (p.bindingsAfter p.body)) := by
  have hparams : coded "DupSymbol" (LocalScope.declareParams .empty p.params).2 =
      flatMapAfter refuse [] (p.params.map LocalScope.ofParam) := by
    rw [(LocalScope.declareParams_eq Table.answers_empty p.params).2]
    exact coded_eq_self fun f hf => code_of_mem_refusals hf
  have hbody : (coded "DupSymbol" (flatMapAfter (p.stmtFindings globals) [] p.body)).Perm
      (flatMapAfter refuse (p.params.map LocalScope.ofParam)
        (p.body.filterMap Stmt.binding?)) := by
    have hsteps := flatMapAfter_perm (fun before stmt => Progress.duplicates_step globals
      p.returns (p.answers_progressAfter globals before) stmt) [] p.body
    have hvars := flatMapAfter_filterMap Stmt.binding? refuse (p.params.map LocalScope.ofParam)
      [] p.body
    rw [List.filterMap_nil, List.append_nil] at hvars
    rw [← hvars, coded, filter_flatMapAfter]
    exact hsteps
  rw [findings_eq, coded_append, coded_append, hparams,
    p.coded_lacking globals (by decide), List.append_nil, refusals, bindingsAfter,
    flatMapAfter_append]
  exact hbody.append_left _

/-- At each statement the names that can be used are those declared before it. -/
theorem knows_progressAfter {procedures : List String}
    (h : ∀ x, (globals.lookup x).isSome = true ↔ x ∈ procedures) (before : List Stmt) :
    ((p.progressAfter globals before).env globals).Knows ((p.namesAfter before).map (·.1))
      procedures := by
  refine ⟨fun x => ?_, h⟩
  have hanswers := p.answers_progressAfter globals before x
  rw [Progress.env, hanswers, isSome_lookup_iff, namesAfter_eq, List.map_map]
  rfl

/-- What is neither about repeated names nor about the number of returns is found statement by
statement. -/
theorem coded_findings {code : String} (hdup : "DupSymbol" ≠ code)
    (hreturns : "TooFewOrTooManyReturns" ≠ code) {g : List Stmt → Stmt → List Finding}
    (h : ∀ before stmt, (coded code (p.stmtFindings globals before stmt)).Perm (g before stmt)) :
    (coded code (p.findings globals)).Perm (flatMapAfter g [] p.body) := by
  have hparams : coded code (LocalScope.declareParams .empty p.params).2 = [] := by
    rw [(LocalScope.declareParams_eq Table.answers_empty p.params).2]
    exact coded_eq_nil fun f hf => by rwa [code_of_mem_refusals hf]
  rw [findings_eq, coded_append, coded_append, hparams, p.coded_lacking globals hreturns,
    List.append_nil, List.nil_append, coded, filter_flatMapAfter]
  exact flatMapAfter_perm h [] p.body

/-- In a procedure each name that is not declared before is reported. -/
theorem unknowns_findings {procedures : List String}
    (h : ∀ x, (globals.lookup x).isSome = true ↔ x ∈ procedures) :
    (coded "NoSuchSymbol" (p.findings globals)).Perm (flatMapAfter (fun before stmt =>
      stmt.missing ((p.namesAfter before).map (·.1)) procedures) [] p.body) :=
  p.coded_findings globals (by decide) (by decide) fun before stmt =>
    Progress.unknowns_step globals p.returns (p.knows_progressAfter globals h before) stmt

end Procedure

theorem GlobalTable.declareAll_eq {globals : GlobalTable} {ds : List (String × Binding)}
    (h : ∀ x, (globals.lookup x).isSome = true ↔ x ∈ ds.map (·.1)) (ps : List Procedure) :
    (globals.declareAll ps).2 = flatMapAfter refuse ds (ps.map Procedure.binding) := by
  induction ps generalizing globals ds with
  | nil => rfl
  | cons p ps ih =>
    have hinsert (x : String) : ((globals.insert p.name.name p.signature).lookup x).isSome = true ↔
        x ∈ (ds ++ [p.binding]).map (·.1) := by
      rw [Table.lookup_insert, Option.isSome_or, Bool.or_eq_true, h, List.map_append,
        List.mem_append]
      by_cases hx : x = p.name.name <;> simp [hx, Procedure.binding]
    rw [declareAll_cons, List.map_cons, flatMapAfter, ← ih hinsert]
    dsimp only [refuse, Procedure.binding]
    by_cases hp : p.name.name ∈ ds.map (·.1)
    · rw [if_pos ((h _).2 hp), if_pos hp]
      rfl
    · rw [if_neg (fun hsome => hp ((h _).1 hsome)), if_neg hp]

namespace Script

variable (s : Script)

theorem isSome_lookup_globals (x : String) :
    (s.globals.lookup x).isSome = true ↔ x ∈ s.names := by
  rw [lookup_globals, Option.isSome_map, first?, List.find?_isSome]
  simp [names]

theorem repeated_eq : s.repeated = refusals (s.procedures.map Procedure.binding) :=
  GlobalTable.declareAll_eq (fun x => by simp) s.procedures

theorem duplicates_perm : (coded "DupSymbol" s.findings).Perm s.refused := by
  have hrepeated : coded "DupSymbol" s.repeated =
      refusals (s.procedures.map Procedure.binding) := by
    rw [repeated_eq]
    exact coded_eq_self fun f hf => code_of_mem_refusals hf
  rw [findings, coded_append, hrepeated, coded_flatMap]
  refine List.Perm.append_left _ ?_
  exact List.Perm.flatMap_left _ fun p _ => p.duplicates_findings s.globals

/-- What is not about repeated names is found procedure by procedure. -/
theorem coded_findings {code : String} (hdup : "DupSymbol" ≠ code)
    {g : Procedure → List Finding}
    (h : ∀ p, (coded code (p.findings s.globals)).Perm (g p)) :
    (coded code s.findings).Perm (s.procedures.flatMap g) := by
  have hrepeated : coded code s.repeated = [] := by
    rw [repeated_eq]
    exact coded_eq_nil fun f hf => by rwa [code_of_mem_refusals hf]
  rw [findings, coded_append, hrepeated, List.nil_append, coded_flatMap]
  exact List.Perm.flatMap_left _ fun p _ => h p

theorem unknowns_perm : (coded "NoSuchSymbol" s.findings).Perm s.missing :=
  s.coded_findings (by decide) fun p => p.unknowns_findings s.globals s.isSome_lookup_globals

end Script

/-! ## Names at a statement -/

namespace Procedure

variable (globals : GlobalTable) (p : Procedure) (before : List Stmt)

/-- What names mean to the checker when it comes to the statement behind the given ones. -/
def envAfter : Env := (p.progressAfter globals before).env globals

/-- A name has the type of its first declaration. -/
theorem resolve_envAfter (x : Ident) :
    (p.envAfter globals before).resolve x.name x.span =
      Context.resolve (p.namesAfter before) x := by
  have hlookup : (p.envAfter globals before).scope.lookup x.name =
      (p.bindingsAfter before).lookup x.name := p.answers_progressAfter globals before x.name
  rw [Env.resolve, Context.resolve, hlookup, namesAfter_eq, lookup_map_snd]
  cases (p.bindingsAfter before).lookup x.name <;> rfl

/-- The value of a declaration is checked before its name is there. -/
theorem stmtFindings_declare (target : Ident) (type : Ty) (init : Option Expr) (sp : Span) :
    p.stmtFindings globals before (.declare target type init sp) =
      init.toList.flatMap ((p.envAfter globals before).expect type) ++
        refuse (p.bindingsAfter before) (target.name, ⟨.var, type, target.span⟩) := by
  have hdeclare : ((p.progressAfter globals before).scope.declare target.name
      ⟨.var, type, target.span⟩).2 =
        refuse (p.bindingsAfter before) (target.name, ⟨.var, type, target.span⟩) :=
    congrArg Prod.snd (LocalScope.declare_eq (p.answers_progressAfter globals before)
      (target.name, ⟨.var, type, target.span⟩))
  rw [← hdeclare]
  cases init with
  | none => rfl
  | some e =>
    rw [Option.toList_some, List.flatMap_singleton]
    rfl

/-- The counter of the checker is the number of returns it has passed. -/
theorem returns_progressAfter :
    (p.progressAfter globals before).returns = before.countP Stmt.isReturn := by
  rw [progressAfter, Progress.run_returns, Nat.zero_add]

/-- A return is checked against the declared type, without a value as `Void`. -/
theorem stmtFindings_ret (value : Option Expr) (sp : Span) :
    p.stmtFindings globals before (.ret value sp) =
      surplus (before.countP Stmt.isReturn) sp ++
        value.elim (expectType p.returns .void sp)
          ((p.envAfter globals before).expect p.returns) := by
  rw [← p.returns_progressAfter globals before]
  cases value <;> rfl

/-- A statement of a body is checked from where the statements before it lead. -/
theorem exists_findings_eq {stmt : Stmt} {after : List Stmt}
    (h : p.body = before ++ stmt :: after) :
    ∃ front back, p.findings globals = front ++ p.stmtFindings globals before stmt ++ back := by
  refine ⟨(LocalScope.declareParams .empty p.params).2 ++
    flatMapAfter (p.stmtFindings globals) [] before,
    flatMapAfter (p.stmtFindings globals) (before ++ [stmt]) after ++ p.lacking globals, ?_⟩
  rw [findings_eq, h, flatMapAfter_append, List.nil_append, flatMapAfter]
  simp only [List.append_assoc]

end Procedure

/-- A call is checked against the first procedure of its name, wherever it stands. -/
theorem Script.infer_call (s : Script) (env : Env) (henv : env.globals = s.globals)
    (callee : Ident) (args : List Expr) (callSpan whole : Span) :
    env.infer (.call callee args callSpan whole) =
      match s.first? callee.name with
      | none => (.error, ⟨.unknown callee.name, callee.span⟩ :: env.inferArgs [] args)
      | some q => (q.returns, (if q.params.length = args.length then []
          else [⟨.argCount q.params.length args.length, callSpan⟩]) ++
            env.inferArgs (q.params.map (·.type)) args) := by
  rw [Env.infer, Env.callee, henv, lookup_globals]
  cases s.first? callee.name with
  | none => rfl
  | some q =>
    have hlength : q.signature.types.length = q.params.length := List.length_map _
    simp only [Option.map_some, hlength]
    rfl

theorem Source.diagnostics_coded (source : Source) (s : Script) (code : String) :
    ((source.checkScript s).diagnostics.filter (·.problem.code = code)).Perm
      ((coded code s.findings).map (Finding.locate source)) := by
  rw [Source.diagnostics_checkScript, List.filter_map]
  exact ((Order.sort_perm (·.span.start) s.findings).filter _).map _

/-- Names are resolved by position, and the first declaration counts. A name is reported as
unknown just where nothing declares it before, and a declaration as repeated just where it is
not the first of its name. At each statement a name has the type of its first declaration among
the parameters and the statements before, and a call means the first procedure of its name; what
is found in the statement is what its expressions come to there. -/
theorem Source.names_by_position (source : Source) (s : Script) :
    ((source.checkScript s).diagnostics.filter (·.problem.code = "NoSuchSymbol")).Perm
        (s.missing.map (Finding.locate source)) ∧
      ((source.checkScript s).diagnostics.filter (·.problem.code = "DupSymbol")).Perm
        (s.refused.map (Finding.locate source)) ∧
      ∀ p ∈ s.procedures, ∀ before stmt after, p.body = before ++ stmt :: after →
        let env := p.envAfter s.globals before
        (∃ front back, p.findings s.globals =
          front ++ p.stmtFindings s.globals before stmt ++ back) ∧
        (∀ x : Ident, env.infer (.var x.name x.span) = Context.resolve (p.namesAfter before) x) ∧
        (∀ target type init sp, stmt = .declare target type init sp →
          p.stmtFindings s.globals before stmt =
            init.toList.flatMap (env.expect type) ++
              refuse (p.bindingsAfter before) (target.name, ⟨.var, type, target.span⟩)) ∧
        (∀ target value sp, stmt = .assign target value sp →
          p.stmtFindings s.globals before stmt =
            (Context.resolve (p.namesAfter before) target).2 ++
              env.expect (Context.resolve (p.namesAfter before) target).1 value) ∧
        (∀ c sp, stmt = .call c sp →
          p.stmtFindings s.globals before stmt = (env.infer c.toExpr).2) ∧
        (∀ value sp, stmt = .ret value sp →
          p.stmtFindings s.globals before stmt =
            surplus (before.countP Stmt.isReturn) sp ++
              value.elim (expectType p.returns .void sp) (env.expect p.returns)) ∧
        ∀ callee args callSpan whole, env.infer (.call callee args callSpan whole) =
          match s.first? callee.name with
          | none => (.error, ⟨.unknown callee.name, callee.span⟩ :: env.inferArgs [] args)
          | some q => (q.returns, (if q.params.length = args.length then []
              else [⟨.argCount q.params.length args.length, callSpan⟩]) ++
                env.inferArgs (q.params.map (·.type)) args) := by
  refine ⟨(source.diagnostics_coded s _).trans (s.unknowns_perm.map _),
    (source.diagnostics_coded s _).trans (s.duplicates_perm.map _), ?_⟩
  intro p _ before stmt after hbody env
  refine ⟨p.exists_findings_eq s.globals before hbody, ?_, ?_, ?_, ?_, ?_, ?_⟩
  · intro x
    rw [Env.infer]
    exact p.resolve_envAfter s.globals before x
  · rintro target type init sp rfl
    exact p.stmtFindings_declare s.globals before target type init sp
  · rintro target value sp rfl
    rw [← p.resolve_envAfter s.globals before target]
    rfl
  · rintro c sp rfl
    rw [Call.toExpr, Env.infer]
    rfl
  · rintro value sp rfl
    exact p.stmtFindings_ret s.globals before value sp
  · exact s.infer_call env rfl

/-- A parameter of one name with another parameter and a variable stays what it is, also in the
value of that variable and in a return; an initializer does not see its own variable, and a call
means the first of two procedures. -/
theorem Source.names_by_position_repeated :
    let source : Source := ⟨"main", ""⟩
    let here : Nat → Span := Span.point
    let x : Stmt := .declare ⟨"x", here 3⟩ .bool (some (.var "x" (here 4))) (here 3)
    let a : Stmt := .declare ⟨"a", here 5⟩ .bool (some (.var "a" (here 14))) (here 5)
    let y : Stmt := .assign ⟨"y", here 6⟩ (.var "a" (here 7)) (here 6)
    let call : Call := ⟨⟨"g", here 8⟩, [.var "a" (here 9)], here 8⟩
    let last : Stmt := .ret (some (.var "a" (here 15))) (here 15)
    let f : Procedure := ⟨⟨"f", here 0⟩, [⟨"a", .int32, here 1⟩, ⟨"a", .bool, here 2⟩], .void,
      [x, a, y, .call call (here 8), last], here 0⟩
    let g : Procedure := ⟨⟨"g", here 10⟩, [⟨"n", .int32, here 11⟩], .void, [], here 10⟩
    let g' : Procedure := ⟨⟨"g", here 12⟩, [], .bool, [.ret (some (.var "n" (here 13))) (here 13)],
      here 12⟩
    let s : Script := ⟨[f, g, g']⟩
    ((source.checkScript s).diagnostics.filter (·.problem.code = "NoSuchSymbol")).Perm
        ([⟨.unknown "x", here 4⟩, ⟨.unknown "y", here 6⟩, ⟨.unknown "n", here 13⟩].map
          (Finding.locate source)) ∧
      ((source.checkScript s).diagnostics.filter (·.problem.code = "DupSymbol")).Perm
        ([⟨.duplicate "g" .proc, here 12⟩, ⟨.duplicate "a" .param, here 2⟩,
          ⟨.duplicate "a" .var, here 5⟩].map (Finding.locate source)) ∧
      (f.envAfter s.globals [x, a, y]).infer (.var "a" (here 9)) = (.int32, []) ∧
      ((f.envAfter s.globals [x, a, y]).infer call.toExpr).1 = .void ∧
      f.stmtFindings s.globals [x] a =
        [⟨.mismatch .bool .int32, here 14⟩, ⟨.duplicate "a" .var, here 5⟩] ∧
      f.stmtFindings s.globals [x, a, y, .call call (here 8)] last =
        [⟨.mismatch .void .int32, here 15⟩] := by
  intro source here x a y call last f g g' s
  obtain ⟨hmissing, hrefused, hplaces⟩ := names_by_position source s
  obtain ⟨_, hvar, _, _, _, _, hcall⟩ :=
    hplaces f List.mem_cons_self [x, a, y] (.call call (here 8)) [last] rfl
  obtain ⟨_, _, hdeclare, _⟩ :=
    hplaces f List.mem_cons_self [x] a [y, .call call (here 8), last] rfl
  obtain ⟨_, _, _, _, _, hret, _⟩ :=
    hplaces f List.mem_cons_self [x, a, y, .call call (here 8)] last [] rfl
  have hnames : s.missing =
      [⟨.unknown "x", here 4⟩, ⟨.unknown "y", here 6⟩, ⟨.unknown "n", here 13⟩] := by
    decide +kernel
  have hrepeats : s.refused = [⟨.duplicate "g" .proc, here 12⟩, ⟨.duplicate "a" .param, here 2⟩,
      ⟨.duplicate "a" .var, here 5⟩] := by
    decide +kernel
  rw [hnames] at hmissing
  rw [hrepeats] at hrefused
  refine ⟨hmissing, hrefused, hvar ⟨"a", here 9⟩, congrArg Prod.fst (hcall _ _ _ _), ?_, ?_⟩
  · exact (hdeclare _ _ _ _ rfl).trans (by decide +kernel)
  · exact (hret _ _ rfl).trans (by decide +kernel)

end ScriptCheck
