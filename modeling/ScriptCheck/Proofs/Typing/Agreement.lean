import ScriptCheck.Proofs.Typing.Inference

/-!
# The checker accepts exactly the well-typed scripts

Checking goes through a body with a scope that grows and a count of returns; the rules
look at each statement by its position. The two agree because, as long as nothing was
found, the scope before a statement holds just the parameters and the variables declared
so far.
-/
namespace ScriptCheck

namespace LocalScope

variable {scope : LocalScope} {x : String} {b : Binding} {t : Ty}

/-- The names of a scope with their types. -/
def context (scope : LocalScope) : Context := scope.entries.map fun (x, b) => (x, b.type)

theorem names_eq_context : scope.names = scope.context.map (·.1) := by
  simp [Table.names, context]

theorem context_push : context (scope.push x b) = scope.context ++ [(x, b.type)] := by
  simp [Table.push, context]

theorem lookup_type_iff (h : scope.names.Nodup) :
    (∃ b, scope.lookup x = some b ∧ b.type = t) ↔ (x, t) ∈ scope.context := by
  simp only [Table.lookup_eq_some_iff h, context, List.mem_map, Prod.mk.injEq, Prod.exists]
  constructor
  · rintro ⟨b, hb, rfl⟩
    exact ⟨x, b, hb, rfl, rfl⟩
  · rintro ⟨y, b, hb, rfl, rfl⟩
    exact ⟨b, hb, rfl⟩

/-- A scope whose names are distinct, none with the type of faulty expressions. -/
structure Proper (scope : LocalScope) : Prop where
  nodup : scope.names.Nodup
  ne_error : ∀ x t, (x, t) ∈ scope.context → t ≠ .error

theorem Proper.push (h : scope.Proper) (hx : x ∉ scope.names) (hb : b.type ≠ .error) :
    Proper (scope.push x b) := by
  refine ⟨Table.nodup_push h.nodup hx, fun y t hy => ?_⟩
  rw [context_push] at hy
  rcases List.mem_append.1 hy with hy | hy
  · exact h.ne_error y t hy
  · cases List.mem_singleton.1 hy
    exact hb

end LocalScope

theorem GlobalTable.Reflects.env {globals : GlobalTable} {procedures : List Procedure}
    {scope : LocalScope} (hglobals : globals.Reflects procedures) (hscope : scope.Proper) :
    Env.Reflects ⟨globals, scope⟩ procedures scope.context :=
  ⟨hglobals, fun _ _ => LocalScope.lookup_type_iff hscope.nodup, hscope.ne_error⟩

namespace Progress

variable {globals : GlobalTable} {procedures : List Procedure} {returns : Ty} {p : Progress}
  {stmt : Stmt} {stmts : List Stmt}

/-! ## One statement -/

section

variable {target : Ident} {type : Ty} {s : Span}
  (henv : Env.Reflects ⟨globals, p.scope⟩ procedures p.scope.context)

include henv

theorem step_declare_clean_iff (htype : type ≠ .error) {init : Option Expr} :
    (p.step globals returns (.declare target type init s)).2 = [] ↔
      (∀ e ∈ init, HasType procedures p.scope.context e type) ∧ target.name ∉ p.scope.names := by
  have hdup : (p.scope.declare target.name ⟨.var, type, target.span⟩).2 = [] ↔
      target.name ∉ p.scope.names := by
    by_cases hx : target.name ∈ p.scope.names
    · simp [LocalScope.declare_of_mem hx, hx]
    · simp [LocalScope.declare_of_not_mem hx, hx]
  cases init with
  | none => simp [step, hdup]
  | some e => simp [step, hdup, Env.expect_eq_nil_iff henv htype]

theorem step_assign_clean_iff {value : Expr} :
    (p.step globals returns (.assign target value s)).2 = [] ↔
      ∃ t, (target.name, t) ∈ p.scope.context ∧ HasType procedures p.scope.context value t := by
  have hscope := henv.scope target.name
  simp only [step, Env.resolve]
  constructor
  · intro h
    cases hlookup : p.scope.lookup target.name with
    | none => simp [hlookup] at h
    | some b =>
      have htarget := (hscope b.type).1 ⟨b, hlookup, rfl⟩
      simp only [hlookup, List.nil_append] at h
      exact ⟨b.type, htarget, (Env.expect_eq_nil_iff henv (henv.names_ne _ _ htarget)).1 h⟩
  · rintro ⟨t, htarget, hvalue⟩
    obtain ⟨b, hlookup, rfl⟩ := (hscope t).2 htarget
    simp only [show p.scope.lookup target.name = some b from hlookup, List.nil_append]
    exact (Env.expect_eq_nil_iff henv (henv.names_ne _ _ htarget)).2 hvalue

theorem step_return_clean_iff (hreturns : returns ≠ .error) {value : Option Expr} :
    (p.step globals returns (.ret value s)).2 = [] ↔
      Stmt.WellTyped procedures p.scope.context returns (.ret value s) ∧ p.returns ≠ 1 := by
  have hsurplus : (if p.returns = 1 then [(⟨.returnCount 1, s⟩ : Finding)] else []) = [] ↔
      p.returns ≠ 1 := by
    by_cases h : p.returns = 1 <;> simp [h]
  rw [and_comm]
  cases value with
  | none =>
    have hbare : expectType returns .void s = [] ↔ returns = .void := by
      rw [expectType_eq_nil_iff, Ty.agrees_iff]
      simp [hreturns, eq_comm]
    simp only [step, List.append_eq_nil_iff, hsurplus, hbare]
    refine and_congr_right fun _ => ⟨.bareReturn s, fun h => ?_⟩
    cases h with
    | bareReturn s h => exact h
  | some e =>
    simp only [step, List.append_eq_nil_iff, hsurplus, Env.expect_eq_nil_iff henv hreturns]
    refine and_congr_right fun _ => ⟨.valueReturn s, fun h => ?_⟩
    cases h with
    | valueReturn s h => exact h

end

/-- A statement is without a finding if it is well typed, declares a new name if any, and
is not a second return. -/
theorem step_clean_iff (hglobals : globals.Reflects procedures) (hreturns : returns ≠ .error)
    (hp : p.scope.Proper) (hstmt : ∀ d ∈ stmt.declared?, d.2 ≠ .error) :
    (p.step globals returns stmt).2 = [] ↔
      stmt.WellTyped procedures p.scope.context returns ∧
      (∀ d ∈ stmt.declared?, d.1 ∉ p.scope.names) ∧
      (stmt.isReturn = true → p.returns ≠ 1) := by
  have henv := hglobals.env hp
  cases stmt with
  | declare target type init s =>
    have htype : type ≠ .error := hstmt _ rfl
    rw [step_declare_clean_iff henv htype]
    constructor
    · rintro ⟨htyped, hfresh⟩
      refine ⟨.declare s htyped, ?_, nofun⟩
      rintro d ⟨⟩
      exact hfresh
    · rintro ⟨htyped, hfresh, -⟩
      cases htyped with
      | declare s h => exact ⟨h, hfresh _ rfl⟩
  | assign target value s =>
    rw [step_assign_clean_iff henv]
    constructor
    · rintro ⟨t, htarget, hvalue⟩
      exact ⟨.assign s htarget hvalue, nofun, nofun⟩
    · rintro ⟨htyped, -, -⟩
      cases htyped with
      | assign s htarget hvalue => exact ⟨_, htarget, hvalue⟩
  | call c s =>
    have hclean : (p.step globals returns (.call c s)).2 =
        (Env.infer ⟨globals, p.scope⟩ c.toExpr).2 := rfl
    rw [hclean, Env.infer_clean_iff henv]
    constructor
    · rintro ⟨t, h⟩
      exact ⟨.call s h, nofun, nofun⟩
    · rintro ⟨htyped, -, -⟩
      cases htyped with
      | call s h => exact ⟨_, h⟩
  | ret value s =>
    rw [step_return_clean_iff henv hreturns]
    constructor
    · rintro ⟨htyped, hone⟩
      exact ⟨htyped, nofun, fun _ => hone⟩
    · rintro ⟨htyped, -, hone⟩
      exact ⟨htyped, hone rfl⟩

theorem step_returns (globals : GlobalTable) (returns : Ty) (p : Progress) (stmt : Stmt) :
    (p.step globals returns stmt).1.returns =
      p.returns + if stmt.isReturn then 1 else 0 := by
  cases stmt <;> rfl

/-- A declaration of a new name adds it to the scope, and nothing else changes it. -/
theorem step_scope (globals : GlobalTable) (returns : Ty) (hp : p.scope.Proper)
    (hstmt : ∀ d ∈ stmt.declared?, d.2 ≠ .error)
    (hfresh : ∀ d ∈ stmt.declared?, d.1 ∉ p.scope.names) :
    (p.step globals returns stmt).1.scope.context =
        p.scope.context ++ stmt.declared?.toList ∧
      (p.step globals returns stmt).1.scope.Proper := by
  cases stmt with
  | declare target type init s =>
    have hx : target.name ∉ p.scope.names := hfresh _ rfl
    have hscope : (p.step globals returns (.declare target type init s)).1.scope =
        p.scope.push target.name ⟨.var, type, target.span⟩ := by
      simp only [step, LocalScope.declare_of_not_mem hx]
    rw [hscope]
    have htype : type ≠ .error := hstmt _ rfl
    exact ⟨LocalScope.context_push, hp.push hx htype⟩
  | assign target value s => exact ⟨(List.append_nil _).symm, hp⟩
  | call c s => exact ⟨(List.append_nil _).symm, hp⟩
  | ret value s => exact ⟨(List.append_nil _).symm, hp⟩

/-! ## A whole body -/

theorem run_cons : Progress.run globals returns p (stmt :: stmts) =
    ((Progress.run globals returns (p.step globals returns stmt).1 stmts).1,
      (p.step globals returns stmt).2 ++
        (Progress.run globals returns (p.step globals returns stmt).1 stmts).2) := rfl

theorem run_returns : (Progress.run globals returns p stmts).1.returns =
    p.returns + stmts.countP Stmt.isReturn := by
  induction stmts generalizing p with
  | nil => rfl
  | cons stmt stmts ih =>
    rw [run_cons, ih, step_returns, List.countP_cons]
    omega

theorem declared_cons : (stmt :: stmts).filterMap Stmt.declared? =
    stmt.declared?.toList ++ stmts.filterMap Stmt.declared? := by
  cases h : stmt.declared? <;> simp [h]

/-- To look at every member of a list with those before it, look at the first and go on. -/
theorem forall_split_cons {α : Type} {P : List α → α → Prop} {x : α} {xs : List α} :
    (∀ before y after, x :: xs = before ++ y :: after → P before y) ↔
      P [] x ∧ ∀ before y after, xs = before ++ y :: after → P (x :: before) y := by
  constructor
  · intro h
    exact ⟨h [] x xs rfl, fun before y after hxs => h (x :: before) y after (by rw [hxs]; rfl)⟩
  · rintro ⟨hx, hxs⟩ before y after hsplit
    cases before with
    | nil =>
      cases hsplit
      exact hx
    | cons z before =>
      obtain ⟨rfl, hrest⟩ := List.cons.inj hsplit
      exact hxs before y after hrest

/-- Statements in a row are without a finding if all declared names are distinct, each
statement is well typed where it stands, and there is no second return. -/
theorem run_clean_iff (hglobals : globals.Reflects procedures) (hreturns : returns ≠ .error)
    (hp : p.scope.Proper) (hcount : p.returns ≤ 1)
    (hstmts : ∀ stmt ∈ stmts, ∀ d ∈ stmt.declared?, d.2 ≠ .error) :
    (Progress.run globals returns p stmts).2 = [] ↔
      ((p.scope.context ++ stmts.filterMap Stmt.declared?).map (·.1)).Nodup ∧
      (∀ before stmt after, stmts = before ++ stmt :: after →
        stmt.WellTyped procedures (p.scope.context ++ before.filterMap Stmt.declared?) returns) ∧
      p.returns + stmts.countP Stmt.isReturn ≤ 1 := by
  induction stmts generalizing p with
  | nil =>
    have hnodup := hp.nodup
    rw [LocalScope.names_eq_context] at hnodup
    simpa [Progress.run, hnodup] using hcount
  | cons stmt stmts ih =>
    obtain ⟨hstmt, hstmts⟩ := List.forall_mem_cons.1 hstmts
    have hafter := step_returns globals returns p stmt
    -- Behind a new declaration the scope is what the rules see there.
    have hnext (hfresh : ∀ d ∈ stmt.declared?, d.1 ∉ p.scope.names)
        (hle : p.returns + (if stmt.isReturn then 1 else 0) ≤ 1) := by
      obtain ⟨hcontext, hproper⟩ := step_scope globals returns hp hstmt hfresh
      have hmore := ih hproper (by rw [hafter]; exact hle) hstmts
      rw [hcontext, hafter] at hmore
      exact hmore
    rw [run_cons, List.append_eq_nil_iff, step_clean_iff hglobals hreturns hp hstmt,
      forall_split_cons, List.countP_cons]
    simp only [declared_cons, List.filterMap_nil, List.append_nil, ← List.append_assoc]
    constructor
    · rintro ⟨⟨htyped, hfresh, hone⟩, hmore⟩
      have hle : p.returns + (if stmt.isReturn then 1 else 0) ≤ 1 := by
        split
        · next hret => have := hone hret; omega
        · exact hcount
      obtain ⟨hnodup, hsplits, htotal⟩ := (hnext hfresh hle).1 hmore
      exact ⟨hnodup, ⟨htyped, hsplits⟩, by omega⟩
    · rintro ⟨hnodup, ⟨htyped, hsplits⟩, htotal⟩
      have hfresh : ∀ d ∈ stmt.declared?, d.1 ∉ p.scope.names := by
        intro d hd hmem
        rw [LocalScope.names_eq_context] at hmem
        rw [List.map_append, List.map_append, List.append_assoc] at hnodup
        refine (List.nodup_append.1 hnodup).2.2 _ hmem d.1 ?_ rfl
        exact List.mem_append_left _ (List.mem_map_of_mem (Option.mem_toList.2 hd))
      have hone : stmt.isReturn = true → p.returns ≠ 1 := by
        intro hret
        rw [if_pos hret] at htotal
        omega
      exact ⟨⟨htyped, hfresh, hone⟩, (hnext hfresh (by omega)).2 ⟨hnodup, hsplits, by omega⟩⟩

end Progress

/-! ## Procedures and scripts -/

/-- The scope that distinct parameters make. -/
def LocalScope.ofParams (ps : List Param) : LocalScope := ⟨ps.map LocalScope.ofParam⟩

theorem LocalScope.context_ofParams (ps : List Param) :
    (ofParams ps).context = ps.map fun q => (q.name, q.type) := by
  simp [ofParams, context, ofParam]

namespace Procedure

variable {globals : GlobalTable} {procedures : List Procedure} {p : Procedure}

theorem returns_ne (hp : .error ∉ p.declaredTypes) : p.returns ≠ .error :=
  fun h => hp (List.mem_cons.2 (.inl h.symm))

theorem name_ne (hp : .error ∉ p.declaredTypes) {d : String × Ty}
    (hd : d ∈ p.namesAfter p.body) : d.2 ≠ .error :=
  fun h => hp (List.mem_cons_of_mem _ (List.mem_map.2 ⟨d, hd, h⟩))

theorem proper_ofParams (hp : .error ∉ p.declaredTypes) (hparams : (p.params.map (·.name)).Nodup) :
    (LocalScope.ofParams p.params).Proper := by
  constructor
  · rw [LocalScope.names_eq_context, LocalScope.context_ofParams, List.map_map]
    exact hparams
  · intro x t hx
    rw [LocalScope.context_ofParams] at hx
    exact name_ne hp (List.mem_append_left _ hx)

/-- Distinct parameters make their scope, and the rest of the check starts from there. -/
theorem findings_of_nodup (hparams : (p.params.map (·.name)).Nodup) :
    p.findings globals =
      (Progress.run globals p.returns ⟨.ofParams p.params, 0⟩ p.body).2 ++
        if p.body.countP Stmt.isReturn = 0 ∧ p.returns ≠ .void then
          [⟨.returnCount 1, p.name.span⟩] else [] := by
  have hdeclare : LocalScope.declareParams .empty p.params = (.ofParams p.params, []) :=
    LocalScope.declareParams_of_nodup .empty hparams
  simp only [findings, hdeclare, Progress.run_returns, Nat.zero_add, List.nil_append]

theorem findings_eq_nil_iff (hglobals : globals.Reflects procedures)
    (hp : .error ∉ p.declaredTypes) : p.findings globals = [] ↔ p.WellTyped procedures := by
  by_cases hparams : (p.params.map (·.name)).Nodup
  · have hstmts : ∀ stmt ∈ p.body, ∀ d ∈ stmt.declared?, d.2 ≠ .error := fun stmt hstmt d hd =>
      name_ne hp (List.mem_append_right _ (List.mem_filterMap.2 ⟨stmt, hstmt, hd⟩))
    have hrun := Progress.run_clean_iff (p := ⟨.ofParams p.params, 0⟩) hglobals (returns_ne hp)
      (proper_ofParams hp hparams) (Nat.zero_le 1) hstmts
    rw [LocalScope.context_ofParams, Nat.zero_add] at hrun
    rw [findings_of_nodup hparams, List.append_eq_nil_iff, hrun]
    constructor
    · rintro ⟨⟨hdistinct, htyped, hmost⟩, hmissing⟩
      refine ⟨hdistinct, htyped, hmost, fun hvoid => ?_⟩
      have hsome : p.body.countP Stmt.isReturn ≠ 0 := by
        intro hzero
        rw [if_pos ⟨hzero, hvoid⟩] at hmissing
        cases hmissing
      omega
    · rintro ⟨hdistinct, htyped, hmost, hone⟩
      refine ⟨⟨hdistinct, htyped, hmost⟩, if_neg ?_⟩
      rintro ⟨hzero, hvoid⟩
      have := hone hvoid
      omega
  · constructor
    · intro h
      have hrepeated := (List.append_eq_nil_iff.1 (List.append_eq_nil_iff.1 h).1).1
      exact absurd (LocalScope.declareParams_clean .empty List.nodup_nil hrepeated) hparams
    · intro h
      have hdistinct := h.distinct
      rw [namesAfter, List.map_append, List.map_map] at hdistinct
      exact absurd (List.nodup_append.1 hdistinct).1 hparams

end Procedure

theorem Script.reflects_globals {s : Script} (hs : s.Declarable) (hnames : s.names.Nodup) :
    s.globals.Reflects s.procedures := by
  refine ⟨fun x sig => Script.lookup_globals_iff hnames,
    fun p hp => Procedure.returns_ne (hs p hp), fun p hp t ht => ?_⟩
  obtain ⟨q, hq, rfl⟩ := List.mem_map.1 ht
  have hmem : (q.name, q.type) ∈ p.namesAfter p.body :=
    List.mem_append_left _ (List.mem_map.2 ⟨q, hq, rfl⟩)
  exact Procedure.name_ne (hs p hp) hmem

theorem Script.findings_eq_nil_iff {s : Script} (hs : s.Declarable) :
    s.findings = [] ↔ s.WellTyped := by
  rw [Script.findings, List.append_eq_nil_iff, Script.repeated_eq_nil_iff,
    List.flatMap_eq_nil_iff]
  constructor
  · rintro ⟨hnames, hclean⟩
    refine ⟨hnames, fun p hp => ?_⟩
    exact (Procedure.findings_eq_nil_iff (reflects_globals hs hnames) (hs p hp)).1 (hclean p hp)
  · rintro ⟨hnames, htyped⟩
    refine ⟨hnames, fun p hp => ?_⟩
    exact (Procedure.findings_eq_nil_iff (reflects_globals hs hnames) (hs p hp)).2 (htyped p hp)

/-- For scripts whose declarations use proper types: the checker accepts a script if and
only if it is well typed, and what it gives back is that script. -/
theorem Source.checkScript_ok_iff_wellTyped (source : Source) (s : Script) (hs : s.Declarable) :
    ((∃ c, source.checkScript s = .ok c) ↔ s.WellTyped) ∧
      ∀ c, source.checkScript s = .ok c → c.script = s := by
  constructor
  · rw [← Script.findings_eq_nil_iff hs]
    constructor
    · rintro ⟨c, h⟩
      exact (Source.checkScript_eq_ok_iff.1 h).1
    · intro h
      exact ⟨⟨s, h⟩, Source.checkScript_eq_ok_iff.2 ⟨h, rfl⟩⟩
  · intro c h
    exact (Source.checkScript_eq_ok_iff.1 h).2

/-- `def f(n : Int32) : Bool is var m : Int32 := g(n); return m == n; end` and behind it
`def g(n : Int32) : Int32 is return -n; end`. -/
def Script.forwardCall : Script :=
  let at0 : Span := .point 0
  let n : Expr := .var "n" at0
  ⟨[⟨⟨"f", at0⟩, [⟨"n", .int32, at0⟩], .bool,
      [.declare ⟨"m", at0⟩ .int32 (some (.call ⟨"g", at0⟩ [n] at0 at0)) at0,
        .ret (some (.binary .eq (.var "m" at0) n at0)) at0], at0⟩,
    ⟨⟨"g", at0⟩, [⟨"n", .int32, at0⟩], .int32, [.ret (some (.unary .neg n at0)) at0], at0⟩]⟩

/-- A call of a later procedure and a use of a variable behind its declaration. -/
theorem Source.checkScript_forwardCall :
    Script.forwardCall.Declarable ∧ Script.forwardCall.WellTyped ∧
      ∃ c, Source.checkScript ⟨"main", ""⟩ Script.forwardCall = .ok c ∧
        c.script = Script.forwardCall := by
  have hs : Script.forwardCall.Declarable := by decide
  have hclean : Script.forwardCall.findings = [] := by decide +kernel
  have hc : Source.checkScript ⟨"main", ""⟩ Script.forwardCall =
      .ok ⟨Script.forwardCall, hclean⟩ := checkScript_eq_ok_iff.2 ⟨hclean, rfl⟩
  obtain ⟨hiff, hsame⟩ := checkScript_ok_iff_wellTyped ⟨"main", ""⟩ Script.forwardCall hs
  exact ⟨hs, hiff.1 ⟨_, hc⟩, _, hc, hsame _ hc⟩

end ScriptCheck
