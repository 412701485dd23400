import Mathlib.Data.List.Perm.Basic
import ScriptCheck.Proofs.Check.Accounts
import ScriptCheck.Proofs.Check.Modular
import ScriptCheck.Proofs.Reading.Nested

/-!
# Findings of different kinds or places

In a tree whose spans nest no two findings are of one kind and at one place. Each node is
judged by what it stands in and by nothing else, and what is found inside a node is never a
mismatch of the node as a whole. What is found about a procedure lies inside it, so in the
order of the text the findings are grouped by the procedures.
-/
namespace ScriptCheck

open ScriptCheck.Span (Row)

/-- Another kind of problem, or another place. -/
def Finding.Differs (f g : Finding) : Prop :=
  ¬ (f.problem.code = g.problem.code ∧ f.span = g.span)

theorem Finding.Differs.symm {f g : Finding} (h : f.Differs g) : g.Differs f :=
  fun hgf => h ⟨hgf.1.symm, hgf.2.symm⟩

theorem Finding.differs_of_span {f g : Finding} (h : f.span ≠ g.span) : f.Differs g :=
  fun hfg => h hfg.2

theorem Finding.differs_of_code {f g : Finding} (h : f.problem.code ≠ g.problem.code) :
    f.Differs g :=
  fun hfg => h hfg.1

/-- The findings lie between two offsets, and no two of them are of one kind and place. -/
structure Distinct (a b : Nat) (fs : List Finding) : Prop where
  le : a ≤ b
  between : ∀ f ∈ fs, f.span.Between a b
  differs : fs.Pairwise Finding.Differs

namespace Distinct

variable {a a' b b' c : Nat} {f : Finding} {fs gs : List Finding}

theorem nil (h : a ≤ b) : Distinct a b [] := ⟨h, List.forall_mem_nil _, .nil⟩

theorem singleton (h : f.span.Between a b) : Distinct a b [f] :=
  ⟨h.le, by simpa using h, List.pairwise_singleton _ _⟩

theorem mono (h : Distinct a b fs) (ha : a' ≤ a) (hb : b ≤ b') : Distinct a' b' fs :=
  ⟨Nat.le_trans ha (Nat.le_trans h.le hb), fun f hf => (h.between f hf).mono ha hb, h.differs⟩

theorem sublist (h : Distinct a b fs) (hs : gs.Sublist fs) : Distinct a b gs :=
  ⟨h.le, fun f hf => h.between f (hs.subset hf), h.differs.sublist hs⟩

theorem perm (h : Distinct a b fs) (hp : fs.Perm gs) : Distinct a b gs :=
  ⟨h.le, fun f hf => h.between f (hp.mem_iff.2 hf),
    (hp.pairwise_iff Finding.Differs.symm).1 h.differs⟩

theorem append_of_differs (h : Distinct a b fs) (h' : Distinct a b gs)
    (hd : ∀ f ∈ fs, ∀ g ∈ gs, f.Differs g) : Distinct a b (fs ++ gs) :=
  ⟨h.le, fun f hf => (List.mem_append.1 hf).elim (h.between f) (h'.between f),
    List.pairwise_append.2 ⟨h.differs, h'.differs, hd⟩⟩

/-- Findings that begin before an offset, and others behind it. -/
theorem append (h : Distinct a c fs) (h' : Distinct b c gs) (hab : a ≤ b)
    (hlt : ∀ f ∈ fs, f.span.start < b) : Distinct a c (fs ++ gs) := by
  refine h.append_of_differs (h'.mono hab (Nat.le_refl c)) fun f hf g hg => ?_
  refine Finding.differs_of_span fun heq => ?_
  have hf := hlt f hf
  rw [heq] at hf
  exact Nat.not_le.2 hf (h'.between g hg).le_start

/-- Findings of one part and of the part behind it. -/
theorem append_behind (h : Distinct a b fs) (h' : Distinct b c gs) : Distinct a c (fs ++ gs) :=
  (h.mono (Nat.le_refl a) h'.le).append h' h.le fun f hf => (h.between f hf).start_lt

end Distinct

theorem distinct_expectType {expected actual : Ty} {s : Span} {a b : Nat} (h : s.Between a b) :
    Distinct a b (expectType expected actual s) := by
  unfold expectType
  split
  · exact .nil h.le
  · exact .singleton h

/-! ## Expressions -/

/-- Findings inside an expression: none of them is a mismatch of the expression itself. -/
structure Expr.Judged (e : Expr) (fs : List Finding) : Prop where
  distinct : Distinct e.span.start e.span.stop fs
  own : ∀ f ∈ fs, ∀ t t', f.Differs ⟨.mismatch t t', e.span⟩

namespace Expr.Judged

variable {e : Expr} {fs : List Finding}

theorem of_span_ne (h : Distinct e.span.start e.span.stop fs) (hne : ∀ f ∈ fs, f.span ≠ e.span) :
    e.Judged fs :=
  ⟨h, fun f hf _ _ => Finding.differs_of_span (hne f hf)⟩

/-- The expression is judged as a whole once. -/
theorem expectType (h : e.Judged fs) (hne : e.span.start < e.span.stop) (t t' : Ty) :
    Distinct e.span.start e.span.stop (fs ++ expectType t t' e.span) := by
  have hspan : e.span.Between e.span.start e.span.stop := ⟨Nat.le_refl _, hne, Nat.le_refl _⟩
  refine h.distinct.append_of_differs (distinct_expectType hspan) fun f hf g hg => ?_
  rw [eq_of_mem_expectType hg]
  exact h.own f hf t t'

end Expr.Judged

/-- A complaint about a callee is about its name or about the number of arguments. -/
theorem Env.callee_findings (env : Env) (callee : Ident) (provided : Nat) (s : Span) :
    (env.callee callee provided s).2.2 = [] ∨
      (env.callee callee provided s).2.2 = [⟨.unknown callee.name, callee.span⟩] ∨
      ∃ n, (env.callee callee provided s).2.2 = [⟨.argCount n provided, s⟩] := by
  unfold Env.callee
  cases env.globals.lookup callee.name with
  | none => exact .inr (.inl rfl)
  | some sig =>
    simp only
    split
    · exact .inl rfl
    · exact .inr (.inr ⟨_, rfl⟩)

theorem operatorType_findings (result : Except OperandMismatch Ty) (place : Operand → Span) :
    (operatorType result place).2 = [] ∨
      ∃ t t' o, (operatorType result place).2 = expectType t t' (place o) := by
  cases result with
  | ok t => exact .inl rfl
  | error m => exact .inr ⟨m.expected, m.actual, m.operand, rfl⟩

section

variable {env : Env} {s : Span}

/-- What is found in a call: something about the callee, and what is found in the arguments
behind it. -/
theorem distinct_call {callee : Ident} {args : List Expr} {fs : List Finding} {provided : Nat}
    (hparts : Row s.start (callee.span :: args.map Expr.span) s.stop)
    (hargs : Distinct callee.span.stop s.stop fs) :
    Distinct s.start s.stop ((env.callee callee provided s).2.2 ++ fs) := by
  obtain ⟨hle, hlt, hrow⟩ := hparts
  have hstop := hargs.le
  have hcallee : callee.span.Between s.start s.stop := ⟨hle, hlt, hstop⟩
  have hself : s.Between s.start s.stop :=
    ⟨Nat.le_refl _, Nat.lt_of_le_of_lt hle (Nat.lt_of_lt_of_le hlt hstop), Nat.le_refl _⟩
  have hab : s.start ≤ callee.span.stop := Nat.le_trans hle (Nat.le_of_lt hlt)
  rcases env.callee_findings callee provided s with hfound | hfound | ⟨n, hfound⟩
  · rw [hfound]
    exact hargs.mono hab (Nat.le_refl _)
  · rw [hfound]
    exact (Distinct.singleton hcallee).append hargs hab (by simpa using hlt)
  · rw [hfound]
    exact (Distinct.singleton hself).append hargs hab
      (by simpa using Nat.lt_of_le_of_lt hle hlt)

theorem judged_call {callee : Ident} {args : List Expr} {fs : List Finding} {provided : Nat}
    {whole : Span} (hwhole : Row whole.start [s] whole.stop)
    (hparts : Row s.start (callee.span :: args.map Expr.span) s.stop)
    (hargs : Distinct callee.span.stop s.stop fs) :
    (Expr.call callee args s whole).Judged ((env.callee callee provided s).2.2 ++ fs) := by
  obtain ⟨hstart, _, hstop⟩ := hwhole
  refine ⟨(distinct_call hparts hargs).mono hstart hstop, fun f hf t t' => ?_⟩
  rcases List.mem_append.1 hf with hf | hf
  · refine Finding.differs_of_code ?_
    rcases env.callee_findings callee provided s with hfound | hfound | ⟨n, hfound⟩
    · rw [hfound] at hf
      cases hf
    · rw [hfound, List.mem_singleton] at hf
      simp [hf, Problem.code]
    · rw [hfound, List.mem_singleton] at hf
      simp [hf, Problem.code]
  · refine Finding.differs_of_span fun heq => ?_
    have hbehind := (hargs.between f hf).le_start
    have : f.span.start = whole.start := congrArg Span.start heq
    have := hparts.1
    have := hparts.2.1
    omega

/-- What is found between two operands: what is found in each, and one of them may be judged
by the operator. -/
theorem distinct_operands {op : BinaryOp} {left right : Expr}
    (hparts : Row s.start [left.span, right.span] s.stop)
    (hleft : left.Judged (env.infer left).2) (hright : right.Judged (env.infer right).2) :
    ∃ fs gs, (env.infer (.binary op left right s)).2.Perm (fs ++ gs) ∧
      Distinct left.span.start left.span.stop fs ∧
      Distinct right.span.start right.span.stop gs := by
  cases hsilent : (env.infer left).1.isError || (env.infer right).1.isError with
  | true =>
    rw [Env.infer_binary_silent s hsilent]
    exact ⟨_, _, .refl _, hleft.distinct, hright.distinct⟩
  | false =>
    rw [Env.infer_binary s hsilent]
    obtain ⟨_, hnel, _, hner, _⟩ := hparts
    rcases operatorType_findings (op.resultType (env.infer left).1 (env.infer right).1)
      (left.operandSpan right) with hfound | ⟨t, t', o, hfound⟩
    · simp only [hfound, List.append_nil]
      exact ⟨_, _, .refl _, hleft.distinct, hright.distinct⟩
    · simp only [hfound]
      have hswap (gs : List Finding) : ((env.infer left).2 ++ (env.infer right).2 ++ gs).Perm
          ((env.infer left).2 ++ gs ++ (env.infer right).2) := by
        rw [List.append_assoc, List.append_assoc]
        exact List.Perm.append_left _ List.perm_append_comm
      cases o with
      | right =>
        rw [List.append_assoc]
        exact ⟨_, _, .refl _, hleft.distinct, hright.expectType hner t t'⟩
      | left => exact ⟨_, _, hswap _, hleft.expectType hnel t t', hright.distinct⟩
      | only => exact ⟨_, _, hswap _, hleft.expectType hnel t t', hright.distinct⟩

theorem judged_binary {op : BinaryOp} {left right : Expr}
    (hparts : Row s.start [left.span, right.span] s.stop)
    (hleft : left.Judged (env.infer left).2) (hright : right.Judged (env.infer right).2) :
    (Expr.binary op left right s).Judged (env.infer (.binary op left right s)).2 := by
  obtain ⟨fs, gs, hperm, hfs, hgs⟩ := distinct_operands hparts hleft hright
  obtain ⟨hle, hnel, hapart, hner, hstop⟩ := hparts
  have hstop : right.span.stop ≤ s.stop := hstop
  refine .of_span_ne ?_ fun f hf heq => ?_
  · refine Distinct.perm ?_ hperm.symm
    exact ((hfs.mono hle hapart).append_behind hgs).mono (Nat.le_refl _) hstop
  · -- What is found in one operand does not reach over the other.
    have hspan : f.span.start = s.start ∧ f.span.stop = s.stop := by
      rw [heq]
      exact ⟨rfl, rfl⟩
    rcases List.mem_append.1 (hperm.mem_iff.1 hf) with hf | hf
    · have := (hfs.between f hf).stop_le
      omega
    · have := (hgs.between f hf).le_start
      omega

theorem judged_unary {op : UnaryOp} {operand : Expr}
    (hparts : Row (s.start + 1) [operand.span] s.stop)
    (h : operand.Judged (env.infer operand).2) :
    (Expr.unary op operand s).Judged (env.infer (.unary op operand s)).2 := by
  obtain ⟨hle, hne, hstop⟩ := hparts
  have hinside : Distinct operand.span.start operand.span.stop
      (env.infer (.unary op operand s)).2 := by
    cases hsilent : (env.infer operand).1.isError with
    | true =>
      rw [Env.infer_unary_silent s hsilent]
      exact h.distinct
    | false =>
      rw [Env.infer_unary s hsilent]
      rcases operatorType_findings (op.resultType (env.infer operand).1)
        (fun _ => operand.span) with hfound | ⟨t, t', o, hfound⟩
      · simp only [hfound, List.append_nil]
        exact h.distinct
      · simp only [hfound]
        exact h.expectType hne t t'
  refine .of_span_ne (hinside.mono (Nat.le_of_succ_le hle) hstop) fun f hf heq => ?_
  have := (hinside.between f hf).le_start
  rw [heq] at this
  exact Nat.not_le.2 hle this

end

mutual

theorem Env.judged_infer (env : Env) : ∀ e : Expr, e.Nested → e.Judged (env.infer e).2
  | .int _ s, h => ⟨.nil (Nat.le_of_lt h.nonempty), List.forall_mem_nil _⟩
  | .bool _ s, h => ⟨.nil (Nat.le_of_lt h.nonempty), List.forall_mem_nil _⟩
  | .var x s, h => by
    rw [Env.infer, Env.resolve]
    cases env.scope.lookup x with
    | some b => exact ⟨.nil (Nat.le_of_lt h.nonempty), List.forall_mem_nil _⟩
    | none =>
      refine ⟨.singleton ⟨Nat.le_refl _, h.nonempty, Nat.le_refl _⟩, fun f hf t t' => ?_⟩
      rw [List.mem_singleton.1 hf]
      exact Finding.differs_of_code (by simp [Problem.code])
  | .call callee args callSpan s, .call hspan hparts hargs => by
    rw [Env.infer]
    exact judged_call hspan hparts (env.distinct_inferArgs args _ hargs hparts.2.2)
  | .binary op left right s, .binary hparts hleft hright =>
    judged_binary hparts (env.judged_infer left hleft) (env.judged_infer right hright)
  | .unary op operand s, .unary hparts h => judged_unary hparts (env.judged_infer operand h)

theorem Env.distinct_inferArgs (env : Env) : ∀ (args : List Expr) (types : List Ty) {a b : Nat},
    (∀ e ∈ args, e.Nested) → Row a (args.map Expr.span) b →
      Distinct a b (env.inferArgs types args)
  | [], _, _, _, _, hrow => .nil hrow
  | arg :: args, types, a, b, h, hrow => by
    obtain ⟨harg, hargs⟩ := List.forall_mem_cons.1 h
    obtain ⟨hle, hne, hrest⟩ := hrow
    have hjudged := env.judged_infer arg harg
    have hmore := env.distinct_inferArgs args types.tail hargs hrest
    rw [Env.inferArgs]
    cases types with
    | nil =>
      refine ((?_ : Distinct _ _ _).mono hle (Nat.le_refl _)).append_behind hmore
      rw [List.append_nil]
      exact hjudged.distinct
    | cons expected types =>
      exact ((hjudged.expectType hne _ _).mono hle (Nat.le_refl _)).append_behind hmore

end

theorem Env.distinct_expect (env : Env) {e : Expr} (h : e.Nested) (expected : Ty) :
    Distinct e.span.start e.span.stop (env.expect expected e) :=
  (env.judged_infer e h).expectType h.nonempty _ _

/-! ## Statements -/

theorem LocalScope.distinct_declare (scope : LocalScope) (x : String) {b : Binding} {a c : Nat}
    (h : b.span.Between a c) : Distinct a c (scope.declare x b).2 := by
  by_cases hx : x ∈ scope.names
  · rw [LocalScope.declare_of_mem hx]
    exact .singleton h
  · rw [LocalScope.declare_of_not_mem hx]
    exact .nil h.le

namespace Progress

variable (globals : GlobalTable) (expected : Ty) (p : Progress)

theorem distinct_step_declare {target : Ident} {type : Ty} {init : Option Expr} {s : Span}
    (hparts : Row s.start (target.span :: init.toList.map Expr.span) s.stop)
    (hinit : ∀ e ∈ init, e.Nested) :
    Distinct s.start s.stop (p.step globals expected (.declare target type init s)).2 := by
  obtain ⟨hle, hne, hrow⟩ := hparts
  have hdup : Distinct s.start target.span.stop
      (p.scope.declare target.name ⟨.var, type, target.span⟩).2 :=
    LocalScope.distinct_declare _ _ ⟨hle, hne, Nat.le_refl _⟩
  cases init with
  | none => exact hdup.mono (Nat.le_refl _) hrow
  | some e =>
    have hvalue := Env.distinct_expect ⟨globals, p.scope⟩ (hinit e rfl) type
    obtain ⟨hbehind, _, hstop⟩ := hrow
    exact (hdup.append_behind (hvalue.mono hbehind hstop)).perm List.perm_append_comm

theorem distinct_step_assign {target : Ident} {value : Expr} {s : Span}
    (hparts : Row s.start [target.span, value.span] s.stop) (hvalue : value.Nested) :
    Distinct s.start s.stop (p.step globals expected (.assign target value s)).2 := by
  obtain ⟨hle, hne, hbehind, _, hstop⟩ := hparts
  have htarget : target.span.Between s.start target.span.stop := ⟨hle, hne, Nat.le_refl _⟩
  have hmissing : Distinct s.start target.span.stop
      (Env.resolve ⟨globals, p.scope⟩ target.name target.span).2 := by
    unfold Env.resolve
    cases p.scope.lookup target.name with
    | some b => exact .nil htarget.le
    | none => exact .singleton htarget
  exact hmissing.append_behind
    ((Env.distinct_expect ⟨globals, p.scope⟩ hvalue _).mono hbehind hstop)

theorem distinct_step_call {c : Call} {s : Span} (hspan : Row s.start [c.span] s.stop)
    (hcall : c.Nested) : Distinct s.start s.stop (p.step globals expected (.call c s)).2 := by
  have hargs := Env.distinct_inferArgs ⟨globals, p.scope⟩ c.args
    (Env.callee ⟨globals, p.scope⟩ c.callee c.args.length c.span).1 hcall.args hcall.parts.2.2
  exact (distinct_call hcall.parts hargs).mono hspan.1 hspan.2.2

/-- The surplus return is a problem of another kind than its value. -/
theorem distinct_step_ret {value : Option Expr} {s : Span}
    (hparts : Row (s.start + 1) (value.toList.map Expr.span) s.stop)
    (hvalue : ∀ e ∈ value, e.Nested) :
    Distinct s.start s.stop (p.step globals expected (.ret value s)).2 := by
  have hself : s.Between s.start s.stop := ⟨Nat.le_refl _, hparts.le, Nat.le_refl _⟩
  have hsurplus : Distinct s.start s.stop
      (if p.returns = 1 then [(⟨.returnCount 1, s⟩ : Finding)] else []) := by
    split
    · exact .singleton hself
    · exact .nil hself.le
  cases value with
  | none =>
    refine hsurplus.append_of_differs (distinct_expectType hself) fun f hf g hg => ?_
    rw [List.mem_singleton.1 (List.mem_ite_nil_right.1 hf).2, eq_of_mem_expectType hg]
    exact Finding.differs_of_code (by simp [Problem.code])
  | some e =>
    obtain ⟨hbehind, _, hstop⟩ := hparts
    have hinside := (Env.distinct_expect ⟨globals, p.scope⟩ (hvalue e rfl) expected).mono
      hbehind hstop
    refine hsurplus.append hinside (Nat.le_succ _) fun f hf => ?_
    rw [List.mem_singleton.1 (List.mem_ite_nil_right.1 hf).2]
    exact Nat.lt_succ_self _

theorem distinct_step {stmt : Stmt} (h : stmt.Nested) :
    Distinct stmt.span.start stmt.span.stop (p.step globals expected stmt).2 := by
  cases h with
  | declare hparts hinit => exact distinct_step_declare globals expected p hparts hinit
  | assign hparts hvalue => exact distinct_step_assign globals expected p hparts hvalue
  | call hspan hcall => exact distinct_step_call globals expected p hspan hcall
  | ret hparts hvalue => exact distinct_step_ret globals expected p hparts hvalue

/-- What one statement adds stands behind what was found before. -/
theorem distinct_run {stmts : List Stmt} {a b : Nat} (h : ∀ stmt ∈ stmts, stmt.Nested)
    (hrow : Row a (stmts.map Stmt.span) b) :
    Distinct a b (Progress.run globals expected p stmts).2 := by
  induction stmts generalizing a p with
  | nil => exact .nil hrow
  | cons stmt stmts ih =>
    obtain ⟨hstmt, hstmts⟩ := List.forall_mem_cons.1 h
    obtain ⟨hle, _, hmore⟩ := hrow
    exact ((distinct_step globals expected p hstmt).mono hle (Nat.le_refl _)).append_behind
      (ih _ hstmts hmore)

end Progress

/-! ## Procedures -/

theorem LocalScope.distinct_declareParams (scope : LocalScope) {params : List Param} {a b : Nat}
    (hrow : Row a (params.map Param.span) b) : Distinct a b (scope.declareParams params).2 := by
  induction params generalizing a scope with
  | nil => exact .nil hrow
  | cons p ps ih =>
    obtain ⟨hle, hne, hmore⟩ := hrow
    have hfirst : Distinct a p.span.stop (scope.declare p.name ⟨.param, p.type, p.span⟩).2 :=
      LocalScope.distinct_declare scope p.name ⟨hle, hne, Nat.le_refl _⟩
    exact hfirst.append_behind (ih _ hmore)

namespace Procedure

variable (globals : GlobalTable) (p : Procedure)

/-- The findings about parameters and statements. -/
def innerFindings : List Finding :=
  (LocalScope.declareParams .empty p.params).2 ++
    (Progress.run globals p.returns ⟨(LocalScope.declareParams .empty p.params).1, 0⟩ p.body).2

/-- All that can be found about a procedure: that its name is taken, and what is found in it. -/
def allFindings : List Finding := GlobalTable.refusal p :: p.findings globals

variable {p}

theorem distinct_innerFindings (h : p.Nested) :
    Distinct p.name.span.stop p.span.stop (p.innerFindings globals) := by
  obtain ⟨b, hparams, hbody⟩ := Row.append_iff.1 h.parts.2.2
  exact (LocalScope.distinct_declareParams .empty hparams).append_behind
    (Progress.distinct_run globals p.returns _ h.body hbody)

/-- A name may be taken and its procedure lack a return: two kinds of problems at one place.
All else is found behind the name. -/
theorem distinct_allFindings (h : p.Nested) :
    Distinct p.span.start p.span.stop (p.allFindings globals) := by
  obtain ⟨missing, hmissing, hfindings⟩ : ∃ missing : List Finding,
      (missing = [] ∨ missing = [⟨.returnCount 1, p.name.span⟩]) ∧
        p.findings globals = p.innerFindings globals ++ missing := by
    refine ⟨_, ?_, rfl⟩
    split
    · exact .inr rfl
    · exact .inl rfl
  obtain ⟨hle, hne, hrow⟩ := h.parts
  have hname : p.name.span.Between p.span.start p.span.stop := ⟨hle, hne, hrow.le⟩
  have hkinds : (GlobalTable.refusal p).Differs ⟨.returnCount 1, p.name.span⟩ :=
    Finding.differs_of_code (by simp [GlobalTable.refusal, Problem.code])
  have hhead : ∀ f ∈ GlobalTable.refusal p :: missing, f.span = p.name.span := by
    rcases hmissing with rfl | rfl <;> simp [GlobalTable.refusal]
  have hdiffers : (GlobalTable.refusal p :: missing).Pairwise Finding.Differs := by
    rcases hmissing with rfl | rfl
    · exact List.pairwise_singleton _ _
    · simpa using hkinds
  have hfirst : Distinct p.span.start p.span.stop (GlobalTable.refusal p :: missing) :=
    ⟨hname.le, fun f hf => (hhead f hf).symm ▸ hname, hdiffers⟩
  rw [allFindings, hfindings]
  refine (hfirst.append (distinct_innerFindings globals h) (Nat.le_trans hle (Nat.le_of_lt hne))
    fun f hf => ?_).perm (List.perm_append_comm.cons _)
  rw [hhead f hf]
  exact hne

end Procedure

/-! ## Scripts -/

namespace Script

variable {s : Script} {n : Nat}

theorem distinct_flatMap (globals : GlobalTable) {ps : List Procedure} {a b : Nat}
    (h : ∀ p ∈ ps, p.Nested) (hrow : Row a (ps.map Procedure.span) b) :
    Distinct a b (ps.flatMap (Procedure.allFindings globals)) := by
  induction ps generalizing a with
  | nil => exact .nil hrow
  | cons p ps ih =>
    obtain ⟨hp, hps⟩ := List.forall_mem_cons.1 h
    obtain ⟨hle, _, hmore⟩ := hrow
    rw [List.flatMap_cons]
    exact ((Procedure.distinct_allFindings globals hp).mono hle (Nat.le_refl _)).append_behind
      (ih hps hmore)

/-- What is found in a script is found about its procedures. -/
theorem findings_sublist (s : Script) : ∃ fs, s.findings.Sublist fs ∧
    fs.Perm (s.procedures.flatMap (Procedure.allFindings s.globals)) :=
  ⟨_, (GlobalTable.sublist_declareAll _ _).append (List.Sublist.refl _),
    List.map_append_flatMap_perm _ _ _⟩

theorem distinct_findings (h : s.Nested n) : Distinct 0 n s.findings := by
  obtain ⟨fs, hsub, hperm⟩ := s.findings_sublist
  exact ((distinct_flatMap s.globals h.procedures h.parts).perm hperm.symm).sublist hsub

theorem exists_between (h : s.Nested n) {f : Finding} (hf : f ∈ s.findings) :
    ∃ p ∈ s.procedures, f.span.Between p.span.start p.span.stop := by
  obtain ⟨fs, hsub, hperm⟩ := s.findings_sublist
  obtain ⟨p, hp, hfp⟩ := List.mem_flatMap.1 (hperm.mem_iff.1 (hsub.subset hf))
  exact ⟨p, hp, (Procedure.distinct_allFindings s.globals (h.procedures p hp)).between f hfp⟩

end Script

/-! ## Groups -/

/-- Does a span lie inside another one? -/
def Span.isWithin (s t : Span) : Bool := t.start ≤ s.start && s.stop ≤ t.stop

theorem Span.isWithin_iff {s t : Span} :
    s.isWithin t = true ↔ t.start ≤ s.start ∧ s.stop ≤ t.stop := by
  simp only [isWithin, Bool.and_eq_true, decide_eq_true_eq]

section

variable {s t : Span} {ts : List Span} {a b : Nat}

/-- What lies inside a span of a row stands behind everything in front of the row. -/
theorem Span.Row.le_start_of_isWithin (h : Row a ts b) (ht : t ∈ ts) (hs : s.isWithin t = true) :
    a ≤ s.start :=
  Nat.le_trans (h.between_of_mem ht).le_start (isWithin_iff.1 hs).1

theorem Span.isWithin_eq_false (hne : s.start < s.stop) (h : t.stop ≤ s.start) :
    s.isWithin t = false := by
  refine Bool.eq_false_iff.2 fun hin => ?_
  have := (isWithin_iff.1 hin).2
  omega

end

/-- A sorted list whose items of one sort come before all others. -/
theorem Order.eq_filter_append {α : Type} {key : α → Nat} {xs : List α} {q : α → Bool}
    (hsorted : Sorted key xs)
    (hq : ∀ x ∈ xs, ∀ y ∈ xs, q x = true → q y = false → key x < key y) :
    xs = xs.filter q ++ xs.filter (!q ·) := by
  induction xs with
  | nil => rfl
  | cons x xs ih =>
    obtain ⟨hx, hxs⟩ := List.pairwise_cons.1 hsorted
    cases hqx : q x with
    | true =>
      have hrest := ih hxs fun y hy z hz =>
        hq y (List.mem_cons_of_mem _ hy) z (List.mem_cons_of_mem _ hz)
      simp only [List.filter_cons, hqx]
      exact congrArg (x :: ·) hrest
    | false =>
      have hnone : ∀ y ∈ xs, q y = false := by
        intro y hy
        refine Bool.eq_false_iff.2 fun hqy => ?_
        have := hq y (List.mem_cons_of_mem _ hy) x List.mem_cons_self hqy hqx
        exact Nat.not_le.2 this (hx y hy)
      have hfilter : xs.filter q = [] := List.filter_eq_nil_iff.2 fun y hy => by simp [hnone y hy]
      have hall : xs.filter (!q ·) = xs := List.filter_eq_self.2 fun y hy => by simp [hnone y hy]
      simp only [List.filter_cons, hqx, hfilter, hall]
      rfl

/-- Sorted findings inside procedures in a row are those of the first procedure, then those of
the second, and so on. -/
theorem eq_flatMap_filter {ps : List Procedure} {fs : List Finding} {a b : Nat}
    (hrow : Row a (ps.map Procedure.span) b) (hsorted : Order.Sorted (·.span.start) fs)
    (hfs : ∀ f ∈ fs, f.span.start < f.span.stop ∧ ∃ p ∈ ps, f.span.isWithin p.span = true) :
    fs = ps.flatMap fun p => fs.filter (·.span.isWithin p.span) := by
  induction ps generalizing fs a with
  | nil =>
    refine List.eq_nil_iff_forall_not_mem.2 fun f hf => ?_
    obtain ⟨_, p, hp, _⟩ := hfs f hf
    cases hp
  | cons p ps ih =>
    obtain ⟨_, _, hmore⟩ := hrow
    let later := fs.filter fun f => !f.span.isWithin p.span
    -- What is not in the first procedure is in a later one, and so behind it.
    have hlater : ∀ f ∈ fs, f.span.isWithin p.span = false →
        ∃ q ∈ ps, f.span.isWithin q.span = true := by
      intro f hf hout
      obtain ⟨_, q, hq, hin⟩ := hfs f hf
      rcases List.mem_cons.1 hq with rfl | hq
      · rw [hout] at hin
        cases hin
      · exact ⟨q, hq, hin⟩
    have hsplit : fs = fs.filter (·.span.isWithin p.span) ++ later := by
      refine Order.eq_filter_append hsorted fun f hf g hg hin hout => ?_
      obtain ⟨q, hq, hgq⟩ := hlater g hg hout
      have := hmore.le_start_of_isWithin (List.mem_map_of_mem hq) hgq
      have := (Span.isWithin_iff.1 hin).2
      have := (hfs f hf).1
      omega
    have hrest : later = ps.flatMap fun q => later.filter (·.span.isWithin q.span) := by
      refine ih hmore (hsorted.sublist List.filter_sublist) fun f hf => ?_
      obtain ⟨hf, hout⟩ := List.mem_filter.1 hf
      exact ⟨(hfs f hf).1, hlater f hf (by simpa using hout)⟩
    have hgroup : ∀ q ∈ ps, later.filter (·.span.isWithin q.span) =
        fs.filter (·.span.isWithin q.span) := by
      intro q hq
      rw [List.filter_filter]
      refine List.filter_congr fun f hf => ?_
      cases hin : f.span.isWithin q.span with
      | false => rfl
      | true =>
        have hbehind := hmore.le_start_of_isWithin (List.mem_map_of_mem hq) hin
        simp [Span.isWithin_eq_false (hfs f hf).1 hbehind]
    rw [List.flatMap_cons]
    exact hsplit.trans (congrArg _ (hrest.trans (List.flatMap_congr hgroup)))

/-- A span that is not empty lies inside one span of a row at most. -/
theorem Procedure.eq_of_isWithin {ps : List Procedure} {a b : Nat} {s : Span}
    (hrow : Row a (ps.map Procedure.span) b) (hne : s.start < s.stop) {i j : Fin ps.length}
    (hi : s.isWithin (ps.get i).span = true) (hj : s.isWithin (ps.get j).span = true) : i = j := by
  have hpair := List.pairwise_iff_getElem.1 (List.pairwise_map.1 hrow.pairwise)
  rw [Span.isWithin_iff, List.get_eq_getElem] at hi hj
  rcases Nat.lt_trichotomy i j with hlt | heq | hlt
  · have := hpair i j i.isLt j.isLt hlt
    omega
  · exact Fin.ext heq
  · have := hpair j i j.isLt i.isLt hlt
    omega

/-- No problem is reported twice, and reports are grouped by procedure. If a text is a script
with diagnostics, no two of them are of one kind and at one place, each lies inside one
procedure and no other, and all of them are, in their order, those of the first procedure by
where they begin, then those of the second, and so on. -/
theorem Source.diagnostics_grouped (source : Source) (s : Script) (ds : List Diagnostic)
    (hread : Script.read source.text = .ok s) (hds : source.analyze = .error ds) :
    (ds.Pairwise fun d e => ¬ (d.problem.code = e.problem.code ∧
      d.location.span = e.location.span)) ∧
    (∀ d ∈ ds, ∃! i : Fin s.procedures.length,
      d.location.span.isWithin (s.procedures.get i).span = true) ∧
    ds = s.procedures.flatMap (fun p => ds.filter (·.location.span.isWithin p.span)) ∧
    ∀ p ∈ s.procedures,
      Order.Sorted (·.location.span.start) (ds.filter (·.location.span.isWithin p.span)) := by
  obtain ⟨n, hnested⟩ := Script.nested_of_read hread
  have hdistinct := Script.distinct_findings hnested
  let fs := Order.sort (·.span.start) s.findings
  have hperm : fs.Perm s.findings := Order.sort_perm _ _
  have hsorted : Order.Sorted (·.span.start) fs := Order.sorted_sort _ _
  obtain rfl : ds = fs.map (Finding.locate source) := by
    have hdiagnostics := source.diagnostics_checkScript s
    simp only [Source.analyze, hread] at hds
    rwa [hds] at hdiagnostics
  have hwithin : ∀ f ∈ fs, f.span.start < f.span.stop ∧
      ∃ p ∈ s.procedures, f.span.isWithin p.span = true := by
    intro f hf
    obtain ⟨p, hp, hbetween⟩ := Script.exists_between hnested (hperm.mem_iff.1 hf)
    exact ⟨hbetween.nonempty, p, hp, Span.isWithin_iff.2 ⟨hbetween.le_start, hbetween.stop_le⟩⟩
  have hgroup (p : Procedure) : (fs.map (Finding.locate source)).filter
      (·.location.span.isWithin p.span) =
        (fs.filter (·.span.isWithin p.span)).map (Finding.locate source) := List.filter_map
  refine ⟨?_, ?_, ?_, ?_⟩
  · exact List.pairwise_map.2 ((hperm.pairwise_iff Finding.Differs.symm).2 hdistinct.differs)
  · intro d hd
    obtain ⟨f, hf, rfl⟩ := List.mem_map.1 hd
    obtain ⟨hne, p, hp, hin⟩ := hwithin f hf
    obtain ⟨i, rfl⟩ := List.mem_iff_get.1 hp
    exact ⟨i, hin, fun j hj => Procedure.eq_of_isWithin hnested.parts hne hj hin⟩
  · simp only [hgroup]
    rw [← List.map_flatMap, ← eq_flatMap_filter hnested.parts hsorted hwithin]
  · intro p _
    rw [hgroup]
    exact List.pairwise_map.2 (hsorted.sublist List.filter_sublist)

/-- Two procedures of one name, the second without the return it needs: two of the problems
are at one place and several of one kind. -/
theorem Source.diagnostics_grouped_homonyms :
    let source : Source := ⟨"main", "def f(x : Bool) : Void is f(-(x), f(2)); end " ++
      "def f(x : Bool, x : Int32) : Int32 is end"⟩
    ∃ s ds, Script.read source.text = .ok s ∧ source.analyze = .error ds ∧
      ds.map (fun d => (d.problem.code, d.location.span)) =
        [("ArgCountMismatch", ⟨26, 39⟩), ("TypeMismatch", ⟨29, 32⟩), ("TypeMismatch", ⟨36, 37⟩),
          ("DupSymbol", ⟨49, 50⟩), ("TooFewOrTooManyReturns", ⟨49, 50⟩),
          ("DupSymbol", ⟨61, 70⟩)] ∧
      ds = s.procedures.flatMap fun p => ds.filter (·.location.span.isWithin p.span) := by
  intro source
  have hclean : (Script.harvest source.text).faults = [] := by decide +kernel
  have hread : Script.read source.text = .ok ⟨(Script.harvest source.text).procedures⟩ :=
    Script.read_eq_ok_iff_harvest.2 ⟨hclean, rfl⟩
  have hkinds : source.analyze.diagnostics.map (fun d => (d.problem.code, d.location.span)) =
      [("ArgCountMismatch", ⟨26, 39⟩), ("TypeMismatch", ⟨29, 32⟩), ("TypeMismatch", ⟨36, 37⟩),
        ("DupSymbol", ⟨49, 50⟩), ("TooFewOrTooManyReturns", ⟨49, 50⟩),
        ("DupSymbol", ⟨61, 70⟩)] := by decide +kernel
  cases hds : source.analyze with
  | ok c =>
    rw [hds] at hkinds
    cases hkinds
  | error ds =>
    rw [hds] at hkinds
    exact ⟨_, ds, hread, rfl, hkinds, (diagnostics_grouped source _ ds hread hds).2.2.1⟩

end ScriptCheck
