import Mathlib.Data.List.Forall2
import ScriptCheck.Proofs.Scope

/-!
# The type of faulty expressions only silences

Declared types of a script can be replaced by the type that faulty expressions have. That
type agrees with every other, so the check of the new script walks through the old one and
finds the same or less at every step: no finding appears, and those that stay keep their
order, also after sorting. The return type `Void` is the one declaration that must stay,
since it is what excuses a procedure from returning.
-/
namespace ScriptCheck

/-! ## Sorting a part of a list -/

namespace Order

variable {α : Type} {key : α → Nat} {xs ys : List α}

theorem insert_of_le {x : α} (h : ∀ y ∈ ys, key x ≤ key y) : insert key x ys = x :: ys := by
  cases ys with
  | nil => rfl
  | cons y ys => rw [insert, if_pos (h y List.mem_cons_self)]

theorem sublist_insert (x : α) (ys : List α) : ys.Sublist (insert key x ys) := by
  induction ys with
  | nil => exact List.nil_sublist _
  | cons y ys ih =>
    rw [insert]
    split
    · exact List.sublist_cons_self x _
    · exact ih.cons_cons y

theorem insert_sublist (h : xs.Sublist ys) (hs : Sorted key ys) (x : α) :
    (insert key x xs).Sublist (insert key x ys) := by
  induction h with
  | slnil => exact List.Sublist.refl _
  | @cons xs ys y h ih =>
    obtain ⟨hy, hys⟩ := List.pairwise_cons.1 hs
    rw [insert]
    split
    · next hle =>
      -- The item goes in front of `y`, and so in front of all that is kept of the rest.
      have hfirst : ∀ z ∈ xs, key x ≤ key z := by
        intro z hz
        have := hy z (h.subset hz)
        omega
      rw [insert_of_le hfirst]
      exact (h.cons y).cons_cons x
    · exact (ih hys).cons y
  | @cons_cons xs ys y h ih =>
    obtain ⟨_, hys⟩ := List.pairwise_cons.1 hs
    rw [insert, insert]
    split
    · exact (h.cons_cons y).cons_cons x
    · exact (ih hys).cons_cons y

/-- Sorting is stable: a part of a list, sorted, is a part of the sorted list. -/
theorem sort_sublist (h : xs.Sublist ys) : (sort key xs).Sublist (sort key ys) := by
  induction h with
  | slnil => exact List.Sublist.refl _
  | @cons xs ys y h ih => exact ih.trans (sublist_insert y (sort key ys))
  | @cons_cons xs ys y h ih => exact insert_sublist ih (sorted_sort key ys) y

end Order

/-! ## Replaced types -/

/-- The type is kept, or replaced by that of faulty expressions. -/
def Ty.Silenced (t t' : Ty) : Prop := t' = t ∨ t' = .error

inductive Param.Silenced : Param → Param → Prop where
  | same (p : Param) : Silenced p p
  | type (p : Param) : Silenced p { p with type := .error }

inductive Stmt.Silenced : Stmt → Stmt → Prop where
  | same (stmt : Stmt) : Silenced stmt stmt
  | type (target : Ident) (t : Ty) (init : Option Expr) (s : Span) :
      Silenced (.declare target t init s) (.declare target .error init s)

/-- Some types of parameters and variables are replaced, and perhaps the return type, unless
it is `Void`. -/
structure Procedure.Silenced (p p' : Procedure) : Prop where
  name : p'.name = p.name
  params : List.Forall₂ Param.Silenced p.params p'.params
  returns : p'.returns = p.returns ∨ p.returns ≠ .void ∧ p'.returns = .error
  body : List.Forall₂ Stmt.Silenced p.body p'.body
  span : p'.span = p.span

/-- The second script is the first with some declared types replaced by the type of faulty
expressions. -/
def Script.Silenced (s s' : Script) : Prop :=
  List.Forall₂ Procedure.Silenced s.procedures s'.procedures

theorem Ty.Silenced.refl (t : Ty) : t.Silenced t := .inl rfl

theorem Ty.silenced_error (t : Ty) : t.Silenced .error := .inr rfl

theorem Param.Silenced.type_silenced {p p' : Param} (h : p.Silenced p') :
    p.type.Silenced p'.type := by
  cases h with
  | same => exact .refl _
  | type => exact Ty.silenced_error _

theorem Procedure.Silenced.returns_silenced {p p' : Procedure} (h : p.Silenced p') :
    p.returns.Silenced p'.returns :=
  h.returns.imp_right (·.2)

theorem Procedure.Silenced.returns_void_iff {p p' : Procedure} (h : p.Silenced p') :
    p'.returns = .void ↔ p.returns = .void := by
  rcases h.returns with hsame | ⟨hvoid, herror⟩
  · rw [hsame]
  · rw [herror]
    constructor
    · intro h
      cases h
    · intro h
      exact absurd h hvoid

/-! ## Tables that bind the same names -/

namespace Table

variable {α : Type} {R : α → α → Prop} {t t' : Table α} {a a' : α}

/-- The tables bind the same names in the same order, to entries that stand in `R`. -/
def Related (R : α → α → Prop) (t t' : Table α) : Prop :=
  List.Forall₂ (fun entry entry' => entry'.1 = entry.1 ∧ R entry.2 entry'.2) t.entries t'.entries

theorem related_empty : (empty : Table α).Related R empty := List.Forall₂.nil

/-- A name is bound in both tables or in none, and what it is bound to is related. -/
theorem Related.lookup (h : t.Related R t') (x : String) :
    Option.Rel R (t.lookup x) (t'.lookup x) := by
  unfold Related at h
  unfold Table.lookup
  generalize t.entries = entries at h ⊢
  generalize t'.entries = entries' at h ⊢
  induction h with
  | nil => exact .none
  | @cons entry entry' entries entries' hentry _ ih =>
    obtain ⟨y, a⟩ := entry
    obtain ⟨y', a'⟩ := entry'
    obtain ⟨hy, ha⟩ := hentry
    dsimp only at hy ha
    subst hy
    rw [List.lookup_cons, List.lookup_cons]
    cases x == y' with
    | true => exact .some ha
    | false => exact ih

/-- A definition of related entries is refused in both tables, or taken in both. -/
theorem Related.define (h : t.Related R t') (x : String) (ha : R a a') :
    (t.define x a = .error a ∧ t'.define x a' = .error a') ∨
      ∃ more more', t.define x a = .ok more ∧ t'.define x a' = .ok more' ∧
        more.Related R more' := by
  have hx := h.lookup x
  unfold Table.define
  cases hl : t.lookup x with
  | some b =>
    cases hl' : t'.lookup x with
    | some b' => exact .inl ⟨rfl, rfl⟩
    | none => rw [hl, hl'] at hx; cases hx
  | none =>
    cases hl' : t'.lookup x with
    | some b' => rw [hl, hl'] at hx; cases hx
    | none =>
      refine .inr ⟨_, _, rfl, rfl, ?_⟩
      exact List.rel_append h (.cons ⟨rfl, ha⟩ .nil)

end Table

/-- What is known of a parameter or variable, apart from a replaced type. -/
structure Binding.Silenced (b b' : Binding) : Prop where
  kind : b'.kind = b.kind
  span : b'.span = b.span
  type : b.type.Silenced b'.type

/-- What is known of a procedure, apart from replaced types. -/
structure Signature.Silenced (sig sig' : Signature) : Prop where
  name : sig'.name = sig.name
  span : sig'.span = sig.span
  types : List.Forall₂ Ty.Silenced sig.types sig'.types
  returns : sig.returns.Silenced sig'.returns

structure Env.Silenced (env env' : Env) : Prop where
  globals : env.globals.Related Signature.Silenced env'.globals
  scope : env.scope.Related Binding.Silenced env'.scope

theorem Procedure.Silenced.signature {p p' : Procedure} (h : p.Silenced p') :
    p.signature.Silenced p'.signature := by
  constructor
  · exact congrArg Ident.name h.name
  · exact congrArg Ident.span h.name
  · show List.Forall₂ Ty.Silenced (p.params.map (·.type)) (p'.params.map (·.type))
    rw [List.forall₂_map_left_iff, List.forall₂_map_right_iff]
    exact h.params.imp fun _ _ hq => hq.type_silenced
  · exact h.returns_silenced

/-! ## Expressions -/

/-- With some types replaced, the type is the same or that of faulty expressions, and what is
found is a part of what is found without. -/
def Quieter (r r' : Ty × List Finding) : Prop := r.1.Silenced r'.1 ∧ r'.2.Sublist r.2

theorem expectType_silenced {expected expected' actual actual' : Ty} (s : Span)
    (he : expected.Silenced expected') (ha : actual.Silenced actual') :
    (expectType expected' actual' s).Sublist (expectType expected actual s) := by
  rcases he with rfl | rfl
  · rcases ha with rfl | rfl
    · exact List.Sublist.refl _
    · exact List.nil_sublist _
  · rw [expectType, if_pos (Ty.agrees_error actual')]
    exact List.nil_sublist _

section

variable {env env' : Env}

theorem Env.resolve_silenced (h : env.Silenced env') (x : String) (s : Span) :
    Quieter (env.resolve x s) (env'.resolve x s) := by
  have hx := h.scope.lookup x
  unfold Env.resolve
  cases hl : env.scope.lookup x with
  | none =>
    cases hl' : env'.scope.lookup x with
    | none => exact ⟨.refl _, List.Sublist.refl _⟩
    | some b' => rw [hl, hl'] at hx; cases hx
  | some b =>
    cases hl' : env'.scope.lookup x with
    | none => rw [hl, hl'] at hx; cases hx
    | some b' =>
      rw [hl, hl'] at hx
      cases hx with
      | some hb => exact ⟨hb.type, List.Sublist.refl _⟩

/-- The same complaints about the callee, and as many types to expect of arguments. -/
theorem Env.callee_silenced (h : env.Silenced env') (callee : Ident) (provided : Nat) (s : Span) :
    List.Forall₂ Ty.Silenced (env.callee callee provided s).1 (env'.callee callee provided s).1 ∧
      Quieter (env.callee callee provided s).2 (env'.callee callee provided s).2 := by
  have hx := h.globals.lookup callee.name
  unfold Env.callee
  cases hl : env.globals.lookup callee.name with
  | none =>
    cases hl' : env'.globals.lookup callee.name with
    | none => exact ⟨.nil, .refl _, List.Sublist.refl _⟩
    | some sig' => rw [hl, hl'] at hx; cases hx
  | some sig =>
    cases hl' : env'.globals.lookup callee.name with
    | none => rw [hl, hl'] at hx; cases hx
    | some sig' =>
      rw [hl, hl'] at hx
      cases hx with
      | some hsig =>
        have hlength : sig'.types.length = sig.types.length := hsig.types.length_eq.symm
        refine ⟨hsig.types, hsig.returns, ?_⟩
        simp only [hlength]
        exact List.Sublist.refl _

theorem Env.infer_unary_silenced {op : UnaryOp} {operand : Expr} (s : Span)
    (h : Quieter (env.infer operand) (env'.infer operand)) :
    Quieter (env.infer (.unary op operand s)) (env'.infer (.unary op operand s)) := by
  obtain ⟨htype, hfound⟩ := h
  rw [Env.infer, Env.infer]
  generalize env.infer operand = r at htype hfound ⊢
  generalize env'.infer operand = r' at htype hfound ⊢
  obtain ⟨t, found⟩ := r
  obtain ⟨t', found'⟩ := r'
  dsimp only at htype hfound ⊢
  rcases htype with rfl | rfl
  · split
    · exact ⟨.refl _, hfound⟩
    · exact ⟨.refl _, hfound.append_right _⟩
  · -- A silenced operand silences the operator.
    rw [if_pos (show Ty.error.isError = true from rfl)]
    split
    · exact ⟨.refl _, hfound⟩
    · exact ⟨Ty.silenced_error _, hfound.trans (List.sublist_append_left _ _)⟩

theorem Env.infer_binary_silenced {op : BinaryOp} {left right : Expr} (s : Span)
    (hl : Quieter (env.infer left) (env'.infer left))
    (hr : Quieter (env.infer right) (env'.infer right)) :
    Quieter (env.infer (.binary op left right s)) (env'.infer (.binary op left right s)) := by
  obtain ⟨hlt, hlf⟩ := hl
  obtain ⟨hrt, hrf⟩ := hr
  rw [Env.infer, Env.infer]
  generalize env.infer left = l at hlt hlf ⊢
  generalize env'.infer left = l' at hlt hlf ⊢
  generalize env.infer right = r at hrt hrf ⊢
  generalize env'.infer right = r' at hrt hrf ⊢
  obtain ⟨tl, fl⟩ := l
  obtain ⟨tl', fl'⟩ := l'
  obtain ⟨tr, fr⟩ := r
  obtain ⟨tr', fr'⟩ := r'
  dsimp only at hlt hlf hrt hrf ⊢
  have hboth : (fl' ++ fr').Sublist (fl ++ fr) := hlf.append hrf
  by_cases hsilent : (tl'.isError || tr'.isError) = true
  · rw [if_pos hsilent]
    split
    · exact ⟨.refl _, hboth⟩
    · exact ⟨Ty.silenced_error _, hboth.trans (List.sublist_append_left _ _)⟩
  · -- Neither operand is silenced, so both have their old types.
    have hne : tl' ≠ .error ∧ tr' ≠ .error := by
      simpa [Ty.isError] using hsilent
    obtain rfl : tl' = tl := hlt.resolve_right hne.1
    obtain rfl : tr' = tr := hrt.resolve_right hne.2
    rw [if_neg hsilent, if_neg hsilent]
    exact ⟨.refl _, hboth.append_right _⟩

end

mutual

theorem Env.infer_silenced {env env' : Env} (h : env.Silenced env') :
    ∀ e : Expr, Quieter (env.infer e) (env'.infer e)
  | .int _ _ => ⟨.refl _, List.Sublist.refl _⟩
  | .bool _ _ => ⟨.refl _, List.Sublist.refl _⟩
  | .var x s => Env.resolve_silenced h x s
  | .call callee args callSpan s => by
    obtain ⟨htypes, hreturns, hfound⟩ := Env.callee_silenced h callee args.length callSpan
    rw [Env.infer, Env.infer]
    exact ⟨hreturns, hfound.append (Env.inferArgs_silenced h args htypes)⟩
  | .binary _ left right s =>
    Env.infer_binary_silenced s (Env.infer_silenced h left) (Env.infer_silenced h right)
  | .unary _ operand s => Env.infer_unary_silenced s (Env.infer_silenced h operand)

theorem Env.inferArgs_silenced {env env' : Env} (h : env.Silenced env') :
    ∀ (args : List Expr) {types types' : List Ty}, List.Forall₂ Ty.Silenced types types' →
      (env'.inferArgs types' args).Sublist (env.inferArgs types args)
  | [], _, _, _ => by
    rw [Env.inferArgs, Env.inferArgs]
  | arg :: args, types, types', htypes => by
    obtain ⟨htype, hfound⟩ := Env.infer_silenced h arg
    rw [Env.inferArgs, Env.inferArgs]
    cases htypes with
    | nil =>
      exact (hfound.append (List.Sublist.refl [])).append (Env.inferArgs_silenced h args .nil)
    | cons ht hts =>
      exact (hfound.append (expectType_silenced arg.span ht htype)).append
        (Env.inferArgs_silenced h args hts)

end

theorem Env.expect_silenced {env env' : Env} (h : env.Silenced env') {t t' : Ty}
    (ht : t.Silenced t') (e : Expr) : (env'.expect t' e).Sublist (env.expect t e) := by
  obtain ⟨htype, hfound⟩ := Env.infer_silenced h e
  exact hfound.append (expectType_silenced e.span ht htype)

/-! ## Statements, procedures and scripts -/

/-- Declaring related names leads to related scopes, with the same complaint if any. -/
theorem LocalScope.declare_silenced {scope scope' : LocalScope} {b b' : Binding}
    (h : Table.Related Binding.Silenced scope scope') (hb : b.Silenced b') (x : String) :
    Table.Related Binding.Silenced (scope.declare x b).1 (scope'.declare x b').1 ∧
      (scope'.declare x b').2 = (scope.declare x b).2 := by
  unfold LocalScope.declare
  rcases h.define x hb with ⟨hd, hd'⟩ | ⟨more, more', hd, hd', hmore⟩
  · rw [hd, hd']
    exact ⟨h, by simp only [hb.kind, hb.span]⟩
  · rw [hd, hd']
    exact ⟨hmore, rfl⟩

theorem LocalScope.declareParams_silenced {scope scope' : LocalScope} {ps ps' : List Param}
    (h : Table.Related Binding.Silenced scope scope')
    (hps : List.Forall₂ Param.Silenced ps ps') :
    Table.Related Binding.Silenced (scope.declareParams ps).1 (scope'.declareParams ps').1 ∧
      (scope'.declareParams ps').2 = (scope.declareParams ps).2 := by
  induction hps generalizing scope scope' with
  | nil => exact ⟨h, rfl⟩
  | @cons p p' ps ps' hp _ ih =>
    have hb : Binding.Silenced ⟨.param, p.type, p.span⟩ ⟨.param, p'.type, p'.span⟩ :=
      ⟨rfl, by cases hp <;> rfl, hp.type_silenced⟩
    have hname : p'.name = p.name := by cases hp <;> rfl
    obtain ⟨hscope, hfound⟩ := LocalScope.declare_silenced h hb p.name
    obtain ⟨hlast, hmore⟩ := ih hscope
    rw [LocalScope.declareParams, LocalScope.declareParams, hname]
    exact ⟨hlast, congrArg₂ (· ++ ·) hfound hmore⟩

/-- The checks of two bodies have come equally far. -/
structure Progress.Silenced (p p' : Progress) : Prop where
  scope : p.scope.Related Binding.Silenced p'.scope
  returns : p'.returns = p.returns

section

variable {globals globals' : GlobalTable} {returns returns' : Ty} {p p' : Progress}

theorem Progress.step_silenced (hg : globals.Related Signature.Silenced globals')
    (hr : returns.Silenced returns') (h : p.Silenced p') {stmt stmt' : Stmt}
    (hstmt : stmt.Silenced stmt') :
    (p.step globals returns stmt).1.Silenced (p'.step globals' returns' stmt').1 ∧
      (p'.step globals' returns' stmt').2.Sublist (p.step globals returns stmt).2 := by
  have henv : Env.Silenced ⟨globals, p.scope⟩ ⟨globals', p'.scope⟩ := ⟨hg, h.scope⟩
  -- A declaration, whether its type is replaced or not.
  have hdeclare (target : Ident) {t t' : Ty} (ht : t.Silenced t') (init : Option Expr) (s : Span) :
      (p.step globals returns (.declare target t init s)).1.Silenced
          (p'.step globals' returns' (.declare target t' init s)).1 ∧
        (p'.step globals' returns' (.declare target t' init s)).2.Sublist
          (p.step globals returns (.declare target t init s)).2 := by
    have hb : Binding.Silenced ⟨.var, t, target.span⟩ ⟨.var, t', target.span⟩ := ⟨rfl, rfl, ht⟩
    obtain ⟨hscope, hdup⟩ := LocalScope.declare_silenced h.scope hb target.name
    refine ⟨⟨hscope, h.returns⟩, ?_⟩
    cases init with
    | none => exact (List.Sublist.refl []).append (hdup ▸ List.Sublist.refl _)
    | some e => exact (Env.expect_silenced henv ht e).append (hdup ▸ List.Sublist.refl _)
  cases hstmt with
  | type target t init s => exact hdeclare target (Ty.silenced_error t) init s
  | same =>
    cases stmt with
    | declare target t init s => exact hdeclare target (.refl t) init s
    | assign target value s =>
      obtain ⟨htype, hmissing⟩ := Env.resolve_silenced henv target.name target.span
      exact ⟨h, hmissing.append (Env.expect_silenced henv htype value)⟩
    | call c s =>
      obtain ⟨htypes, _, hfound⟩ := Env.callee_silenced henv c.callee c.args.length c.span
      exact ⟨h, hfound.append (Env.inferArgs_silenced henv c.args htypes)⟩
    | ret value s =>
      refine ⟨⟨h.scope, congrArg (· + 1) h.returns⟩, ?_⟩
      simp only [Progress.step, h.returns]
      refine (List.Sublist.refl _).append ?_
      cases value with
      | none => exact expectType_silenced s hr (.refl _)
      | some e => exact Env.expect_silenced henv hr e

theorem Progress.run_silenced (hg : globals.Related Signature.Silenced globals')
    (hr : returns.Silenced returns') (h : p.Silenced p') {stmts stmts' : List Stmt}
    (hstmts : List.Forall₂ Stmt.Silenced stmts stmts') :
    (Progress.run globals returns p stmts).1.Silenced
        (Progress.run globals' returns' p' stmts').1 ∧
      (Progress.run globals' returns' p' stmts').2.Sublist
        (Progress.run globals returns p stmts).2 := by
  induction hstmts generalizing p p' with
  | nil => exact ⟨h, List.Sublist.refl _⟩
  | cons hstmt _ ih =>
    obtain ⟨hstep, hfound⟩ := Progress.step_silenced hg hr h hstmt
    obtain ⟨hlast, hmore⟩ := ih hstep
    rw [Progress.run, Progress.run]
    exact ⟨hlast, hfound.append hmore⟩

theorem Procedure.findings_silenced (hg : globals.Related Signature.Silenced globals')
    {q q' : Procedure} (h : q.Silenced q') :
    (q'.findings globals').Sublist (q.findings globals) := by
  obtain ⟨hscope, hrepeated⟩ :=
    LocalScope.declareParams_silenced (Table.related_empty (R := Binding.Silenced)) h.params
  have hstart : Progress.Silenced ⟨(LocalScope.declareParams .empty q.params).1, 0⟩
      ⟨(LocalScope.declareParams .empty q'.params).1, 0⟩ := ⟨hscope, rfl⟩
  obtain ⟨hlast, hfound⟩ := Progress.run_silenced hg h.returns_silenced hstart h.body
  have hmissing : ∀ n : Nat, (n = 0 ∧ q'.returns ≠ .void) ↔ (n = 0 ∧ q.returns ≠ .void) := by
    intro n
    rw [Ne, Ne, h.returns_void_iff]
  unfold Procedure.findings
  simp only [hlast.returns, hmissing, h.name]
  rw [hrepeated]
  exact ((List.Sublist.refl _).append hfound).append (List.Sublist.refl _)

end

theorem GlobalTable.declareAll_silenced {globals globals' : GlobalTable}
    (h : globals.Related Signature.Silenced globals') {ps ps' : List Procedure}
    (hps : List.Forall₂ Procedure.Silenced ps ps') :
    Table.Related Signature.Silenced (globals.declareAll ps).1 (globals'.declareAll ps').1 ∧
      (globals'.declareAll ps').2 = (globals.declareAll ps).2 := by
  induction hps generalizing globals globals' with
  | nil => exact ⟨h, rfl⟩
  | @cons p p' ps ps' hp _ ih =>
    rw [GlobalTable.declareAll, GlobalTable.declareAll, congrArg Ident.name hp.name]
    rcases h.define p.name.name hp.signature with ⟨hd, hd'⟩ | ⟨more, more', hd, hd', hmore⟩
    · obtain ⟨hlast, hfound⟩ := ih h
      rw [hd, hd']
      refine ⟨hlast, ?_⟩
      simp only [hp.signature.name, hp.signature.span, hfound]
    · obtain ⟨hlast, hfound⟩ := ih hmore
      rw [hd, hd']
      exact ⟨hlast, hfound⟩

theorem Script.globals_silenced {s s' : Script} (h : s.Silenced s') :
    s.globals.Related Signature.Silenced s'.globals :=
  (GlobalTable.declareAll_silenced Table.related_empty h).1

theorem Script.repeated_silenced {s s' : Script} (h : s.Silenced s') :
    s'.repeated = s.repeated :=
  (GlobalTable.declareAll_silenced Table.related_empty h).2

/-- All that is found in the second script is found in the first, in the same order. -/
theorem Script.findings_silenced {s s' : Script} (h : s.Silenced s') :
    s'.findings.Sublist s.findings := by
  have hbodies {ps ps' : List Procedure} (hps : List.Forall₂ Procedure.Silenced ps ps') :
      (ps'.flatMap (Procedure.findings s'.globals)).Sublist
        (ps.flatMap (Procedure.findings s.globals)) := by
    induction hps with
    | nil => exact List.nil_sublist _
    | cons hp _ ih => exact (Procedure.findings_silenced (Script.globals_silenced h) hp).append ih
  unfold Script.findings
  rw [Script.repeated_silenced h]
  exact (List.Sublist.refl _).append (hbodies h)

/-- Replacing declared types by the type of faulty expressions adds no diagnostic: those of
the new script are some of those of the old one, in the same order, and a script that is in
order stays so. -/
theorem Source.diagnostics_of_silenced (source : Source) (s s' : Script) (h : s.Silenced s') :
    (source.checkScript s').diagnostics.Sublist (source.checkScript s).diagnostics ∧
      ∀ c, source.checkScript s = .ok c →
        ∃ c', source.checkScript s' = .ok c' ∧ c'.script = s' := by
  have hfindings := Script.findings_silenced h
  constructor
  · rw [Source.diagnostics_checkScript, Source.diagnostics_checkScript]
    exact (Order.sort_sublist hfindings).map _
  · intro c hc
    have hclean : s'.findings = [] := by
      rw [(Source.checkScript_eq_ok_iff.1 hc).1] at hfindings
      exact List.eq_nil_of_sublist_nil hfindings
    exact ⟨⟨s', hclean⟩, Source.checkScript_eq_ok_iff.2 ⟨hclean, rfl⟩, rfl⟩

/-- `def f(n : Int32) : Bool is var b : type := n; b := m; return g(n); end` and behind it
`def g() : returns is end`. -/
def Script.faulty (type returns : Ty) : Script :=
  let place (n : Nat) : Span := ⟨n, n + 1⟩
  let n (i : Nat) : Expr := .var "n" (place i)
  ⟨[⟨⟨"f", place 4⟩, [⟨"n", .int32, place 6⟩], .bool,
      [.declare ⟨"b", place 31⟩ type (some (n 43)) (place 27),
        .assign ⟨"b", place 46⟩ (.var "m" (place 51)) (place 46),
        .ret (some (.call ⟨"g", place 61⟩ [n 63] (place 61) (place 61))) (place 54)], place 0⟩,
    ⟨⟨"g", place 75⟩, [], returns, [], place 71⟩]⟩

/-- The mismatches with the two replaced types go; an unknown name, a wrong argument count
and a missing return stay. -/
theorem Source.diagnostics_faulty :
    (Script.faulty .bool .int32).Silenced (Script.faulty .error .error) ∧
      ((Source.checkScript ⟨"main", ""⟩ (Script.faulty .error .error)).diagnostics.Sublist
        (Source.checkScript ⟨"main", ""⟩ (Script.faulty .bool .int32)).diagnostics) ∧
      (Source.checkScript ⟨"main", ""⟩ (Script.faulty .bool .int32)).diagnostics.map (·.problem) =
        [.mismatch .bool .int32, .unknown "m", .argCount 0 1, .mismatch .bool .int32,
          .returnCount 1] ∧
      (Source.checkScript ⟨"main", ""⟩ (Script.faulty .error .error)).diagnostics.map (·.problem) =
        [.unknown "m", .argCount 0 1, .returnCount 1] := by
  have h : (Script.faulty .bool .int32).Silenced (Script.faulty .error .error) := by
    refine .cons ⟨rfl, .cons (.same _) .nil, .inl rfl, ?_, rfl⟩ (.cons ?_ .nil)
    · exact .cons (.type _ _ _ _) (.cons (.same _) (.cons (.same _) .nil))
    · exact ⟨rfl, .nil, .inr ⟨by decide, rfl⟩, .nil, rfl⟩
  exact ⟨h, (diagnostics_of_silenced ⟨"main", ""⟩ _ _ h).1, by decide +kernel, by decide +kernel⟩

end ScriptCheck
