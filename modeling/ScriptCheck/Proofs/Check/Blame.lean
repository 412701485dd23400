import ScriptCheck.Proofs.Check.Names
import ScriptCheck.Proofs.Typing.Agreement

/-!
# What a mismatch is blamed on

An expression has a type of its own unless something is wrong along its operators: a name or a
callee that is not known, or an operand that does not fit. What is wrong inside an argument
leaves the call its type. An operator complains about its operands only if both have types of
their own, and who uses an expression complains only if the expression has one.
-/
namespace ScriptCheck

/-- The expression with its operands and theirs. Arguments of calls are not among them. -/
def Expr.spine : Expr → List Expr
  | .binary op left right s => .binary op left right s :: (left.spine ++ right.spine)
  | .unary op operand s => .unary op operand s :: operand.spine
  | e => [e]

/-- The first operand that does not fit, with the type expected of it and its own. It is the left
one if the operator takes nothing together with it, else the right one. The type expected on the
left is the one that fits the right operand, if there is one. -/
inductive BinaryOp.Offends (op : BinaryOp) (t u : Ty) : Operand → Ty → Ty → Prop
  | left {expected : Ty} (hleft : ∀ u' result, ¬ op.Takes t u' result)
      (hexpected : ∃ u' result, op.Takes expected u' result)
      (hright : ∀ t' result, op.Takes t' u result → t' = expected) : Offends op t u .left expected t
  | right {expected result : Ty} (hleft : op.Takes t expected result)
      (hright : ∀ result, ¬ op.Takes t u result) : Offends op t u .right expected u

/-- Operands that fit offend nobody. -/
theorem BinaryOp.Offends.not_takes {op : BinaryOp} {t u expected actual : Ty} {operand : Operand}
    (h : op.Offends t u operand expected actual) (result : Ty) : ¬ op.Takes t u result := by
  cases h with
  | left hleft => exact hleft u result
  | right _ hright => exact hright result

namespace Env

variable (env : Env)

/-- What is wrong at the node leaves it without a type. -/
inductive Faulty : Expr → Prop
  | name {x : String} {s : Span} (h : env.scope.lookup x = none) : Faulty (.var x s)
  | callee {x : Ident} {args : List Expr} {callSpan s : Span}
      (h : env.globals.lookup x.name = none) : Faulty (.call x args callSpan s)
  | operator {e : Expr} {f : Finding} (hf : f ∈ env.report e)
      (hcode : f.problem.code = "TypeMismatch") : Faulty e

/-- Nothing is wrong along the operators of the expression. -/
def Clear (e : Expr) : Prop := ∀ n ∈ e.spine, ¬ env.Faulty n

/-- The expression has the type by the table of operators. A call has that of its callee, whatever
its arguments are. -/
inductive Typed : Expr → Ty → Prop
  | int (value : Int) (s : Span) : Typed (.int value s) .int32
  | bool (value : Bool) (s : Span) : Typed (.bool value s) .bool
  | var {x : String} {b : Binding} (s : Span) (h : env.scope.lookup x = some b) :
      Typed (.var x s) b.type
  | call {x : Ident} {sig : Signature} (args : List Expr) (callSpan s : Span)
      (h : env.globals.lookup x.name = some sig) : Typed (.call x args callSpan s) sig.returns
  | binary {op : BinaryOp} {left right : Expr} {t u result : Ty} (s : Span)
      (hleft : Typed left t) (hright : Typed right u) (hop : op.Takes t u result) :
      Typed (.binary op left right s) result
  | unary {op : UnaryOp} {operand : Expr} {t result : Ty} (s : Span) (hoperand : Typed operand t)
      (hop : op.Takes t result) : Typed (.unary op operand s) result

/-- No name has the type of faulty expressions. -/
structure Proper : Prop where
  scope : ∀ x b, env.scope.lookup x = some b → b.type ≠ .error
  globals : ∀ x sig, env.globals.lookup x = some sig →
    sig.returns ≠ .error ∧ ∀ t ∈ sig.types, t ≠ .error

end Env

/-! ## Operands that do not fit -/

namespace BinaryOp

variable {op : BinaryOp} {t u : Ty} {m : OperandMismatch}

theorem offends_of_fixedType {operand result : Ty}
    (hop : ∀ t u, op.resultType t u = fixedType operand result t u)
    (h : op.resultType t u = .error m) : op.Offends t u m.operand m.expected m.actual := by
  have htakes {t u r : Ty} : op.Takes t u r ↔ t = operand ∧ u = operand ∧ r = result := by
    rw [← resultType_eq_ok_iff, hop, fixedType_eq_ok_iff]
  rw [hop, fixedType] at h
  split at h
  · next hleft =>
    cases h
    refine .left ?_ ⟨operand, result, htakes.2 ⟨rfl, rfl, rfl⟩⟩ ?_
    · intro u' r hr
      exact hleft (htakes.1 hr).1
    · intro t' r hr
      exact (htakes.1 hr).1
  · next hleft =>
    split at h
    · next hright =>
      cases h
      rw [Decidable.not_not] at hleft
      refine .right (htakes.2 ⟨hleft, rfl, rfl⟩) ?_
      intro r hr
      exact hright (htakes.1 hr).2.1
    · cases h

theorem offends_of_equalityType (hop : ∀ t u, op.resultType t u = equalityType t u)
    (h : op.resultType t u = .error m) : op.Offends t u m.operand m.expected m.actual := by
  have htakes {t u r : Ty} : op.Takes t u r ↔ t ≠ .void ∧ u = t ∧ r = .bool := by
    rw [← resultType_eq_ok_iff, hop, equalityType_eq_ok_iff]
  rw [hop, equalityType] at h
  split at h
  · next hvoid =>
    cases h
    refine .left ?_ ?_ ?_
    · intro u' r hr
      exact (htakes.1 hr).1 hvoid
    · by_cases hu : u = .void
      · rw [if_pos hu]
        have hint : Ty.int32 ≠ .void := by decide
        exact ⟨.int32, .bool, htakes.2 ⟨hint, rfl, rfl⟩⟩
      · rw [if_neg hu]
        exact ⟨u, .bool, htakes.2 ⟨hu, rfl, rfl⟩⟩
    · intro t' r hr
      obtain ⟨hne, rfl, _⟩ := htakes.1 hr
      rw [if_neg hne]
  · next hvoid =>
    split at h
    · next hne =>
      cases h
      refine .right (htakes.2 ⟨hvoid, rfl, rfl⟩) ?_
      intro r hr
      exact hne (htakes.1 hr).2.1
    · cases h

/-- The table refuses the first operand that does not fit. -/
theorem offends_of_resultType (h : op.resultType t u = .error m) :
    op.Offends t u m.operand m.expected m.actual := by
  cases htier : op.tier with
  | equality => exact offends_of_equalityType (fun t u => by rw [resultType, htier]) h
  | sum | product => exact offends_of_fixedType (fun t u => by rw [resultType, htier]) h
  | ordering => exact offends_of_fixedType (fun t u => by rw [resultType, htier]) h
  | conjunction | disjunction =>
    exact offends_of_fixedType (fun t u => by rw [resultType, htier]) h

end BinaryOp

/-! ## Types along operators -/

namespace Env

section

variable {env : Env}

theorem Typed.ne_error (henv : env.Proper) {e : Expr} {t : Ty} (h : env.Typed e t) :
    t ≠ .error := by
  cases h with
  | int => decide
  | bool => decide
  | var s h => exact henv.scope _ _ h
  | call args callSpan s h => exact (henv.globals _ _ h).1
  | binary s hleft hright hop => exact hop.ne_error
  | unary s hoperand hop => exact hop.ne_error

theorem silent_iff {left right : Expr} :
    ((env.infer left).1.isError || (env.infer right).1.isError) = true ↔
      (env.infer left).1 = .error ∨ (env.infer right).1 = .error := by
  simp [Ty.isError]

/-- Operands with types of their own are not passed over. -/
theorem not_silent {left right : Expr} (hleft : (env.infer left).1 ≠ .error)
    (hright : (env.infer right).1 ≠ .error) :
    ((env.infer left).1.isError || (env.infer right).1.isError) = false :=
  Bool.eq_false_iff.2 fun h => (silent_iff.1 h).elim hleft hright

theorem infer_typed_var (henv : env.Proper) (x : String) (s : Span) (t : Ty) :
    env.Typed (.var x s) t ↔ (env.infer (.var x s)).1 = t ∧ t ≠ .error := by
  rw [Env.infer, Env.resolve]
  constructor
  · intro h
    have hne := h.ne_error henv
    cases h with
    | var s h => exact ⟨by rw [h], hne⟩
  · rintro ⟨rfl, hne⟩
    cases h : env.scope.lookup x with
    | none =>
      rw [h] at hne
      exact absurd rfl hne
    | some b => exact .var s h

theorem infer_typed_call (henv : env.Proper) (x : Ident) (args : List Expr) (callSpan s : Span)
    (t : Ty) : env.Typed (.call x args callSpan s) t ↔
      (env.infer (.call x args callSpan s)).1 = t ∧ t ≠ .error := by
  rw [Env.infer, Env.callee]
  constructor
  · intro h
    have hne := h.ne_error henv
    cases h with
    | call args callSpan s h => exact ⟨by rw [h], hne⟩
  · rintro ⟨rfl, hne⟩
    cases h : env.globals.lookup x.name with
    | none =>
      rw [h] at hne
      exact absurd rfl hne
    | some sig => exact .call args callSpan s h

theorem infer_typed_binary (henv : env.Proper) {op : BinaryOp} {left right : Expr} {s : Span}
    (hleft : ∀ t, env.Typed left t ↔ (env.infer left).1 = t ∧ t ≠ .error)
    (hright : ∀ t, env.Typed right t ↔ (env.infer right).1 = t ∧ t ≠ .error) (result : Ty) :
    env.Typed (.binary op left right s) result ↔
      (env.infer (.binary op left right s)).1 = result ∧ result ≠ .error := by
  constructor
  · intro h
    have hne := h.ne_error henv
    cases h with
    | @binary _ _ _ t u _ _ htl htr hop =>
      obtain ⟨hl, hlne⟩ := (hleft t).1 htl
      obtain ⟨hr, hrne⟩ := (hright u).1 htr
      rw [infer_binary s (not_silent (hl ▸ hlne) (hr ▸ hrne)), hl, hr,
        BinaryOp.resultType_eq_ok_iff.2 hop]
      exact ⟨rfl, hne⟩
  · rintro ⟨rfl, hne⟩
    cases hsilent : (env.infer left).1.isError || (env.infer right).1.isError with
    | true =>
      rw [infer_binary_silent s hsilent] at hne
      exact absurd rfl hne
    | false =>
      obtain ⟨hlne, hrne⟩ := not_or.1 fun h => Bool.eq_false_iff.1 hsilent (silent_iff.2 h)
      rw [infer_binary s hsilent] at hne ⊢
      cases hop : op.resultType (env.infer left).1 (env.infer right).1 with
      | ok t =>
        exact .binary s ((hleft _).2 ⟨rfl, hlne⟩) ((hright _).2 ⟨rfl, hrne⟩)
          (BinaryOp.resultType_eq_ok_iff.1 hop)
      | error m =>
        rw [hop] at hne
        exact absurd rfl hne

theorem infer_typed_unary (henv : env.Proper) {op : UnaryOp} {operand : Expr} {s : Span}
    (hoperand : ∀ t, env.Typed operand t ↔ (env.infer operand).1 = t ∧ t ≠ .error)
    (result : Ty) : env.Typed (.unary op operand s) result ↔
      (env.infer (.unary op operand s)).1 = result ∧ result ≠ .error := by
  constructor
  · intro h
    have hne := h.ne_error henv
    cases h with
    | @unary _ _ t _ _ htype hop =>
      obtain ⟨ho, hone⟩ := (hoperand t).1 htype
      have hloud : (env.infer operand).1.isError = false := by simp [Ty.isError, ho, hone]
      rw [infer_unary s hloud, ho, UnaryOp.resultType_eq_ok_iff.2 hop]
      exact ⟨rfl, hne⟩
  · rintro ⟨rfl, hne⟩
    cases hsilent : (env.infer operand).1.isError with
    | true =>
      rw [infer_unary_silent s hsilent] at hne
      exact absurd rfl hne
    | false =>
      have hone : (env.infer operand).1 ≠ .error := by simpa [Ty.isError] using hsilent
      rw [infer_unary s hsilent] at hne ⊢
      cases hop : op.resultType (env.infer operand).1 with
      | ok t => exact .unary s ((hoperand _).2 ⟨rfl, hone⟩) (UnaryOp.resultType_eq_ok_iff.1 hop)
      | error m =>
        rw [hop] at hne
        exact absurd rfl hne

/-- An expression has a type of its own exactly if one is inferred for it. -/
theorem typed_iff (henv : env.Proper) : ∀ (e : Expr) (t : Ty),
    env.Typed e t ↔ (env.infer e).1 = t ∧ t ≠ .error
  | .int value s, t => by
    rw [Env.infer]
    constructor
    · rintro ⟨⟩
      exact ⟨rfl, by decide⟩
    · rintro ⟨rfl, _⟩
      exact .int value s
  | .bool value s, t => by
    rw [Env.infer]
    constructor
    · rintro ⟨⟩
      exact ⟨rfl, by decide⟩
    · rintro ⟨rfl, _⟩
      exact .bool value s
  | .var x s, t => infer_typed_var henv x s t
  | .call x args callSpan s, t => infer_typed_call henv x args callSpan s t
  | .binary _ left right _, t =>
    infer_typed_binary henv (typed_iff henv left) (typed_iff henv right) t
  | .unary _ operand _, t => infer_typed_unary henv (typed_iff henv operand) t

/-! ## Reports of operators -/

section

variable {op : BinaryOp} {left right : Expr} {t u : Ty}

/-- If both operands have types of their own, the operator takes them or complains once, about
the first that does not fit. -/
theorem report_binary_of_typed (henv : env.Proper) (s : Span) (hleft : env.Typed left t)
    (hright : env.Typed right u) :
    (∃ result, op.Takes t u result) ∧ env.report (.binary op left right s) = [] ∨
      ∃ operand expected actual, op.Offends t u operand expected actual ∧
        env.report (.binary op left right s) =
          [⟨.mismatch expected actual, left.operandSpan right operand⟩] := by
  obtain ⟨hl, hlne⟩ := (typed_iff henv left t).1 hleft
  obtain ⟨hr, hrne⟩ := (typed_iff henv right u).1 hright
  rw [report_binary s (not_silent (hl ▸ hlne) (hr ▸ hrne)), hl, hr]
  cases hop : op.resultType t u with
  | ok result => exact .inl ⟨⟨result, BinaryOp.resultType_eq_ok_iff.1 hop⟩, rfl⟩
  | error m =>
    refine .inr ⟨m.operand, m.expected, m.actual, BinaryOp.offends_of_resultType hop, ?_⟩
    simp [operatorType, expectType, BinaryOp.not_agrees_of_resultType hop hlne hrne]

theorem report_unary_of_typed {op : UnaryOp} (henv : env.Proper) (s : Span)
    (h : env.Typed left t) :
    (∃ result, op.Takes t result) ∧ env.report (.unary op left s) = [] ∨
      (∀ result, ¬ op.Takes t result) ∧ ∃ expected, (∃ result, op.Takes expected result) ∧
        env.report (.unary op left s) = [⟨.mismatch expected t, left.span⟩] := by
  obtain ⟨hl, hlne⟩ := (typed_iff henv left t).1 h
  have hloud : (env.infer left).1.isError = false := by simp [Ty.isError, hl, hlne]
  rw [report_unary s hloud, hl]
  cases hop : op.resultType t with
  | ok result => exact .inl ⟨⟨result, UnaryOp.resultType_eq_ok_iff.1 hop⟩, rfl⟩
  | error m =>
    have hnone (result : Ty) : ¬ op.Takes t result := by
      intro hr
      rw [UnaryOp.resultType_eq_ok_iff.2 hr] at hop
      cases hop
    have hm : m = ⟨.only, op.type, t⟩ := by
      unfold UnaryOp.resultType at hop
      split at hop
      · cases hop
      · cases hop
        rfl
    have hself : op.Takes op.type op.type := by
      cases op
      · exact .neg
      · exact .not
    refine .inr ⟨hnone, op.type, ⟨op.type, hself⟩, ?_⟩
    have hagrees := UnaryOp.not_agrees_of_resultType hop hlne
    rw [hm] at hagrees ⊢
    simp [operatorType, expectType, hagrees]

end

/-! ## Faults along operators -/

theorem faulty_of_report {e : Expr} (h : env.report e ≠ []) : env.Faulty e := by
  obtain ⟨f, hf⟩ := List.exists_mem_of_ne_nil _ h
  exact .operator hf (env.code_of_mem_report hf)

/-- Between operands with types of their own an operator has none exactly if it complains. -/
theorem infer_error_binary (henv : env.Proper) {op : BinaryOp} {left right : Expr} {s : Span} :
    (env.infer (.binary op left right s)).1 = .error ↔
      env.Faulty (.binary op left right s) ∨ (env.infer left).1 = .error ∨
        (env.infer right).1 = .error := by
  by_cases herror : (env.infer left).1 = .error ∨ (env.infer right).1 = .error
  · rw [infer_binary_silent s (silent_iff.2 herror)]
    exact ⟨fun _ => .inr herror, fun _ => rfl⟩
  obtain ⟨hlne, hrne⟩ := not_or.1 herror
  have hleft := (typed_iff henv left _).2 ⟨rfl, hlne⟩
  have hright := (typed_iff henv right _).2 ⟨rfl, hrne⟩
  rw [or_iff_left herror]
  rcases report_binary_of_typed henv s hleft hright with ⟨⟨result, hop⟩, hreport⟩ |
    ⟨operand, expected, actual, hoffends, hreport⟩
  · obtain ⟨hresult, hne⟩ := (typed_iff henv _ _).1 (Typed.binary s hleft hright hop)
    refine ⟨fun h => absurd (hresult.symm.trans h) hne, fun h => ?_⟩
    cases h with
    | operator hf _ =>
      rw [hreport] at hf
      cases hf
  · refine ⟨fun _ => faulty_of_report (by rw [hreport]; exact List.cons_ne_nil _ _), fun _ => ?_⟩
    refine Decidable.byContradiction fun hne => ?_
    cases (typed_iff henv _ _).2 ⟨rfl, hne⟩ with
    | @binary _ _ _ t u _ _ htl htr hop =>
      obtain ⟨rfl, _⟩ := (typed_iff henv _ _).1 htl
      obtain ⟨rfl, _⟩ := (typed_iff henv _ _).1 htr
      exact hoffends.not_takes _ hop

theorem infer_error_unary (henv : env.Proper) {op : UnaryOp} {operand : Expr} {s : Span} :
    (env.infer (.unary op operand s)).1 = .error ↔
      env.Faulty (.unary op operand s) ∨ (env.infer operand).1 = .error := by
  by_cases herror : (env.infer operand).1 = .error
  · have hsilent : (env.infer operand).1.isError = true := by simp [Ty.isError, herror]
    rw [infer_unary_silent s hsilent]
    exact ⟨fun _ => .inr herror, fun _ => rfl⟩
  have hoperand := (typed_iff henv operand _).2 ⟨rfl, herror⟩
  rw [or_iff_left herror]
  rcases report_unary_of_typed henv s hoperand with ⟨⟨result, hop⟩, hreport⟩ |
    ⟨hnone, expected, _, hreport⟩
  · obtain ⟨hresult, hne⟩ := (typed_iff henv _ _).1 (Typed.unary s hoperand hop)
    refine ⟨fun h => absurd (hresult.symm.trans h) hne, fun h => ?_⟩
    cases h with
    | operator hf _ =>
      rw [hreport] at hf
      cases hf
  · refine ⟨fun _ => faulty_of_report (by rw [hreport]; exact List.cons_ne_nil _ _), fun _ => ?_⟩
    refine Decidable.byContradiction fun hne => ?_
    cases (typed_iff henv _ _).2 ⟨rfl, hne⟩ with
    | @unary _ _ t _ _ htype hop =>
      obtain ⟨rfl, _⟩ := (typed_iff henv _ _).1 htype
      exact hnone _ hop

theorem infer_error_var (henv : env.Proper) {x : String} {s : Span} :
    (env.infer (.var x s)).1 = .error ↔ env.Faulty (.var x s) := by
  rw [Env.infer, Env.resolve]
  constructor
  · intro h
    cases hlookup : env.scope.lookup x with
    | none => exact .name hlookup
    | some b =>
      rw [hlookup] at h
      exact absurd h (henv.scope x b hlookup)
  · intro h
    cases h with
    | name h => rw [h]
    | operator hf _ => cases hf

theorem infer_error_call (henv : env.Proper) {x : Ident} {args : List Expr} {callSpan s : Span} :
    (env.infer (.call x args callSpan s)).1 = .error ↔
      env.Faulty (.call x args callSpan s) := by
  rw [Env.infer, Env.callee]
  constructor
  · intro h
    cases hlookup : env.globals.lookup x.name with
    | none => exact .callee hlookup
    | some sig =>
      rw [hlookup] at h
      exact absurd h (henv.globals _ sig hlookup).1
  · intro h
    cases h with
    | callee h => rw [h]
    | operator hf _ => cases hf

/-- No type is inferred exactly if something is wrong along the operators. -/
theorem infer_error_iff (henv : env.Proper) : ∀ e : Expr,
    (env.infer e).1 = .error ↔ ∃ n ∈ e.spine, env.Faulty n
  | .var x s => by
    rw [infer_error_var henv]
    simp [Expr.spine]
  | .call x args callSpan s => by
    rw [infer_error_call henv]
    simp [Expr.spine]
  | .binary op left right s => by
    rw [infer_error_binary henv, infer_error_iff henv left, infer_error_iff henv right]
    simp [Expr.spine, or_and_right, exists_or]
  | .unary op operand s => by
    rw [infer_error_unary henv, infer_error_iff henv operand]
    simp [Expr.spine]
  | .int value s => by
    have hsound : ¬ env.Faulty (.int value s) := by
      intro h
      cases h with
      | operator hf _ => cases hf
    simp [Expr.spine, hsound, Env.infer]
  | .bool value s => by
    have hsound : ¬ env.Faulty (.bool value s) := by
      intro h
      cases h with
      | operator hf _ => cases hf
    simp [Expr.spine, hsound, Env.infer]

/-- Nothing is wrong along the operators exactly if the expression has a type of its own. -/
theorem clear_iff (henv : env.Proper) {e : Expr} : env.Clear e ↔ ∃ t, env.Typed e t := by
  have hclear : env.Clear e ↔ (env.infer e).1 ≠ .error := by
    rw [ne_eq, infer_error_iff henv]
    simp [Clear]
  rw [hclear]
  constructor
  · intro hne
    exact ⟨_, (typed_iff henv e _).2 ⟨rfl, hne⟩⟩
  · rintro ⟨t, ht⟩
    obtain ⟨rfl, hne⟩ := (typed_iff henv e t).1 ht
    exact hne

/-! ## Users of expressions -/

/-- Who uses an expression complains exactly if it has a type of its own and another one is
expected. -/
theorem judge_eq_iff (henv : env.Proper) {use : Use} (hexpected : use.expected ≠ .error) (t : Ty) :
    env.judge use = [⟨.mismatch use.expected t, use.value.span⟩] ↔
      env.Clear use.value ∧ env.Typed use.value t ∧ t ≠ use.expected := by
  have htyped := typed_iff henv use.value t
  unfold judge expectType
  constructor
  · intro h
    split at h
    · cases h
    · next hagrees =>
      obtain ⟨hne, _, hdiffers⟩ := Ty.agrees_eq_false_iff.1 (Bool.eq_false_iff.2 hagrees)
      have ht : (env.infer use.value).1 = t := by
        simp only [List.cons.injEq, Finding.mk.injEq, Problem.mismatch.injEq] at h
        exact h.1.1.2
      have htype := htyped.2 ⟨ht, ht ▸ hne⟩
      exact ⟨(clear_iff henv).2 ⟨t, htype⟩, htype, ht ▸ hdiffers⟩
  · rintro ⟨_, htype, hdiffers⟩
    obtain ⟨ht, hne⟩ := htyped.1 htype
    have hagrees : (env.infer use.value).1.agrees use.expected = false := by
      rw [ht]
      exact Ty.agrees_eq_false_iff.2 ⟨hne, hexpected, hdiffers⟩
    rw [hagrees, ht]
    rfl

end

end Env

/-! ## Bodies -/

open ScriptCheck.Finding (coded coded_append coded_flatMap coded_perm coded_eq_nil coded_eq_self)

/-- The complaint about a return without a value, where one is expected. -/
def Stmt.bareReturn (returns : Ty) : Stmt → List Finding
  | .ret none s => expectType returns .void s
  | _ => []

namespace Procedure

variable (globals : GlobalTable) (p : Procedure) (before : List Stmt) (stmt : Stmt)

/-- The expressions of a statement of which a type is expected, arguments included. -/
def usesAt : List Use :=
  (p.envAfter globals before).stmtUses p.returns stmt ++
    stmt.nodes.flatMap (p.envAfter globals before).argUses

/-- The mismatches in a statement: at operators, where expressions are used, and of a return
without a value. -/
def mismatchesAt : List Finding :=
  stmt.nodes.flatMap (p.envAfter globals before).report ++
    (p.usesAt globals before stmt).flatMap (p.envAfter globals before).judge ++
      stmt.bareReturn p.returns

end Procedure

theorem Env.coded_mismatch_own (env : Env) (e : Expr) :
    coded "TypeMismatch" (env.own e) = env.report e ++ (env.argUses e).flatMap env.judge := by
  have hreport : coded "TypeMismatch" (env.report e) = env.report e :=
    coded_eq_self fun f hf => env.code_of_mem_report hf
  cases e with
  | var x s =>
    rw [own, resolve]
    cases env.scope.lookup x <;> rfl
  | call callee args callSpan s =>
    rw [own, coded_append, coded_eq_self fun f hf => env.code_of_mem_judges hf, Env.callee]
    congr 1
    cases env.globals.lookup callee.name with
    | none => rfl
    | some sig =>
      dsimp only
      split <;> rfl
  | int | bool | binary | unary => exact hreport.trans (List.append_nil _).symm

/-- At a statement itself only a return without a value can be a mismatch. -/
theorem Progress.coded_mismatch_own (p : Progress) (globals : GlobalTable) (returns : Ty)
    (stmt : Stmt) : coded "TypeMismatch" (p.own globals returns stmt) =
      stmt.bareReturn returns := by
  cases stmt with
  | declare target type init s =>
    rw [own, LocalScope.declare]
    cases p.scope.define target.name ⟨.var, type, target.span⟩ <;> rfl
  | assign target value s =>
    rw [own, Env.resolve]
    cases (p.env globals).scope.lookup target.name <;> rfl
  | call c s => rfl
  | ret value s =>
    have hsurplus : coded "TypeMismatch"
        (if p.returns = 1 then [(⟨.returnCount 1, s⟩ : Finding)] else []) = [] := by
      split <;> rfl
    rw [own, coded_append, hsurplus, List.nil_append]
    cases value with
    | none => exact coded_eq_self fun f hf => code_of_mem_expectType hf
    | some e => rfl

theorem Procedure.mismatches_stmtFindings (globals : GlobalTable) (p : Procedure)
    (before : List Stmt) (stmt : Stmt) :
    (coded "TypeMismatch" (p.stmtFindings globals before stmt)).Perm
      (p.mismatchesAt globals before stmt) := by
  have hstep := coded_perm "TypeMismatch"
    ((p.progressAfter globals before).step_perm globals p.returns stmt)
  rw [coded_append, coded_append, Progress.coded_mismatch_own, coded_flatMap stmt.nodes,
    coded_eq_self fun f hf => Env.code_of_mem_judges _ hf] at hstep
  simp only [Env.coded_mismatch_own] at hstep
  rw [mismatchesAt, usesAt, List.flatMap_append, List.flatMap_assoc]
  -- The complaints of operators come to the front and that about the return to the end.
  refine hstep.trans ?_
  refine ((List.flatMap_append_perm _ _ _).symm.append_left _).trans ?_
  rw [List.append_assoc]
  refine List.perm_append_comm.trans (List.Perm.append_right _ ?_)
  exact List.perm_append_comm_assoc _ _ _

/-- All mismatches of a script, in the order of its statements. -/
def Script.mismatches (s : Script) : List Finding :=
  s.procedures.flatMap fun p => flatMapAfter (p.mismatchesAt s.globals) [] p.body

theorem Script.mismatches_perm (s : Script) :
    (coded "TypeMismatch" s.findings).Perm s.mismatches :=
  s.coded_findings (by decide) fun p => p.coded_findings s.globals (by decide) (by decide)
    (p.mismatches_stmtFindings s.globals)

/-! ## Declared types -/

section

variable {s : Script} {p : Procedure} {before after : List Stmt} {stmt : Stmt}

theorem Script.Declarable.globals (hs : s.Declarable) {x : String} {sig : Signature}
    (h : s.globals.lookup x = some sig) :
    sig.returns ≠ .error ∧ ∀ t ∈ sig.types, t ≠ .error := by
  rw [lookup_globals] at h
  obtain ⟨q, hq, rfl⟩ := Option.map_eq_some_iff.1 h
  have hq := hs q (List.mem_of_find?_eq_some hq)
  refine ⟨Procedure.returns_ne hq, fun t ht => ?_⟩
  obtain ⟨r, hr, rfl⟩ := List.mem_map.1 ht
  exact Procedure.name_ne hq (d := (r.name, r.type))
    (List.mem_append_left _ (List.mem_map.2 ⟨r, hr, rfl⟩))

/-- The names before a statement are among all names of the body. -/
theorem Procedure.namesAfter_subset (h : p.body = before ++ after) :
    p.namesAfter before ⊆ p.namesAfter p.body := by
  rw [namesAfter, namesAfter, h, List.filterMap_append, ← List.append_assoc]
  exact List.subset_append_left _ _

theorem Script.Declarable.proper (hs : s.Declarable) (hp : p ∈ s.procedures)
    (hbody : p.body = before ++ after) : (p.envAfter s.globals before).Proper := by
  refine ⟨fun x b hb => ?_, fun x sig hsig => hs.globals hsig⟩
  have hb : (p.bindingsAfter before).lookup x = some b := by
    rw [← p.answers_progressAfter s.globals before x]
    exact hb
  have hmem : (x, b.type) ∈ p.namesAfter before := by
    obtain ⟨front, back, hsplit, _⟩ := List.lookup_eq_some_iff.1 hb
    rw [p.namesAfter_eq before, hsplit]
    exact List.mem_map.2 ⟨(x, b), List.mem_append_right _ List.mem_cons_self, rfl⟩
  exact Procedure.name_ne (hs p hp) (Procedure.namesAfter_subset hbody hmem)

theorem Env.Proper.argUses {env : Env} (h : env.Proper) {e : Expr} {use : Use}
    (huse : use ∈ env.argUses e) : use.expected ≠ .error := by
  cases e with
  | call callee args callSpan s =>
    rw [Env.argUses] at huse
    split at huse
    · next sig hsig =>
      rw [← List.map_uncurry_zip_eq_zipWith] at huse
      obtain ⟨⟨t, arg⟩, hmem, rfl⟩ := List.mem_map.1 huse
      exact (h.globals _ sig hsig).2 t (List.of_mem_zip hmem).1
    · cases huse
  | int | bool | var | binary | unary => cases huse

/-- Every type that is expected of an expression is a declared one. -/
theorem Script.Declarable.usesAt (hs : s.Declarable) (hp : p ∈ s.procedures)
    (hbody : p.body = before ++ stmt :: after) :
    ∀ use ∈ p.usesAt s.globals before stmt, use.expected ≠ .error := by
  have henv := hs.proper hp hbody
  refine List.forall_mem_append.2 ⟨fun use huse => ?_, fun use huse => ?_⟩
  · cases stmt with
    | declare target type init sp =>
      obtain ⟨e, _, rfl⟩ := List.mem_map.1 huse
      have hmem : (target.name, type) ∈ p.namesAfter p.body := by
        rw [Procedure.namesAfter, hbody]
        exact List.mem_append_right _ (List.mem_filterMap.2
          ⟨_, List.mem_append_right _ List.mem_cons_self, rfl⟩)
      exact Procedure.name_ne (hs p hp) hmem
    | assign target value sp =>
      rw [Env.stmtUses] at huse
      split at huse
      · next b hb =>
        obtain rfl := List.mem_singleton.1 huse
        exact henv.scope _ b hb
      · cases huse
    | call c sp => cases huse
    | ret value sp =>
      obtain ⟨e, _, rfl⟩ := List.mem_map.1 huse
      exact Procedure.returns_ne (hs p hp)
  · obtain ⟨e, _, huse⟩ := List.mem_flatMap.1 huse
    exact henv.argUses huse

end

/-! ## Blame -/

/-- How mismatches are blamed at some place, where types are expected of these expressions. -/
structure Env.Blames (env : Env) (uses : List Use) : Prop where
  error_iff : ∀ e, (env.infer e).1 = .error ↔ ∃ n ∈ e.spine, env.Faulty n
  typed_iff : ∀ e t, env.Typed e t ↔ env.Clear e ∧ (env.infer e).1 = t
  binary_findings : ∀ op left right s, (env.infer (.binary op left right s)).2 =
    (env.infer left).2 ++ (env.infer right).2 ++ env.report (.binary op left right s)
  binary_faulty : ∀ op left right s, (∃ n ∈ left.spine ++ right.spine, env.Faulty n) →
    env.report (.binary op left right s) = []
  binary_report : ∀ op left right s t u, env.Typed left t → env.Typed right u →
    (∃ result, op.Takes t u result) ∧ env.report (.binary op left right s) = [] ∨
      ∃ operand expected actual, op.Offends t u operand expected actual ∧
        env.report (.binary op left right s) =
          [⟨.mismatch expected actual, left.operandSpan right operand⟩]
  unary_findings : ∀ op operand s, (env.infer (.unary op operand s)).2 =
    (env.infer operand).2 ++ env.report (.unary op operand s)
  unary_faulty : ∀ op operand s, (∃ n ∈ operand.spine, env.Faulty n) →
    env.report (.unary op operand s) = []
  unary_report : ∀ op operand s t, env.Typed operand t →
    (∃ result, op.Takes t result) ∧ env.report (.unary op operand s) = [] ∨
      (∀ result, ¬ op.Takes t result) ∧ ∃ expected, (∃ result, op.Takes expected result) ∧
        env.report (.unary op operand s) = [⟨.mismatch expected t, operand.span⟩]
  use_iff : ∀ use ∈ uses, ∀ t, env.judge use = [⟨.mismatch use.expected t, use.value.span⟩] ↔
    env.Clear use.value ∧ env.Typed use.value t ∧ t ≠ use.expected
  use_report : ∀ use ∈ uses, env.judge use = [] ∨
    ∃ t, env.judge use = [⟨.mismatch use.expected t, use.value.span⟩]

theorem Env.Proper.blames {env : Env} (h : env.Proper) {uses : List Use}
    (huses : ∀ use ∈ uses, use.expected ≠ .error) : env.Blames uses where
  error_iff := infer_error_iff h
  typed_iff := by
    intro e t
    rw [clear_iff h]
    constructor
    · intro ht
      exact ⟨⟨t, ht⟩, ((Env.typed_iff h e t).1 ht).1⟩
    · rintro ⟨⟨u, hu⟩, rfl⟩
      obtain ⟨rfl, hne⟩ := (Env.typed_iff h e u).1 hu
      exact hu
  binary_findings := fun op left right s => infer_binary_findings s
  binary_faulty := by
    intro op left right s hfaulty
    refine report_binary_silent s (silent_iff.2 ?_)
    rw [infer_error_iff h, infer_error_iff h]
    simpa [or_and_right, exists_or] using hfaulty
  binary_report := fun op left right s t u hleft hright => report_binary_of_typed h s hleft hright
  unary_findings := fun op operand s => infer_unary_findings s
  unary_faulty := by
    intro op operand s hfaulty
    refine report_unary_silent s ?_
    simpa [Ty.isError] using (infer_error_iff h operand).2 hfaulty
  unary_report := fun op operand s t hoperand => report_unary_of_typed h s hoperand
  use_iff := fun use huse t => judge_eq_iff h (huses use huse) t
  use_report := by
    intro use _
    unfold judge expectType
    split
    · exact .inl rfl
    · exact .inr ⟨_, rfl⟩

/-- A mismatch is blamed on an expression exactly if it has a type of its own. Where no declared
type is that of faulty expressions, the mismatches of a script are those of its operators, of the
expressions that a type is expected of and of returns without a value. At each statement an
operator complains at most once, about its first operand that does not fit and only if both
operands have types, and who uses an expression complains just if it has another type. -/
theorem Source.mismatches_blamed (source : Source) (s : Script) (hs : s.Declarable) :
    ((source.checkScript s).diagnostics.filter (·.problem.code = "TypeMismatch")).Perm
        (s.mismatches.map (Finding.locate source)) ∧
      ∀ p ∈ s.procedures, ∀ before stmt after, p.body = before ++ stmt :: after →
        (coded "TypeMismatch" (p.stmtFindings s.globals before stmt)).Perm
          (p.mismatchesAt s.globals before stmt) ∧
        (p.envAfter s.globals before).Blames (p.usesAt s.globals before stmt) := by
  refine ⟨(source.diagnostics_coded s _).trans (s.mismatches_perm.map _), ?_⟩
  intro p hp before stmt after hbody
  exact ⟨p.mismatches_stmtFindings s.globals before stmt,
    (hs.proper hp hbody).blames (hs.usesAt hp hbody)⟩

/-- Of `a + true + 1` the operand `true` is blamed and nobody else, though an `Int32` is expected
of the whole. Nothing is expected of what is assigned to the unknown `y`. The unknown argument of
`f(b)` leaves the call its type `Bool`, so that `1` does not fit beside it. -/
theorem Source.mismatches_blamed_once :
    let source : Source := ⟨"main", ""⟩
    let here : Nat → Span := Span.point
    let sum : Expr := .binary .add (.var "a" (here 2)) (.bool true (here 3)) (here 2)
    let x : Stmt := .declare ⟨"x", here 1⟩ .int32
      (some (.binary .add sum (.int 1 (here 4)) (here 2))) (here 1)
    let y : Stmt := .assign ⟨"y", here 5⟩ (.bool true (here 6)) (here 5)
    let call : Expr := .call ⟨"f", here 8⟩ [.var "b" (here 9)] (here 8) (here 8)
    let value : Expr := .binary .eq call (.int 1 (here 10)) (here 8)
    let f : Procedure := ⟨⟨"f", here 0⟩, [⟨"a", .int32, here 0⟩], .bool,
      [x, y, .ret (some value) (here 7)], here 0⟩
    let env := f.envAfter (Script.mk [f]).globals [x, y]
    (Script.mk [f]).Declarable ∧
      ((source.checkScript ⟨[f]⟩).diagnostics.filter (·.problem.code = "TypeMismatch")).Perm
        ([⟨.mismatch .int32 .bool, here 3⟩, ⟨.mismatch .bool .int32, here 10⟩].map
          (Finding.locate source)) ∧
      env.Typed call .bool ∧ env.Faulty value ∧ env.judge ⟨.bool, value⟩ = [] := by
  intro source here sum x y call value f env
  have hs : (Script.mk [f]).Declarable := by decide
  obtain ⟨hdiagnostics, hplaces⟩ := mismatches_blamed source ⟨[f]⟩ hs
  obtain ⟨_, hblames⟩ := hplaces f List.mem_cons_self [x, y] (.ret (some value) (here 7)) [] rfl
  have hmismatches : (Script.mk [f]).mismatches =
      [⟨.mismatch .int32 .bool, here 3⟩, ⟨.mismatch .bool .int32, here 10⟩] := by
    decide +kernel
  have hcall : (env.infer call).1 = .bool := by decide +kernel
  have hreport : env.report value = [⟨.mismatch .bool .int32, here 10⟩] := by decide +kernel
  have hfaulty : env.Faulty value := .operator (hreport ▸ List.mem_cons_self) rfl
  rw [hmismatches] at hdiagnostics
  refine ⟨hs, hdiagnostics, ?_, hfaulty, ?_⟩
  · refine (hblames.typed_iff call .bool).2 ⟨fun n hn hn' => ?_, hcall⟩
    exact absurd ((hblames.error_iff call).2 ⟨n, hn, hn'⟩) (by rw [hcall]; decide)
  · rcases hblames.use_report ⟨.bool, value⟩ List.mem_cons_self with hnone | ⟨t, hsome⟩
    · exact hnone
    · obtain ⟨hclear, _⟩ := (hblames.use_iff ⟨.bool, value⟩ List.mem_cons_self t).1 hsome
      exact absurd hfaulty (hclear value List.mem_cons_self)

end ScriptCheck
