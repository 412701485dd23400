import ScriptCheck.Proofs.Scope
import ScriptCheck.Proofs.Typing

/-!
# Inferred types are the types by the rules

An expression gets a type without any finding exactly if it has that type by the rules.
The type for faulty expressions never comes without a finding, so nothing hides behind it.
-/
namespace ScriptCheck

/-! ## Operators -/

theorem Ty.agrees_eq_false_iff {a b : Ty} :
    a.agrees b = false ↔ a ≠ .error ∧ b ≠ .error ∧ a ≠ b := by
  rw [← Bool.not_eq_true, Ty.agrees_iff]
  simp only [not_or]

namespace BinaryOp

variable {op : BinaryOp} {operand result left right t : Ty} {m : OperandMismatch}

theorem fixedType_eq_ok_iff : fixedType operand result left right = .ok t ↔
    left = operand ∧ right = operand ∧ t = result := by
  unfold fixedType
  split
  · next h => simp [h]
  · next h =>
    split
    · next h' => simp [h']
    · next h' =>
      rw [Decidable.not_not] at h h'
      simp [h, h', eq_comm]

theorem equalityType_eq_ok_iff : equalityType left right = .ok t ↔
    left ≠ .void ∧ right = left ∧ t = .bool := by
  unfold equalityType
  split
  · next h => simp [h]
  · next h =>
    split
    · next h' => simp [h']
    · next h' =>
      rw [Decidable.not_not] at h'
      simp [h, h', eq_comm]

/-- The result type of an operator is the one of the table. -/
theorem resultType_eq_ok_iff : op.resultType left right = .ok t ↔ op.Takes left right t := by
  constructor
  · intro h
    unfold resultType at h
    cases op
    case eq | ne =>
      obtain ⟨hvoid, rfl, rfl⟩ := equalityType_eq_ok_iff.1 h
      exact .equality (by decide) hvoid
    case lt | le | gt | ge =>
      obtain ⟨rfl, rfl, rfl⟩ := fixedType_eq_ok_iff.1 h
      exact .ordering (by decide)
    case and | or =>
      obtain ⟨rfl, rfl, rfl⟩ := fixedType_eq_ok_iff.1 h
      exact .logical (by decide)
    all_goals
      obtain ⟨rfl, rfl, rfl⟩ := fixedType_eq_ok_iff.1 h
      exact .arithmetic (by decide)
  · intro h
    cases h with
    | arithmetic h =>
      rcases h with _ | ⟨_, _ | ⟨_, _ | ⟨_, _ | ⟨_, _ | ⟨_, ⟨⟩⟩⟩⟩⟩⟩ <;> rfl
    | ordering h => rcases h with _ | ⟨_, _ | ⟨_, _ | ⟨_, _ | ⟨_, ⟨⟩⟩⟩⟩⟩ <;> rfl
    | logical h => rcases h with _ | ⟨_, _ | ⟨_, ⟨⟩⟩⟩ <;> rfl
    | equality h ht =>
      have heq := equalityType_eq_ok_iff.2 ⟨ht, rfl, rfl⟩
      rcases h with _ | ⟨_, _ | ⟨_, ⟨⟩⟩⟩ <;> exact heq

theorem not_agrees_of_fixedType (h : fixedType operand result left right = .error m)
    (hoperand : operand ≠ .error) (hleft : left ≠ .error) (hright : right ≠ .error) :
    m.actual.agrees m.expected = false := by
  unfold fixedType at h
  split at h
  · next hne =>
    cases h
    exact Ty.agrees_eq_false_iff.2 ⟨hleft, hoperand, hne⟩
  · split at h
    · next hne =>
      cases h
      exact Ty.agrees_eq_false_iff.2 ⟨hright, hoperand, hne⟩
    · cases h

theorem not_agrees_of_equalityType (h : equalityType left right = .error m)
    (hleft : left ≠ .error) (hright : right ≠ .error) : m.actual.agrees m.expected = false := by
  unfold equalityType at h
  split at h
  · next hvoid =>
    cases h
    subst hvoid
    -- What is expected instead of `Void` is never `Void` again.
    by_cases hr : right = .void
    · simp [hr, Ty.agrees_eq_false_iff]
    · simp [hr, Ty.agrees_eq_false_iff, hright, Ne.symm hr]
  · split at h
    · next hne =>
      cases h
      exact Ty.agrees_eq_false_iff.2 ⟨hright, hleft, hne⟩
    · cases h

/-- A refused operand has a type that differs from the expected one, and neither is the
type of faulty expressions. -/
theorem not_agrees_of_resultType (h : op.resultType left right = .error m)
    (hleft : left ≠ .error) (hright : right ≠ .error) :
    m.actual.agrees m.expected = false := by
  unfold resultType at h
  cases htier : op.tier with
  | equality => rw [htier] at h; exact not_agrees_of_equalityType h hleft hright
  | sum | product | ordering | conjunction | disjunction =>
    rw [htier] at h
    exact not_agrees_of_fixedType h (by decide) hleft hright

end BinaryOp

namespace UnaryOp

variable {op : UnaryOp} {operand t : Ty} {m : OperandMismatch}

theorem resultType_eq_ok_iff : op.resultType operand = .ok t ↔ op.Takes operand t := by
  constructor
  · intro h
    unfold resultType at h
    split at h
    · next hoperand =>
      cases h
      subst hoperand
      cases op
      · exact .neg
      · exact .not
    · cases h
  · intro h
    cases h <;> rfl

theorem not_agrees_of_resultType (h : op.resultType operand = .error m)
    (hoperand : operand ≠ .error) : m.actual.agrees m.expected = false := by
  unfold resultType at h
  split at h
  · cases h
  · next hne =>
    cases h
    have htype : op.type ≠ .error := by cases op <;> decide
    exact Ty.agrees_eq_false_iff.2 ⟨hoperand, htype, hne⟩

end UnaryOp

/-! ## Findings of expressions -/

theorem expectType_eq_nil_iff {expected actual : Ty} {s : Span} :
    expectType expected actual s = [] ↔ actual.agrees expected = true := by
  unfold expectType
  split
  · next h => simp [h]
  · next h => simp [h]

/-- Where every refused operand disagrees with what was expected, an operator application
is without a finding only if it has a type. -/
theorem operatorType_eq_iff {result : Except OperandMismatch Ty} {place : Operand → Span} {t : Ty}
    (h : ∀ m, result = .error m → m.actual.agrees m.expected = false) :
    operatorType result place = (t, []) ↔ result = .ok t := by
  cases result with
  | ok u => simp [operatorType]
  | error m =>
    have hm := h m rfl
    simp [operatorType, expectType, hm]

/-- A table that holds the given procedures, none of which declares the type of faulty
expressions. -/
structure GlobalTable.Reflects (globals : GlobalTable) (procedures : List Procedure) : Prop where
  lookup : ∀ x sig, globals.lookup x = some sig ↔
    ∃ p ∈ procedures, p.name.name = x ∧ p.signature = sig
  returns_ne : ∀ p ∈ procedures, p.returns ≠ .error
  params_ne : ∀ p ∈ procedures, ∀ t ∈ p.params.map (·.type), t ≠ .error

/-- What the checker knows at some place is what the rules speak of. -/
structure Env.Reflects (env : Env) (procedures : List Procedure) (names : Context) : Prop where
  globals : env.globals.Reflects procedures
  scope : ∀ x t, (∃ b, env.scope.lookup x = some b ∧ b.type = t) ↔ (x, t) ∈ names
  names_ne : ∀ x t, (x, t) ∈ names → t ≠ .error

theorem BinaryOp.Takes.ne_error {op : BinaryOp} {left right t : Ty} (h : op.Takes left right t) :
    t ≠ .error := by
  cases h <;> decide

theorem UnaryOp.Takes.ne_error {op : UnaryOp} {operand t : Ty} (h : op.Takes operand t) :
    t ≠ .error := by
  cases h <;> decide

section

variable {env : Env} {procedures : List Procedure} {names : Context}

theorem HasType.ne_error (henv : env.Reflects procedures names) {e : Expr} {t : Ty}
    (h : HasType procedures names e t) : t ≠ .error := by
  cases h with
  | int => decide
  | bool => decide
  | var s h => exact henv.names_ne _ _ h
  | call callSpan s hp hname hargs => exact henv.globals.returns_ne _ hp
  | binary s hleft hright hop => exact hop.ne_error
  | unary s hoperand hop => exact hop.ne_error

theorem Env.callee_of_mem (henv : env.Reflects procedures names) {p : Procedure}
    (hp : p ∈ procedures) {callee : Ident} (hname : p.name.name = callee.name) (provided : Nat)
    (s : Span) :
    env.callee callee provided s = (p.params.map (·.type), p.returns,
      if (p.params.map (·.type)).length = provided then []
      else [⟨.argCount (p.params.map (·.type)).length provided, s⟩]) := by
  have hlookup := (henv.globals.lookup callee.name p.signature).2 ⟨p, hp, hname, rfl⟩
  rw [Env.callee, hlookup]
  rfl

/-- A callee is found exactly if some procedure has its name. -/
theorem Env.callee_cases (henv : env.Reflects procedures names) (callee : Ident) (provided : Nat)
    (s : Span) :
    (∃ p ∈ procedures, p.name.name = callee.name) ∨
      (∀ p ∈ procedures, p.name.name ≠ callee.name) ∧
        env.callee callee provided s = ([], .error, [⟨.unknown callee.name, callee.span⟩]) := by
  cases hlookup : env.globals.lookup callee.name with
  | some sig =>
    obtain ⟨p, hp, hname, _⟩ := (henv.globals.lookup _ _).1 hlookup
    exact .inl ⟨p, hp, hname⟩
  | none =>
    refine .inr ⟨fun p hp hname => ?_, by rw [Env.callee, hlookup]⟩
    have hsome := (henv.globals.lookup callee.name p.signature).2 ⟨p, hp, hname, rfl⟩
    rw [hlookup] at hsome
    cases hsome

/-- If the type of an expression is known, so is what it has to be expected for. -/
theorem Env.expect_eq_nil_iff_of {e : Expr} {t : Ty} (ht : t ≠ .error)
    (henv : env.Reflects procedures names)
    (he : ∀ u, env.infer e = (u, []) ↔ HasType procedures names e u) :
    env.expect t e = [] ↔ HasType procedures names e t := by
  unfold Env.expect
  constructor
  · intro h
    obtain ⟨hfound, hagrees⟩ := List.append_eq_nil_iff.1 h
    have htype := (he (env.infer e).1).1 (Prod.ext rfl hfound)
    rcases Ty.agrees_iff.1 (expectType_eq_nil_iff.1 hagrees) with herror | herror | heq
    · exact absurd herror (htype.ne_error henv)
    · exact absurd herror ht
    · exact heq ▸ htype
  · intro h
    rw [(he t).2 h]
    exact expectType_eq_nil_iff.2 (Ty.agrees_self t)

theorem Env.infer_var_iff (henv : env.Reflects procedures names) {x : String} {s : Span} {t : Ty} :
    env.infer (.var x s) = (t, []) ↔ HasType procedures names (.var x s) t := by
  have hscope := henv.scope x t
  constructor
  · intro h
    rw [Env.infer, Env.resolve] at h
    cases hlookup : env.scope.lookup x with
    | none => rw [hlookup] at h; cases h
    | some b =>
      rw [hlookup] at h hscope
      exact .var s (hscope.1 ⟨b, rfl, congrArg Prod.fst h⟩)
  · intro h
    cases h with
    | var s h =>
      obtain ⟨b, hlookup, rfl⟩ := hscope.2 h
      rw [Env.infer, Env.resolve, hlookup]

/-- A call has its type if its arguments have theirs. -/
theorem Env.infer_call_iff (henv : env.Reflects procedures names) {callee : Ident}
    {args : List Expr} {callSpan s : Span} {t : Ty}
    (hargs : ∀ ts, (∀ u ∈ ts, u ≠ .error) →
      (ts.length = args.length ∧ env.inferArgs ts args = [] ↔ HaveTypes procedures names args ts)) :
    env.infer (.call callee args callSpan s) = (t, []) ↔
      HasType procedures names (.call callee args callSpan s) t := by
  rw [Env.infer]
  constructor
  · intro h
    rcases env.callee_cases henv callee args.length callSpan with ⟨p, hp, hname⟩ | ⟨_, hunknown⟩
    · rw [Env.callee_of_mem henv hp hname] at h
      obtain ⟨hreturns, hfound⟩ := Prod.mk.inj h
      obtain ⟨hcount, hinside⟩ := List.append_eq_nil_iff.1 hfound
      by_cases hlength : (p.params.map (·.type)).length = args.length
      · rw [← hreturns]
        have hall := (hargs _ (henv.globals.params_ne p hp)).1 ⟨hlength, hinside⟩
        exact .call callSpan s hp hname hall
      · rw [if_neg hlength] at hcount
        cases hcount
    · rw [hunknown] at h
      cases h
  · intro h
    cases h with
    | call callSpan s hp hname h =>
      obtain ⟨hlength, hinside⟩ := (hargs _ (henv.globals.params_ne _ hp)).2 h
      rw [Env.callee_of_mem henv hp hname]
      simp only [hlength, if_true, hinside, List.append_nil]

theorem Env.infer_binary_iff (henv : env.Reflects procedures names) {op : BinaryOp}
    {left right : Expr} {s : Span} {t : Ty}
    (hleft : ∀ u, env.infer left = (u, []) ↔ HasType procedures names left u)
    (hright : ∀ u, env.infer right = (u, []) ↔ HasType procedures names right u) :
    env.infer (.binary op left right s) = (t, []) ↔
      HasType procedures names (.binary op left right s) t := by
  constructor
  · intro h
    rcases hl : env.infer left with ⟨t₁, inLeft⟩
    rcases hr : env.infer right with ⟨t₂, inRight⟩
    simp only [Env.infer, hl, hr] at h
    have hclean : inLeft = [] ∧ inRight = [] := by
      split at h
      · exact List.append_eq_nil_iff.1 (congrArg Prod.snd h)
      · exact List.append_eq_nil_iff.1 (List.append_eq_nil_iff.1 (congrArg Prod.snd h)).1
    obtain ⟨rfl, rfl⟩ := hclean
    have htl := (hleft t₁).1 hl
    have htr := (hright t₂).1 hr
    -- Operands without a finding are not of the faulty type.
    have hne : ¬(t₁.isError || t₂.isError) = true := by
      simp [Ty.isError, htl.ne_error henv, htr.ne_error henv]
    rw [if_neg hne] at h
    obtain ⟨hresult, hfound⟩ := Prod.mk.inj h
    have htype := (operatorType_eq_iff fun m hm =>
      BinaryOp.not_agrees_of_resultType hm (htl.ne_error henv) (htr.ne_error henv)).1
        (Prod.ext hresult hfound)
    exact .binary s htl htr (BinaryOp.resultType_eq_ok_iff.1 htype)
  · intro h
    cases h with
    | @binary _ _ _ t₁ t₂ _ _ htl htr hop =>
      have hne : ¬(t₁.isError || t₂.isError) = true := by
        simp [Ty.isError, htl.ne_error henv, htr.ne_error henv]
      simp only [Env.infer, (hleft t₁).2 htl, (hright t₂).2 htr, if_neg hne,
        BinaryOp.resultType_eq_ok_iff.2 hop, operatorType, List.append_nil]

theorem Env.infer_unary_iff (henv : env.Reflects procedures names) {op : UnaryOp}
    {operand : Expr} {s : Span} {t : Ty}
    (hoperand : ∀ u, env.infer operand = (u, []) ↔ HasType procedures names operand u) :
    env.infer (.unary op operand s) = (t, []) ↔
      HasType procedures names (.unary op operand s) t := by
  constructor
  · intro h
    rcases ho : env.infer operand with ⟨u, inside⟩
    simp only [Env.infer, ho] at h
    have hclean : inside = [] := by
      split at h
      · exact congrArg Prod.snd h
      · exact (List.append_eq_nil_iff.1 (congrArg Prod.snd h)).1
    subst hclean
    have htype := (hoperand u).1 ho
    have hne : ¬u.isError = true := by simp [Ty.isError, htype.ne_error henv]
    rw [if_neg hne] at h
    obtain ⟨hresult, hfound⟩ := Prod.mk.inj h
    have hop := (operatorType_eq_iff fun m hm =>
      UnaryOp.not_agrees_of_resultType hm (htype.ne_error henv)).1 (Prod.ext hresult hfound)
    exact .unary s htype (UnaryOp.resultType_eq_ok_iff.1 hop)
  · intro h
    cases h with
    | @unary _ _ u _ _ htype hop =>
      have hne : ¬u.isError = true := by simp [Ty.isError, htype.ne_error henv]
      simp only [Env.infer, (hoperand u).2 htype, if_neg hne,
        UnaryOp.resultType_eq_ok_iff.2 hop, operatorType, List.append_nil]

mutual

/-- An expression gets a type without a finding exactly if it has that type. -/
theorem Env.infer_eq_iff (henv : env.Reflects procedures names) (e : Expr) (t : Ty) :
    env.infer e = (t, []) ↔ HasType procedures names e t := by
  match e with
  | .int value s =>
    constructor
    · intro h
      cases h
      exact .int value s
    · intro h
      cases h
      rfl
  | .bool value s =>
    constructor
    · intro h
      cases h
      exact .bool value s
    · intro h
      cases h
      rfl
  | .var x s => exact Env.infer_var_iff henv
  | .call callee args callSpan s =>
    exact Env.infer_call_iff henv fun ts hts => Env.inferArgs_eq_nil_iff henv args ts hts
  | .binary op left right s =>
    exact Env.infer_binary_iff henv (Env.infer_eq_iff henv left) (Env.infer_eq_iff henv right)
  | .unary op operand s => exact Env.infer_unary_iff henv (Env.infer_eq_iff henv operand)

theorem Env.inferArgs_eq_nil_iff (henv : env.Reflects procedures names) (es : List Expr)
    (ts : List Ty) (hts : ∀ t ∈ ts, t ≠ .error) :
    ts.length = es.length ∧ env.inferArgs ts es = [] ↔ HaveTypes procedures names es ts := by
  match es, ts with
  | [], [] => exact ⟨fun _ => .nil, fun _ => ⟨rfl, rfl⟩⟩
  | [], t :: ts => exact ⟨fun h => absurd h.1 (by simp), fun h => by cases h⟩
  | e :: es, [] => exact ⟨fun h => absurd h.1 (by simp), fun h => by cases h⟩
  | e :: es, t :: ts =>
    obtain ⟨ht, hts⟩ := List.forall_mem_cons.1 hts
    have he := Env.expect_eq_nil_iff_of ht henv (Env.infer_eq_iff henv e)
    have hes := Env.inferArgs_eq_nil_iff henv es ts hts
    have hsplit : env.inferArgs (t :: ts) (e :: es) = env.expect t e ++ env.inferArgs ts es := rfl
    rw [hsplit, List.append_eq_nil_iff, he]
    constructor
    · rintro ⟨hlength, hhead, hrest⟩
      exact .cons hhead (hes.1 ⟨Nat.succ.inj hlength, hrest⟩)
    · intro h
      cases h with
      | cons hhead hrest =>
        obtain ⟨hlength, hfound⟩ := hes.2 hrest
        exact ⟨congrArg Nat.succ hlength, hhead, hfound⟩

end

theorem Env.expect_eq_nil_iff (henv : env.Reflects procedures names) {e : Expr} {t : Ty}
    (ht : t ≠ .error) : env.expect t e = [] ↔ HasType procedures names e t :=
  Env.expect_eq_nil_iff_of ht henv (Env.infer_eq_iff henv e)

theorem Env.infer_clean_iff (henv : env.Reflects procedures names) {e : Expr} :
    (env.infer e).2 = [] ↔ ∃ t, HasType procedures names e t := by
  constructor
  · intro h
    exact ⟨_, (Env.infer_eq_iff henv e (env.infer e).1).1 (Prod.ext rfl h)⟩
  · rintro ⟨t, h⟩
    rw [(Env.infer_eq_iff henv e t).2 h]

end

end ScriptCheck
