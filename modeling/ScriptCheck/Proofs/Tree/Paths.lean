import ScriptCheck.Proofs.CallGraph
import ScriptCheck.Proofs.Tree.Moved

/-!
# Paths through expressions

A path leads from an expression down to one that has no parts, with a turn at every node before
the last. Inferring the type of an expression and collecting its callees call themselves for
every part. So they need as many levels of recursion as the longest path has nodes, no fewer
and no more.
-/
namespace ScriptCheck

/-- Where a path goes on at a node: into an argument of a call, into an operand of an operator
between two, or into that of a prefix operator. -/
inductive Turn where
  | argument
  | left
  | right
  | operand
deriving DecidableEq

namespace Expr

/-- The parts of an expression, each with the turn that leads to it. -/
def turns : Expr → List (Turn × Expr)
  | .int _ _ | .bool _ _ | .var _ _ => []
  | .call _ args _ _ => args.map (Turn.argument, ·)
  | .binary _ left right _ => [(.left, left), (.right, right)]
  | .unary _ operand _ => [(.operand, operand)]

/-- The turns of a path from the root of an expression to a leaf. The nodes on it are one more. -/
inductive Path : Expr → List Turn → Prop
  | leaf {e : Expr} : e.turns = [] → Path e []
  | turn {e part : Expr} {t : Turn} {ts : List Turn} :
    (t, part) ∈ e.turns → Path part ts → Path e (t :: ts)

variable {e : Expr} {n : Nat}

theorem exists_path : ∀ e : Expr, ∃ ts, e.Path ts
  | .int _ _ | .bool _ _ | .var _ _ | .call _ [] _ _ => ⟨[], .leaf rfl⟩
  | .call _ (arg :: _) _ _ =>
    let ⟨ts, h⟩ := arg.exists_path
    ⟨.argument :: ts, .turn List.mem_cons_self h⟩
  | .binary _ left _ _ =>
    let ⟨ts, h⟩ := left.exists_path
    ⟨.left :: ts, .turn List.mem_cons_self h⟩
  | .unary _ operand _ =>
    let ⟨ts, h⟩ := operand.exists_path
    ⟨.operand :: ts, .turn List.mem_cons_self h⟩

mutual

/-- All paths from the root to a leaf. -/
def paths : Expr → List (List Turn)
  | .int _ _ | .bool _ _ | .var _ _ | .call _ [] _ _ => [[]]
  | .call _ (arg :: args) _ _ => (arg.paths ++ pathsAll args).map (.argument :: ·)
  | .binary _ left right _ => left.paths.map (.left :: ·) ++ right.paths.map (.right :: ·)
  | .unary _ operand _ => operand.paths.map (.operand :: ·)

def pathsAll : List Expr → List (List Turn)
  | [] => []
  | e :: es => e.paths ++ pathsAll es

end

theorem pathsAll_eq_flatMap (es : List Expr) : pathsAll es = es.flatMap paths := by
  induction es with
  | nil => rfl
  | cons e es ih => rw [pathsAll, ih, List.flatMap_cons]

theorem paths_eq (e : Expr) : e.paths =
    if e.turns.isEmpty then [[]] else e.turns.flatMap fun p => p.2.paths.map (p.1 :: ·) := by
  cases e with
  | int | bool | var => rfl
  | call callee args callSpan s =>
    cases args with
    | nil => rfl
    | cons arg args =>
      simp [paths, turns, pathsAll_eq_flatMap, List.flatMap_map, List.map_flatMap]
  | binary | unary => simp [paths, turns]

theorem mem_paths_iff {ts : List Turn} : ts ∈ e.paths ↔ e.Path ts := by
  induction ts generalizing e with
  | nil =>
    rw [paths_eq]
    constructor
    · intro h
      split at h
      · next hempty => exact .leaf (List.isEmpty_iff.1 hempty)
      · simp at h
    · intro h
      cases h with
      | leaf h => simp [h]
  | cons t ts ih =>
    rw [paths_eq]
    constructor
    · intro h
      split at h
      · simp at h
      · obtain ⟨⟨t', part⟩, hp, h⟩ := List.mem_flatMap.1 h
        obtain ⟨ts', hts', heq⟩ := List.mem_map.1 h
        cases heq
        exact .turn hp (ih.1 hts')
    · intro h
      cases h with
      | turn hturn hpath =>
        rw [if_neg (by simp [List.ne_nil_of_mem hturn])]
        exact List.mem_flatMap.2 ⟨_, hturn, List.mem_map_of_mem (ih.2 hpath)⟩

/-! ## Paths of other expressions -/

theorem turns_move (m : Move) (e : Expr) :
    (e.move m).turns = e.turns.map fun p => (p.1, p.2.move m) := by
  cases e with
  | call callee args callSpan s => simp [move, turns, moveAll_eq_map]
  | _ => rfl

/-- Paths do not depend on places. -/
theorem path_move_iff {m : Move} {ts : List Turn} : (e.move m).Path ts ↔ e.Path ts := by
  constructor
  · intro h
    generalize he : e.move m = e' at h
    induction h generalizing e with
    | leaf h =>
      rw [← he, turns_move] at h
      exact .leaf (List.map_eq_nil_iff.1 h)
    | turn hturn _ ih =>
      rw [← he, turns_move] at hturn
      obtain ⟨⟨t, part⟩, hpart, heq⟩ := List.mem_map.1 hturn
      cases heq
      exact .turn hpart (ih rfl)
  · intro h
    induction h with
    | leaf h => exact .leaf (by rw [turns_move, h]; rfl)
    | turn hturn _ ih =>
      exact .turn (by rw [turns_move]; exact List.mem_map.2 ⟨_, hturn, rfl⟩) ih

/-- A way down from the expression to one of its nodes. -/
inductive Reaches : Expr → List Turn → Expr → Prop
  | here {e : Expr} : Reaches e [] e
  | turn {e part node : Expr} {t : Turn} {ts : List Turn} :
    (t, part) ∈ e.turns → Reaches part ts node → Reaches e (t :: ts) node

theorem Reaches.path {node : Expr} {us ts : List Turn} (h : e.Reaches us node)
    (hpath : node.Path ts) : e.Path (us ++ ts) := by
  induction h with
  | here => exact hpath
  | turn hturn _ ih => exact .turn hturn (ih hpath)

mutual

theorem exists_reaches : ∀ {e node : Expr}, node ∈ e.nodes → ∃ ts, e.Reaches ts node
  | .int _ _, node, h | .bool _ _, node, h | .var _ _, node, h => by
    obtain rfl := List.mem_singleton.1 h
    exact ⟨[], .here⟩
  | .call callee args callSpan s, node, h => by
    rcases List.mem_cons.1 h with rfl | h
    · exact ⟨[], .here⟩
    · obtain ⟨arg, harg, ts, hreaches⟩ := exists_reaches_all h
      exact ⟨.argument :: ts, .turn (List.mem_map.2 ⟨arg, harg, rfl⟩) hreaches⟩
  | .binary op left right s, node, h => by
    rcases List.mem_cons.1 h with rfl | h
    · exact ⟨[], .here⟩
    · rcases List.mem_append.1 h with h | h
      · obtain ⟨ts, hreaches⟩ := exists_reaches h
        exact ⟨.left :: ts, .turn List.mem_cons_self hreaches⟩
      · obtain ⟨ts, hreaches⟩ := exists_reaches h
        exact ⟨.right :: ts, .turn (List.mem_cons_of_mem _ List.mem_cons_self) hreaches⟩
  | .unary op operand s, node, h => by
    rcases List.mem_cons.1 h with rfl | h
    · exact ⟨[], .here⟩
    · obtain ⟨ts, hreaches⟩ := exists_reaches h
      exact ⟨.operand :: ts, .turn List.mem_cons_self hreaches⟩

theorem exists_reaches_all : ∀ {es : List Expr} {node : Expr}, node ∈ nodesAll es →
    ∃ e ∈ es, ∃ ts, e.Reaches ts node
  | [], _, h => by cases h
  | e :: es, node, h => by
    rcases List.mem_append.1 h with h | h
    · obtain ⟨ts, hreaches⟩ := exists_reaches h
      exact ⟨e, List.mem_cons_self, ts, hreaches⟩
    · obtain ⟨e', he', hreaches⟩ := exists_reaches_all h
      exact ⟨e', List.mem_cons_of_mem _ he', hreaches⟩

end

/-! ## Levels of recursion -/

/-- No path has more than `n` nodes. -/
def Within (n : Nat) (e : Expr) : Prop := ∀ ts, e.Path ts → ts.length < n

theorem not_within_zero : ¬ e.Within 0 := by
  obtain ⟨ts, h⟩ := e.exists_path
  exact fun hwithin => Nat.not_lt_zero _ (hwithin ts h)

theorem within_succ_iff : e.Within (n + 1) ↔ ∀ p ∈ e.turns, p.2.Within n := by
  constructor
  · intro h p hp ts hts
    exact Nat.lt_of_succ_lt_succ (h (p.1 :: ts) (.turn hp hts))
  · intro h ts hts
    cases hts with
    | leaf => exact Nat.succ_pos n
    | turn hturn hpath => exact Nat.succ_lt_succ (h _ hturn _ hpath)

section

variable {α : Type}

/-- A recursive function with only `n` levels of recursion: `step` is the work for an expression,
which asks for what the parts come to. Without a level left there is no answer. -/
def recurse (step : (Expr → Option α) → Expr → Option α) : Nat → Expr → Option α
  | 0, _ => none
  | n + 1, e => step (recurse step n) e

/-- The step computes `f` from the values of `f` at the parts, and asks for each of them. -/
structure Unfolds (step : (Expr → Option α) → Expr → Option α) (f : Expr → α) : Prop where
  value : ∀ inner e, (∀ p ∈ e.turns, inner p.2 = some (f p.2)) → step inner e = some (f e)
  asks : ∀ inner e, (step inner e).isSome = true → ∀ p ∈ e.turns, (inner p.2).isSome = true

/-- The answer takes as many levels as the longest path has nodes. -/
theorem Unfolds.recurse_eq_some_iff {step : (Expr → Option α) → Expr → Option α} {f : Expr → α}
    (h : Unfolds step f) : recurse step n e = some (f e) ↔ e.Within n := by
  have hneeds : ∀ n e, (recurse step n e).isSome = true → e.Within n := by
    intro n
    induction n with
    | zero => exact fun e hsome => absurd hsome Bool.false_ne_true
    | succ n ih =>
      exact fun e hsome => within_succ_iff.2 fun p hp => ih _ (h.asks _ e hsome p hp)
  constructor
  · intro hvalue
    exact hneeds n e (by rw [hvalue]; rfl)
  · intro hwithin
    induction n generalizing e with
    | zero => exact absurd hwithin not_within_zero
    | succ n ih => exact h.value _ e fun p hp => ih (within_succ_iff.1 hwithin p hp)

end

end Expr

section

variable {α β : Type} {f : α → Option β}

theorem exists_of_isSome_bind {x : Option α} (h : (x >>= f).isSome = true) :
    ∃ a, x = some a ∧ (f a).isSome = true := by
  cases x with
  | none => cases h
  | some a => exact ⟨a, rfl, h⟩

theorem mapM_eq_some {g : α → β} {as : List α} (h : ∀ a ∈ as, f a = some (g a)) :
    as.mapM f = some (as.map g) := by
  induction as with
  | nil => rfl
  | cons a as ih =>
    obtain ⟨ha, has⟩ := List.forall_mem_cons.1 h
    rw [List.mapM_cons, ha, ih has]
    rfl

theorem isSome_of_mapM {as : List α} (h : (as.mapM f).isSome = true) :
    ∀ a ∈ as, (f a).isSome = true := by
  induction as with
  | nil => exact List.forall_mem_nil _
  | cons a as ih =>
    rw [List.mapM_cons] at h
    obtain ⟨b, hb, h⟩ := exists_of_isSome_bind h
    obtain ⟨bs, hbs, _⟩ := exists_of_isSome_bind h
    exact List.forall_mem_cons.2 ⟨by rw [hb]; rfl, ih (by rw [hbs]; rfl)⟩

namespace Expr

variable {callee : Ident} {args : List Expr} {op : BinaryOp} {left right : Expr} {callSpan s : Span}
  {inner : Expr → Option α}

theorem isSome_of_args {f : List α → Option β} (h : (args.mapM inner >>= f).isSome = true) :
    ∀ p ∈ (call callee args callSpan s).turns, (inner p.2).isSome = true := by
  obtain ⟨as, hargs, _⟩ := exists_of_isSome_bind h
  exact List.forall_mem_map.2 (isSome_of_mapM (by rw [hargs]; rfl))

theorem isSome_of_operands {f : α → α → Option β}
    (h : (inner left >>= fun l => inner right >>= f l).isSome = true) :
    ∀ p ∈ (binary op left right s).turns, (inner p.2).isSome = true := by
  obtain ⟨l, hleft, h⟩ := exists_of_isSome_bind h
  obtain ⟨r, hright, _⟩ := exists_of_isSome_bind h
  exact List.forall_mem_cons.2 ⟨by rw [hleft]; rfl,
    List.forall_mem_singleton.2 (by rw [hright]; rfl)⟩

end Expr

end

/-! ## Inferring types -/

namespace Env

/-- The findings in arguments, and between them and the expected types, from what each of the
arguments came to. -/
def fitArgs : List Ty → List Expr → List (Ty × List Finding) → List Finding
  | types, arg :: args, (t, found) :: inferred =>
    let fit := match types with
      | [] => []
      | expected :: _ => expectType expected t arg.span
    found ++ fit ++ fitArgs types.tail args inferred
  | _, [], _ | _, _ :: _, [] => []

/-- The type and the findings of an expression, when `inner` answers for its parts. -/
def inferStep (env : Env) (inner : Expr → Option (Ty × List Finding)) :
    Expr → Option (Ty × List Finding)
  | .int _ _ => some (.int32, [])
  | .bool _ _ => some (.bool, [])
  | .var name span => some (env.resolve name span)
  | .call callee args callSpan _ => do
    let (types, result, found) := env.callee callee args.length callSpan
    let inferred ← args.mapM inner
    return (result, found ++ fitArgs types args inferred)
  | .binary op left right _ => do
    let (leftType, inLeft) ← inner left
    let (rightType, inRight) ← inner right
    if leftType.isError || rightType.isError then
      return (.error, inLeft ++ inRight)
    else
      let (t, found) := operatorType (op.resultType leftType rightType) fun
        | .right => right.span
        | _ => left.span
      return (t, inLeft ++ inRight ++ found)
  | .unary op operand _ => do
    let (operandType, inside) ← inner operand
    if operandType.isError then
      return (.error, inside)
    else
      let (t, found) := operatorType (op.resultType operandType) fun _ => operand.span
      return (t, inside ++ found)

/-- Inference with `n` levels of recursion. -/
def inferWithin (env : Env) (n : Nat) (e : Expr) : Option (Ty × List Finding) :=
  Expr.recurse env.inferStep n e

variable (env : Env)

theorem fitArgs_map_infer (types : List Ty) (args : List Expr) :
    fitArgs types args (args.map env.infer) = env.inferArgs types args := by
  induction args generalizing types with
  | nil => rfl
  | cons arg args ih =>
    rw [inferArgs, ← ih]
    rfl

theorem inferStep_value {inner : Expr → Option (Ty × List Finding)} {e : Expr}
    (h : ∀ p ∈ e.turns, inner p.2 = some (env.infer p.2)) :
    env.inferStep inner e = some (env.infer e) := by
  cases e with
  | int | bool | var => rfl
  | call callee args callSpan s =>
    have hargs : ∀ arg ∈ args, inner arg = some (env.infer arg) := fun arg harg =>
      h (.argument, arg) (List.mem_map.2 ⟨arg, harg, rfl⟩)
    rw [inferStep, infer, mapM_eq_some hargs]
    generalize env.callee callee args.length callSpan = known
    obtain ⟨types, result, found⟩ := known
    dsimp only
    rw [← env.fitArgs_map_infer]
    rfl
  | binary op left right s =>
    have hleft : inner left = some (env.infer left) := h (.left, left) List.mem_cons_self
    have hright : inner right = some (env.infer right) :=
      h (.right, right) (List.mem_cons_of_mem _ List.mem_cons_self)
    rw [inferStep, infer, hleft, hright]
    dsimp only [Option.bind_eq_bind, Option.bind_some]
    split <;> rfl
  | unary op operand s =>
    have hoperand : inner operand = some (env.infer operand) :=
      h (.operand, operand) List.mem_cons_self
    rw [inferStep, infer, hoperand]
    dsimp only [Option.bind_eq_bind, Option.bind_some]
    split <;> rfl

theorem isSome_of_inferStep {inner : Expr → Option (Ty × List Finding)} {e : Expr}
    (h : (env.inferStep inner e).isSome = true) : ∀ p ∈ e.turns, (inner p.2).isSome = true := by
  cases e with
  | int | bool | var => exact List.forall_mem_nil _
  | call => exact Expr.isSome_of_args h
  | binary => exact Expr.isSome_of_operands h
  | unary =>
    obtain ⟨inferred, hoperand, _⟩ := exists_of_isSome_bind h
    exact List.forall_mem_singleton.2 (by rw [hoperand]; rfl)

theorem inferWithin_eq_some_iff {n : Nat} {e : Expr} :
    env.inferWithin n e = some (env.infer e) ↔ e.Within n :=
  Expr.Unfolds.recurse_eq_some_iff
    ⟨fun _ _ => env.inferStep_value, fun _ _ => env.isSome_of_inferStep⟩

end Env

/-! ## Collecting callees -/

namespace Expr

/-- The names that an expression calls, when `inner` answers for its parts. -/
def calleesStep (inner : Expr → Option (List String)) : Expr → Option (List String)
  | .int _ _ | .bool _ _ | .var _ _ => some []
  | .call callee args _ _ => do
    let inside ← args.mapM inner
    return callee.name :: inside.flatten
  | .binary _ left right _ => do
    let inLeft ← inner left
    let inRight ← inner right
    return inLeft ++ inRight
  | .unary _ operand _ => inner operand

/-- Collecting callees with `n` levels of recursion. -/
def calleesWithin (n : Nat) (e : Expr) : Option (List String) := recurse calleesStep n e

theorem flatten_map_callees (es : List Expr) : (es.map callees).flatten = calleesAll es := by
  induction es with
  | nil => rfl
  | cons e es ih => rw [List.map_cons, List.flatten_cons, ih, calleesAll]

variable {inner : Expr → Option (List String)} {e : Expr}

theorem calleesStep_value (h : ∀ p ∈ e.turns, inner p.2 = some p.2.callees) :
    calleesStep inner e = some e.callees := by
  cases e with
  | int | bool | var => rfl
  | call callee args callSpan s =>
    have hargs : ∀ arg ∈ args, inner arg = some arg.callees := fun arg harg =>
      h (.argument, arg) (List.mem_map.2 ⟨arg, harg, rfl⟩)
    rw [calleesStep, callees, mapM_eq_some hargs, ← flatten_map_callees]
    rfl
  | binary op left right s =>
    have hleft : inner left = some left.callees := h (.left, left) List.mem_cons_self
    have hright : inner right = some right.callees :=
      h (.right, right) (List.mem_cons_of_mem _ List.mem_cons_self)
    rw [calleesStep, hleft, hright]
    rfl
  | unary op operand s => exact h (.operand, operand) List.mem_cons_self

theorem isSome_of_calleesStep (h : (calleesStep inner e).isSome = true) :
    ∀ p ∈ e.turns, (inner p.2).isSome = true := by
  cases e with
  | int | bool | var => exact List.forall_mem_nil _
  | call => exact isSome_of_args h
  | binary => exact isSome_of_operands h
  | unary => exact List.forall_mem_singleton.2 h

theorem calleesWithin_eq_some_iff {n : Nat} : calleesWithin n e = some e.callees ↔ e.Within n :=
  Unfolds.recurse_eq_some_iff
    ⟨fun _ _ => calleesStep_value, fun _ _ => isSome_of_calleesStep⟩

end Expr
end ScriptCheck
