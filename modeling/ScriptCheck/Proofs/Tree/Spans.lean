import ScriptCheck.Proofs.Reading.Nodes
import ScriptCheck.Proofs.Tree.Nested

/-!
# The spans and names of a tree

All spans that a tree holds, and all names that it holds together with the place where they
stand. A parameter has one span, from its name to its type, so its name is not among them.
-/
namespace ScriptCheck

namespace Expr

/-- The spans that a node has itself, without those of the nodes inside it. -/
def ownSpans : Expr → List Span
  | .call callee _ callSpan s => [s, callSpan, callee.span]
  | e => [e.span]

/-- The callee of a call, with its place. -/
def calleeIdent? : Expr → Option Ident
  | .call callee _ _ _ => some callee
  | _ => none

/-- The operands of an operator, or the arguments of a call. -/
def parts : Expr → List Expr
  | .call _ args _ _ => args
  | .binary _ left right _ => [left, right]
  | .unary _ operand _ => [operand]
  | _ => []

theorem nodesAll_eq_flatMap (es : List Expr) : nodesAll es = es.flatMap nodes := by
  induction es with
  | nil => rfl
  | cons e es ih => rw [nodesAll, ih, List.flatMap_cons]

end Expr

/-- The variable that is declared or assigned. -/
def Stmt.target? : Stmt → Option Ident
  | .declare target _ _ _ => some target
  | .assign target _ _ => some target
  | _ => none

def Stmt.spans (st : Stmt) : List Span :=
  st.span :: (st.target?.toList.map Ident.span ++ st.nodes.flatMap Expr.ownSpans)

def Stmt.idents (st : Stmt) : List Ident :=
  st.target?.toList ++ st.nodes.filterMap Expr.calleeIdent?

def Procedure.spans (p : Procedure) : List Span :=
  p.span :: p.name.span :: (p.params.map Param.span ++ p.body.flatMap Stmt.spans)

def Procedure.idents (p : Procedure) : List Ident := p.name :: p.body.flatMap Stmt.idents

/-- Every span of a script. -/
def Script.spans (s : Script) : List Span := s.procedures.flatMap Procedure.spans

/-- Every name of a script that has a place of its own: of a procedure, a variable where it is
declared or assigned, and a callee. -/
def Script.idents (s : Script) : List Ident := s.procedures.flatMap Procedure.idents

/-! ## Parts are smaller -/

/-- The span lies inside another one and is not the whole of it. -/
structure Span.Inside (s t : Span) : Prop where
  le_start : t.start ≤ s.start
  stop_le : s.stop ≤ t.stop
  ne : s ≠ t

namespace Expr.Nested

variable {e part : Expr}

/-- An operand or argument does not cover the whole expression: another operand, the operator or
the name of the callee stands beside it. -/
theorem inside_of_mem_parts (h : e.Nested) (hpart : part ∈ e.parts) : part.span.Inside e.span := by
  cases h with
  | int => cases hpart
  | bool => cases hpart
  | var => cases hpart
  | @call callee args callSpan s hwhole hparts _ =>
    obtain ⟨hstart, _, hstop⟩ := hwhole
    obtain ⟨hcallee, hne, hrow⟩ := hparts
    have hbetween := hrow.between_of_mem (List.mem_map_of_mem hpart)
    have hafter : s.start < part.span.start := by
      have := hbetween.le_start
      omega
    refine ⟨Nat.le_of_lt hafter, Nat.le_trans hbetween.stop_le hstop, fun heq => ?_⟩
    rw [heq] at hafter
    exact Nat.lt_irrefl _ hafter
  | @binary op left right s hparts _ _ =>
    obtain ⟨hstart, hleft, hapart, hright, hstop⟩ := hparts
    have hstop : right.span.stop ≤ s.stop := hstop
    rcases List.mem_cons.1 hpart with rfl | hpart
    · have hbefore : part.span.stop < s.stop := by omega
      refine ⟨hstart, Nat.le_of_lt hbefore, fun heq => ?_⟩
      rw [heq] at hbefore
      exact Nat.lt_irrefl _ hbefore
    · obtain rfl := List.mem_singleton.1 hpart
      have hafter : s.start < part.span.start := by omega
      refine ⟨Nat.le_of_lt hafter, hstop, fun heq => ?_⟩
      rw [heq] at hafter
      exact Nat.lt_irrefl _ hafter
  | @unary op operand s hparts _ =>
    obtain rfl := List.mem_singleton.1 hpart
    obtain ⟨hafter, _, hstop⟩ := hparts
    refine ⟨Nat.le_of_lt hafter, hstop, fun heq => ?_⟩
    rw [heq] at hafter
    exact Nat.lt_irrefl _ hafter

end Expr.Nested

mutual

theorem Expr.Nested.of_mem_nodes : ∀ {e : Expr}, e.Nested → ∀ n ∈ e.nodes, n.Nested
  | .int _ _, h | .bool _ _, h | .var _ _, h => by simpa [Expr.nodes] using h
  | .call callee args callSpan s, h => by
    rw [Expr.nodes]
    refine List.forall_mem_cons.2 ⟨h, ?_⟩
    cases h with
    | call _ _ hargs => exact Expr.Nested.of_mem_nodesAll hargs
  | .binary op left right s, h => by
    rw [Expr.nodes]
    refine List.forall_mem_cons.2 ⟨h, ?_⟩
    cases h with
    | binary _ hleft hright =>
      exact List.forall_mem_append.2 ⟨hleft.of_mem_nodes, hright.of_mem_nodes⟩
  | .unary op operand s, h => by
    rw [Expr.nodes]
    refine List.forall_mem_cons.2 ⟨h, ?_⟩
    cases h with
    | unary _ hoperand => exact hoperand.of_mem_nodes

theorem Expr.Nested.of_mem_nodesAll : ∀ {es : List Expr}, (∀ e ∈ es, e.Nested) →
    ∀ n ∈ Expr.nodesAll es, n.Nested
  | [], _ => List.forall_mem_nil _
  | e :: es, h => by
    obtain ⟨he, hes⟩ := List.forall_mem_cons.1 h
    exact List.forall_mem_append.2 ⟨he.of_mem_nodes, Expr.Nested.of_mem_nodesAll hes⟩

end

/-- All expressions of a nested statement are nested, the call that a statement is included. -/
theorem Stmt.Nested.of_mem_nodes {st : Stmt} (h : st.Nested) : ∀ n ∈ st.nodes, n.Nested := by
  cases h with
  | @declare target type init s _ hinit =>
    cases init with
    | none => exact List.forall_mem_nil _
    | some e => simpa [Stmt.nodes] using (hinit e rfl).of_mem_nodes
  | assign _ hvalue => exact hvalue.of_mem_nodes
  | @call c s hspan hcall =>
    have hself : Span.Row c.span.start [c.span] c.span.stop :=
      ⟨Nat.le_refl _, hcall.parts.lt_of_cons, Nat.le_refl _⟩
    exact Expr.Nested.of_mem_nodes (.call hself hcall.parts hcall.args)
  | @ret value s _ hvalue =>
    cases value with
    | none => exact List.forall_mem_nil _
    | some e => simpa [Stmt.nodes] using (hvalue e rfl).of_mem_nodes

theorem Script.Nested.of_mem_nodes {s : Script} {n : Nat} (h : s.Nested n) :
    ∀ e ∈ s.nodes, e.Nested := by
  intro e he
  obtain ⟨p, hp, he⟩ := List.mem_flatMap.1 he
  obtain ⟨st, hst, he⟩ := List.mem_flatMap.1 he
  exact ((h.procedures p hp).body st hst).of_mem_nodes e he

end ScriptCheck
