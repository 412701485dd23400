import ScriptCheck.Tree

/-!
# Trees whose spans nest

In the tree of a text the parts of a node stand inside it, one behind the other, and none of
them is empty. A prefix operator begins before its operand and a `return` before its value,
so a part never covers the whole.
-/
namespace ScriptCheck

namespace Span

/-- The span is not empty and lies between two offsets. -/
structure Between (s : Span) (a b : Nat) : Prop where
  le_start : a ≤ s.start
  nonempty : s.start < s.stop
  stop_le : s.stop ≤ b

theorem Between.mono {s : Span} {a a' b b' : Nat} (h : s.Between a b) (ha : a' ≤ a)
    (hb : b ≤ b') : s.Between a' b' :=
  ⟨Nat.le_trans ha h.le_start, h.nonempty, Nat.le_trans h.stop_le hb⟩

section

variable {s t : Span} {a b c d : Nat}

theorem Between.start_lt (h : s.Between a b) : s.start < b :=
  Nat.lt_of_lt_of_le h.nonempty h.stop_le

theorem Between.le_stop (h : s.Between a b) : a ≤ s.stop :=
  Nat.le_trans h.le_start (Nat.le_of_lt h.nonempty)

theorem Between.le (h : s.Between a b) : a ≤ b := Nat.le_trans h.le_stop h.stop_le

/-- The cover of two spans runs from the first to the second. -/
theorem Between.merge_eq (hs : s.Between a b) (hbc : b ≤ c) (ht : t.Between c d) :
    s.merge t = ⟨s.start, t.stop⟩ := by
  have := hs.start_lt
  have := hs.stop_le
  have := ht.le_start
  have := ht.le_stop
  simp only [Span.merge, Span.mk.injEq]
  omega

theorem Between.merge (hs : s.Between a b) (hbc : b ≤ c) (ht : t.Between c d) :
    (s.merge t).Between a d := by
  rw [hs.merge_eq hbc ht]
  exact ⟨hs.le_start, Nat.lt_of_lt_of_le hs.start_lt (Nat.le_trans hbc ht.le_stop), ht.stop_le⟩

end

/-- Spans that are not empty stand one behind the other between two offsets. -/
def Row : Nat → List Span → Nat → Prop
  | a, [], b => a ≤ b
  | a, s :: ss, b => a ≤ s.start ∧ s.start < s.stop ∧ Row s.stop ss b

namespace Row

variable {a a' b b' : Nat} {s : Span} {ss ts : List Span}

theorem le (h : Row a ss b) : a ≤ b := by
  induction ss generalizing a with
  | nil => exact h
  | cons s ss ih =>
    have := ih h.2.2
    have := h.1
    have := h.2.1
    omega

theorem lt_of_cons (h : Row a (s :: ss) b) : a < b :=
  Nat.lt_of_le_of_lt h.1 (Nat.lt_of_lt_of_le h.2.1 h.2.2.le)

theorem mono (h : Row a ss b) (ha : a' ≤ a) (hb : b ≤ b') : Row a' ss b' := by
  induction ss generalizing a a' with
  | nil => exact Nat.le_trans ha (Nat.le_trans h hb)
  | cons s ss ih => exact ⟨Nat.le_trans ha h.1, h.2.1, ih h.2.2 (Nat.le_refl _)⟩

theorem cons (h : s.Between a b) (h' : Row b ss b') : Row a (s :: ss) b' :=
  ⟨h.le_start, h.nonempty, h'.mono h.stop_le (Nat.le_refl _)⟩

theorem singleton (h : s.Between a b) : Row a [s] b := cons h (Nat.le_refl b)

theorem append_iff : Row a (ss ++ ts) b' ↔ ∃ b, Row a ss b ∧ Row b ts b' := by
  induction ss generalizing a with
  | nil =>
    constructor
    · intro h
      exact ⟨a, Nat.le_refl _, h⟩
    · rintro ⟨b, hab, h⟩
      exact h.mono hab (Nat.le_refl _)
  | cons s ss ih =>
    rw [List.cons_append, Row, ih]
    constructor
    · rintro ⟨hle, hlt, b, h, h'⟩
      exact ⟨b, ⟨hle, hlt, h⟩, h'⟩
    · rintro ⟨b, ⟨hle, hlt, h⟩, h'⟩
      exact ⟨hle, hlt, b, h, h'⟩

/-- Every span of a row lies between its ends. -/
theorem between_of_mem (h : Row a ss b) (hs : s ∈ ss) : s.Between a b := by
  induction ss generalizing a with
  | nil => cases hs
  | cons t ss ih =>
    obtain ⟨hle, hlt, hmore⟩ := h
    rcases List.mem_cons.1 hs with rfl | hs
    · exact ⟨hle, hlt, hmore.le⟩
    · exact (ih hmore hs).mono (by omega) (Nat.le_refl _)

/-- A row ends where its last span does, at the latest. -/
theorem of_forall_stop_le (h : Row a ss b) (ha : a ≤ b') (hstop : ∀ s ∈ ss, s.stop ≤ b') :
    Row a ss b' := by
  induction ss generalizing a with
  | nil => exact ha
  | cons s ss ih =>
    obtain ⟨hs, hss⟩ := List.forall_mem_cons.1 hstop
    exact ⟨h.1, h.2.1, ih h.2.2 hs hss⟩

theorem pairwise (h : Row a ss b) : ss.Pairwise fun s t => s.stop ≤ t.start := by
  induction ss generalizing a with
  | nil => exact List.Pairwise.nil
  | cons s ss ih =>
    exact List.pairwise_cons.2 ⟨fun t ht => (h.2.2.between_of_mem ht).le_start, ih h.2.2⟩

end Row

end Span

open ScriptCheck.Span (Row)

/-- The parts of the expression stand inside it in their order, and so do theirs. -/
inductive Expr.Nested : Expr → Prop
  | int {value : Int} {s : Span} : s.start < s.stop → Nested (.int value s)
  | bool {value : Bool} {s : Span} : s.start < s.stop → Nested (.bool value s)
  | var {name : String} {s : Span} : s.start < s.stop → Nested (.var name s)
  | call {callee : Ident} {args : List Expr} {callSpan s : Span} :
    Row s.start [callSpan] s.stop →
      Row callSpan.start (callee.span :: args.map Expr.span) callSpan.stop →
      (∀ e ∈ args, Nested e) → Nested (.call callee args callSpan s)
  | binary {op : BinaryOp} {left right : Expr} {s : Span} :
    Row s.start [left.span, right.span] s.stop → Nested left → Nested right →
      Nested (.binary op left right s)
  | unary {op : UnaryOp} {operand : Expr} {s : Span} :
    Row (s.start + 1) [operand.span] s.stop → Nested operand → Nested (.unary op operand s)

structure Call.Nested (c : Call) : Prop where
  parts : Row c.span.start (c.callee.span :: c.args.map Expr.span) c.span.stop
  args : ∀ e ∈ c.args, e.Nested

inductive Stmt.Nested : Stmt → Prop
  | declare {target : Ident} {type : Ty} {init : Option Expr} {s : Span} :
    Row s.start (target.span :: init.toList.map Expr.span) s.stop →
      (∀ e ∈ init, e.Nested) → Nested (.declare target type init s)
  | assign {target : Ident} {value : Expr} {s : Span} :
    Row s.start [target.span, value.span] s.stop → value.Nested →
      Nested (.assign target value s)
  | call {c : Call} {s : Span} : Row s.start [c.span] s.stop → c.Nested → Nested (.call c s)
  | ret {value : Option Expr} {s : Span} :
    Row (s.start + 1) (value.toList.map Expr.span) s.stop →
      (∀ e ∈ value, e.Nested) → Nested (.ret value s)

structure Procedure.Nested (p : Procedure) : Prop where
  parts : Row p.span.start
    (p.name.span :: (p.params.map Param.span ++ p.body.map Stmt.span)) p.span.stop
  body : ∀ stmt ∈ p.body, stmt.Nested

/-- All procedures stand one behind the other, up to the offset `n`. -/
structure Script.Nested (s : Script) (n : Nat) : Prop where
  parts : Row 0 (s.procedures.map Procedure.span) n
  procedures : ∀ p ∈ s.procedures, p.Nested

theorem Expr.Nested.nonempty {e : Expr} (h : e.Nested) : e.span.start < e.span.stop := by
  cases h with
  | int h => exact h
  | bool h => exact h
  | var h => exact h
  | call hspan _ _ => exact hspan.lt_of_cons
  | binary hparts _ _ => exact hparts.lt_of_cons
  | unary hparts _ => exact Nat.lt_trans (Nat.lt_succ_self _) hparts.lt_of_cons

/-- Parentheses around an expression leave it nested. -/
theorem Expr.Nested.withSpan {e : Expr} {s : Span} (h : e.Nested) (hstart : s.start ≤ e.span.start)
    (hstop : e.span.stop ≤ s.stop) : (e.withSpan s).Nested := by
  cases h with
  | int hlt => exact .int (by simp only [span] at hstart hstop; omega)
  | bool hlt => exact .bool (by simp only [span] at hstart hstop; omega)
  | var hlt => exact .var (by simp only [span] at hstart hstop; omega)
  | call hspan hparts hargs => exact .call (hspan.mono hstart hstop) hparts hargs
  | binary hparts hleft hright => exact .binary (hparts.mono hstart hstop) hleft hright
  | unary hparts hoperand =>
    exact .unary (hparts.mono (Nat.succ_le_succ hstart) hstop) hoperand

end ScriptCheck
