import ScriptCheck.Tree

/-!
# Trees with other spans

A move maps spans to spans so that the cover of two spans goes to the cover of their
images. Shifting a text is a move, and so is forgetting every place. Trees, tokens and
all that is made of them move along: nothing but spans changes.
-/
namespace ScriptCheck

/-- A map of spans that respects covering. -/
structure Move where
  apply : Span → Span
  apply_merge : ∀ a b, apply (a.merge b) = (apply a).merge (apply b)

namespace Move

instance : CoeFun Move fun _ => Span → Span := ⟨Move.apply⟩

/-- Every span stays where it is. -/
def stay : Move := ⟨id, fun _ _ => rfl⟩

/-- Every span goes `n` bytes further on. -/
def shift (n : Nat) : Move := ⟨Span.shift n, Span.shift_merge n⟩

/-- Every span becomes the empty one at the start of the text. -/
def erase : Move := ⟨fun _ => .point 0, fun _ _ => (Span.merge_self _).symm⟩

@[simp] theorem stay_apply (s : Span) : stay s = s := rfl

@[simp] theorem shift_apply (n : Nat) (s : Span) : shift n s = s.shift n := rfl

@[simp] theorem erase_apply (s : Span) : erase s = .point 0 := rfl

end Move

def Lexeme.move (m : Move) (l : Lexeme) : Lexeme := ⟨l.token, m l.span⟩

def Ident.move (m : Move) (x : Ident) : Ident := ⟨x.name, m x.span⟩

mutual

def Expr.move (m : Move) : Expr → Expr
  | .int value s => .int value (m s)
  | .bool value s => .bool value (m s)
  | .var name s => .var name (m s)
  | .call callee args callSpan s => .call (callee.move m) (Expr.moveAll m args) (m callSpan) (m s)
  | .binary op left right s => .binary op (left.move m) (right.move m) (m s)
  | .unary op operand s => .unary op (operand.move m) (m s)

def Expr.moveAll (m : Move) : List Expr → List Expr
  | [] => []
  | e :: es => e.move m :: Expr.moveAll m es

end

def Call.move (m : Move) (c : Call) : Call :=
  ⟨c.callee.move m, c.args.map (Expr.move m), m c.span⟩

def Stmt.move (m : Move) : Stmt → Stmt
  | .declare target type init s => .declare (target.move m) type (init.map (Expr.move m)) (m s)
  | .assign target value s => .assign (target.move m) (value.move m) (m s)
  | .call c s => .call (c.move m) (m s)
  | .ret value s => .ret (value.map (Expr.move m)) (m s)

def Param.move (m : Move) (p : Param) : Param := ⟨p.name, p.type, m p.span⟩

def Procedure.move (m : Move) (p : Procedure) : Procedure :=
  ⟨p.name.move m, p.params.map (Param.move m), p.returns, p.body.map (Stmt.move m), m p.span⟩

def Script.move (m : Move) (s : Script) : Script := ⟨s.procedures.map (Procedure.move m)⟩

/-- The script without its places: what is left of it when layout does not count. -/
def Script.bare (s : Script) : Script := s.move .erase

@[simp] theorem Lexeme.token_move (m : Move) (l : Lexeme) : (l.move m).token = l.token := rfl

@[simp] theorem Lexeme.span_move (m : Move) (l : Lexeme) : (l.move m).span = m l.span := rfl

theorem Expr.moveAll_eq_map (m : Move) (es : List Expr) :
    Expr.moveAll m es = es.map (Expr.move m) := by
  induction es with
  | nil => rfl
  | cons e es ih => rw [Expr.moveAll, ih, List.map_cons]

@[simp] theorem Expr.span_move (m : Move) (e : Expr) : (e.move m).span = m e.span := by
  cases e <;> rfl

theorem Expr.move_withSpan (m : Move) (s : Span) (e : Expr) :
    (e.withSpan s).move m = (e.move m).withSpan (m s) := by
  cases e <;> rfl

theorem Expr.move_join (m : Move) (op : BinaryOp) (left right : Expr) :
    (Expr.join op left right).move m = .join op (left.move m) (right.move m) := by
  rw [Expr.join, Expr.move, m.apply_merge, Expr.join, Expr.span_move, Expr.span_move]

theorem Call.move_toExpr (m : Move) (c : Call) : c.toExpr.move m = (c.move m).toExpr := by
  rw [Call.toExpr, Expr.move, Expr.moveAll_eq_map]
  rfl

mutual

theorem Expr.move_stay : ∀ e : Expr, e.move .stay = e
  | .int _ _ | .bool _ _ | .var _ _ => rfl
  | .call callee args callSpan s => by
    rw [Expr.move, Expr.moveAll_stay args]
    rfl
  | .binary op left right s => by
    rw [Expr.move, left.move_stay, right.move_stay]
    rfl
  | .unary op operand s => by
    rw [Expr.move, operand.move_stay]
    rfl

theorem Expr.moveAll_stay : ∀ es : List Expr, Expr.moveAll .stay es = es
  | [] => rfl
  | e :: es => by rw [Expr.moveAll, e.move_stay, Expr.moveAll_stay es]

end

theorem Lexeme.map_move_stay (ls : List Lexeme) : ls.map (Lexeme.move .stay) = ls :=
  List.map_id ls

theorem Stmt.move_stay (s : Stmt) : s.move .stay = s := by
  have hargs (es : List Expr) : es.map (Expr.move .stay) = es := by
    rw [← Expr.moveAll_eq_map, Expr.moveAll_stay]
  have hopt (o : Option Expr) : o.map (Expr.move .stay) = o := by
    cases o with
    | none => rfl
    | some e => rw [Option.map_some, e.move_stay]
  cases s with
  | declare target type init s => rw [Stmt.move, hopt]; rfl
  | assign target value s => rw [Stmt.move, value.move_stay]; rfl
  | call c s => rw [Stmt.move, Call.move, hargs]; rfl
  | ret value s => rw [Stmt.move, hopt]; rfl

theorem Procedure.move_stay (p : Procedure) : p.move .stay = p := by
  have hbody : p.body.map (Stmt.move .stay) = p.body := by
    rw [funext Stmt.move_stay]
    exact List.map_id _
  have hparams : p.params.map (Param.move .stay) = p.params := List.map_id _
  rw [Procedure.move, hbody, hparams]
  rfl

/-! ## One move after another -/

/-- First `m`, then `m'`. -/
def Move.andThen (m m' : Move) : Move :=
  ⟨fun s => m' (m s), fun a b => by rw [m.apply_merge, m'.apply_merge]⟩

section

variable (m m' : Move)

mutual

theorem Expr.move_move : ∀ e : Expr, (e.move m).move m' = e.move (m.andThen m')
  | .int _ _ | .bool _ _ | .var _ _ => rfl
  | .call callee args callSpan s => by
    rw [Expr.move, Expr.move, Expr.moveAll_moveAll args]
    rfl
  | .binary op left right s => by
    rw [Expr.move, Expr.move, left.move_move, right.move_move]
    rfl
  | .unary op operand s => by
    rw [Expr.move, Expr.move, operand.move_move]
    rfl

theorem Expr.moveAll_moveAll :
    ∀ es : List Expr, Expr.moveAll m' (Expr.moveAll m es) = Expr.moveAll (m.andThen m') es
  | [] => rfl
  | e :: es => by
    rw [Expr.moveAll, Expr.moveAll, e.move_move, Expr.moveAll_moveAll es, Expr.moveAll]

end

theorem Stmt.move_move (stmt : Stmt) : (stmt.move m).move m' = stmt.move (m.andThen m') := by
  have hexpr : Expr.move m' ∘ Expr.move m = Expr.move (m.andThen m') :=
    funext (Expr.move_move m m')
  cases stmt with
  | declare target type init s => rw [Stmt.move, Stmt.move, Option.map_map, hexpr]; rfl
  | assign target value s => rw [Stmt.move, Stmt.move, value.move_move]; rfl
  | call c s => rw [Stmt.move, Stmt.move, Call.move, Call.move, List.map_map, hexpr]; rfl
  | ret value s => rw [Stmt.move, Stmt.move, Option.map_map, hexpr]; rfl

theorem Procedure.move_move (p : Procedure) : (p.move m).move m' = p.move (m.andThen m') := by
  have hstmt : Stmt.move m' ∘ Stmt.move m = Stmt.move (m.andThen m') :=
    funext (Stmt.move_move m m')
  simp only [Procedure.move, List.map_map, hstmt]
  rfl

theorem Script.move_move (s : Script) : (s.move m).move m' = s.move (m.andThen m') := by
  have hproc : Procedure.move m' ∘ Procedure.move m = Procedure.move (m.andThen m') :=
    funext (Procedure.move_move m m')
  simp only [Script.move, List.map_map, hproc]

/-- Places that are forgotten need not be moved before. -/
theorem Script.bare_move (s : Script) : (s.move m).bare = s.bare :=
  s.move_move m .erase

end

end ScriptCheck
