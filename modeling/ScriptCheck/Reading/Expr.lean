import ScriptCheck.Reading.Reader

/-!
# Reading expressions

Each tier of binary operators is a chain of operands of the next tighter tier, read
from left to right. Below the last tier stand the prefix operators and the primaries.
A budget says how many more levels an expression may nest: every operand spends one,
and parentheses, arguments and prefix operators pass on what is left.
-/

namespace ScriptCheck

/-- The value of a digit string in base ten. -/
def decimal (digits : String) : Nat :=
  digits.toList.foldl (fun n d => 10 * n + (d.toNat - '0'.toNat)) 0

/-- Does a number fit 32 bits with a sign? -/
def fitsInt32 (n : Int) : Bool := -2147483648 ≤ n && n ≤ 2147483647

namespace Reader

/-- Goes on with a chain whose part so far is `left`. -/
def chainFrom (tier : Tier) (operand : Consumer Expr) (left : Expr) :
    List Lexeme → Outcome Expr
  | [] => .done left []
  | l :: ts =>
    match tier.ofToken? l.token with
    | none => .done left (l :: ts)
    | some op =>
      match _h : operand.val.run ts with
      | .done right rest => chainFrom tier operand (.join op left right) rest
      | .stuck why rest => .stuck why rest
termination_by ts => ts.length
decreasing_by
  have := operand.property _h
  simp only [List.length_cons]
  omega

theorem suffix_chainFrom (tier : Tier) (operand : Consumer Expr) (left : Expr)
    (ts : List Lexeme) : (chainFrom tier operand left ts).rest <:+ ts := by
  fun_induction chainFrom tier operand left ts with
  | case1 left => exact List.suffix_refl _
  | case2 left l ts _ => exact List.suffix_refl _
  | case3 left l ts op _ right rest h ih =>
    exact (ih.trans (suffix_of_done h)).trans (List.suffix_cons _ _)
  | case4 left l ts op _ why rest h =>
    exact (suffix_of_stuck h).trans (List.suffix_cons _ _)

/-- What follows the first operand of a chain. -/
def chainRest (tier : Tier) (operand : Consumer Expr) (left : Expr) : Reader Expr :=
  ⟨chainFrom tier operand left, suffix_chainFrom tier operand left⟩

/-- Operands with operators of one tier between them, grouped to the left. -/
def chain (tier : Tier) (operand : Consumer Expr) : Consumer Expr :=
  ⟨operand.val >>= chainRest tier operand, operand.property.bind _⟩

/-- All tiers of binary operators over the given operands. -/
def tiers (operand : Consumer Expr) : Consumer Expr := Tier.all.foldr chain operand

/-- The value of a number, negative if a minus sign belongs to it. -/
def signedValue (sign : Option Span) (digits : String) : Int :=
  match sign with
  | none => decimal digits
  | some _ => -decimal digits

/-- The span of a number with its sign, if it has one. -/
def signedSpan (sign : Option Span) (span : Span) : Span :=
  match sign with
  | none => span
  | some s => s.merge span

/-- Takes the number at the front, whose sign has been taken already. -/
def literal (sign : Option Span) (digits : String) : Reader Expr :=
  if fitsInt32 (signedValue sign digits) then do
    let span ← token (.number digits)
    return .int (signedValue sign digits) (signedSpan sign span)
  else
    fail (.outOfRange sign digits)

/-- The arguments of a call, after the name of the callee. -/
def call (expr : Consumer Expr) (callee : Ident) : Reader Call := do
  let (args, close) ← expr.parenthesized.val
  return ⟨callee, args, callee.span.merge close⟩

/-- Literals, names, calls and expressions in parentheses. -/
def primary (expr : Consumer Expr) : Reader Expr := do
  match ← peek with
  | some ⟨.number digits, _⟩ => literal none digits
  | some ⟨.trueWord, _⟩ =>
    let span ← token .trueWord
    return .bool true span
  | some ⟨.falseWord, _⟩ =>
    let span ← token .falseWord
    return .bool false span
  | some ⟨.name _, _⟩ =>
    let name ← ident
    match ← peek with
    | some ⟨.openParen, _⟩ => return (← call expr name).toExpr
    | _ => return .var name.name name.span
  | some ⟨.openParen, _⟩ =>
    let first ← token .openParen
    let inner ← expr.val
    let last ← token .closeParen
    return inner.withSpan (first.merge last)
  | _ => fail (.expected .expression)

/-- An operand whose own operands and arguments are read by `inner`. A minus sign
right before a number belongs to the number. -/
def operand (inner : Consumer Expr) : Reader Expr := do
  match ← peek with
  | some ⟨.minus, _⟩ =>
    let sign ← token .minus
    match ← peek with
    | some ⟨.number digits, _⟩ => literal (some sign) digits
    | _ =>
      let e ← inner.val
      return .unary .neg e (sign.merge e.span)
  | some ⟨.notOp, _⟩ =>
    let first ← token .notOp
    let e ← inner.val
    return .unary .not e (first.merge e.span)
  | _ => primary (tiers inner)

theorem consumes_literal (sign : Option Span) (digits : String) :
    (literal sign digits).Consumes := by
  unfold literal
  split
  · exact (consumes_token _).bind _
  · exact consumes_fail _

theorem consumes_primary (expr : Consumer Expr) : (primary expr).Consumes := by
  refine consumes_bind_right fun seen => ?_
  split
  · exact consumes_literal ..
  · exact (consumes_token _).bind _
  · exact (consumes_token _).bind _
  · exact consumes_ident.bind _
  · exact (consumes_token _).bind _
  · exact consumes_fail _

theorem consumes_operand (inner : Consumer Expr) : (operand inner).Consumes := by
  refine consumes_bind_right fun seen => ?_
  split
  · exact (consumes_token _).bind _
  · exact (consumes_token _).bind _
  · exact consumes_primary _

/-- An operand of the tightest tier, with `budget` levels left to nest. -/
def unary : Nat → Consumer Expr
  | 0 => ⟨fail .tooDeep, consumes_fail _⟩
  | budget + 1 => ⟨operand (unary budget), consumes_operand _⟩

/-- An expression, with `budget` levels left to nest. -/
def expr (budget : Nat) : Consumer Expr := tiers (unary budget)

end Reader

end ScriptCheck
