import ScriptCheck.Proofs.Grammar.Acceptance
import ScriptCheck.Proofs.Token.Spelling

/-!
# Writing trees

A tree is written as tokens with single spaces between them. Operands that are operations
themselves stand in parentheses, and so does a number without sign under a minus sign, which
would become part of the number otherwise. What is written is read as the same tree, unless
it nests too deep.
-/
namespace ScriptCheck

open Grammar (commas)

/-! ## Writing -/

/-- Tokens in parentheses, or as they are. -/
def Token.enclose (parens : Bool) (ts : List Token) : List Token :=
  if parens then .openParen :: (ts ++ [.closeParen]) else ts

def UnaryOp.token : UnaryOp → Token
  | .neg => .minus
  | .not => .notOp

/-- The word for a type; the type of faulty expressions is never written. -/
def Ty.token : Ty → Token
  | .int32 => .int32Word
  | .bool => .boolWord
  | .void => .voidWord
  | .error => .name "Error"

namespace Expr

/-- Is it an operator with its operands? -/
def isOperation : Expr → Bool
  | .binary _ _ _ _ | .unary _ _ _ => true
  | _ => false

/-- Is it a number without sign? -/
def isNatural : Expr → Bool
  | .int value _ => 0 ≤ value
  | _ => false

/-- Does the operand of a prefix operator need parentheses? -/
def isEnclosed (op : UnaryOp) (operand : Expr) : Bool :=
  operand.isOperation || (op == .neg && operand.isNatural)

/-- A number with its sign, if it has one. -/
def intTokens (value : Int) : List Token :=
  if 0 ≤ value then [.number (toString value.natAbs)]
  else [.minus, .number (toString value.natAbs)]

mutual

def tokens : Expr → List Token
  | .int value _ => intTokens value
  | .bool value _ => [if value then .trueWord else .falseWord]
  | .var name _ => [.name name]
  | .call callee args _ _ =>
    .name callee.name :: .openParen :: (commas (tokensAll args) ++ [.closeParen])
  | .binary op left right _ =>
    Token.enclose left.isOperation left.tokens ++
      op.token :: Token.enclose right.isOperation right.tokens
  | .unary op operand _ => op.token :: Token.enclose (isEnclosed op operand) operand.tokens

def tokensAll : List Expr → List (List Token)
  | [] => []
  | e :: es => e.tokens :: tokensAll es

end

mutual

/-- How deep the written expression nests: parentheses, arguments and prefix operators go one
level deeper. -/
def nesting : Expr → Nat
  | .int _ _ | .bool _ _ | .var _ _ => 1
  | .call _ args _ _ => 1 + nestingAll args
  | .binary _ left right _ =>
    max (left.isOperation.toNat + left.nesting) (right.isOperation.toNat + right.nesting)
  | .unary op operand _ => 1 + ((isEnclosed op operand).toNat + operand.nesting)

def nestingAll : List Expr → Nat
  | [] => 0
  | e :: es => max e.nesting (nestingAll es)

end

mutual

/-- Are all names allowed, and do all numbers fit 32 bits? -/
def writable : Expr → Bool
  | .int value _ => -2147483648 ≤ value && value ≤ 2147483647
  | .bool _ _ => true
  | .var name _ => Scan.isName name
  | .call callee args _ _ => Scan.isName callee.name && writableAll args
  | .binary _ left right _ => left.writable && right.writable
  | .unary _ operand _ => operand.writable

def writableAll : List Expr → Bool
  | [] => true
  | e :: es => e.writable && writableAll es

end

end Expr

namespace Stmt

/-- The expressions that are not part of another one. -/
def expressions : Stmt → List Expr
  | .declare _ _ init _ => init.toList
  | .assign _ value _ => [value]
  | .call c _ => c.args
  | .ret value _ => value.toList

def tokens : Stmt → List Token
  | .declare target type none _ =>
    [.varWord, .name target.name, .colon, type.token, .semicolon]
  | .declare target type (some init) _ =>
    [.varWord, .name target.name, .colon, type.token, .becomes] ++ init.tokens ++ [.semicolon]
  | .assign target value _ => [.name target.name, .becomes] ++ value.tokens ++ [.semicolon]
  | .call c _ =>
    [.name c.callee.name, .openParen] ++ commas (Expr.tokensAll c.args) ++
      [.closeParen, .semicolon]
  | .ret none _ => [.returnWord, .semicolon]
  | .ret (some value) _ => .returnWord :: (value.tokens ++ [.semicolon])

def writable (stmt : Stmt) : Bool :=
  stmt.expressions.all Expr.writable &&
    match stmt with
    | .declare target type _ _ => Scan.isName target.name && type != .error
    | .assign target _ _ => Scan.isName target.name
    | .call c _ => Scan.isName c.callee.name
    | .ret _ _ => true

end Stmt

def Param.tokens (p : Param) : List Token := [.name p.name, .colon, p.type.token]

def Param.writable (p : Param) : Bool := Scan.isName p.name && p.type != .error

namespace Procedure

def expressions (p : Procedure) : List Expr := p.body.flatMap Stmt.expressions

def tokens (p : Procedure) : List Token :=
  [.defWord, .name p.name.name, .openParen] ++ commas (p.params.map Param.tokens) ++
    [.closeParen, .colon, p.returns.token, .isWord] ++ p.body.flatMap Stmt.tokens ++ [.endWord]

def writable (p : Procedure) : Bool :=
  Scan.isName p.name.name && p.params.all Param.writable && p.returns != .error &&
    p.body.all Stmt.writable

end Procedure

namespace Script

def expressions (s : Script) : List Expr := s.procedures.flatMap Procedure.expressions

def tokens (s : Script) : List Token := s.procedures.flatMap Procedure.tokens

/-- Does the tree have a written form? All its names have to be names and no reserved words,
its declared types have to be types that a script can name, and its numbers have to fit 32
bits. -/
def writable (s : Script) : Bool := s.procedures.all Procedure.writable

/-- The tree as a text. -/
def render (s : Script) : String := Token.text s.tokens

end Script

/-! ## Derivations of what is written -/

/-- All tokens are found again when their spellings are scanned. -/
def Token.Legible (ts : List Token) : Prop := ∀ t ∈ ts, Scans t.spelling t

namespace Token

theorem Legible.append {ts us : List Token} (h : Legible ts) (h' : Legible us) :
    Legible (ts ++ us) := fun t ht => (List.mem_append.1 ht).elim (h t) (h' t)

theorem Legible.cons {t : Token} {ts : List Token} (ht : Scans t.spelling t)
    (h : Legible ts) : Legible (t :: ts) := List.forall_mem_cons.2 ⟨ht, h⟩

theorem legible_of_isFixed {ts : List Token} (h : ts.all isFixed = true) : Legible ts :=
  fun t ht => scans_of_isFixed (List.all_eq_true.1 h t ht)

theorem legible_commas {tss : List (List Token)} (h : ∀ ts ∈ tss, Legible ts) :
    Legible (commas tss) := by
  induction tss with
  | nil => exact List.forall_mem_nil _
  | cons ts tss ih =>
    obtain ⟨hts, htss⟩ := List.forall_mem_cons.1 h
    cases tss with
    | nil => exact hts
    | cons us tss => exact hts.append (.cons (scans_of_isFixed rfl) (ih htss))

theorem legible_flatten {tss : List (List Token)} (h : ∀ ts ∈ tss, Legible ts) :
    Legible tss.flatten := by
  intro t ht
  obtain ⟨ts, hts, htt⟩ := List.mem_flatten.1 ht
  exact h ts hts t htt

end Token

namespace Grammar

/-- The derivation writes the expression `e` with the tokens `ts`, nested `n` deep. -/
structure Unary.Writes (u : Unary) (ts : List Token) (e : Expr) (n : Nat) : Prop where
  tokens : u.tokens = ts
  legible : Token.Legible ts
  tree : u.tree = e.move .erase
  nesting : u.nesting = n
  fits : Fits u.literals

@[inherit_doc Unary.Writes]
structure Chain.Writes {tiers : List Tier} (c : Chain tiers) (ts : List Token) (e : Expr)
    (n : Nat) : Prop where
  tokens : c.tokens = ts
  legible : Token.Legible ts
  tree : c.tree = e.move .erase
  nesting : c.nesting = n
  fits : Fits c.literals

section

variable {u v : Unary} {ts us : List Token} {e e' : Expr} {n m : Nat} {s : Span}

/-- An operand is a whole expression, too. -/
theorem Unary.Writes.exists_chain (h : u.Writes ts e n) (tiers : List Tier) :
    ∃ c : Chain tiers, c.Writes ts e n := by
  induction tiers with
  | nil => exact ⟨.unary u, h.tokens, h.legible, h.tree, h.nesting, h.fits⟩
  | cons tier tiers ih =>
    obtain ⟨c, hc⟩ := ih
    exact ⟨.chain c .nil, (List.append_nil _).trans hc.tokens, hc.legible, hc.tree,
      (Nat.max_zero _).trans hc.nesting, hc.fits.append (List.forall_mem_nil _)⟩

theorem Chain.Writes.parens {c : Expression} (h : c.Writes ts e n) :
    (Unary.parens c).Writes (Token.enclose true ts) e (1 + n) where
  tokens := by rw [Unary.tokens, h.tokens]; rfl
  legible := .cons (Token.scans_of_isFixed rfl)
    (h.legible.append (Token.legible_of_isFixed rfl))
  tree := h.tree
  nesting := by rw [Unary.nesting, h.nesting]
  fits := h.fits

/-- Two operands make an expression of every list of tiers that has the operator's own. -/
theorem Unary.Writes.exists_binary (h : u.Writes ts e n) (h' : v.Writes us e' m) (op : BinaryOp)
    {tiers : List Tier} (htier : op.tier ∈ tiers) :
    ∃ c : Chain tiers, c.Writes (ts ++ op.token :: us) (.binary op e e' s) (max n m) := by
  have hop : Token.Legible [op.token] := Token.legible_of_isFixed (by cases op <;> rfl)
  induction tiers with
  | nil => cases htier
  | cons tier tiers ih =>
    by_cases htiers : op.tier = tier
    · obtain ⟨c, hc⟩ := h.exists_chain tiers
      obtain ⟨d, hd⟩ := h'.exists_chain tiers
      refine ⟨.chain c (.cons op htiers d .nil), ?_, hc.legible.append (hop.append hd.legible), ?_,
        ?_, ?_⟩
      · simp only [Chain.tokens, Links.tokens, hc.tokens, hd.tokens, List.append_nil]
      · simp only [Chain.tree, Links.treeFrom, hc.tree, hd.tree, Expr.move]
        rfl
      · simp only [Chain.nesting, Links.nesting, hc.nesting, hd.nesting, Nat.max_zero]
      · exact hc.fits.append (hd.fits.append (List.forall_mem_nil _))
    · obtain ⟨c, hc⟩ := ih ((List.mem_cons.1 htier).resolve_left htiers)
      exact ⟨.chain c .nil, (List.append_nil _).trans hc.tokens, hc.legible, hc.tree,
        (Nat.max_zero _).trans hc.nesting, hc.fits.append (List.forall_mem_nil _)⟩

theorem Unary.Writes.not (h : u.Writes ts e n) :
    (Unary.not u).Writes (.notOp :: ts) (.unary .not e s) (1 + n) where
  tokens := by rw [Unary.tokens, h.tokens]
  legible := h.legible.cons (Token.scans_of_isFixed rfl)
  tree := by rw [Unary.tree, h.tree]; rfl
  nesting := by rw [Unary.nesting, h.nesting]
  fits := h.fits

/-- A minus sign before anything but a bare number. -/
theorem Unary.Writes.neg (h : u.Writes ts e n) (hu : u.number? = none) :
    (Unary.neg u).Writes (.minus :: ts) (.unary .neg e s) (1 + n) where
  tokens := by rw [Unary.tokens, h.tokens]
  legible := h.legible.cons (Token.scans_of_isFixed rfl)
  tree := by rw [Unary.tree, hu, h.tree]; rfl
  nesting := by simp only [Unary.nesting, hu, h.nesting]
  fits := by simpa only [Unary.literals, hu] using h.fits

/-- Only a number without sign is written as a bare number. -/
theorem Unary.Writes.number?_eq_none (h : u.Writes ts e n) (he : e.isNatural = false) :
    u.number? = none := by
  cases hu : u.number? with
  | none => rfl
  | some digits =>
    obtain rfl := Unary.number?_eq_some hu
    have htree := h.tree
    cases e <;> simp only [Unary.tree, Expr.move] at htree <;> cases htree
    simp [Expr.isNatural] at he

/-- The sign of a negative number belongs to it. -/
theorem exists_int {value : Int} (h : -2147483648 ≤ value ∧ value ≤ 2147483647) :
    ∃ u : Unary, u.Writes (Expr.intTokens value) (.int value s) 1 := by
  have hvalue := Token.decimal_toString value.natAbs
  have hdigits := Token.scans_number value.natAbs
  by_cases hsign : 0 ≤ value
  · refine ⟨.number (toString value.natAbs), ?_, ?_, ?_, rfl, ?_⟩
    · rw [Expr.intTokens, if_pos hsign, Unary.tokens]
    · rw [Expr.intTokens, if_pos hsign]
      exact .cons hdigits (List.forall_mem_nil _)
    · rw [Unary.tree, hvalue, Int.natAbs_of_nonneg hsign]
      rfl
    · intro v hv
      rw [Unary.literals, List.mem_singleton, hvalue] at hv
      exact fitsInt32_iff.2 (by omega)
  · refine ⟨.neg (.number (toString value.natAbs)), ?_, ?_, ?_, rfl, ?_⟩
    · rw [Expr.intTokens, if_neg hsign, Unary.tokens, Unary.tokens]
    · rw [Expr.intTokens, if_neg hsign]
      exact .cons (Token.scans_of_isFixed rfl) (.cons hdigits (List.forall_mem_nil _))
    · have hneg : -((value.natAbs : Nat) : Int) = value := by omega
      simp only [Unary.tree, Unary.number?, hvalue, hneg]
      rfl
    · intro v hv
      simp only [Unary.literals, Unary.number?, hvalue, List.mem_singleton] at hv
      exact fitsInt32_iff.2 (by omega)

end

/-- A derivation of the expression as it is written, and a derivation as an operand unless it
is an operation, for which it would need parentheses. -/
structure Expressible (e : Expr) : Prop where
  whole : ∃ c : Expression, c.Writes e.tokens e e.nesting
  operand : e.isOperation = false → ∃ u : Unary, u.Writes e.tokens e e.nesting

section

variable {e : Expr}

theorem Unary.Writes.expressible {u : Unary} (h : u.Writes e.tokens e e.nesting) :
    Expressible e :=
  ⟨h.exists_chain Tier.all, fun _ => ⟨u, h⟩⟩

/-- As an operand, in parentheses if they are needed. -/
theorem Expressible.exists_enclosed (h : Expressible e) (parens : Bool)
    (hparens : e.isOperation = true → parens = true) :
    ∃ u : Unary, u.Writes (Token.enclose parens e.tokens) e (parens.toNat + e.nesting) := by
  cases parens with
  | true =>
    obtain ⟨c, hc⟩ := h.whole
    exact ⟨.parens c, hc.parens⟩
  | false =>
    obtain ⟨u, hu⟩ := h.operand (Bool.eq_false_iff.2 fun hop => Bool.noConfusion (hparens hop))
    exact ⟨u, hu.tokens, hu.legible, hu.tree, hu.nesting.trans (Nat.zero_add _).symm, hu.fits⟩

theorem Expressible.binary {op : BinaryOp} {left right : Expr} {s : Span}
    (hl : Expressible left) (hr : Expressible right) :
    Expressible (.binary op left right s) := by
  obtain ⟨u, hu⟩ := hl.exists_enclosed left.isOperation id
  obtain ⟨v, hv⟩ := hr.exists_enclosed right.isOperation id
  refine ⟨?_, fun hop => Bool.noConfusion hop⟩
  rw [Expr.tokens, Expr.nesting]
  exact hu.exists_binary hv op (by cases op <;> decide)

/-- What a minus sign stands before is no bare number. -/
theorem number?_eq_none_of_enclosed {u : Unary} {ts : List Token} {n : Nat}
    (h : u.Writes (Token.enclose (Expr.isEnclosed .neg e) ts) e n) : u.number? = none := by
  cases he : e.isNatural with
  | false => exact h.number?_eq_none he
  | true =>
    have htokens := h.tokens
    have hparens : Expr.isEnclosed .neg e = true := by simp [Expr.isEnclosed, he]
    rw [hparens] at htokens
    refine Option.eq_none_iff_forall_ne_some.2 fun digits hu => ?_
    obtain rfl := Unary.number?_eq_some hu
    simp [Unary.tokens, Token.enclose] at htokens

theorem Expressible.unary {op : UnaryOp} {s : Span} (h : Expressible e) :
    Expressible (.unary op e s) := by
  obtain ⟨u, hu⟩ := h.exists_enclosed (Expr.isEnclosed op e)
    (by simp +contextual [Expr.isEnclosed])
  refine ⟨?_, fun hop => Bool.noConfusion hop⟩
  rw [Expr.tokens, Expr.nesting]
  cases op with
  | neg => exact (hu.neg (number?_eq_none_of_enclosed hu)).exists_chain Tier.all
  | not => exact hu.not.exists_chain Tier.all

end

/-- Derivations of a list of expressions, one by one. -/
abbrev WritesAll (cs : List Expression) (es : List Expr) : Prop :=
  List.Forall₂ (fun c e => Chain.Writes c e.tokens e e.nesting) cs es

namespace WritesAll

variable {cs : List Expression} {es : List Expr}

theorem tokensAll_eq (h : WritesAll cs es) : Chain.tokensAll cs = Expr.tokensAll es := by
  induction h with
  | nil => rfl
  | cons hc _ ih => rw [Chain.tokensAll, hc.tokens, ih, Expr.tokensAll]

theorem legible_commas (h : WritesAll cs es) : Token.Legible (commas (Expr.tokensAll es)) := by
  refine Token.legible_commas ?_
  induction h with
  | nil => exact List.forall_mem_nil _
  | cons hc _ ih => exact List.forall_mem_cons.2 ⟨hc.legible, ih⟩

theorem treeAll_eq (h : WritesAll cs es) : Chain.treeAll cs = Expr.moveAll .erase es := by
  induction h with
  | nil => rfl
  | cons hc _ ih => rw [Chain.treeAll, hc.tree, ih, Expr.moveAll]

theorem nestingAll_eq (h : WritesAll cs es) : Chain.nestingAll cs = Expr.nestingAll es := by
  induction h with
  | nil => rfl
  | cons hc _ ih => rw [Chain.nestingAll, hc.nesting, ih, Expr.nestingAll]

theorem nesting_le_iff (h : WritesAll cs es) (n : Nat) :
    (∀ c ∈ cs, c.nesting ≤ n) ↔ ∀ e ∈ es, e.nesting ≤ n := by
  induction h with
  | nil => simp
  | cons hc _ ih => rw [List.forall_mem_cons, List.forall_mem_cons, hc.nesting, ih]

theorem fits (h : WritesAll cs es) : ∀ c ∈ cs, Fits c.literals := by
  induction h with
  | nil => exact List.forall_mem_nil _
  | cons hc _ ih => exact List.forall_mem_cons.2 ⟨hc.fits, ih⟩

end WritesAll

theorem fits_literalsAll {cs : List Expression} (h : ∀ c ∈ cs, Fits c.literals) :
    Fits (Chain.literalsAll cs) := by
  induction cs with
  | nil => exact List.forall_mem_nil _
  | cons c cs ih =>
    obtain ⟨hc, hcs⟩ := List.forall_mem_cons.1 h
    exact hc.append (ih hcs)

/-- A call with its arguments. -/
theorem Unary.writes_call {callee : Ident} {cs : List Expression} {args : List Expr}
    (hcallee : Scan.isName callee.name = true) (h : WritesAll cs args) (callSpan s : Span) :
    let e : Expr := .call callee args callSpan s
    (Unary.call callee.name cs).Writes e.tokens e e.nesting where
  tokens := by rw [Unary.tokens, h.tokensAll_eq, Expr.tokens]
  legible := by
    rw [Expr.tokens]
    exact .cons (Token.scans_name hcallee) (.cons (Token.scans_of_isFixed rfl)
      (h.legible_commas.append (Token.legible_of_isFixed rfl)))
  tree := by
    rw [Unary.tree, h.treeAll_eq]
    rfl
  nesting := by rw [Unary.nesting, h.nestingAll_eq, Expr.nesting]
  fits := fits_literalsAll h.fits

mutual

theorem expressible_of_writable : ∀ e : Expr, e.writable = true → Expressible e
  | .int value s, h => by
    simp only [Expr.writable, Bool.and_eq_true, decide_eq_true_eq] at h
    obtain ⟨u, hu⟩ := exists_int (s := s) h
    exact hu.expressible
  | .bool value s, _ => by
    have hu : (Unary.bool value).Writes (Expr.tokens (.bool value s)) (.bool value s) 1 :=
      ⟨rfl, Token.legible_of_isFixed (by cases value <;> rfl), rfl, rfl, List.forall_mem_nil _⟩
    exact hu.expressible
  | .var x s, h => by
    have hu : (Unary.name x).Writes (Expr.tokens (.var x s)) (.var x s) 1 :=
      ⟨rfl, .cons (Token.scans_name h) (List.forall_mem_nil _), rfl, rfl, List.forall_mem_nil _⟩
    exact hu.expressible
  | .call callee args callSpan s, h => by
    simp only [Expr.writable, Bool.and_eq_true] at h
    obtain ⟨cs, hcs⟩ := exists_writesAll args h.2
    exact (Unary.writes_call h.1 hcs callSpan s).expressible
  | .binary op left right s, h => by
    simp only [Expr.writable, Bool.and_eq_true] at h
    exact (expressible_of_writable left h.1).binary (expressible_of_writable right h.2)
  | .unary op operand s, h => (expressible_of_writable operand h).unary

theorem exists_writesAll : ∀ es : List Expr, Expr.writableAll es = true →
    ∃ cs, WritesAll cs es
  | [], _ => ⟨[], .nil⟩
  | e :: es, h => by
    simp only [Expr.writableAll, Bool.and_eq_true] at h
    obtain ⟨c, hc⟩ := (expressible_of_writable e h.1).whole
    obtain ⟨cs, hcs⟩ := exists_writesAll es h.2
    exact ⟨c :: cs, .cons hc hcs⟩

end

/-! ## Statements and procedures -/

/-- The derivation writes the statement. -/
structure Statement.Writes (d : Statement) (stmt : Stmt) : Prop where
  tokens : d.tokens = stmt.tokens
  legible : Token.Legible stmt.tokens
  tree : d.tree = stmt.move .erase
  expressions : WritesAll d.expressions stmt.expressions

/-- The derivation writes the procedure. -/
structure Procedure.Writes (d : Procedure) (p : ScriptCheck.Procedure) : Prop where
  tokens : d.tokens = p.tokens
  legible : Token.Legible p.tokens
  tree : d.tree = p.move .erase
  expressions : WritesAll d.expressions p.expressions

theorem exists_typeName {t : Ty} (h : (t != .error) = true) :
    ∃ d : TypeName, d.token = t.token ∧ d.type = t ∧ Token.Legible [t.token] := by
  cases t with
  | int32 => exact ⟨.int32, rfl, rfl, Token.legible_of_isFixed rfl⟩
  | bool => exact ⟨.bool, rfl, rfl, Token.legible_of_isFixed rfl⟩
  | void => exact ⟨.void, rfl, rfl, Token.legible_of_isFixed rfl⟩
  | error => cases h

theorem exists_writesAll_of_all {es : List Expr} (h : es.all Expr.writable = true) :
    ∃ cs, WritesAll cs es := by
  refine exists_writesAll es ?_
  induction es with
  | nil => rfl
  | cons e es ih =>
    simp only [List.all_cons, Bool.and_eq_true] at h
    rw [Expr.writableAll, h.1, ih h.2]
    rfl

theorem exists_declare {target : Ident} {type : Ty} {init : Option Expr} {s : Span}
    {cs : List Expression} (htarget : Scan.isName target.name = true)
    (htype : (type != .error) = true) (hcs : WritesAll cs init.toList) :
    ∃ d : Statement, d.Writes (.declare target type init s) := by
  obtain ⟨d, hd, rfl, hlegible⟩ := exists_typeName htype
  have hhead : Token.Legible [.varWord, .name target.name, .colon] :=
    .cons (Token.scans_of_isFixed rfl) (.cons (Token.scans_name htarget)
      (Token.legible_of_isFixed rfl))
  cases init with
  | none =>
    refine ⟨.declare target.name d none, ?_, ?_, rfl, .nil⟩
    · simp only [Statement.tokens, Stmt.tokens, hd]
    · exact hhead.append (hlegible.append (Token.legible_of_isFixed rfl))
  | some e =>
    obtain ⟨c, _, hc, _, rfl⟩ := List.forall₂_cons_right_iff.1 hcs
    refine ⟨.declare target.name d (some c), ?_, ?_, ?_, .cons hc .nil⟩
    · simp only [Statement.tokens, Stmt.tokens, hd, hc.tokens]
    · exact ((hhead.append (hlegible.append (Token.legible_of_isFixed rfl))).append
        hc.legible).append (Token.legible_of_isFixed rfl)
    · rw [Statement.tree, Option.map_some, hc.tree]
      rfl

theorem exists_assign {target : Ident} {value : Expr} {s : Span} {cs : List Expression}
    (htarget : Scan.isName target.name = true) (hcs : WritesAll cs [value]) :
    ∃ d : Statement, d.Writes (.assign target value s) := by
  obtain ⟨c, _, hc, _, rfl⟩ := List.forall₂_cons_right_iff.1 hcs
  refine ⟨.assign target.name c, ?_, ?_, ?_, .cons hc .nil⟩
  · simp only [Statement.tokens, Stmt.tokens, hc.tokens]
  · exact .cons (Token.scans_name htarget) (.cons (Token.scans_of_isFixed rfl)
      (hc.legible.append (Token.legible_of_isFixed rfl)))
  · rw [Statement.tree, hc.tree]
    rfl

theorem exists_call {made : Call} {s : Span} {cs : List Expression}
    (hcallee : Scan.isName made.callee.name = true) (hcs : WritesAll cs made.args) :
    ∃ d : Statement, d.Writes (.call made s) := by
  refine ⟨.call made.callee.name cs, ?_, ?_, ?_, hcs⟩
  · rw [Statement.tokens, hcs.tokensAll_eq, Stmt.tokens]
  · exact .cons (Token.scans_name hcallee) (.cons (Token.scans_of_isFixed rfl)
      (hcs.legible_commas.append (Token.legible_of_isFixed rfl)))
  · rw [Statement.tree, hcs.treeAll_eq, Expr.moveAll_eq_map]
    rfl

theorem exists_ret {value : Option Expr} {s : Span} {cs : List Expression}
    (hcs : WritesAll cs value.toList) : ∃ d : Statement, d.Writes (.ret value s) := by
  cases value with
  | none => exact ⟨.ret none, rfl, Token.legible_of_isFixed rfl, rfl, .nil⟩
  | some e =>
    obtain ⟨c, _, hc, _, rfl⟩ := List.forall₂_cons_right_iff.1 hcs
    refine ⟨.ret (some c), ?_, ?_, ?_, .cons hc .nil⟩
    · simp only [Statement.tokens, Stmt.tokens, hc.tokens]
    · exact .cons (Token.scans_of_isFixed rfl)
        (hc.legible.append (Token.legible_of_isFixed rfl))
    · rw [Statement.tree, Option.map_some, hc.tree]
      rfl

theorem exists_statement {stmt : Stmt} (h : stmt.writable = true) :
    ∃ d : Statement, d.Writes stmt := by
  simp only [Stmt.writable, Bool.and_eq_true] at h
  obtain ⟨hexprs, hstmt⟩ := h
  obtain ⟨cs, hcs⟩ := exists_writesAll_of_all hexprs
  cases stmt with
  | declare target type init s =>
    obtain ⟨htarget, htype⟩ := (Bool.and_eq_true _ _).mp hstmt
    exact exists_declare htarget htype hcs
  | assign target value s => exact exists_assign hstmt hcs
  | call made s => exact exists_call hstmt hcs
  | ret value s => exact exists_ret hcs

/-- Derivations of all items of a list, if there is one of each. -/
theorem exists_forall₂ {α δ : Type} {R : δ → α → Prop} {as : List α} (h : ∀ a ∈ as, ∃ d, R d a) :
    ∃ ds, List.Forall₂ R ds as := by
  induction as with
  | nil => exact ⟨[], .nil⟩
  | cons a as ih =>
    obtain ⟨⟨d, hd⟩, has⟩ := List.forall_mem_cons.1 h
    obtain ⟨ds, hds⟩ := ih has
    exact ⟨d :: ds, .cons hd hds⟩

theorem writesAll_flatMap {α δ : Type} {f : δ → List Expression} {g : α → List Expr}
    {ds : List δ} {as : List α} (h : List.Forall₂ (fun d a => WritesAll (f d) (g a)) ds as) :
    WritesAll (ds.flatMap f) (as.flatMap g) := by
  induction h with
  | nil => exact .nil
  | cons hd _ ih => exact List.rel_append hd ih

theorem legible_of_forall₂ {α δ : Type} {f : α → List Token} {ds : List δ} {as : List α}
    (h : List.Forall₂ (fun _ a => Token.Legible (f a)) ds as) :
    ∀ ts ∈ as.map f, Token.Legible ts := by
  induction h with
  | nil => exact List.forall_mem_nil _
  | cons hd _ ih => exact List.forall_mem_cons.2 ⟨hd, ih⟩

theorem exists_parameter {p : Param} (h : p.writable = true) :
    ∃ d : Parameter, p.tokens = d.tokens ∧ p.move .erase = d.tree ∧ Token.Legible p.tokens := by
  obtain ⟨hname, htype⟩ := (Bool.and_eq_true _ _).mp h
  obtain ⟨d, hd, htree, hlegible⟩ := exists_typeName htype
  refine ⟨⟨p.name, d⟩, ?_, ?_, ?_⟩
  · rw [Parameter.tokens, hd]
    rfl
  · rw [Parameter.tree, htree]
    rfl
  · exact .cons (Token.scans_name hname) (.cons (Token.scans_of_isFixed rfl) hlegible)

theorem exists_procedure {p : ScriptCheck.Procedure} (h : p.writable = true) :
    ∃ d : Procedure, d.Writes p := by
  simp only [ScriptCheck.Procedure.writable, Bool.and_eq_true, List.all_eq_true] at h
  obtain ⟨⟨⟨hname, hparams⟩, hreturns⟩, hbody⟩ := h
  obtain ⟨ps, hps⟩ := exists_forall₂ fun p hp => exists_parameter (hparams p hp)
  obtain ⟨t, htoken, htype, htlegible⟩ := exists_typeName hreturns
  obtain ⟨ds, hds⟩ := exists_forall₂ fun stmt hstmt => exists_statement (hbody stmt hstmt)
  have hptokens := map_eq_of_forall₂ (hps.imp fun _ _ hp => hp.1)
  have hdtokens := map_eq_of_forall₂ (hds.imp fun _ _ hd => hd.tokens.symm)
  have hplegible := legible_of_forall₂ (hps.imp fun _ _ hp => hp.2.2)
  have hdlegible := legible_of_forall₂ (hds.imp fun _ _ hd => hd.legible)
  refine ⟨⟨p.name.name, ps, t, ds⟩, ?_, ?_, ?_, ?_⟩
  · rw [Procedure.tokens, ScriptCheck.Procedure.tokens, hptokens, htoken, List.flatMap_def,
      ← hdtokens, ← List.flatMap_def]
  · have hhead : Token.Legible [.defWord, .name p.name.name, .openParen] :=
      .cons (Token.scans_of_isFixed rfl) (.cons (Token.scans_name hname)
        (Token.legible_of_isFixed rfl))
    have hmid : Token.Legible [.closeParen, .colon, p.returns.token, .isWord] :=
      .cons (Token.scans_of_isFixed rfl) (.cons (Token.scans_of_isFixed rfl)
        (htlegible.append (Token.legible_of_isFixed rfl)))
    have hstmts : Token.Legible (p.body.flatMap Stmt.tokens) := by
      rw [List.flatMap_def]
      exact Token.legible_flatten hdlegible
    exact (((hhead.append (Token.legible_commas hplegible)).append hmid).append hstmts).append
      (Token.legible_of_isFixed rfl)
  · rw [Procedure.tree, ← map_eq_of_forall₂ (hps.imp fun _ _ hp => hp.2.1), htype,
      ← map_eq_of_forall₂ (hds.imp fun _ _ hd => hd.tree.symm)]
    rfl
  · exact writesAll_flatMap (hds.imp fun _ _ hd => hd.expressions)

/-- Every tree with a written form has a derivation of it. -/
theorem exists_script {s : ScriptCheck.Script} (h : s.writable = true) :
    ∃ d : Script, d.tokens = s.tokens ∧ Token.Legible s.tokens ∧ d.tree = s.bare ∧
      WritesAll d.expressions s.expressions := by
  have hprocs := List.all_eq_true.1 h
  obtain ⟨ds, hds⟩ := exists_forall₂ fun p hp => exists_procedure (hprocs p hp)
  have htokens := map_eq_of_forall₂ (hds.imp fun _ _ hd => hd.tokens.symm)
  have hlegible := legible_of_forall₂ (hds.imp fun _ _ hd => hd.legible)
  refine ⟨⟨ds⟩, ?_, ?_, ?_, writesAll_flatMap (hds.imp fun _ _ hd => hd.expressions)⟩
  · rw [Script.tokens, List.flatMap_def, ← htokens, ← List.flatMap_def]
    rfl
  · rw [ScriptCheck.Script.tokens, List.flatMap_def]
    exact Token.legible_flatten hlegible
  · have htrees := map_eq_of_forall₂ (hds.imp fun _ _ hd => hd.tree.symm)
    exact congrArg ScriptCheck.Script.mk htrees.symm

/-! ## Reading what is written -/

section

variable {d : Script} {text : String} {s : ScriptCheck.Script}

theorem Script.Derives.exists_read (h : d.Derives text)
    (hd : ∀ e ∈ d.expressions, Admissible e) : ∃ s, ScriptCheck.Script.read text = .ok s := by
  obtain ⟨ls, hscan, htokens⟩ := h
  have hbounded := bounded_lexemes text
  rw [hscan, Piece.lexemes_map_token] at hbounded
  exact ⟨_, Script.read_eq_ok_iff_tokens.2 ⟨ls, hscan, harvest_complete hbounded htokens hd, rfl⟩⟩

theorem Script.Derives.of_read (h : d.Derives text) (hread : ScriptCheck.Script.read text = .ok s) :
    s.bare = d.tree ∧ ∀ e ∈ d.expressions, Admissible e := by
  obtain ⟨ls, hscan, hfaults, rfl⟩ := Script.read_eq_ok_iff_tokens.1 hread
  obtain ⟨d', htokens, htree, hd'⟩ := harvest_sound hfaults
  obtain rfl := h.unique ⟨ls, hscan, htokens.symm⟩
  exact ⟨congrArg ScriptCheck.Script.mk htree, hd'⟩

end

end Grammar

/-- Every tree with a written form survives writing and reading: if what is written nests 64
deep at most, it is read as the same tree, places aside, and if it nests deeper it is not
read at all. -/
theorem Script.read_render (s : Script) (h : s.writable = true) :
    ((∀ e ∈ s.expressions, e.nesting ≤ 64) →
        ∃ s', read s.render = .ok s' ∧ s'.bare = s.bare) ∧
      ∀ s', read s.render = .ok s' → ∀ e ∈ s.expressions, e.nesting ≤ 64 := by
  obtain ⟨d, htokens, hlegible, htree, hexprs⟩ := Grammar.exists_script h
  have hderives : d.Derives s.render := by
    obtain ⟨ls, hscan, hls⟩ := Piece.exists_scan_text hlegible
    exact ⟨ls, hscan, hls.trans htokens.symm⟩
  constructor
  · intro hnesting
    have hd : ∀ e ∈ d.expressions, Grammar.Admissible e := fun e he =>
      ⟨hexprs.fits e he, (hexprs.nesting_le_iff 64).2 hnesting e he⟩
    obtain ⟨s', hread⟩ := hderives.exists_read hd
    exact ⟨s', hread, (hderives.of_read hread).1.trans htree⟩
  · intro s' hread
    have hd := (hderives.of_read hread).2
    exact (hexprs.nesting_le_iff 64).1 fun e he => (hd e he).2

/-- A tree with the smallest number, a minus sign before numbers with and without sign, and
names that begin like reserved words. -/
def Script.signs : Script :=
  let here := Span.point 0
  let x : Expr := .var "is_x" here
  let call : Expr := .call ⟨"ends", here⟩ [.unary .not (.bool true here) here, x] here here
  ⟨[⟨⟨"ends", here⟩, [⟨"not1", .bool, here⟩, ⟨"Int", .int32, here⟩], .int32,
    [.declare ⟨"is_x", here⟩ .int32 (some (.unary .neg (.int 5 here) here)) here,
      .assign ⟨"is_x", here⟩ (.binary .sub (.int (-2147483648) here)
        (.binary .mul x (.unary .neg (.int (-5) here) here) here) here) here,
      .ret (some (.unary .neg call here)) here], here⟩]⟩

theorem Script.read_render_signs :
    signs.writable = true ∧ (∀ e ∈ signs.expressions, e.nesting ≤ 64) ∧
      signs.render = "def ends ( not1 : Bool , Int : Int32 ) : Int32 is " ++
        "var is_x : Int32 := - ( 5 ) ; is_x := - 2147483648 - ( is_x * ( - - 5 ) ) ; " ++
        "return - ends ( not true , is_x ) ; end" ∧
      ∃ s, read signs.render = .ok s ∧ s.bare = signs.bare := by
  have hwritable : signs.writable = true := by decide +kernel
  have hnesting : ∀ e ∈ signs.expressions, e.nesting ≤ 64 := by decide +kernel
  exact ⟨hwritable, hnesting, by decide +kernel, (read_render signs hwritable).1 hnesting⟩

end ScriptCheck
