import ScriptCheck.Reading.Script
import ScriptCheck.Proofs.Tree.Moved

/-!
# The grammar of scripts

Derivations of the concrete syntax, one constructor per production:

    script    := procedure*
    procedure := 'def' NAME '(' [param (',' param)*] ')' ':' type 'is' stmt* 'end'
    param     := NAME ':' type
    type      := 'Int32' | 'Bool' | 'Void'
    stmt      := 'var' NAME ':' type [':=' expr] ';' | NAME ':=' expr ';'
               | NAME '(' [expr (',' expr)*] ')' ';' | 'return' [expr] ';'
    expr      := operands of the next tier with operators of this tier between them, for
                 the six tiers from 'or' down to the products, and unary below the last
    unary     := ('-' | 'not') unary | NUMBER | 'true' | 'false' | NAME
               | NAME '(' [expr (',' expr)*] ')' | '(' expr ')'

A derivation knows nothing of readers, budgets or places. What it says about a text is
computed from it: its tokens, its tree, the values of its numbers and how deep its
expressions nest.
-/
namespace ScriptCheck

/-- The token that an operator is written with. -/
def BinaryOp.token : BinaryOp → Token
  | .add => .plus
  | .sub => .minus
  | .mul => .star
  | .div => .slash
  | .mod => .percent
  | .eq => .equal
  | .ne => .notEqual
  | .lt => .less
  | .le => .lessEqual
  | .gt => .greater
  | .ge => .greaterEqual
  | .and => .andOp
  | .or => .orOp

namespace Grammar

mutual

inductive Unary where
  | neg (inner : Unary)
  | not (inner : Unary)
  | number (digits : String)
  | bool (value : Bool)
  | name (spelling : String)
  | call (callee : String) (args : List (Chain Tier.all))
  | parens (inner : Chain Tier.all)

/-- An expression of the given tiers, the loosest first. -/
inductive Chain : List Tier → Type where
  | unary (u : Unary) : Chain []
  | chain {tier : Tier} {tiers : List Tier} (first : Chain tiers) (more : Links tier tiers) :
      Chain (tier :: tiers)

/-- What follows the first operand of a chain: operators of its tier, each with an operand. -/
inductive Links : Tier → List Tier → Type where
  | nil {tier : Tier} {tiers : List Tier} : Links tier tiers
  | cons {tier : Tier} {tiers : List Tier} (op : BinaryOp) (htier : op.tier = tier)
      (next : Chain tiers) (more : Links tier tiers) : Links tier tiers

end

/-- A whole expression. -/
abbrev Expression := Chain Tier.all

/-- The words for types; the type of faulty expressions has none. -/
inductive TypeName where
  | int32
  | bool
  | void
deriving DecidableEq

inductive Statement where
  | declare (name : String) (type : TypeName) (init : Option Expression)
  | assign (target : String) (value : Expression)
  | call (callee : String) (args : List Expression)
  | ret (value : Option Expression)

structure Parameter where
  name : String
  type : TypeName

structure Procedure where
  name : String
  params : List Parameter
  returns : TypeName
  body : List Statement

/-- A derivation of a whole text. -/
structure Script where
  procedures : List Procedure

/-! ## Tokens -/

/-- Lists of tokens with commas between them. -/
def commas : List (List Token) → List Token
  | [] => []
  | [ts] => ts
  | ts :: us :: more => ts ++ .comma :: commas (us :: more)

mutual

def Unary.tokens : Unary → List Token
  | .neg inner => .minus :: inner.tokens
  | .not inner => .notOp :: inner.tokens
  | .number digits => [.number digits]
  | .bool value => [if value then .trueWord else .falseWord]
  | .name spelling => [.name spelling]
  | .call callee args =>
    .name callee :: .openParen :: (commas (Chain.tokensAll args) ++ [.closeParen])
  | .parens inner => .openParen :: (inner.tokens ++ [.closeParen])

def Chain.tokens {tiers : List Tier} : Chain tiers → List Token
  | .unary u => u.tokens
  | .chain first more => first.tokens ++ more.tokens

def Links.tokens {tier : Tier} {tiers : List Tier} : Links tier tiers → List Token
  | .nil => []
  | .cons op _ next more => op.token :: (next.tokens ++ more.tokens)

def Chain.tokensAll : List (Chain Tier.all) → List (List Token)
  | [] => []
  | e :: es => e.tokens :: Chain.tokensAll es

end

def TypeName.token : TypeName → Token
  | .int32 => .int32Word
  | .bool => .boolWord
  | .void => .voidWord

def Statement.tokens : Statement → List Token
  | .declare name type none => [.varWord, .name name, .colon, type.token, .semicolon]
  | .declare name type (some init) =>
    [.varWord, .name name, .colon, type.token, .becomes] ++ init.tokens ++ [.semicolon]
  | .assign target value => [.name target, .becomes] ++ value.tokens ++ [.semicolon]
  | .call callee args =>
    [.name callee, .openParen] ++ commas (Chain.tokensAll args) ++ [.closeParen, .semicolon]
  | .ret none => [.returnWord, .semicolon]
  | .ret (some value) => .returnWord :: (value.tokens ++ [.semicolon])

def Parameter.tokens (p : Parameter) : List Token := [.name p.name, .colon, p.type.token]

def Procedure.tokens (p : Procedure) : List Token :=
  [.defWord, .name p.name, .openParen] ++ commas (p.params.map Parameter.tokens) ++
    [.closeParen, .colon, p.returns.token, .isWord] ++ p.body.flatMap Statement.tokens ++
    [.endWord]

def Script.tokens (s : Script) : List Token := s.procedures.flatMap Procedure.tokens

/-! ## Trees -/

/-- The place of everything in a tree without places. -/
def nowhere : Span := .point 0

/-- The digits of a number that stands on its own. -/
def Unary.number? : Unary → Option String
  | .number digits => some digits
  | _ => none

mutual

/-- A minus sign directly before a number is part of the number, and parentheses leave
no trace. -/
def Unary.tree : Unary → Expr
  | .neg inner =>
    match inner.number? with
    | some digits => .int (-decimal digits) nowhere
    | none => .unary .neg inner.tree nowhere
  | .not inner => .unary .not inner.tree nowhere
  | .number digits => .int (decimal digits) nowhere
  | .bool value => .bool value nowhere
  | .name spelling => .var spelling nowhere
  | .call callee args => .call ⟨callee, nowhere⟩ (Chain.treeAll args) nowhere nowhere
  | .parens inner => inner.tree

def Chain.tree {tiers : List Tier} : Chain tiers → Expr
  | .unary u => u.tree
  | .chain first more => more.treeFrom first.tree

/-- Operators of one tier group to the left. -/
def Links.treeFrom {tier : Tier} {tiers : List Tier} (left : Expr) : Links tier tiers → Expr
  | .nil => left
  | .cons op _ next more => more.treeFrom (.binary op left next.tree nowhere)

def Chain.treeAll : List (Chain Tier.all) → List Expr
  | [] => []
  | e :: es => e.tree :: Chain.treeAll es

end

def TypeName.type : TypeName → Ty
  | .int32 => .int32
  | .bool => .bool
  | .void => .void

def Statement.tree : Statement → Stmt
  | .declare name type init => .declare ⟨name, nowhere⟩ type.type (init.map Chain.tree) nowhere
  | .assign target value => .assign ⟨target, nowhere⟩ value.tree nowhere
  | .call callee args => .call ⟨⟨callee, nowhere⟩, Chain.treeAll args, nowhere⟩ nowhere
  | .ret value => .ret (value.map Chain.tree) nowhere

def Parameter.tree (p : Parameter) : Param := ⟨p.name, p.type.type, nowhere⟩

def Procedure.tree (p : Procedure) : ScriptCheck.Procedure :=
  ⟨⟨p.name, nowhere⟩, p.params.map Parameter.tree, p.returns.type, p.body.map Statement.tree,
    nowhere⟩

def Script.tree (s : Script) : ScriptCheck.Script := ⟨s.procedures.map Procedure.tree⟩

/-! ## Numbers and nesting -/

mutual

/-- The values of the numbers, negative where a minus sign belongs to one. -/
def Unary.literals : Unary → List Int
  | .neg inner =>
    match inner.number? with
    | some digits => [-decimal digits]
    | none => inner.literals
  | .not inner => inner.literals
  | .number digits => [decimal digits]
  | .bool _ | .name _ => []
  | .call _ args => Chain.literalsAll args
  | .parens inner => inner.literals

def Chain.literals {tiers : List Tier} : Chain tiers → List Int
  | .unary u => u.literals
  | .chain first more => first.literals ++ more.literals

def Links.literals {tier : Tier} {tiers : List Tier} : Links tier tiers → List Int
  | .nil => []
  | .cons _ _ next more => next.literals ++ more.literals

def Chain.literalsAll : List (Chain Tier.all) → List Int
  | [] => []
  | e :: es => e.literals ++ Chain.literalsAll es

end

mutual

/-- Parentheses, arguments and prefix operators go one level deeper; a number with its
sign is one level, and chains of operators add none. -/
def Unary.nesting : Unary → Nat
  | .neg inner =>
    match inner.number? with
    | some _ => 1
    | none => 1 + inner.nesting
  | .not inner => 1 + inner.nesting
  | .number _ | .bool _ | .name _ => 1
  | .call _ args => 1 + Chain.nestingAll args
  | .parens inner => 1 + inner.nesting

def Chain.nesting {tiers : List Tier} : Chain tiers → Nat
  | .unary u => u.nesting
  | .chain first more => max first.nesting more.nesting

def Links.nesting {tier : Tier} {tiers : List Tier} : Links tier tiers → Nat
  | .nil => 0
  | .cons _ _ next more => max next.nesting more.nesting

def Chain.nestingAll : List (Chain Tier.all) → Nat
  | [] => 0
  | e :: es => max e.nesting (Chain.nestingAll es)

end

/-- The expressions that are not part of another one. -/
def Statement.expressions : Statement → List Expression
  | .declare _ _ init => init.toList
  | .assign _ value => [value]
  | .call _ args => args
  | .ret value => value.toList

def Procedure.expressions (p : Procedure) : List Expression :=
  p.body.flatMap Statement.expressions

def Script.expressions (s : Script) : List Expression :=
  s.procedures.flatMap Procedure.expressions

end Grammar

end ScriptCheck
