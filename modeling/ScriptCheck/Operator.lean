import ScriptCheck.Ty
import ScriptCheck.Token

/-!
# Operators

Binary operators fall into families that share their operand type; the tiers of
the grammar bind them from `or`, the loosest, to the products, the tightest. The
operator table gives the type of a result, or the first operand that does not fit.
-/

namespace ScriptCheck

inductive BinaryOp where
  | add
  | sub
  | mul
  | div
  | mod
  | eq
  | ne
  | lt
  | le
  | gt
  | ge
  | and
  | or
deriving DecidableEq, Inhabited

inductive UnaryOp where
  | neg
  | not
deriving DecidableEq, Inhabited

/-- The tiers of binary operators, from the loosest to the tightest. -/
inductive Tier where
  | disjunction
  | conjunction
  | equality
  | ordering
  | sum
  | product
deriving DecidableEq, Inhabited

/-- All tiers, the loosest first. -/
def Tier.all : List Tier :=
  [.disjunction, .conjunction, .equality, .ordering, .sum, .product]

namespace BinaryOp

def tier : BinaryOp → Tier
  | .or => .disjunction
  | .and => .conjunction
  | .eq | .ne => .equality
  | .lt | .le | .gt | .ge => .ordering
  | .add | .sub => .sum
  | .mul | .div | .mod => .product

def isArithmetic (op : BinaryOp) : Bool := op.tier == .sum || op.tier == .product

def isEquality (op : BinaryOp) : Bool := op.tier == .equality

def isOrdering (op : BinaryOp) : Bool := op.tier == .ordering

def isLogical (op : BinaryOp) : Bool := op.tier == .conjunction || op.tier == .disjunction

/-- The operator as it is written. -/
def describe : BinaryOp → String
  | .add => "+"
  | .sub => "-"
  | .mul => "*"
  | .div => "/"
  | .mod => "%"
  | .eq => "=="
  | .ne => "!="
  | .lt => "<"
  | .le => "<="
  | .gt => ">"
  | .ge => ">="
  | .and => "and"
  | .or => "or"

/-- The binary operator that a token stands for between two operands. -/
def ofToken? : Token → Option BinaryOp
  | .plus => some .add
  | .minus => some .sub
  | .star => some .mul
  | .slash => some .div
  | .percent => some .mod
  | .equal => some .eq
  | .notEqual => some .ne
  | .less => some .lt
  | .lessEqual => some .le
  | .greater => some .gt
  | .greaterEqual => some .ge
  | .andOp => some .and
  | .orOp => some .or
  | _ => none

end BinaryOp

/-- The operator of this tier that a token stands for. -/
def Tier.ofToken? (tier : Tier) (t : Token) : Option BinaryOp :=
  (BinaryOp.ofToken? t).filter (·.tier = tier)

/-- Which operand of an operator is meant. -/
inductive Operand where
  | left
  | right
  | only
deriving DecidableEq, Inhabited

/-- An operand whose type the operator does not take. -/
structure OperandMismatch where
  operand : Operand
  expected : Ty
  actual : Ty
deriving DecidableEq, Inhabited

/-- Both sides must share one type that has values. -/
def BinaryOp.equalityType (left right : Ty) : Except OperandMismatch Ty :=
  if left = .void then
    .error ⟨.left, if right = .void then .int32 else right, left⟩
  else if right ≠ left then
    .error ⟨.right, left, right⟩
  else
    .ok .bool

/-- Both sides must have the one type `operand`. -/
def BinaryOp.fixedType (operand result left right : Ty) : Except OperandMismatch Ty :=
  if left ≠ operand then
    .error ⟨.left, operand, left⟩
  else if right ≠ operand then
    .error ⟨.right, operand, right⟩
  else
    .ok result

/-- The type of `left op right`, or the first operand that does not fit. -/
def BinaryOp.resultType (op : BinaryOp) (left right : Ty) : Except OperandMismatch Ty :=
  match op.tier with
  | .equality => equalityType left right
  | .sum | .product => fixedType .int32 .int32 left right
  | .ordering => fixedType .int32 .bool left right
  | .conjunction | .disjunction => fixedType .bool .bool left right

/-- The type that a unary operator takes and gives. -/
def UnaryOp.type : UnaryOp → Ty
  | .neg => .int32
  | .not => .bool

/-- The type of `op operand`. -/
def UnaryOp.resultType (op : UnaryOp) (operand : Ty) : Except OperandMismatch Ty :=
  if operand = op.type then .ok op.type else .error ⟨.only, op.type, operand⟩

end ScriptCheck
