/-!
# Types and kinds of names

A Piethon script knows three types. The checker adds `error`, the type of an
expression that already has a complaint: it agrees with every type, so that one
cause is reported once.
-/

namespace ScriptCheck

/-- The type of a value, of a call without value, or of a faulty expression. -/
inductive Ty where
  | int32
  | bool
  | void
  | error
deriving DecidableEq, Inhabited

namespace Ty

def isError (t : Ty) : Bool := t == .error

/-- May a value of the one type stand where the other is declared? -/
def agrees (actual expected : Ty) : Bool :=
  actual.isError || expected.isError || actual == expected

def describe : Ty → String
  | .int32 => "Int32"
  | .bool => "Bool"
  | .void => "Void"
  | .error => "Error"

@[simp] theorem agrees_self (t : Ty) : t.agrees t = true := by
  simp [agrees]

@[simp] theorem error_agrees (t : Ty) : Ty.error.agrees t = true := rfl

@[simp] theorem agrees_error (t : Ty) : t.agrees .error = true := by
  cases t <;> rfl

theorem agrees_iff {a b : Ty} : a.agrees b = true ↔ a = .error ∨ b = .error ∨ a = b := by
  cases a <;> cases b <;> decide

end Ty

/-- What a declared name stands for. -/
inductive SymbolKind where
  | proc
  | param
  | var
deriving DecidableEq, Inhabited

def SymbolKind.describe : SymbolKind → String
  | .proc => "Procedure"
  | .param => "Parameter"
  | .var => "Variable"

end ScriptCheck
