import ScriptCheck.Tree

/-!
# Symbol tables

A table binds names to entries. The first definition of a name holds for good: a
second one is handed back and changes nothing. Procedures have a table of their own;
parameters and variables of a procedure share another.
-/

namespace ScriptCheck

/-- Entries under their names, in the order of definition. -/
structure Table (α : Type) where
  entries : List (String × α)

namespace Table

variable {α : Type}

def empty : Table α := ⟨[]⟩

/-- The entry of a name. -/
def lookup (t : Table α) (name : String) : Option α := t.entries.lookup name

/-- Binds a name, or hands the entry back if the name is taken. -/
def define (t : Table α) (name : String) (entry : α) : Except α (Table α) :=
  match t.lookup name with
  | some _ => .error entry
  | none => .ok ⟨t.entries ++ [(name, entry)]⟩

/-- The table after a definition, taken or not. -/
def insert (t : Table α) (name : String) (entry : α) : Table α :=
  match t.define name entry with
  | .ok t' => t'
  | .error _ => t

@[simp] theorem lookup_empty (name : String) : (empty : Table α).lookup name = none := rfl

/-- A definition decides its own name if that was free, and no other name. -/
theorem lookup_insert (t : Table α) (name other : String) (entry : α) :
    (t.insert name entry).lookup other =
      (t.lookup other).or (if other = name then some entry else none) := by
  unfold insert define
  cases h : t.lookup name with
  | some e =>
    by_cases ho : other = name
    · subst ho
      simp [h]
    · simp [ho]
  | none =>
    unfold lookup
    rw [List.lookup_append]
    by_cases ho : other = name
    · subst ho
      simp
    · have : (other == name) = false := by simpa using ho
      simp [ho, List.lookup_cons, this]

end Table

/-- What callers of a procedure know about it. -/
structure Signature where
  name : String
  params : List Param
  returns : Ty
  span : Span
deriving DecidableEq, Inhabited

namespace Signature

/-- The types of the parameters, in order. -/
def types (s : Signature) : List Ty := s.params.map (·.type)

end Signature

/-- The signature of a declared procedure, at the place of its name. -/
def Procedure.signature (p : Procedure) : Signature :=
  ⟨p.name.name, p.params, p.returns, p.name.span⟩

/-- A parameter or variable. -/
structure Binding where
  kind : SymbolKind
  type : Ty
  span : Span
deriving DecidableEq, Inhabited

/-- The procedures of a script. -/
abbrev GlobalTable := Table Signature

/-- The parameters and variables of a procedure. -/
abbrev LocalScope := Table Binding

end ScriptCheck
