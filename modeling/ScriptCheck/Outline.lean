/-!
# Outlines

An outline is a nested value made ready for printing: records with named fields, tagged
groups, lists and plain words. It is printed over several lines, one field or item per
line with a comma after it, indented by four columns per level.
-/

namespace ScriptCheck

/-- A nested value. -/
inductive Outline where
  | word (text : String)
  | record (name : String) (fields : List (String × Outline))
  | group (name : String) (item : Outline)
  | list (items : List Outline)
deriving Inhabited

namespace Outline

/-- Blanks in front of a line at some depth. -/
def indent (depth : Nat) : String := String.ofList (List.replicate (4 * depth) ' ')

mutual

/-- The printed form, whose first line stands behind something else at this depth. -/
def print (depth : Nat) : Outline → String
  | .word text => text
  | .record name fields =>
    name ++ " \x7b\n" ++ printFields (depth + 1) fields ++ indent depth ++ "\x7d"
  | .group name item =>
    name ++ "(\n" ++ indent (depth + 1) ++ item.print (depth + 1) ++ ",\n" ++ indent depth ++ ")"
  | .list [] => "[]"
  | .list (item :: items) =>
    "[\n" ++ printItems (depth + 1) (item :: items) ++ indent depth ++ "]"

/-- Fields, one per line. -/
def printFields (depth : Nat) : List (String × Outline) → String
  | [] => ""
  | (name, value) :: rest =>
    indent depth ++ name ++ ": " ++ value.print depth ++ ",\n" ++ printFields depth rest

/-- Items, one per line. -/
def printItems (depth : Nat) : List Outline → String
  | [] => ""
  | item :: rest => indent depth ++ item.print depth ++ ",\n" ++ printItems depth rest

end

/-- A value that may be missing. -/
def option : Option Outline → Outline
  | none => .word "None"
  | some o => .group "Some" o

/-- A text in quotes. -/
def text (s : String) : Outline := .word ("\"" ++ s ++ "\"")

end Outline

end ScriptCheck
