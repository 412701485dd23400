import ScriptCheck.CallGraph

/-!
# Call graphs in DOT

The text form that graph drawing tools read: a title, a line per vertex and a line per
edge. Names stand in quotes, in which a quote and a backslash are written after a
backslash and everything else as it is.
-/

namespace ScriptCheck.Dot

/-- A character as it stands between quotes. -/
def escapeChar (c : Char) : List Char :=
  if c = '\\' ∨ c = '"' then ['\\', c] else [c]

/-- A text as it stands between quotes. -/
def escape (text : String) : String := String.ofList (text.toList.flatMap escapeChar)

/-- A text in quotes. -/
def quote (text : String) : String := "\"" ++ escape text ++ "\""

/-- The lines before the first vertex. -/
def heading (title : String) : String :=
  "digraph " ++ quote title ++ " \x7b\n    label=" ++ quote title ++ ";\n    node [shape=box];\n"

def vertexLine (n : ProcNode) : String :=
  "    " ++ quote n.name ++ " [label=" ++ quote n.describe ++ "];\n"

def edgeLine (edge : ProcNode × ProcNode) : String :=
  "    " ++ quote edge.1.name ++ " -> " ++ quote edge.2.name ++ ";\n"

/-- The graph under a title. -/
def render (g : CallGraph) (title : String) : String :=
  heading title ++ String.join (g.vertices.map vertexLine) ++
    String.join (g.edges.map edgeLine) ++ "\x7d\n"

end ScriptCheck.Dot
