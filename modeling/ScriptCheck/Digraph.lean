import ScriptCheck.Total

/-!
# Directed multigraphs

Each vertex has the list of its targets, one entry per edge. Vertices stand in the
order in which they were first mentioned, edges of a vertex in the order in which they
were added. Both ends of an edge are vertices.
-/

namespace ScriptCheck

/-- Vertices with their targets. -/
structure Digraph (V : Type) where
  adjacency : List (V × List V)
deriving Inhabited

/-- A vertex was asked for that the graph does not have. -/
structure MissingVertex (V : Type) where
  vertex : V

def MissingVertex.message {V : Type} [ToString V] (m : MissingVertex V) : String :=
  s!"vertex '{m.vertex}' is not in the graph"

namespace Digraph

variable {V : Type} [DecidableEq V]

def empty : Digraph V := ⟨[]⟩

/-- The vertices, in the order in which they were first mentioned. -/
def vertices (g : Digraph V) : List V := g.adjacency.map (·.1)

/-- The targets of a vertex, if it is one. -/
def targets? (g : Digraph V) (v : V) : Option (List V) := g.adjacency.lookup v

def contains (g : Digraph V) (v : V) : Bool := (g.targets? v).isSome

/-- Adds a vertex, unless it is there. -/
def addVertex (g : Digraph V) (v : V) : Digraph V :=
  if g.contains v then g else ⟨g.adjacency ++ [(v, [])]⟩

/-- Changes the targets of one vertex. -/
def update (g : Digraph V) (v : V) (f : List V → List V) : Digraph V :=
  ⟨g.adjacency.map fun (u, targets) => (u, if u = v then f targets else targets)⟩

/-- Adds an edge. An end that is missing is added first, the target before the source. -/
def addEdge (g : Digraph V) (source target : V) : Digraph V :=
  ((g.addVertex target).addVertex source).update source (· ++ [target])

/-- Removes the earliest edge between two vertices, if there is one. -/
def removeEdge? (g : Digraph V) (source target : V) : Option (Digraph V) :=
  match g.targets? source with
  | none => none
  | some targets =>
    if target ∈ targets then some (g.update source (·.erase target)) else none

/-- The targets of a vertex, one entry per edge. -/
def neighbors (g : Digraph V) (v : V) : Except (MissingVertex V) (List V) :=
  match g.targets? v with
  | some targets => .ok targets
  | none => .error ⟨v⟩

def vertexCount (g : Digraph V) : Nat := g.adjacency.length

/-- All edges, by source, with repeats. -/
def edges (g : Digraph V) : List (V × V) :=
  g.adjacency.flatMap fun (source, targets) => targets.map (source, ·)

/-- The members of a list in the order of their first occurrence. -/
def distinct {α : Type} [DecidableEq α] : List α → List α
  | [] => []
  | x :: xs => x :: (distinct xs).filter (· ≠ x)

/-- All edges, by source, without repeats. -/
def edgeSet (g : Digraph V) : List (V × V) := distinct g.edges

def edgeCount (g : Digraph V) : Nat := total (·.2.length) g.adjacency

/-- Number of edges that leave a vertex. -/
def outDegree (g : Digraph V) (v : V) : Except (MissingVertex V) Nat :=
  (g.neighbors v).map List.length

/-- Number of edges that reach a vertex, none if it is not in the graph. -/
def inDegree (g : Digraph V) (v : V) : Nat := total (·.2.count v) g.adjacency

/-- Do two graphs have the same vertices with the same targets? The order of the
vertices does not matter, that of a vertex's targets does. -/
def same (g h : Digraph V) : Bool :=
  g.vertexCount == h.vertexCount &&
    g.adjacency.all fun (v, targets) => h.targets? v == some targets

/-- One line per vertex, with its targets. -/
def describe [ToString V] (g : Digraph V) : String :=
  String.join (g.adjacency.map fun (v, targets) =>
    s!"{v} ->" ++ String.join (targets.map fun t => s!" {t}") ++ "\n")

end Digraph

end ScriptCheck
