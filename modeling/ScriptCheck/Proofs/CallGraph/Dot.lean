import ScriptCheck.CallGraph.Dot

/-!
# Reading DOT text back

A text in quotes ends at the first quote that no backslash stands before. Escaping sees to it
that this is the quote that was put there to close it, whatever the text is. So a newline in a
name ends no line, the lines of a drawn graph are one per vertex and one per edge, and each of
them gives its names back.
-/
namespace ScriptCheck.Dot

/-! ## Replacements -/

/-- The text with another one in the place of each character `c`. -/
def replace (c : Char) (other text : String) : String :=
  String.ofList (text.toList.flatMap fun d => if d = c then other.toList else [d])

/-- Escaping replaces first the backslashes and then the quotes. The backslashes that come with
the quotes stay as they are. -/
theorem escape_eq_replace (text : String) :
    escape text = replace '"' "\\\"" (replace '\\' "\\\\" text) := by
  have hchar (c : Char) : escapeChar c =
      (if c = '\\' then "\\\\".toList else [c]).flatMap
        fun d => if d = '"' then "\\\"".toList else [d] := by
    unfold escapeChar
    by_cases hslash : c = '\\'
    · subst hslash
      rfl
    · by_cases hquote : c = '"'
      · subst hquote
        rfl
      · simp [hslash, hquote]
  simp only [escape, replace, String.toList_ofList, List.flatMap_assoc, ← hchar]

-- The other way round, the backslash before the quote would be doubled.
example : replace '\\' "\\\\" (replace '"' "\\\"" "\"") = "\\\\\"" := by
  decide +kernel

/-! ## Lines -/

/-- Where the next character of a text stands. -/
inductive Place where
  | outside
  | inside
  | escaped
deriving DecidableEq

/-- The place behind a character. -/
def Place.next (c : Char) : Place → Place
  | .outside => if c = '"' then .inside else .outside
  | .inside => if c = '"' then .outside else if c = '\\' then .escaped else .inside
  | .escaped => .inside

/-- A character more at the front of the first line. -/
def extend (c : Char) : List (List Char) → List (List Char)
  | [] => [[c]]
  | line :: lines => (c :: line) :: lines

/-- The lines of a text that goes on at `place`, with the newlines that end them. A newline in
quotes ends no line. -/
def linesFrom (place : Place) : List Char → List (List Char)
  | [] => []
  | c :: cs =>
    if c = '\n' ∧ place = .outside then [c] :: linesFrom .outside cs
    else extend c (linesFrom (place.next c) cs)

/-- The lines of a text. -/
def lines (text : String) : List (List Char) := linesFrom .outside text.toList

/-- A part of a line: what stands behind it goes on in the same line. -/
def Unbroken (cs : List Char) : Prop :=
  ∀ rest line more, linesFrom .outside rest = line :: more →
    linesFrom .outside (cs ++ rest) = (cs ++ line) :: more

/-- A line, with its newline. -/
def Whole (cs : List Char) : Prop :=
  ∀ rest, linesFrom .outside (cs ++ rest) = cs :: linesFrom .outside rest

theorem Unbroken.whole {cs ds : List Char} (hc : Unbroken cs) (hd : Whole ds) :
    Whole (cs ++ ds) := by
  intro rest
  rw [List.append_assoc]
  exact hc _ _ _ (hd rest)

/-- Neither quotes nor a newline. -/
def isPlain (c : Char) : Bool := c != '"' && c != '\n'

theorem unbroken_plain {cs : List Char} (h : cs.all isPlain = true) : Unbroken cs := by
  intro rest line more hrest
  induction cs with
  | nil => exact hrest
  | cons c cs ih =>
    simp only [List.all_cons, isPlain, Bool.and_eq_true, bne_iff_ne] at h
    obtain ⟨⟨hquote, hnewline⟩, hcs⟩ := h
    rw [List.cons_append, linesFrom, if_neg (fun hc => hnewline hc.1), Place.next, if_neg hquote,
      ih hcs]
    rfl

/-- Between its quotes an escaped text stays inside, and at the closing one it is left. -/
theorem linesFrom_inside (text rest line : List Char) (more : List (List Char))
    (h : linesFrom .outside rest = line :: more) :
    linesFrom .inside (text.flatMap escapeChar ++ '"' :: rest) =
      (text.flatMap escapeChar ++ '"' :: line) :: more := by
  induction text with
  | nil => simp [linesFrom, Place.next, h, extend]
  | cons c text ih =>
    rw [List.flatMap_cons, List.append_assoc]
    by_cases hc : c = '\\' ∨ c = '"'
    · rw [escapeChar, if_pos hc]
      simp [linesFrom, Place.next, ih, extend]
    · rw [escapeChar, if_neg hc]
      obtain ⟨hslash, hquote⟩ := not_or.1 hc
      simp [linesFrom, Place.next, hslash, hquote, ih, extend]

theorem toList_quote (text : String) :
    (quote text).toList = '"' :: (text.toList.flatMap escapeChar ++ ['"']) := by
  simp [quote, escape]

/-- No text in quotes ends the line that it stands in. -/
theorem unbroken_quote (text : String) : Unbroken (quote text).toList := by
  intro rest line more h
  have hinside := linesFrom_inside text.toList rest line more h
  simp only [toList_quote, List.cons_append, List.append_assoc, List.nil_append]
  simp [linesFrom, Place.next, hinside, extend]

/-- A line can be begun by plain characters and a text in quotes. -/
theorem whole_quoted {front rest : List Char} (hfront : front.all isPlain = true) (text : String)
    (hrest : Whole rest) : Whole (front ++ ((quote text).toList ++ rest)) :=
  (unbroken_plain hfront).whole ((unbroken_quote text).whole hrest)

/-! ## Names in quotes -/

/-- The text up to the closing quote, and what stands behind that. -/
def closing? : List Char → Option (List Char × List Char)
  | [] => none
  | '"' :: rest => some ([], rest)
  | '\\' :: c :: rest => (closing? rest).map fun (text, rest) => (c :: text, rest)
  | c :: rest => (closing? rest).map fun (text, rest) => (c :: text, rest)

/-- The text in quotes at the front, and what stands behind it. -/
def quoted? : List Char → Option (String × List Char)
  | '"' :: rest => (closing? rest).map fun (text, rest) => (String.ofList text, rest)
  | _ => none

theorem closing?_escaped (text rest : List Char) :
    closing? (text.flatMap escapeChar ++ '"' :: rest) = some (text, rest) := by
  induction text with
  | nil => rfl
  | cons c text ih =>
    rw [List.flatMap_cons, List.append_assoc]
    by_cases hc : c = '\\' ∨ c = '"'
    · rw [escapeChar, if_pos hc]
      simp [closing?, ih]
    · rw [escapeChar, if_neg hc]
      obtain ⟨hslash, hquote⟩ := not_or.1 hc
      simp [closing?, hslash, ih]

/-- A text in quotes is read up to the quote that was put there to close it. -/
theorem quoted?_quote (text : String) (rest : List Char) :
    quoted? ((quote text).toList ++ rest) = some (text, rest) := by
  have hclosing := closing?_escaped text.toList rest
  simp only [toList_quote, List.cons_append, List.append_assoc, List.nil_append, quoted?, hclosing,
    Option.map_some, String.ofList_toList]

/-! ## Vertices and edges -/

/-- What a line says. -/
inductive Item where
  | vertex (n : ProcNode)
  | edge (source target : ProcNode)
deriving DecidableEq

namespace Item

def vertex? : Item → Option ProcNode
  | .vertex n => some n
  | .edge _ _ => none

def edge? : Item → Option (ProcNode × ProcNode)
  | .vertex _ => none
  | .edge source target => some (source, target)

/-- The line that says it. -/
def line : Item → List Char
  | .vertex n => (vertexLine n).toList
  | .edge source target => (edgeLine (source, target)).toList

end Item

/-- What stands behind `word` at the front. -/
def behind? (word : String) (cs : List Char) : Option (List Char) := word.toList.isPrefixOf? cs

/-- What a line with a name says: of an arrow an edge, and of a label a vertex. -/
def item? (line : List Char) : Option Item := do
  let (name, rest) ← quoted? (← behind? "    " line)
  match behind? " -> " rest with
  | some rest =>
    let (target, _) ← quoted? rest
    return .edge ⟨name⟩ ⟨target⟩
  | none =>
    let _ ← behind? " [label=" rest
    return .vertex ⟨name⟩

/-- The title in the first line. -/
def title? (line : List Char) : Option String := do
  let (title, _) ← quoted? (← behind? "digraph " line)
  return title

/-- What a drawn graph shows. -/
structure Drawing where
  title : String
  vertices : List ProcNode
  edges : List (ProcNode × ProcNode)
deriving DecidableEq

/-- Reads a drawn graph: its title, and then an item from each line between the three at the
front and the one at the end. -/
def decode (text : String) : Option Drawing :=
  match lines text with
  | first :: _ :: _ :: rest => do
    let title ← title? first
    let items ← rest.dropLast.mapM item?
    return ⟨title, items.filterMap Item.vertex?, items.filterMap Item.edge?⟩
  | _ => none

theorem behind?_append (word : String) (rest : List Char) :
    behind? word (word.toList ++ rest) = some rest := by
  unfold behind?
  induction word.toList with
  | nil => rfl
  | cons c cs ih => exact (if_pos (beq_self_eq_true c)).trans ih

theorem item?_line (item : Item) : item? item.line = some item := by
  cases item with
  | vertex n =>
    have hline : (Item.vertex n).line = "    ".toList ++ ((quote n.name).toList ++
        (" [label=".toList ++ ((quote n.describe).toList ++ "];\n".toList))) := by
      simp [Item.line, vertexLine]
    have harrow (rest : List Char) : behind? " -> " (" [label=".toList ++ rest) = none := rfl
    rw [item?, hline, behind?_append]
    simp only [Option.bind_eq_bind, Option.bind_some, quoted?_quote, harrow, behind?_append]
    rfl
  | edge source target =>
    have hline : (Item.edge source target).line = "    ".toList ++ ((quote source.name).toList ++
        (" -> ".toList ++ ((quote target.name).toList ++ ";\n".toList))) := by
      simp [Item.line, edgeLine]
    rw [item?, hline, behind?_append]
    simp only [Option.bind_eq_bind, Option.bind_some, quoted?_quote, behind?_append]
    rfl

theorem mapM_item? (items : List Item) : (items.map Item.line).mapM item? = some items := by
  induction items with
  | nil => rfl
  | cons item items ih =>
    rw [List.map_cons, List.mapM_cons, item?_line, ih]
    rfl

/-! ## Drawn graphs -/

/-- What the lines of a graph say, first to last. -/
def items (g : CallGraph) : List Item :=
  g.vertices.map .vertex ++ g.edges.map fun edge => .edge edge.1 edge.2

/-- The three lines at the front. -/
def headingLines (title : String) : List (List Char) :=
  [("digraph " ++ quote title ++ " \x7b\n").toList, ("    label=" ++ quote title ++ ";\n").toList,
    "    node [shape=box];\n".toList]

theorem whole_line (item : Item) : Whole item.line := by
  cases item with
  | vertex n =>
    simp only [Item.line, vertexLine, String.toList_append, List.append_assoc]
    exact whole_quoted rfl n.name (whole_quoted rfl n.describe fun _ => rfl)
  | edge source target =>
    simp only [Item.line, edgeLine, String.toList_append, List.append_assoc]
    exact whole_quoted rfl source.name (whole_quoted rfl target.name fun _ => rfl)

theorem linesFrom_flatten {ls : List (List Char)} (h : ∀ l ∈ ls, Whole l) :
    linesFrom .outside ls.flatten = ls := by
  induction ls with
  | nil => rfl
  | cons l ls ih =>
    obtain ⟨hl, hls⟩ := List.forall_mem_cons.1 h
    rw [List.flatten_cons, hl, ih hls]

theorem whole_headingLines (title : String) : ∀ l ∈ headingLines title, Whole l := by
  simp only [headingLines, String.toList_append, List.append_assoc, List.forall_mem_cons]
  refine ⟨?_, ?_, fun _ => rfl, List.forall_mem_nil _⟩
  · exact whole_quoted rfl title fun _ => rfl
  · exact whole_quoted rfl title fun _ => rfl

theorem toList_render (g : CallGraph) (title : String) :
    (render g title).toList =
      (headingLines title ++ (items g).map Item.line ++ ["\x7d\n".toList]).flatten := by
  have hheading : (heading title).toList = (headingLines title).flatten := by
    simp [heading, headingLines]
  have hvertices : (String.join (g.vertices.map vertexLine)).toList =
      ((g.vertices.map Item.vertex).map Item.line).flatten := by
    rw [String.toList_join, List.flatMap_map, List.map_map, ← List.flatMap_def]
    rfl
  have hedges : (String.join (g.edges.map edgeLine)).toList =
      ((g.edges.map fun edge => Item.edge edge.1 edge.2).map Item.line).flatten := by
    rw [String.toList_join, List.flatMap_map, List.map_map, ← List.flatMap_def]
    rfl
  simp only [render, items, String.toList_append, hheading, hvertices, hedges, List.map_append,
    List.flatten_append, List.flatten_cons, List.flatten_nil, List.append_nil, List.append_assoc]

theorem lines_render (g : CallGraph) (title : String) :
    lines (render g title) =
      headingLines title ++ (items g).map Item.line ++ ["\x7d\n".toList] := by
  rw [lines, toList_render]
  refine linesFrom_flatten fun l hl => ?_
  rcases List.mem_append.1 hl with hl | hl
  · rcases List.mem_append.1 hl with hl | hl
    · exact whole_headingLines title l hl
    · obtain ⟨item, _, rfl⟩ := List.mem_map.1 hl
      exact whole_line item
  · rw [List.mem_singleton.1 hl]
    exact fun _ => rfl

theorem title?_heading (title : String) :
    title? ("digraph " ++ quote title ++ " \x7b\n").toList = some title := by
  rw [title?, String.toList_append, String.toList_append, List.append_assoc, behind?_append]
  simp only [Option.bind_eq_bind, Option.bind_some, quoted?_quote]
  rfl

theorem decode_render_eq (g : CallGraph) (title : String) :
    decode (render g title) = some ⟨title, g.vertices, g.edges⟩ := by
  have hvertices : (items g).filterMap Item.vertex? = g.vertices := by
    simp [items, List.filterMap_append, List.filterMap_map, Function.comp_def, Item.vertex?]
  have hedges : (items g).filterMap Item.edge? = g.edges := by
    simp [items, List.filterMap_append, List.filterMap_map, Function.comp_def, Item.edge?]
  rw [decode, lines_render]
  simp only [headingLines, List.cons_append, List.nil_append, title?_heading, List.dropLast_concat,
    mapM_item?]
  simp only [Option.bind_eq_bind, Option.bind_some, hvertices, hedges]
  rfl

/-- A drawn graph gives back its title, its vertices and its edges, in their order, so no two
that differ in one of them look the same. Every name is closed by its own quote, as backslashes
and then quotes are escaped in it, and outside of names no line stands that is not of the heading,
of a vertex, of an edge or the last. -/
theorem decode_render (g : CallGraph) (title : String) :
    decode (render g title) = some ⟨title, g.vertices, g.edges⟩ ∧
      (∀ (g' : CallGraph) (title' : String), render g' title' = render g title →
        title' = title ∧ g'.vertices = g.vertices ∧ g'.edges = g.edges) ∧
      (∀ (text : String) (rest : List Char),
        quoted? ((quote text).toList ++ rest) = some (text, rest)) ∧
      (∀ text : String, escape text = replace '"' "\\\"" (replace '\\' "\\\\" text)) ∧
      lines (render g title) =
        headingLines title ++ (items g).map Item.line ++ ["\x7d\n".toList] := by
  have hdecode := decode_render_eq g title
  refine ⟨hdecode, fun g' title' h => ?_, quoted?_quote, escape_eq_replace, lines_render g title⟩
  rw [← h, decode_render_eq, Option.some.injEq, Drawing.mk.injEq] at hdecode
  exact hdecode

/-- A name that looks like the end of its line and one more vertex is still one name. -/
example :
    let name := "a\\\" [label=\"a\"];\n    \"b"
    (lines (render (.addVertex .empty ⟨name⟩) "\\")).length = 5 := by
  decide +kernel

end ScriptCheck.Dot
