import ScriptCheck.Diagnostic
import ScriptCheck.Text.Width
import ScriptCheck.Text.Blank
import ScriptCheck.Total

/-!
# Reports

A report shows a diagnostic with the lines of the source it is about. Line numbers stand
in a gutter on the left. A span inside one line is underlined with carets; a span over
several lines has a bar at its left, from the first line to the last, and lines in the
middle of a long one are left out.
-/

namespace ScriptCheck.Report

/-- Tabs reach to the next multiple of this many columns. -/
def tabStop : Nat := 4

/-- The parts of a text between newlines; there is one more than there are newlines. -/
def splitLines : List Char → List (List Char)
  | [] => [[]]
  | c :: cs =>
    if c = '\n' then [] :: splitLines cs
    else match splitLines cs with
      | [] => [[c]]
      | line :: lines => (c :: line) :: lines

/-- Byte offset of the first character of the line with this index. -/
def lineStart (lines : List (List Char)) (index : Nat) : Nat :=
  total (Text.byteLength · + 1) (lines.take index)

/-- A line without the carriage returns and nulls at its end. -/
def trimLine (line : List Char) : List Char :=
  (line.reverse.dropWhile fun c => c == '\r' || c == '\x00').reverse

/-- A character of a line with its byte offset there and the columns it takes. -/
structure Cell where
  char : Char
  offset : Nat
  width : Nat

/-- The cells of a line, from a byte offset and a column on. -/
def cellsFrom (offset column : Nat) : List Char → List Cell
  | [] => []
  | c :: cs =>
    let width := if c = '\t' then tabStop - column % tabStop else Text.width c
    ⟨c, offset, width⟩ :: cellsFrom (offset + c.utf8Size) (column + width) cs

/-- The cells of a line. -/
def cells (line : List Char) : List Cell := cellsFrom 0 0 line

/-- A character so many times. -/
def times (n : Nat) (c : Char) : String := String.ofList (List.replicate n c)

/-- A cell as it is printed. -/
def Cell.print (cell : Cell) : String :=
  if cell.char = '\t' then times cell.width ' ' else cell.char.toString

/-- A line as it is printed. -/
def printLine (line : List Char) : String := String.join ((cells line).map Cell.print)

/-- The marks below one column: carets where its bytes meet the marked ones, blanks in
front of them. -/
def mark (first last offset size width : Nat) : String :=
  if max first offset < min last (offset + size) then times width '^'
  else if offset < last then times width ' '
  else ""

/-- The carets below a line for its bytes from `first` to `last`. One column behind the
line can be marked too. -/
def underline (line : List Char) (first last : Nat) : String :=
  String.join ((cells line).map fun cell =>
    mark first last cell.offset cell.char.utf8Size cell.width) ++
  mark first last (Text.byteLength line) 1 1

/-- The columns of the characters that begin before a byte offset. -/
def columnsBefore (line : List Char) (offset : Nat) : Nat :=
  total (·.width) ((cells line).takeWhile (·.offset < offset))

/-- Byte length of the white space that a line begins with. -/
def indentLength (line : List Char) : Nat := Text.byteLength (line.takeWhile Text.isWhite)

/-- The message after the last mark. -/
def tagged (message : String) : String := if message.isEmpty then "" else " " ++ message

/-- A number at the right of a field. -/
def padded (size n : Nat) : String :=
  let digits := toString n
  times (size - digits.length) ' ' ++ digits

/-- The source that a report quotes, and the size of its line numbers. -/
structure Page where
  lines : List (List Char)
  size : Nat

namespace Page

/-- The left edge of a line without a number. -/
def gutter (p : Page) : String := times p.size ' ' ++ " "

/-- The left edge of the line with this index. -/
def numbered (p : Page) (index : Nat) : String := padded p.size (index + 1) ++ " "

/-- The characters of the line with this index, as far as they are shown. -/
def line (p : Page) (index : Nat) : List Char := trimLine ((p.lines[index]?).getD [])

/-- A source line with what stands between its gutter and its text. -/
def quoted (p : Page) (index : Nat) (edge : String) : String :=
  p.numbered index ++ "│ " ++ edge ++ printLine (p.line index) ++ "\n"

/-- A line of marks. -/
def marks (p : Page) (text : String) : String := p.gutter ++ "│ " ++ text ++ "\n"

/-- A span inside one line, from byte `first` to byte `last` of it. -/
def oneLine (p : Page) (index first last : Nat) (message : String) : String :=
  p.quoted index "" ++
    p.marks (underline (p.line index) first (max last (first + 1)) ++ tagged message)

/-- The first line of a span that goes on. A span that begins at the first printed
character needs no mark. -/
def topLine (p : Page) (index first : Nat) : String :=
  let line := p.line index
  if first ≤ indentLength line then
    p.quoted index "╭ "
  else
    p.quoted index "  " ++ p.marks ("╭" ++ times (columnsBefore line (first + 1)) '─' ++ "^")

/-- The last line of a span that began above. -/
def bottomLine (p : Page) (index last : Nat) (message : String) : String :=
  p.quoted index "│ " ++
    p.marks ("╰" ++ times (columnsBefore (p.line index) last) '─' ++ "^" ++ tagged message)

/-- The lines between the first and the last of a span: all of them, or the first three
and the last with a gap between if that leaves out more than one. -/
def middleLines (p : Page) (top bottom : Nat) : String :=
  let inner := bottom - top - 1
  let shown := fun index => p.quoted index "│ "
  if inner ≤ 5 then
    String.join ((List.range' (top + 1) inner).map shown)
  else
    String.join ((List.range' (top + 1) 3).map shown) ++
      p.gutter ++ "· │\n" ++ shown (bottom - 1)

/-- The quoted lines of a span. -/
def snippet (p : Page) (top bottom : Nat) (span : Span) (message : String) : String :=
  let first := span.start - lineStart p.lines top
  let last := span.stop - lineStart p.lines bottom
  if top = bottom then
    p.oneLine top first last message
  else
    p.topLine top first ++ p.middleLines top bottom ++ p.bottomLine bottom last message

end Page

/-- The first line of a report. -/
def headline (p : Problem) : String :=
  if p.isMalformed then s!"error: {p.category}\n" else s!"error[{p.code}]: {p.category}\n"

/-- The whole report of a diagnostic, quoting the source. -/
def render (source : Source) (d : Diagnostic) : String :=
  let span := d.location.span
  let start := source.position span.start
  let top := start.line - 1
  let bottom := (source.position span.stop).line - 1
  let page : Page := ⟨splitLines source.chars, (toString (max top bottom + 1)).length⟩
  let border := page.gutter ++ (if top = bottom then "│\n" else "│  \n")
  headline d.problem ++
    page.gutter ++ s!"┌─ {source.name}:{start.line}:{start.column}\n" ++
    border ++
    page.snippet top bottom span d.problem.label ++
    (match d.problem.note? with
      | some note => border ++ page.gutter ++ s!"= {note}\n"
      | none => "") ++
    "\n"

/-- The reports of diagnostics, one after the other. -/
def renderAll (source : Source) (ds : List Diagnostic) : String :=
  String.join (ds.map (render source))

end ScriptCheck.Report
