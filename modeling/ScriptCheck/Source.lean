import ScriptCheck.Span
import ScriptCheck.Text.Bytes

/-!
# Named texts and positions in them

A source is a script's text under a name. A byte offset has a position in it, a
line and a column that both count from one. Lines end at a newline character and
at nothing else. Offsets past the end have the position of the end.
-/

namespace ScriptCheck

/-- A line and a column, both counted from one. -/
structure Position where
  line : Nat
  column : Nat
deriving DecidableEq, Inhabited

namespace Position

/-- The position after reading one character. -/
def next (p : Position) (c : Char) : Position :=
  if c = '\n' then ⟨p.line + 1, 1⟩ else ⟨p.line, p.column + 1⟩

/-- The position of byte `offset` of a text whose first character stands at `p`.
A character is passed once all its bytes are; an offset inside a character has
that character's position. -/
def advance (p : Position) : List Char → Nat → Position
  | [], _ => p
  | c :: cs, offset =>
    if offset < c.utf8Size then p else advance (p.next c) cs (offset - c.utf8Size)

end Position

/-- A script's text together with the name it is reported under. -/
structure Source where
  name : String
  text : String
deriving DecidableEq, Inhabited

/-- A span of a source, with the positions of both ends. -/
structure Location where
  source : String
  span : Span
  first : Position
  last : Position
deriving DecidableEq, Inhabited

namespace Source

def chars (s : Source) : List Char := s.text.toList

/-- Length of the text in bytes. -/
def byteLength (s : Source) : Nat := Text.byteLength s.chars

/-- The line and column of a byte offset. -/
def position (s : Source) (offset : Nat) : Position :=
  Position.advance ⟨1, 1⟩ s.chars offset

/-- Both ends of a span as positions; the span itself is kept as given. -/
def locate (s : Source) (span : Span) : Location :=
  ⟨s.name, span, s.position span.start, s.position span.stop⟩

end Source

/-- The name with the line and column where the span begins. -/
def Location.describe (l : Location) : String :=
  s!"{l.source}:{l.first.line}:{l.first.column}"

end ScriptCheck
