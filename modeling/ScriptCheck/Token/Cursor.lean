import ScriptCheck.Token.Scan
import ScriptCheck.Fault

/-!
# One piece at a time

A text can be asked for its pieces one by one, and behind the last one for its end, as often as
one likes. Asking goes on past a character that begins no token. A list of tokens is had only
from a text without such characters.
-/

namespace ScriptCheck

/-- A place in a text: its offset, and what is left from there on. -/
structure Cursor where
  offset : Nat
  rest : List Char

/-- What stands at a cursor. -/
inductive Answer where
  | piece (p : Piece)
  | eof (place : Span)
deriving DecidableEq

/-- The tokens of a text, and the end behind them. -/
structure TokenList where
  lexemes : List Lexeme
  eof : Span
deriving DecidableEq

def TokenList.cons (l : Lexeme) (ts : TokenList) : TokenList := ⟨l :: ts.lexemes, ts.eof⟩

namespace Cursor

/-- The front of a text. -/
def start (text : String) : Cursor := ⟨0, text.toList⟩

/-- The cursor behind what is cut off the text `c :: cs` at `offset`. -/
def behind (offset : Nat) (c : Char) (cs : List Char) : Cursor :=
  ⟨offset + c.utf8Size + Text.byteLength (Scan.cut c cs).2, cs.drop (Scan.cut c cs).2.length⟩

theorem length_behind_lt (offset : Nat) (c : Char) (cs : List Char) :
    (behind offset c cs).rest.length < (c :: cs).length := by
  simp only [behind, List.length_drop, List.length_cons]
  omega

/-- The next piece, and the cursor behind it. At the end the cursor stays where it is. -/
def next : Cursor → Answer × Cursor
  | ⟨offset, []⟩ => (.eof (.point offset), ⟨offset, []⟩)
  | ⟨offset, c :: cs⟩ =>
    let after := behind offset c cs
    match (Scan.cut c cs).1 with
    | .gap => next after
    | .token t => (.piece (.token ⟨t, ⟨offset, after.offset⟩⟩), after)
    | .stray => (.piece (.stray c ⟨offset, after.offset⟩), after)
termination_by cursor => cursor.rest.length
decreasing_by exact length_behind_lt offset c cs

/-- A piece takes something off the text. -/
theorem length_next_lt {cursor : Cursor} {p : Piece} (h : cursor.next.1 = .piece p) :
    cursor.next.2.rest.length < cursor.rest.length := by
  fun_induction next cursor with
  | case1 offset => cases h
  | case2 offset c cs after _ ih => exact Nat.lt_trans (ih h) (length_behind_lt offset c cs)
  | case3 offset c cs after t _ => exact length_behind_lt offset c cs
  | case4 offset c cs after _ => exact length_behind_lt offset c cs

/-- The answer after `n` others. -/
def answer (cursor : Cursor) : Nat → Answer
  | 0 => cursor.next.1
  | n + 1 => cursor.next.2.answer n

/-- The answers before the end. -/
def results (cursor : Cursor) : List Piece :=
  match _h : cursor.next.1 with
  | .eof _ => []
  | .piece p => p :: cursor.next.2.results
termination_by cursor.rest.length
decreasing_by exact length_next_lt _h

/-- The tokens up to the end, or the first character that begins no token. -/
def tokenize (cursor : Cursor) : Except Fault TokenList :=
  match _h : cursor.next.1 with
  | .eof place => .ok ⟨[], place⟩
  | .piece (.stray c s) => .error ⟨.stray c, s⟩
  | .piece (.token l) => cursor.next.2.tokenize.map (.cons l)
termination_by cursor.rest.length
decreasing_by exact length_next_lt _h

end Cursor

end ScriptCheck
