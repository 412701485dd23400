import ScriptCheck.Token
import ScriptCheck.Text.Bytes

/-!
# Scanning

A text is cut into pieces from the front, each time at the longest match: gaps
(blanks and line comments), tokens, and single characters that begin neither.
Gaps leave no trace. The cut never fails, so every text has its list of pieces.
-/

namespace ScriptCheck

namespace Scan

/-- The characters that separate tokens. -/
def isBlank (c : Char) : Bool :=
  c == ' ' || c == '\t' || c == '\n' || c == '\r' || c == '\x0c'

/-- Names begin with an ASCII letter or an underscore. -/
def isNameStart (c : Char) : Bool := c.isAlpha || c == '_'

/-- Names go on with ASCII letters, digits and underscores. -/
def isNamePart (c : Char) : Bool := c.isAlphanum || c == '_'

/-- What stands at the front of a text. -/
inductive Cut where
  | gap
  | token (t : Token)
  | stray
deriving DecidableEq

/-- What a character is on its own. -/
def single (c : Char) : Cut :=
  match Token.ofSingle c with
  | some t => .token t
  | none => .stray

/-- The longest match at the front of `c :: cs`: its kind, and the characters that
belong to it after `c`. -/
def cut (c : Char) (cs : List Char) : Cut × List Char :=
  if isBlank c then
    (.gap, [])
  else if isNameStart c then
    let more := cs.takeWhile isNamePart
    (.token (.ofWord (String.ofList (c :: more))), more)
  else if c.isDigit then
    let more := cs.takeWhile Char.isDigit
    (.token (.number (String.ofList (c :: more))), more)
  else
    match cs with
    | [] => (single c, [])
    | d :: ds =>
      if c = '/' ∧ d = '/' then
        (.gap, d :: ds.takeWhile (· != '\n'))
      else
        match Token.ofPair c d with
        | some t => (.token t, [d])
        | none => (single c, [])

end Scan

/-- A part of a text that is not skipped. -/
inductive Piece where
  | token (lexeme : Lexeme)
  | stray (char : Char) (span : Span)
deriving DecidableEq

namespace Piece

def span : Piece → Span
  | .token l => l.span
  | .stray _ s => s

/-- The piece that a cut leaves, if it leaves one. -/
def ofCut (c : Char) (span : Span) : Scan.Cut → List Piece
  | .gap => []
  | .token t => [.token ⟨t, span⟩]
  | .stray => [.stray c span]

/-- The pieces of a text whose first character is byte `offset`. -/
def scanFrom (offset : Nat) : List Char → List Piece
  | [] => []
  | c :: cs =>
    let found := Scan.cut c cs
    let stop := offset + c.utf8Size + Text.byteLength found.2
    ofCut c ⟨offset, stop⟩ found.1 ++ scanFrom stop (cs.drop found.2.length)
termination_by cs => cs.length
decreasing_by simp only [List.length_drop, List.length_cons]; omega

/-- The pieces of a text, in order. -/
def scan (text : String) : List Piece := scanFrom 0 text.toList

def lexeme? : Piece → Option Lexeme
  | .token l => some l
  | .stray _ _ => none

/-- The characters that begin no token, with their places. -/
def stray? : Piece → Option (Char × Span)
  | .token _ => none
  | .stray c s => some (c, s)

end Piece

end ScriptCheck
