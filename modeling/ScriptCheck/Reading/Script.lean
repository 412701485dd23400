import ScriptCheck.Reading.Stmt
import ScriptCheck.Token.Scan
import ScriptCheck.Order

/-!
# Reading scripts

A procedure whose header cannot be read, or that is not closed, is given up: reading
resumes at the next `def`. All faults of a text are collected, and the text is a
script exactly if there are none.

Characters that begin no token take no part in the grammar. Their faults are merged
with the others by where they end, so that the list follows the text.
-/

namespace ScriptCheck

/-- The part of a procedure between `def` and its body. -/
structure Header where
  name : Ident
  params : List Param
  returns : Ty

namespace Reader

/-- `x : T` -/
def param : Reader Param := do
  let name ← ident
  let _ ← token .colon
  let (ty, span) ← type
  return ⟨name.name, ty, name.span.merge span⟩

theorem consumes_param : param.Consumes := consumes_ident.bind _

/-- `f(x : T, ...) : T is` -/
def header : Reader Header := do
  let name ← ident
  let (params, _) ← (Consumer.parenthesized ⟨param, consumes_param⟩).val
  let _ ← token .colon
  let (returns, _) ← type
  let _ ← token .isWord
  return ⟨name, params, returns⟩

end Reader

/-- What became of the tokens after a `def`: the procedure, if it was closed, the
faults found on the way, and what is left. -/
structure Attempt where
  procedure : Option Procedure
  faults : List Fault
  rest : List Lexeme

/-- Reads the procedure whose `def` stands at `start`. -/
def Attempt.read (eof start : Span) (ts : List Lexeme) : Attempt :=
  match Reader.header.run ts with
  | .stuck why rest => ⟨none, [why.toFault eof rest], rest⟩
  | .done head rest =>
    let body := Body.read eof rest
    match (Reader.token .endWord).run body.rest with
    | .stuck why rest => ⟨none, body.faults ++ [why.toFault eof rest], rest⟩
    | .done last rest =>
      ⟨some ⟨head.name, head.params, head.returns, body.stmts, start.merge last⟩,
        body.faults, rest⟩

theorem Attempt.suffix_read (eof start : Span) (ts : List Lexeme) :
    (Attempt.read eof start ts).rest <:+ ts := by
  unfold Attempt.read
  split
  · next h => exact Reader.suffix_of_stuck h
  · next head rest h =>
    have hb := (Body.suffix_read eof rest).trans (Reader.suffix_of_done h)
    simp only
    split
    · next h' => exact (Reader.suffix_of_stuck h').trans hb
    · next h' => exact (Reader.suffix_of_done h').trans hb

/-- What is left from the next `def` on. -/
def skipProcedure (ts : List Lexeme) : List Lexeme := ts.dropWhile (·.token ≠ .defWord)

theorem suffix_skipProcedure (ts : List Lexeme) : skipProcedure ts <:+ ts :=
  List.dropWhile_suffix _

/-- The procedures that a list of tokens holds, and the faults among them. -/
structure Harvest where
  procedures : List Procedure
  faults : List Fault

/-- Reads procedures to the end of the text, where `eof` stands. -/
def Harvest.read (eof : Span) : List Lexeme → Harvest
  | [] => ⟨[], []⟩
  | l :: ts =>
    if l.token = .defWord then
      let tried := Attempt.read eof l.span ts
      match tried.procedure with
      | some p =>
        let more := Harvest.read eof tried.rest
        ⟨p :: more.procedures, tried.faults ++ more.faults⟩
      | none =>
        let more := Harvest.read eof (skipProcedure tried.rest)
        ⟨more.procedures, tried.faults ++ more.faults⟩
    else
      let more := Harvest.read eof (skipProcedure ts)
      ⟨more.procedures,
        (Complaint.expected (.token .defWord)).toFault eof (l :: ts) :: more.faults⟩
termination_by ts => ts.length
decreasing_by
  · have := (Attempt.suffix_read eof l.span ts).length_le
    simp only [List.length_cons]
    omega
  · have := (Attempt.suffix_read eof l.span ts).length_le
    have := (suffix_skipProcedure (Attempt.read eof l.span ts).rest).length_le
    simp only [List.length_cons]
    omega
  · have := (suffix_skipProcedure ts).length_le
    simp only [List.length_cons]
    omega

namespace Piece

/-- The tokens among some pieces. -/
def lexemes (pieces : List Piece) : List Lexeme := pieces.filterMap lexeme?

/-- The faults of the characters among some pieces that begin no token. -/
def strayFaults (pieces : List Piece) : List Fault :=
  pieces.filterMap fun piece => (stray? piece).map fun (c, span) => ⟨.stray c, span⟩

/-- The faults of a text in one list, by where they end. -/
def mergeFaults (strays faults : List Fault) : List Fault :=
  Order.merge (·.span.stop) strays faults

end Piece

namespace Script

/-- The procedures and faults of a text. -/
def harvest (text : String) : Harvest :=
  let pieces := Piece.scan text
  let found := Harvest.read (.point (Text.byteLength text.toList)) (Piece.lexemes pieces)
  ⟨found.procedures, Piece.mergeFaults (Piece.strayFaults pieces) found.faults⟩

/-- The script that a text is, or all its faults. -/
def read (text : String) : Except (List Fault) Script :=
  let found := harvest text
  if found.faults.isEmpty then .ok ⟨found.procedures⟩ else .error found.faults

end Script

end ScriptCheck
