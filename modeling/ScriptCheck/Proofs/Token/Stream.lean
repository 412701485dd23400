import ScriptCheck.Proofs.Reading.Joined
import ScriptCheck.Proofs.Token.Cursor

/-!
# Asking to the end

A text is asked for one piece after the other, either for all of them or only as long as they
are tokens. A newline is a hard boundary for both: what two texts with a newline between them
answer is what the first answers and then what the second does, further on in the text.
-/
namespace ScriptCheck

/-! ## What pieces come to -/

section

variable {cursor : Cursor} {place : Span} {p : Piece}

theorem Cursor.pieces_of_next_eof (h : cursor.next.1 = .eof place) :
    cursor.pieces = [] ∧ cursor.eof = place := by
  have hfirst := (next_spec cursor).1
  rw [h] at hfirst
  cases hpieces : cursor.pieces with
  | nil =>
    rw [hpieces] at hfirst
    exact ⟨rfl, (Answer.eof.inj hfirst).symm⟩
  | cons q ps =>
    rw [hpieces] at hfirst
    cases hfirst

theorem Cursor.pieces_of_next_piece (h : cursor.next.1 = .piece p) :
    cursor.pieces = p :: cursor.next.2.pieces ∧ cursor.next.2.eof = cursor.eof := by
  obtain ⟨hfirst, htail, heof⟩ := next_spec cursor
  rw [h] at hfirst
  cases hpieces : cursor.pieces with
  | nil =>
    rw [hpieces] at hfirst
    cases hfirst
  | cons q ps =>
    rw [hpieces] at hfirst htail
    rw [Answer.piece.inj hfirst, htail]
    exact ⟨rfl, heof⟩

end

/-- The tokens among some pieces if there are no others, or else the first stray. -/
def Piece.gather (eof : Span) : List Piece → Except Fault TokenList
  | [] => .ok ⟨[], eof⟩
  | .stray c s :: _ => .error ⟨.stray c, s⟩
  | .token l :: ps => (gather eof ps).map (.cons l)

theorem Piece.gather_map_token (eof : Span) (ls : List Lexeme) :
    gather eof (ls.map .token) = .ok ⟨ls, eof⟩ := by
  induction ls with
  | nil => rfl
  | cons l ls ih =>
    rw [List.map_cons, gather, ih]
    rfl

namespace Cursor

theorem results_eq (cursor : Cursor) : cursor.results = cursor.pieces := by
  fun_induction results cursor with
  | case1 cursor place h => rw [(pieces_of_next_eof h).1]
  | case2 cursor p h ih => rw [(pieces_of_next_piece h).1, ih]

theorem tokenize_eq (cursor : Cursor) :
    cursor.tokenize = Piece.gather cursor.eof cursor.pieces := by
  fun_induction tokenize cursor with
  | case1 cursor place h =>
    obtain ⟨hpieces, heof⟩ := pieces_of_next_eof h
    rw [hpieces, heof, Piece.gather]
  | case2 cursor c s h => rw [(pieces_of_next_piece h).1, Piece.gather]
  | case3 cursor l h ih =>
    obtain ⟨hpieces, heof⟩ := pieces_of_next_piece h
    rw [hpieces, Piece.gather, ih, heof]

theorem pieces_start (text : String) : (start text).pieces = Piece.scan text := rfl

theorem eof_start (text : String) : (start text).eof = .point text.utf8ByteSize := by
  rw [eof, start, Text.byteLength_toList, Nat.zero_add]

end Cursor

/-! ## Two texts with a newline between them -/

/-- What two texts come to if the second one stands `n` bytes further on: the tokens of both, or
the first fault. -/
def TokenList.joined (n : Nat) :
    Except Fault TokenList → Except Fault TokenList → Except Fault TokenList
  | .error f, _ => .error f
  | .ok _, .error f => .error (f.move (.shift n))
  | .ok ts, .ok us => .ok ⟨ts.lexemes ++ us.lexemes.map (Lexeme.move (.shift n)), us.eof.shift n⟩

namespace Piece

theorem gather_move (eof eof' : Span) (n : Nat) (ps : List Piece) :
    gather (eof'.shift n) (ps.map (Piece.move (.shift n))) =
      TokenList.joined n (.ok ⟨[], eof⟩) (gather eof' ps) := by
  induction ps with
  | nil => rfl
  | cons p ps ih =>
    cases p with
    | stray c s => rfl
    | token l =>
      rw [List.map_cons, Piece.move, gather, gather, ih]
      cases gather eof' ps <;> rfl

theorem gather_append (eof eof' : Span) (n : Nat) (ps qs : List Piece) :
    gather (eof'.shift n) (ps ++ qs.map (Piece.move (.shift n))) =
      TokenList.joined n (gather eof ps) (gather eof' qs) := by
  induction ps with
  | nil => exact gather_move eof eof' n qs
  | cons p ps ih =>
    cases p with
    | stray c s => rfl
    | token l =>
      rw [List.cons_append, gather, gather, ih]
      cases gather eof ps with
      | error f => rfl
      | ok ts => cases gather eof' qs <;> rfl

end Piece

/-- What two texts with a newline between them have for pieces, and answer when they are asked one
by one: the results of the first, and then those of the second behind it. So there are only
tokens exactly if there are only tokens in both, and otherwise the first fault is that of the
first text, or else that of the second. -/
theorem Cursor.results_append_newline (a b : String) :
    Piece.scan (a ++ "\n" ++ b) =
        Piece.scan a ++ (Piece.scan b).map (Piece.move (.shift (a.utf8ByteSize + 1))) ∧
      (start (a ++ "\n" ++ b)).results =
        (start a).results ++ (start b).results.map (Piece.move (.shift (a.utf8ByteSize + 1))) ∧
      (start (a ++ "\n" ++ b)).tokenize =
        TokenList.joined (a.utf8ByteSize + 1) (start a).tokenize (start b).tokenize ∧
      (start (a ++ "\n" ++ b)).tokenize.isOk =
        ((start a).tokenize.isOk && (start b).tokenize.isOk) := by
  have hscan : Piece.scan (a ++ "\n" ++ b) =
      Piece.scan a ++ (Piece.scan b).map (Piece.move (.shift (a.utf8ByteSize + 1))) := by
    rw [Piece.scan_append_newline, Text.byteLength_toList]
  have heof : (start (a ++ "\n" ++ b)).eof = (start b).eof.shift (a.utf8ByteSize + 1) := by
    have hsize : (a ++ "\n" ++ b).utf8ByteSize = b.utf8ByteSize + (a.utf8ByteSize + 1) := by
      rw [String.utf8ByteSize_append, String.utf8ByteSize_append, Nat.add_comm]
      rfl
    rw [eof_start, eof_start, hsize]
    rfl
  have htokens : (start (a ++ "\n" ++ b)).tokenize =
      TokenList.joined (a.utf8ByteSize + 1) (start a).tokenize (start b).tokenize := by
    rw [tokenize_eq, tokenize_eq, tokenize_eq, pieces_start, hscan, heof]
    exact Piece.gather_append _ _ _ _ _
  refine ⟨hscan, ?_, htokens, ?_⟩
  · rw [results_eq, results_eq, results_eq]
    exact hscan
  · rw [htokens]
    cases (start a).tokenize with
    | error f => rfl
    | ok ts => cases (start b).tokenize <;> rfl

-- Neither `||` nor `:=` reaches across a newline, and the comment ends there.
example : (Cursor.start "x |\n| :// é\n=").results =
    [.token ⟨.name "x", ⟨0, 1⟩⟩, .stray '|' ⟨2, 3⟩, .stray '|' ⟨4, 5⟩, .token ⟨.colon, ⟨6, 7⟩⟩,
      .stray '=' ⟨13, 14⟩] := by
  decide +kernel

end ScriptCheck
