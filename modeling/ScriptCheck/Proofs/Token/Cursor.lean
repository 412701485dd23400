import ScriptCheck.Token.Cursor
import ScriptCheck.Proofs.Token.Patterns

/-!
# The answers of a text

Asked for its pieces one by one, a text answers with its pieces in their order, and behind them
with its end, as often as one asks.
-/
namespace ScriptCheck

namespace Cursor

/-- The pieces from the cursor on. -/
def pieces (cursor : Cursor) : List Piece := Piece.scanFrom cursor.offset cursor.rest

/-- The end of the text. -/
def eof (cursor : Cursor) : Span := .point (cursor.offset + Text.byteLength cursor.rest)

theorem eof_behind (offset : Nat) (c : Char) (cs : List Char) :
    (behind offset c cs).eof = eof ⟨offset, c :: cs⟩ := by
  have hlength := Piece.byteLength_cut c cs
  simp only [eof, behind, Text.byteLength_cons]
  congr 1
  omega

theorem pieces_cons (offset : Nat) (c : Char) (cs : List Char) :
    pieces ⟨offset, c :: cs⟩ =
      Piece.ofCut c ⟨offset, (behind offset c cs).offset⟩ (Scan.cut c cs).1 ++
        (behind offset c cs).pieces := by
  rw [pieces, Piece.scanFrom]
  rfl

/-- The answer is the first piece if there is one, and the others are left. -/
theorem next_spec (cursor : Cursor) :
    cursor.next.1 = cursor.pieces.head?.elim (.eof cursor.eof) .piece ∧
      cursor.next.2.pieces = cursor.pieces.tail ∧ cursor.next.2.eof = cursor.eof := by
  fun_induction next cursor with
  | case1 offset => simp [eof, pieces, Piece.scanFrom]
  | case2 offset c cs after hgap ih =>
    rw [pieces_cons, hgap, ← eof_behind]
    exact ih
  | case3 offset c cs after t htoken =>
    rw [pieces_cons, htoken]
    exact ⟨rfl, rfl, eof_behind offset c cs⟩
  | case4 offset c cs after hstray =>
    rw [pieces_cons, hstray]
    exact ⟨rfl, rfl, eof_behind offset c cs⟩

/-- The answers are the pieces, and then the end for ever. -/
theorem answer_eq (n : Nat) (cursor : Cursor) :
    cursor.answer n = (cursor.pieces[n]?).elim (.eof cursor.eof) .piece := by
  induction n generalizing cursor with
  | zero => rw [answer, (next_spec cursor).1, List.head?_eq_getElem?]
  | succ n ih =>
    obtain ⟨_, hpieces, heof⟩ := next_spec cursor
    rw [answer, ih, hpieces, heof, List.getElem?_tail]

/-- Asking a text for its pieces one after the other parts it by longest matches: the answers
are pieces that are not empty and stand one behind the other, then the end for ever, and the
pieces are the only ones that part the text into longest matches, gaps and strays. -/
theorem answers_part (text : String) :
    (∀ n, (start text).answer n =
      ((Piece.scan text)[n]?).elim (.eof (.point text.utf8ByteSize)) .piece) ∧
    (∀ p ∈ Piece.scan text, p.span.start < p.span.stop) ∧
    (Piece.scan text).Pairwise (fun p q => p.span.stop ≤ q.span.start) ∧
    ∀ ps, Piece.Parted 0 text.toList ps ↔ ps = Piece.scan text := by
  have heof : (start text).eof = .point text.utf8ByteSize := by
    rw [eof, start, Text.byteLength_toList, Nat.zero_add]
  refine ⟨fun n => ?_, fun p hp => ?_, Piece.pairwise_scanFrom 0 text.toList,
    fun ps => Piece.parted_iff⟩
  · rw [answer_eq, heof]
    rfl
  · exact (Piece.bounds_of_mem_scanFrom hp).2.1

example : (List.range 5).map (start "é:=7x//").answer =
    [.piece (.stray 'é' ⟨0, 2⟩), .piece (.token ⟨.becomes, ⟨2, 4⟩⟩),
      .piece (.token ⟨.number "7", ⟨4, 5⟩⟩), .piece (.token ⟨.name "x", ⟨5, 6⟩⟩),
      .eof ⟨8, 8⟩] := by
  decide +kernel

end Cursor
end ScriptCheck
