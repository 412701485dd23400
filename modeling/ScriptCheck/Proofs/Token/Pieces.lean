import ScriptCheck.Token.Scan
import ScriptCheck.Proofs.Tree.Moved

/-!
# The pieces of a text

Pieces stand one after the other inside the text, none of them empty. A newline is a
hard boundary: the pieces of two texts with a newline between them are the pieces of the
first, then those of the second at their new places.
-/
namespace ScriptCheck

theorem List.takeWhile_append_cons_of_neg {α : Type} {p : α → Bool} {x : α} (hx : p x = false)
    (xs ys : List α) : (xs ++ x :: ys).takeWhile p = xs.takeWhile p := by
  induction xs with
  | nil => simp [hx]
  | cons y xs ih => simp only [List.cons_append, List.takeWhile_cons, ih]

namespace Scan

/-- A cut takes its further characters from the front of the text. -/
theorem cut_append_drop (c : Char) (cs : List Char) :
    (cut c cs).2 ++ cs.drop (cut c cs).2.length = cs := by
  have hfront (p : Char → Bool) (ds : List Char) :
      ds.takeWhile p ++ ds.drop (ds.takeWhile p).length = ds := by
    induction ds with
    | nil => rfl
    | cons d ds ih => by_cases h : p d <;> simp [h, ih]
  unfold cut
  split
  · rfl
  · split
    · exact hfront _ _
    · split
      · exact hfront _ _
      · cases cs with
        | nil => rfl
        | cons d ds =>
          dsimp only
          split
          · exact congrArg (d :: ·) (hfront _ _)
          · split <;> rfl

theorem ofPair_newline (c : Char) : Token.ofPair c '\n' = none := by
  unfold Token.ofPair
  split <;> simp_all

/-- No cut looks across a newline. -/
theorem cut_append_newline (c : Char) (cs ds : List Char) :
    cut c (cs ++ '\n' :: ds) = cut c cs := by
  unfold cut
  split
  · rfl
  · split
    · rw [List.takeWhile_append_cons_of_neg (by decide)]
    · split
      · rw [List.takeWhile_append_cons_of_neg (by decide)]
      · cases cs with
        | nil => simp [ofPair_newline]
        | cons d cs =>
          simp only [List.cons_append]
          rw [List.takeWhile_append_cons_of_neg (by decide)]

end Scan

namespace Piece

def move (m : Move) : Piece → Piece
  | .token l => .token (l.move m)
  | .stray c s => .stray c (m s)

theorem ofCut_shift (n : Nat) (c : Char) (s : Span) (cut : Scan.Cut) :
    ofCut c (s.shift n) cut = (ofCut c s cut).map (Piece.move (.shift n)) := by
  cases cut <;> rfl

/-- Scanning goes on behind what is cut off. -/
theorem scanFrom_of_cut {n : Nat} {c : Char} {more rest : List Char} {kind : Scan.Cut}
    (h : Scan.cut c (more ++ rest) = (kind, more)) :
    scanFrom n (c :: more ++ rest) =
      ofCut c ⟨n, n + Text.byteLength (c :: more)⟩ kind ++
        scanFrom (n + Text.byteLength (c :: more)) rest := by
  rw [List.cons_append, scanFrom, h, Text.byteLength_cons, ← Nat.add_assoc]
  simp only [List.drop_left]

/-- Pieces do not depend on where the text begins. -/
theorem scanFrom_add (n offset : Nat) (cs : List Char) :
    scanFrom (offset + n) cs = (scanFrom offset cs).map (Piece.move (.shift n)) := by
  fun_induction scanFrom offset cs with
  | case1 => rw [scanFrom]; rfl
  | case2 offset c cs found stop ih =>
    have hstop : offset + n + c.utf8Size + Text.byteLength (Scan.cut c cs).2 = stop + n := by
      simp only [stop, found]
      omega
    rw [scanFrom, List.map_append, ← ofCut_shift, ← ih, hstop]
    rfl

theorem mem_ofCut {c : Char} {s : Span} {cut : Scan.Cut} {p : Piece} (h : p ∈ ofCut c s cut) :
    p.span = s := by
  cases cut with
  | gap => cases h
  | token t => rw [List.mem_singleton.1 h]; rfl
  | stray => rw [List.mem_singleton.1 h]; rfl

/-- The part of the text that a cut takes, and the part that is left, make up the text. -/
theorem byteLength_cut (c : Char) (cs : List Char) :
    Text.byteLength (Scan.cut c cs).2 + Text.byteLength (cs.drop (Scan.cut c cs).2.length) =
      Text.byteLength cs := by
  rw [← Text.byteLength_append, Scan.cut_append_drop]

/-- Pieces are not empty and lie inside the text. -/
theorem bounds_of_mem_scanFrom {offset : Nat} {cs : List Char} {p : Piece}
    (h : p ∈ scanFrom offset cs) :
    offset ≤ p.span.start ∧ p.span.start < p.span.stop ∧
      p.span.stop ≤ offset + Text.byteLength cs := by
  fun_induction scanFrom offset cs with
  | case1 => cases h
  | case2 offset c cs found stop ih =>
    have hc := c.utf8Size_pos
    have hlen := byteLength_cut c cs
    rw [Text.byteLength_cons]
    rcases List.mem_append.1 h with h | h
    · rw [mem_ofCut h]
      simp only [stop, found]
      omega
    · have := ih h
      simp only [stop, found] at this
      omega

/-- Each piece ends before the next one begins. -/
theorem pairwise_scanFrom (offset : Nat) (cs : List Char) :
    (scanFrom offset cs).Pairwise fun p q => p.span.stop ≤ q.span.start := by
  fun_induction scanFrom offset cs with
  | case1 => exact List.Pairwise.nil
  | case2 offset c cs found stop ih =>
    refine List.pairwise_append.2 ⟨?_, ih, fun p hp q hq => ?_⟩
    · cases found.1 with
      | gap => exact List.Pairwise.nil
      | token t => exact List.pairwise_singleton _ _
      | stray => exact List.pairwise_singleton _ _
    · rw [mem_ofCut hp]
      exact (bounds_of_mem_scanFrom hq).1

/-- A newline keeps the pieces of two texts apart. -/
theorem scanFrom_append_newline (offset : Nat) (cs ds : List Char) :
    scanFrom offset (cs ++ '\n' :: ds) =
      scanFrom offset cs ++ scanFrom (offset + Text.byteLength cs + 1) ds := by
  fun_induction scanFrom offset cs with
  | case1 offset => rw [List.nil_append, scanFrom]; rfl
  | case2 offset c cs found stop ih =>
    have hlen := byteLength_cut c cs
    have hstop : offset + c.utf8Size + Text.byteLength (Scan.cut c cs).2 = stop := rfl
    have hdrop : (cs ++ '\n' :: ds).drop (Scan.cut c cs).2.length =
        cs.drop (Scan.cut c cs).2.length ++ '\n' :: ds := by
      refine List.drop_append_of_le_length ?_
      have := congrArg List.length (Scan.cut_append_drop c cs)
      rw [List.length_append] at this
      omega
    have hnext : stop + Text.byteLength (cs.drop (Scan.cut c cs).2.length) + 1 =
        offset + Text.byteLength (c :: cs) + 1 := by
      rw [Text.byteLength_cons]
      omega
    rw [List.cons_append, scanFrom, Scan.cut_append_newline, hstop, hdrop, ih, hnext,
      List.append_assoc]

/-- The pieces of two texts with a newline between them. -/
theorem scan_append_newline (a b : String) :
    scan (a ++ "\n" ++ b) =
      scan a ++ (scan b).map (Piece.move (.shift (Text.byteLength a.toList + 1))) := by
  have hchars : (a ++ "\n" ++ b).toList = a.toList ++ '\n' :: b.toList := by
    simp
  rw [scan, hchars, scanFrom_append_newline, Nat.add_assoc, scanFrom_add]
  rfl

end Piece
end ScriptCheck
