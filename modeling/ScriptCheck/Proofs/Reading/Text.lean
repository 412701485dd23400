import ScriptCheck.Proofs.Reading.Resumption
import ScriptCheck.Proofs.Token.Pieces

/-!
# Reading a whole text

What reading a text comes down to: its tokens are read up to its end, behind which none
of them begins, and it is a script if there is neither a stray character nor a fault
among the tokens.
-/
namespace ScriptCheck

theorem Script.read_eq_ok_iff_harvest {text : String} {s : Script} :
    read text = .ok s ↔ (harvest text).faults = [] ∧ s = ⟨(harvest text).procedures⟩ := by
  unfold read
  cases h : (harvest text).faults with
  | nil => simp [h, eq_comm]
  | cons f fs => simp [h]

namespace Piece

theorem mem_lexemes {ps : List Piece} {l : Lexeme} (h : l ∈ lexemes ps) : .token l ∈ ps := by
  obtain ⟨p, hp, hl⟩ := List.mem_filterMap.1 h
  cases p with
  | token l' =>
    cases hl
    exact hp
  | stray c s => cases hl

/-- There are no faults of stray characters exactly where all pieces are tokens. -/
theorem strayFaults_eq_nil_iff {ps : List Piece} :
    strayFaults ps = [] ↔ ps = (lexemes ps).map .token := by
  induction ps with
  | nil => exact ⟨fun _ => rfl, fun _ => rfl⟩
  | cons p ps ih =>
    cases p with
    | token l => simpa [strayFaults, lexemes, stray?, lexeme?] using ih
    | stray c s =>
      constructor
      · intro h
        cases h
      · intro h
        have hmem : Piece.stray c s ∈ (lexemes (.stray c s :: ps)).map Piece.token :=
          h ▸ List.mem_cons_self
        simp at hmem

theorem lexemes_map_token (ls : List Lexeme) : lexemes (ls.map .token) = ls := by
  unfold lexemes
  rw [List.filterMap_map]
  exact List.filterMap_some

theorem mergeFaults_eq_nil_iff {strays faults : List Fault} :
    mergeFaults strays faults = [] ↔ strays = [] ∧ faults = [] := by
  have hperm := Order.merge_perm (·.span.stop) strays faults
  rw [mergeFaults, ← List.append_eq_nil_iff]
  constructor
  · intro h
    exact List.nil_perm.1 (h ▸ hperm)
  · intro h
    exact List.perm_nil.1 (h ▸ hperm)

end Piece

/-- The end of a text, as a place. -/
def Script.eof (text : String) : Span := .point (Text.byteLength text.toList)

theorem Script.harvest_eq (text : String) :
    harvest text =
      ⟨(Harvest.read (eof text) (Piece.lexemes (Piece.scan text))).procedures,
        Piece.mergeFaults (Piece.strayFaults (Piece.scan text))
          (Harvest.read (eof text) (Piece.lexemes (Piece.scan text))).faults⟩ := rfl

/-- Where all pieces are tokens, what is found is what is read from these. -/
theorem Script.harvest_of_tokens {text : String} {ls : List Lexeme}
    (h : Piece.scan text = ls.map .token) : harvest text = Harvest.read (eof text) ls := by
  have hstrays : Piece.strayFaults (Piece.scan text) = [] :=
    Piece.strayFaults_eq_nil_iff.2 (by rw [h, Piece.lexemes_map_token])
  rw [harvest_eq, hstrays, h, Piece.lexemes_map_token]
  rfl

/-- Every token of a text begins before its end. -/
theorem bounded_lexemes (text : String) :
    Bounded (Script.eof text) (Piece.lexemes (Piece.scan text)) := by
  intro l hl
  have := Piece.bounds_of_mem_scanFrom (Piece.mem_lexemes hl)
  simp only [Piece.span] at this
  simp only [Script.eof, Span.point]
  omega

/-- The tokens stand one behind the other, and none of them is empty. -/
structure Ordered (ls : List Lexeme) : Prop where
  nonempty : ∀ l ∈ ls, l.span.start < l.span.stop
  apart : ls.Pairwise fun a b => a.span.stop ≤ b.span.start

theorem Ordered.sublist {ls ls' : List Lexeme} (h : Ordered ls) (hs : ls'.Sublist ls) :
    Ordered ls' :=
  ⟨fun l hl => h.nonempty l (hs.subset hl), h.apart.sublist hs⟩

/-- No token begins before the first. -/
theorem Ordered.start_le {first l : Lexeme} {ls : List Lexeme} (h : Ordered (first :: ls))
    (hl : l ∈ first :: ls) : first.span.start ≤ l.span.start := by
  rcases List.mem_cons.1 hl with rfl | hl
  · exact Nat.le_refl _
  · have := h.nonempty first List.mem_cons_self
    have := (List.pairwise_cons.1 h.apart).1 l hl
    omega

/-- No token ends behind the last. -/
theorem Ordered.stop_le {last l : Lexeme} {ls : List Lexeme} (h : Ordered (ls ++ [last]))
    (hl : l ∈ ls ++ [last]) : l.span.stop ≤ last.span.stop := by
  rcases List.mem_append.1 hl with hl | hl
  · have := h.nonempty last (List.mem_append_right ls List.mem_cons_self)
    have := (List.pairwise_append.1 h.apart).2.2 l hl last List.mem_cons_self
    omega
  · obtain rfl := List.mem_singleton.1 hl
    exact Nat.le_refl _

theorem ordered_lexemes (text : String) : Ordered (Piece.lexemes (Piece.scan text)) := by
  constructor
  · intro l hl
    exact (Piece.bounds_of_mem_scanFrom (Piece.mem_lexemes hl)).2.1
  · refine (Piece.pairwise_scanFrom 0 text.toList).filterMap _ ?_
    intro p q hpq l hl l' hl'
    cases p with
    | stray c s => cases hl
    | token lp =>
      cases q with
      | stray c s => cases hl'
      | token lq =>
        cases hl
        cases hl'
        exact hpq

/-- A text is a script if it consists of tokens that are read without a fault. -/
theorem Script.read_eq_ok_iff_tokens {text : String} {s : Script} :
    read text = .ok s ↔ ∃ ls, Piece.scan text = ls.map .token ∧
      (Harvest.read (eof text) ls).faults = [] ∧
      s = ⟨(Harvest.read (eof text) ls).procedures⟩ := by
  rw [read_eq_ok_iff_harvest, harvest_eq, Piece.mergeFaults_eq_nil_iff,
    Piece.strayFaults_eq_nil_iff]
  constructor
  · rintro ⟨⟨hscan, hfaults⟩, hs⟩
    exact ⟨_, hscan, hfaults, hs⟩
  · rintro ⟨ls, hscan, hfaults, hs⟩
    rw [hscan, Piece.lexemes_map_token]
    exact ⟨⟨rfl, hfaults⟩, hs⟩

end ScriptCheck
