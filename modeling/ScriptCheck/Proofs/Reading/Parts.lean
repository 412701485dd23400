import ScriptCheck.Proofs.Token.Slices
import ScriptCheck.Proofs.Reading.FaultOrder

/-!
# Spans that mark a part of a text

Every fault marks a part of the text: it begins and ends where a piece does, or at the end. This
holds of complaints about two tokens as well, which begin with the first and end with the second.
-/
namespace ScriptCheck

/-- The span lies inside the text and cuts no character in two. -/
structure Span.PartOf (s : Span) (text : String) : Prop where
  start_le_stop : s.start ≤ s.stop
  stop_le : s.stop ≤ text.utf8ByteSize
  start_valid : String.Pos.Raw.IsValid text ⟨s.start⟩
  stop_valid : String.Pos.Raw.IsValid text ⟨s.stop⟩

section

variable {text : String} {s t : Span} {f : Fault}

theorem Span.PartOf.extend (hs : s.PartOf text) (ht : t.PartOf text) (h : s.stop ≤ t.start) :
    Span.PartOf ⟨s.start, t.stop⟩ text where
  start_le_stop := Nat.le_trans (Nat.le_trans hs.start_le_stop h) ht.start_le_stop
  stop_le := ht.stop_le
  start_valid := hs.start_valid
  stop_valid := ht.stop_valid

theorem Script.eof_partOf (text : String) : (eof text).PartOf text := by
  have hvalid := Text.isValid_of_append (List.append_nil text.toList).symm
  exact ⟨Nat.le_refl _, Nat.le_of_eq (Text.byteLength_toList text), hvalid, hvalid⟩

/-- A piece is a part of the text. -/
theorem Piece.partOf_of_mem {p : Piece} (hp : p ∈ scan text) : p.span.PartOf text := by
  obtain ⟨_, hlt, hstop⟩ := bounds_of_mem_scanFrom hp
  rw [Nat.zero_add, Text.byteLength_toList] at hstop
  obtain ⟨before, after, hscan⟩ := List.append_of_mem hp
  obtain ⟨xs, ys, htext, hstart, _⟩ := scanFrom_before before hscan
  obtain ⟨xs', ys', htext', hstop', _⟩ := scanFrom_behind before hscan
  refine ⟨Nat.le_of_lt hlt, hstop, ?_, ?_⟩
  · rw [← hstart, Nat.zero_add]
    exact Text.isValid_of_append htext
  · rw [← hstop', Nat.zero_add]
    exact Text.isValid_of_append htext'

/-! ## Faults -/

/-- Reading marks a part of the text, even where a fault is about two tokens. -/
theorem Fault.Raised.partOf
    (h : f.Raised (Script.eof text) (Piece.lexemes (Piece.scan text))) : f.span.PartOf text := by
  have htoken (l : Lexeme) (hl : l ∈ Piece.lexemes (Piece.scan text)) : l.span.PartOf text :=
    Piece.partOf_of_mem (Piece.mem_lexemes hl)
  rcases h.span_cases (ordered_lexemes text) with hspan | ⟨l, hl, hspan⟩ |
    ⟨_, _, sign, hsign, number, hnumber, hbehind, hspan⟩
  · rw [hspan]
    exact Script.eof_partOf text
  · rw [hspan]
    exact htoken l hl
  · rw [hspan]
    exact (htoken sign hsign).extend (htoken number hnumber) hbehind

theorem Piece.partOf_of_mem_strayFaults (h : f ∈ strayFaults (scan text)) :
    f.span.PartOf text := by
  obtain ⟨c, hc⟩ := exists_of_mem_strayFaults h
  exact partOf_of_mem hc

theorem Script.partOf_of_mem_harvest (h : f ∈ (harvest text).faults) : f.span.PartOf text := by
  rcases List.mem_append.1 ((Order.merge_perm _ _ _).mem_iff.1 h) with hf | hf
  · exact Piece.partOf_of_mem_strayFaults hf
  · exact (Harvest.raised_of_mem hf).partOf

end

end ScriptCheck
