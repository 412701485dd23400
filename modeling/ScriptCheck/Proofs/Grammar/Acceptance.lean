import ScriptCheck.Proofs.Grammar.Soundness
import ScriptCheck.Proofs.Reading.Text

/-!
# Exactly the scripts of the grammar are read

A text is read as a script if and only if it has no stray characters, its tokens are those
of a derivation, every number of the derivation fits 32 bits and no expression nests too
deep. There is one such derivation at most, and what is read is its tree.
-/
namespace ScriptCheck

/-- The text consists of the tokens of the derivation, with nothing but blanks and comments
between them. -/
def Grammar.Script.Derives (d : Grammar.Script) (text : String) : Prop :=
  ∃ ls : List Lexeme, Piece.scan text = ls.map .token ∧ ls.map (·.token) = d.tokens

theorem Grammar.Script.Derives.unique {d d' : Grammar.Script} {text : String}
    (h : d.Derives text) (h' : d'.Derives text) : d' = d := by
  obtain ⟨ls, hscan, htokens⟩ := h
  obtain ⟨ls', hscan', htokens'⟩ := h'
  have hls : ls' = ls := by
    rw [← Piece.lexemes_map_token ls', ← hscan', hscan, Piece.lexemes_map_token]
  rw [hls] at htokens'
  exact Grammar.Script.eq_of_tokens_eq (htokens'.symm.trans htokens)

theorem fitsInt32_iff {v : Int} : fitsInt32 v = true ↔ -2147483648 ≤ v ∧ v ≤ 2147483647 := by
  simp only [fitsInt32, Bool.and_eq_true, decide_eq_true_eq]

/-- Forgetting the places of tokens changes nothing but the places of what is read. -/
theorem Harvest.read_bare {eof : Span} {ls : List Lexeme} (hb : Bounded eof ls) :
    Harvest.read eof (Grammar.bare (ls.map (·.token))) =
      (Harvest.read eof ls).carry (.moved .erase) eof eof := by
  rw [← Harvest.read_carry (.moved .erase) eof ls hb, Setting.carry_moved, Grammar.bare,
    List.map_map]
  rfl

/-- Tokens of a derivation within the limits are read without a fault, wherever they stand. -/
theorem Grammar.harvest_complete {eof : Span} {ls : List Lexeme} (hb : Bounded eof ls)
    {d : Grammar.Script} (htokens : ls.map (·.token) = d.tokens)
    (hd : ∀ e ∈ d.expressions, Grammar.Admissible e) : (Harvest.read eof ls).faults = [] := by
  have hread := Grammar.Harvest.read_tokens eof d.procedures fun p hp e he =>
    hd e (List.mem_flatMap.2 ⟨p, hp, he⟩)
  rw [Grammar.Script.tokens] at htokens
  rw [← htokens, Harvest.read_bare hb] at hread
  have hfaults := congrArg Harvest.faults hread
  exact List.map_eq_nil_iff.1 (List.append_eq_nil_iff.1 hfaults).1

/-- A text is a script if and only if it is derived by the grammar, with numbers that fit 32
bits and expressions that nest 64 deep at most; its derivation is the only one, and the
script is, places aside, the tree of it. -/
theorem Script.read_eq_ok_iff_derives (text : String) :
    ((∃ s, read text = .ok s) ↔ ∃ d : Grammar.Script, d.Derives text ∧
        (∀ e ∈ d.expressions, ∀ v ∈ e.literals, -2147483648 ≤ v ∧ v ≤ 2147483647) ∧
        ∀ e ∈ d.expressions, e.nesting ≤ 64) ∧
      ∀ s, read text = .ok s →
        ∃ d : Grammar.Script, (∀ d', d'.Derives text ↔ d' = d) ∧ s.bare = d.tree := by
  have hsound {s : Script} (h : read text = .ok s) : ∃ d : Grammar.Script, d.Derives text ∧
      s.bare = d.tree ∧ ∀ e ∈ d.expressions, Grammar.Admissible e := by
    obtain ⟨ls, hscan, hfaults, rfl⟩ := read_eq_ok_iff_tokens.1 h
    obtain ⟨d, htokens, htree, hd⟩ := Grammar.harvest_sound hfaults
    exact ⟨d, ⟨ls, hscan, htokens.symm⟩, congrArg Script.mk htree, hd⟩
  refine ⟨⟨?_, ?_⟩, ?_⟩
  · rintro ⟨s, h⟩
    obtain ⟨d, hderives, -, hd⟩ := hsound h
    exact ⟨d, hderives, fun e he v hv => fitsInt32_iff.1 ((hd e he).1 v hv),
      fun e he => (hd e he).2⟩
  · rintro ⟨d, ⟨ls, hscan, htokens⟩, hfits, hnested⟩
    have hbounded := bounded_lexemes text
    rw [hscan, Piece.lexemes_map_token] at hbounded
    have hfaults := Grammar.harvest_complete hbounded htokens fun e he =>
      ⟨fun v hv => fitsInt32_iff.2 (hfits e he v hv), hnested e he⟩
    exact ⟨_, read_eq_ok_iff_tokens.2 ⟨ls, hscan, hfaults, rfl⟩⟩
  · intro s h
    obtain ⟨d, hderives, htree, -⟩ := hsound h
    refine ⟨d, fun d' => ⟨fun h' => hderives.unique h', ?_⟩, htree⟩
    rintro rfl
    exact hderives

/-- The derivation of `def f() : Int32 is return -2147483648 - 1 - f(); end`. -/
def Grammar.subtractions : Grammar.Script :=
  let operand (u : Unary) : Chain [.product] := .chain (.unary u) .nil
  let sum : Chain [.sum, .product] := .chain (operand (.neg (.number "2147483648")))
    (.cons .sub rfl (operand (.number "1")) (.cons .sub rfl (operand (.call "f" [])) .nil))
  ⟨[⟨"f", [], .int32, [.ret (some (.chain (.chain (.chain (.chain sum .nil) .nil) .nil) .nil))]⟩]⟩

/-- The sign belongs to the number, which fits only with it, and subtraction groups to the
left. -/
theorem Script.read_eq_ok_subtractions :
    Grammar.subtractions.Derives "def f() : Int32 is return -2147483648 - 1 - f(); end" ∧
    ∃ s, read "def f() : Int32 is return -2147483648 - 1 - f(); end" = .ok s ∧
      s.bare = ⟨[⟨⟨"f", Grammar.nowhere⟩, [], .int32,
        [.ret (some (.binary .sub
          (.binary .sub (.int (-2147483648) Grammar.nowhere) (.int 1 Grammar.nowhere)
            Grammar.nowhere)
          (.call ⟨"f", Grammar.nowhere⟩ [] Grammar.nowhere Grammar.nowhere) Grammar.nowhere))
          Grammar.nowhere], Grammar.nowhere⟩]⟩ := by
  have hderives : Grammar.subtractions.Derives
      "def f() : Int32 is return -2147483648 - 1 - f(); end" :=
    ⟨Piece.lexemes (Piece.scan "def f() : Int32 is return -2147483648 - 1 - f(); end"),
      by decide +kernel, by decide +kernel⟩
  have hnumbers : ∀ e ∈ Grammar.subtractions.expressions,
      ∀ v ∈ e.literals, -2147483648 ≤ v ∧ v ≤ 2147483647 := by decide +kernel
  have hnesting : ∀ e ∈ Grammar.subtractions.expressions, e.nesting ≤ 64 := by decide +kernel
  obtain ⟨s, hs⟩ := (read_eq_ok_iff_derives _).1.2
    ⟨Grammar.subtractions, hderives, hnumbers, hnesting⟩
  obtain ⟨d, hd, htree⟩ := (read_eq_ok_iff_derives _).2 s hs
  obtain rfl := (hd _).1 hderives
  exact ⟨hderives, s, hs, htree⟩

end ScriptCheck
