import Mathlib.Order.MinMax
import Mathlib.Order.Monotone.Basic
import ScriptCheck.Proofs.Check.Moved
import ScriptCheck.Proofs.Reading.Joined

/-!
# Layout does not count

Two texts with the same tokens have the same analysis, places aside, whatever blanks and
comments stand between the tokens. Both are compared with a third layout, in which the
tokens take one byte each and nothing stands between them. From there a text is reached by
a move that keeps the order of starts strictly. So what is read differs by that move alone,
what is found in the script differs by it alone, and sorting by starts puts the findings in
the same order, with the same ties.
-/
namespace ScriptCheck

/-! ## Moves that keep the order -/

/-- The move of starts by one monotone map and of stops by another. -/
def Move.ofMonotone (f g : Nat → Nat) (hf : Monotone f) (hg : Monotone g) : Move where
  apply s := ⟨f s.start, g s.stop⟩
  apply_merge a b := by
    simp only [Span.merge, hf.map_min, hg.map_max]

/-- Spans are ordered by their starts as before. -/
def Move.KeepsStarts (m : Move) : Prop :=
  ∀ a b : Span, (m a).start ≤ (m b).start ↔ a.start ≤ b.start

/-- Where starts keep their order, findings are sorted the same way as before. -/
theorem Order.sort_findings_move {m : Move} (hm : m.KeepsStarts) (fs : List Finding) :
    Order.sort (·.span.start) (fs.map (Finding.move m)) =
      (Order.sort (·.span.start) fs).map (Finding.move m) := by
  show Order.merge (·.span.start) (fs.map (Finding.move m)) ([].map (Finding.move m)) = _
  exact Order.merge_map fun f _ f' _ => hm f.span f'.span

/-! ## Tokens side by side -/

/-- The tokens from byte `n` on, each one byte long and right behind the one before. -/
def Lexeme.abreast (n : Nat) : List Token → List Lexeme
  | [] => []
  | t :: ts => ⟨t, ⟨n, n + 1⟩⟩ :: abreast (n + 1) ts

theorem Lexeme.start_lt_of_mem_abreast {l : Lexeme} {ts : List Token} {n : Nat}
    (h : l ∈ abreast n ts) : l.span.start < n + ts.length := by
  induction ts generalizing n with
  | nil => cases h
  | cons t ts ih =>
    rw [List.length_cons]
    rcases List.mem_cons.1 h with rfl | h
    · show n < n + (ts.length + 1)
      omega
    · have := ih h
      omega

namespace Layout

/-- Where the `k`-th token begins; behind the last one, places from the end on. -/
def starts (eof : Nat) : List Lexeme → Nat → Nat
  | [], k => eof + k
  | l :: _, 0 => l.span.start
  | _ :: ls, k + 1 => starts eof ls k

/-- Where the first `k` tokens end, if everything before them ends at `before`. -/
def stops (before : Nat) : List Lexeme → Nat → Nat
  | _, 0 => before
  | [], _ + 1 => before
  | l :: ls, k + 1 => stops l.span.stop ls k

theorem starts_strictMono {eof : Nat} {ls : List Lexeme} (h : Ordered ls)
    (hb : ∀ l ∈ ls, l.span.start < eof) : StrictMono (starts eof ls) := by
  apply strictMono_nat_of_lt_succ
  intro k
  induction ls generalizing k with
  | nil =>
    simp only [starts]
    omega
  | cons l ls ih =>
    obtain ⟨hl, hls⟩ := List.pairwise_cons.1 h.apart
    cases k with
    | succ k =>
      exact ih (h.sublist (List.sublist_cons_self l ls))
        (fun l' hl' => hb l' (List.mem_cons_of_mem l hl')) k
    | zero =>
      have hspan := h.nonempty l List.mem_cons_self
      cases ls with
      | nil =>
        have := hb l List.mem_cons_self
        simp only [starts]
        omega
      | cons l' ls =>
        have := hl l' List.mem_cons_self
        simp only [starts]
        omega

theorem stops_monotone {before : Nat} {ls : List Lexeme} (h : Ordered ls)
    (hb : ∀ l ∈ ls, before ≤ l.span.start) : Monotone (stops before ls) := by
  apply monotone_nat_of_le_succ
  intro k
  induction ls generalizing before k with
  | nil => cases k <;> exact Nat.le_refl _
  | cons l ls ih =>
    obtain ⟨hl, hls⟩ := List.pairwise_cons.1 h.apart
    cases k with
    | succ k => exact ih (h.sublist (List.sublist_cons_self l ls)) hl k
    | zero =>
      have hbefore := hb l List.mem_cons_self
      have hspan := h.nonempty l List.mem_cons_self
      have hzero : stops l.span.stop ls 0 = l.span.stop := by cases ls <;> rfl
      show before ≤ stops l.span.stop ls 0
      omega

/-- A move that takes the `k`-th byte to the `k`-th token takes tokens that stand side by
side to the tokens of the text. -/
theorem map_abreast {f g : Nat → Nat} {hf : Monotone f} {hg : Monotone g} {eof before : Nat}
    {ls : List Lexeme} {n : Nat} (hstart : ∀ k, f (n + k) = starts eof ls k)
    (hstop : ∀ k, g (n + k) = stops before ls k) :
    (Lexeme.abreast n (ls.map (·.token))).map (Lexeme.move (.ofMonotone f g hf hg)) = ls := by
  induction ls generalizing n before with
  | nil => rfl
  | cons l ls ih =>
    have hfirst : Lexeme.move (.ofMonotone f g hf hg) ⟨l.token, ⟨n, n + 1⟩⟩ = l := by
      have hs : f n = l.span.start := hstart 0
      have he : g (n + 1) = l.span.stop := by
        rw [hstop 1]
        show stops l.span.stop ls 0 = l.span.stop
        cases ls <;> rfl
      show (⟨l.token, ⟨f n, g (n + 1)⟩⟩ : Lexeme) = l
      rw [hs, he]
    have hrest : (Lexeme.abreast (n + 1) (ls.map (·.token))).map
        (Lexeme.move (.ofMonotone f g hf hg)) = ls := by
      apply ih
      · intro k
        rw [Nat.add_assoc, Nat.add_comm 1 k]
        exact hstart (k + 1)
      · intro k
        rw [Nat.add_assoc, Nat.add_comm 1 k]
        exact hstop (k + 1)
    rw [List.map_cons, Lexeme.abreast, List.map_cons, hfirst, hrest]

/-- Every text is reached from its tokens side by side, by a move that keeps the order of
starts. -/
theorem exists_move (text : String) :
    ∃ m : Move, m.KeepsStarts ∧
      (Lexeme.abreast 0 ((Piece.lexemes (Piece.scan text)).map (·.token))).map (Lexeme.move m) =
        Piece.lexemes (Piece.scan text) := by
  have hordered := ordered_lexemes text
  have hf := starts_strictMono hordered (bounded_lexemes text)
  have hg : Monotone (stops 0 (Piece.lexemes (Piece.scan text))) :=
    stops_monotone hordered fun _ _ => Nat.zero_le _
  refine ⟨.ofMonotone _ _ hf.monotone hg, fun a b => hf.le_iff_le, ?_⟩
  exact map_abreast (fun k => by rw [Nat.zero_add]) (fun k => by rw [Nat.zero_add])

end Layout

/-! ## Analyses without places -/

/-- What is left of a verdict when places do not count: the bare script and its call graph, or
the problems in their order. -/
def Verdict.bare : Verdict → Except (List Problem) (Script × CallGraph)
  | .ok c => .ok (c.script.bare, c.callGraph)
  | .error ds => .error (ds.map (·.problem))

/-- What checking a script comes to, places aside. -/
def Script.bareCheck (s : Script) : Except (List Problem) (Script × CallGraph) :=
  if s.findings = [] then .ok (s.bare, .ofScript s)
  else .error ((Order.sort (·.span.start) s.findings).map (·.problem))

/-- What analyzing the tokens comes to, places aside: their faults, or what is found in the
script that they are. -/
def Harvest.bare (h : Harvest) : Except (List Problem) (Script × CallGraph) :=
  if h.faults = [] then Script.bareCheck ⟨h.procedures⟩
  else .error (h.faults.map (·.toFinding.problem))

theorem Source.bare_checkScript (source : Source) (s : Script) :
    (source.checkScript s).bare = s.bareCheck := by
  unfold checkScript Script.check Script.bareCheck
  by_cases h : s.findings = []
  · simp [h, Verdict.ofCheck, Verdict.bare, CheckedScript.callGraph]
  · simp [h, Verdict.ofCheck, Verdict.bare, Finding.locate]

theorem Source.bare_analyze (source : Source) {ls : List Lexeme}
    (h : Piece.scan source.text = ls.map .token) :
    source.analyze.bare = (Harvest.read (Script.eof source.text) ls).bare := by
  unfold analyze Script.read
  rw [Script.harvest_of_tokens h]
  by_cases hf : (Harvest.read (Script.eof source.text) ls).faults = []
  · simp [Harvest.bare, hf, bare_checkScript]
  · simp [Harvest.bare, hf, Verdict.bare, Finding.locate]

theorem Script.bareCheck_move {m : Move} (hm : m.KeepsStarts) (s : Script) :
    (s.move m).bareCheck = s.bareCheck := by
  unfold bareCheck
  rw [findings_move, bare_move, CallGraph.ofScript_move, Order.sort_findings_move hm, List.map_map]
  simp only [List.map_eq_nil_iff]
  rfl

/-- Tokens that stand elsewhere in the same order have the same analysis. -/
theorem Harvest.bare_carry {m : Move} (hm : m.KeepsStarts) (eof eof' : Span) (h : Harvest) :
    (h.carry (.moved m) eof eof').bare = h.bare := by
  have hcause (f : Fault) : (f.carry (.moved m) eof eof').cause = f.cause := by
    unfold Fault.carry
    split
    · exact Cause.meet_none f.cause
    · rfl
  have hproblem (f : Fault) :
      (f.carry (.moved m) eof eof').toFinding.problem = f.toFinding.problem := by
    show Problem.malformed (f.carry (.moved m) eof eof').cause.describe = _
    rw [hcause]
    rfl
  have hscript : Script.bareCheck ⟨h.procedures.map (Procedure.move m)⟩ =
      Script.bareCheck ⟨h.procedures⟩ := Script.bareCheck_move hm ⟨h.procedures⟩
  unfold Harvest.bare
  rw [Harvest.carry_moved, hscript, List.map_map]
  simp only [List.map_eq_nil_iff, Function.comp_def, hproblem]

/-- The analysis of a text, places aside, is that of its tokens side by side. -/
theorem Source.bare_analyze_abreast (source : Source) {ls : List Lexeme}
    (h : Piece.scan source.text = ls.map .token) :
    source.analyze.bare =
      (Harvest.read (.point ls.length) (Lexeme.abreast 0 (ls.map (·.token)))).bare := by
  obtain ⟨m, hm, hls⟩ := Layout.exists_move source.text
  rw [h, Piece.lexemes_map_token] at hls
  have hbounded : Bounded (.point ls.length) (Lexeme.abreast 0 (ls.map (·.token))) := by
    intro l hl
    have hlt := Lexeme.start_lt_of_mem_abreast hl
    rw [List.length_map, Nat.zero_add] at hlt
    exact hlt
  have hread := Harvest.read_carry (.moved m) (Script.eof source.text) _ hbounded
  rw [Setting.carry_moved, hls] at hread
  rw [bare_analyze source h, hread, Harvest.bare_carry hm]

/-- Layout does not count: two sources with the same tokens have the same analysis, but for
the places in it. Either both are checked, with one bare script and one call graph, or both
are refused, with the same problems in the same order. -/
theorem Source.bare_analyze_of_tokens (a b : Source) (la lb : List Lexeme)
    (ha : Piece.scan a.text = la.map .token) (hb : Piece.scan b.text = lb.map .token)
    (h : la.map (·.token) = lb.map (·.token)) :
    a.analyze.bare = b.analyze.bare := by
  have hlength : la.length = lb.length := by
    simpa using congrArg List.length h
  rw [bare_analyze_abreast a ha, bare_analyze_abreast b hb, h, hlength]

/-- Blanks, a comment and another spelling of `and` change nothing; what is found comes in the
order of the text, though the missing `return` is noticed last. -/
theorem Source.bare_analyze_spaced :
    let a : Source := ⟨"a", "def f() : Bool is var x : Bool := y and 1; end"⟩
    let b : Source := ⟨"b", "def f():Bool is // one\n  var x:Bool:=y&&1 ;\nend"⟩
    let la := Piece.lexemes (Piece.scan a.text)
    let lb := Piece.lexemes (Piece.scan b.text)
    Piece.scan a.text = la.map .token ∧ Piece.scan b.text = lb.map .token ∧
      la.map (·.token) = lb.map (·.token) ∧ la ≠ lb ∧ a.analyze.bare = b.analyze.bare := by
  intro a b la lb
  have ha : Piece.scan a.text = la.map .token := by decide +kernel
  have hb : Piece.scan b.text = lb.map .token := by decide +kernel
  have h : la.map (·.token) = lb.map (·.token) := by decide +kernel
  exact ⟨ha, hb, h, by decide +kernel, bare_analyze_of_tokens a b la lb ha hb h⟩

end ScriptCheck
