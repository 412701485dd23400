import ScriptCheck.Proofs.Parser.Recording

/-!
# Runs of the parser

Every routine comes to one ending, which is lawful and is what its reader says. So tokens are
taken from the front only, a loop that goes on has taken one, and the script is read to its end.
The counter is back where it was after every routine, whatever the answer, and so it stands at
zero wherever a procedure or a statement begins.
-/
namespace ScriptCheck.Parser

open Parser.Action

variable {α β : Type} {m : Nat → Action α} {s : State} {e e' : Ending α}

/-! ## Endings -/

theorem Settles.unique (h : Settles m s e) (h' : Settles m s e') : e = e' := by
  obtain ⟨least, hleast⟩ := h
  obtain ⟨least', hleast'⟩ := h'
  have he := hleast (max least least') (Nat.le_max_left _ _)
  rw [hleast' (max least least') (Nat.le_max_right _ _)] at he
  exact (Option.some.inj he).symm

/-- The counter may stand there when the act is done. -/
structure Moment.Counted (m : Moment) : Prop where
  depth_le : m.state.depth ≤ nestingLimit
  enter : m.act = .enter → m.state.depth < nestingLimit
  leave : m.act = .leave → 0 < m.state.depth

theorem Moment.Lawful.counted {ls : List Lexeme} {inner : Bool} {d : Nat} {m : Moment}
    (h : m.Lawful ls inner d) (hd : d ≤ nestingLimit) : m.Counted where
  depth_le := by
    have := h.depth_le
    rwa [Nat.max_eq_right hd] at this
  enter := h.enter
  leave hm := Nat.zero_lt_of_lt (h.leave hm)

/-! ## Progress -/

/-- Nowhere does the parser stand still. Every routine ends, with the tokens that it took gone
from the front and the end of the text untouched; every round of a loop ends, and one that goes on
has taken a token; so every text is read to its end. -/
theorem progress :
    (∀ {α : Type} (r : Routine α) (s : State), (∀ fuel, Meets r (run fuel r) s.view) ∧
      ∃ e, Settles (fun fuel => run fuel r) s e ∧ Trace s e.log e.state ∧
        s.rest = e.taken ++ e.state.rest ∧ ∀ m ∈ e.log, m.act = .take → m.state.rest ≠ []) ∧
    (∀ {β : Type} (l : Loop β) (carried : β) (s : State),
      ∃ e, Settles (fun fuel => round (run fuel) l carried) s e ∧ Trace s e.log e.state ∧
        s.rest = e.taken ++ e.state.rest ∧ ∀ b, e.answer = .ok (.yield b) → e.taken ≠ []) ∧
    ∀ text : String, ∃ procedures faults log,
      Settles (fun fuel => run fuel .script) (State.initial text)
        ⟨.ok procedures, .final text faults, log⟩ ∧
      Trace (State.initial text) log (.final text faults) ∧
      Script.harvest text = ⟨procedures, faults⟩ := by
  refine ⟨fun r s => ⟨fun fuel => meets_run fuel r _, ?_⟩, fun l carried s => ?_, fun text => ?_⟩
  · obtain ⟨e, hsettles, hlawful, -⟩ := returns_run r s List.suffix_rfl
    exact ⟨e, hsettles, hlawful.trace, hlawful.tokens, fun m hm => (hlawful.moments m hm).take⟩
  · obtain ⟨e, hsettles, hlawful, hgoes⟩ := goes_round l carried s List.suffix_rfl
    refine ⟨e, hsettles, hlawful.trace, hlawful.tokens, fun b hb hnone => ?_⟩
    have hless := hgoes b hb
    rw [hlawful.tokens, hnone] at hless
    exact Nat.lt_irrefl _ hless
  · obtain ⟨procedures, faults, log, hsettles, htrace, -, hharvest⟩ := exists_script text
    exact ⟨procedures, faults, log, hsettles, htrace, hharvest⟩

/-! ## The counter -/

/-- Every routine leaves the counter as it was, with a good answer or a bad one. On the way the
counter stays within the limit and never falls below zero; in the run over a text it is zero
wherever a procedure or a statement begins. -/
theorem depth_balanced :
    (∀ {α : Type} (r : Routine α) (s : State), s.depth ≤ nestingLimit →
      (∀ fuel, Meets r (run fuel r) s.view) ∧
      ∃ e, Settles (fun fuel => run fuel r) s e ∧ e.state.depth = s.depth ∧
        Trace s e.log e.state ∧
        ∀ m ∈ e.log, m.Counted ∧ (m.act.isStart = true → m.state.depth = s.depth)) ∧
    ∀ text : String, ∃ procedures faults log,
      Settles (fun fuel => run fuel .script) (State.initial text)
        ⟨.ok procedures, .final text faults, log⟩ ∧
      Trace (State.initial text) log (.final text faults) ∧
      Script.harvest text = ⟨procedures, faults⟩ ∧
      ∀ m ∈ log, m.Counted ∧ (m.act.isStart = true → m.state.depth = 0) := by
  refine ⟨fun r s hs => ⟨fun fuel => meets_run fuel r _, ?_⟩, fun text => ?_⟩
  · obtain ⟨e, hsettles, hlawful, -⟩ := returns_run r s List.suffix_rfl
    refine ⟨e, hsettles, hlawful.depth, hlawful.trace, fun m hm => ?_⟩
    have hm := hlawful.moments m hm
    exact ⟨hm.counted hs, fun hstart => (hm.start hstart).2⟩
  · obtain ⟨procedures, faults, log, hsettles, htrace, hlog, hharvest⟩ := exists_script text
    refine ⟨procedures, faults, log, hsettles, htrace, hharvest, fun m hm => ?_⟩
    exact ⟨(hlog m hm).counted (Nat.zero_le _), fun hstart => ((hlog m hm).start hstart).2⟩

/-- The last level is entered, one more is refused, and the counter is back. -/
theorem depth_balanced_refused :
    let s : State := ⟨.point 3, some ⟨.minus, ⟨0, 1⟩⟩,
      [.token ⟨.minus, ⟨1, 2⟩⟩, .token ⟨.number "1", ⟨2, 3⟩⟩], 63, []⟩
    s.depth ≤ nestingLimit ∧ ∃ e, Settles (fun fuel => run fuel .unary) s e ∧
      e.answer = .error .tooDeep ∧ e.log.map (·.act) = [.enter, .take, .leave] ∧
      e.state.depth = s.depth := by
  intro s
  obtain ⟨e, hsettles, hdepth, -⟩ := (depth_balanced.1 .unary s (by decide)).2
  have hrefused : Settles (fun fuel => run fuel .unary) s
      ⟨.error .tooDeep, Act.take.change s,
        [⟨.enter, s⟩, ⟨.take, Act.enter.change s⟩,
          ⟨.leave, Act.take.change (Act.enter.change s)⟩]⟩ := by
    refine ⟨3, fun fuel hfuel => ?_⟩
    obtain ⟨fuel, rfl⟩ := Nat.exists_eq_add_of_le' hfuel
    rfl
  refine ⟨by decide, e, hsettles, ?_, ?_, hdepth⟩
  · rw [hsettles.unique hrefused]
  · rw [hsettles.unique hrefused]
    rfl

end ScriptCheck.Parser
