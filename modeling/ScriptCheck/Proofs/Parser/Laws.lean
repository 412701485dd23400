import ScriptCheck.Proofs.Parser
import ScriptCheck.Proofs.Reading.Located

/-!
# How the parser goes on

Every routine of the parser comes to an end from every state. It takes tokens from the front and
never the end of the text, and it leaves the counter as it was. The counter is raised for an
operand only, and below the limit; so a routine that is called one level deeper finds one level
less, and this carries the induction. A loop ends because each round that goes on takes a token.
What is recorded on the way is a complaint about the token at hand.
-/
namespace ScriptCheck.Parser

open Parser.Action

variable {α β : Type}

/-! ## Tokens and acts -/

/-- What routines see of a state, and what they record in it: characters that begin no token are
left out. -/
structure View where
  eof : Span
  rest : List Lexeme
  depth : Nat
  faults : List Fault

namespace State

def view (s : State) : View := ⟨s.eof, s.rest, s.depth, s.faults.filter (!·.isLexical)⟩

theorem current_eq (s : State) : s.current = s.rest.head? := by
  obtain ⟨eof, current, ahead, depth, faults⟩ := s
  cases current <;> rfl

/-- On the way to the next token no token is passed over. -/
theorem view_pull (s : State) (ps : List Piece) :
    (s.pull ps).view = ⟨s.eof, Piece.lexemes ps, s.depth, s.view.faults⟩ := by
  induction ps generalizing s with
  | nil => rfl
  | cons p ps ih =>
    cases p with
    | token l => rfl
    | stray c span =>
      refine (ih _).trans ?_
      simp [view, Fault.isLexical, Piece.lexemes, Piece.lexeme?, List.filterMap_cons]

theorem eof_pull (s : State) (ps : List Piece) : (s.pull ps).eof = s.eof :=
  congrArg View.eof (s.view_pull ps)

theorem rest_pull (s : State) (ps : List Piece) : (s.pull ps).rest = Piece.lexemes ps :=
  congrArg View.rest (s.view_pull ps)

theorem depth_pull (s : State) (ps : List Piece) : (s.pull ps).depth = s.depth :=
  congrArg View.depth (s.view_pull ps)

end State

theorem Act.rest_take {s : State} {l : Lexeme} {ts : List Lexeme} (h : s.rest = l :: ts) :
    (Act.take.change s).rest = ts := by
  obtain ⟨eof, current, ahead, depth, faults⟩ := s
  cases current with
  | none => cases h
  | some l' =>
    cases h
    exact State.rest_pull _ ahead

/-- Only taking a token changes what is left. -/
theorem Act.rest_change {act : Act} (h : act ≠ .take) (s : State) :
    (act.change s).rest = s.rest := by
  cases act with
  | take => exact absurd rfl h
  | _ => rfl

/-! ## Endings -/

/-- With fuel enough the ending is this, and more fuel does not change it. -/
def Settles (m : Nat → Action α) (s : State) (e : Ending α) : Prop :=
  ∃ least, ∀ fuel, least ≤ fuel → (m fuel).exec s = some e

/-- The token that is taken at a moment. -/
def Moment.taken? (m : Moment) : Option Lexeme :=
  if m.act = .take then m.state.rest.head? else none

/-- The tokens that were taken, in order. -/
def Ending.taken (e : Ending α) : List Lexeme := e.log.filterMap Moment.taken?

/-- The log leads from `s` to `s'`: each act is done where the one before it led to. -/
def Trace (s : State) : List Moment → State → Prop
  | [], s' => s' = s
  | m :: log, s' => m.state = s ∧ Trace (m.act.change s) log s'

/-- What may happen in an action that begins at depth `d` in a text of tokens `ls`. Inside of
statements no statement and no procedure begins. -/
structure Moment.Lawful (ls : List Lexeme) (inner : Bool) (d : Nat) (m : Moment) : Prop where
  le_depth : d ≤ m.state.depth
  depth_le : m.state.depth ≤ max d nestingLimit
  take : m.act = .take → m.state.rest ≠ []
  enter : m.act = .enter → m.state.depth < nestingLimit
  leave : m.act = .leave → d < m.state.depth
  start : m.act.isStart = true → inner = false ∧ m.state.depth = d
  record : ∀ why, m.act = .record why → why.Located ls m.state.rest

/-- How an action may end that begins in `s`: at the same depth, with all changes in the log, and
if it fails, with a complaint about the token at hand. -/
structure Ending.Lawful (ls : List Lexeme) (inner : Bool) (s : State) (e : Ending α) : Prop where
  depth : e.state.depth = s.depth
  trace : Trace s e.log e.state
  moments : ∀ m ∈ e.log, m.Lawful ls inner s.depth
  error : ∀ why, e.answer = .error why → why.Located ls e.state.rest

/-- From `s`, where some of the tokens `ls` are left, there is a lawful ending, and one that `post`
allows. -/
def Ends (ls : List Lexeme) (inner : Bool) (m : Nat → Action α) (s : State)
    (post : Except Complaint α → State → Prop) : Prop :=
  s.rest <:+ ls → ∃ e, Settles m s e ∧ e.Lawful ls inner s ∧ post e.answer e.state

/-- From `s`, where some of the tokens `ls` are left, there is a lawful ending. -/
def Returns (ls : List Lexeme) (inner : Bool) (m : Nat → Action α) (s : State) : Prop :=
  Ends ls inner m s fun _ _ => True

/-- Fewer tokens are left if the answer is a good one. -/
def Spent (s : State) (answer : Except Complaint α) (s' : State) : Prop :=
  ∀ a, answer = .ok a → s'.rest.length < s.rest.length

/-- Fewer tokens are left if the loop is to go on. -/
def Goes (s : State) (answer : Except Complaint (ForInStep β)) (s' : State) : Prop :=
  ∀ b, answer = .ok (.yield b) → s'.rest.length < s.rest.length

section

variable {ls : List Lexeme} {inner : Bool} {m : Nat → Action α} {s s' : State}
  {post post' : Except Complaint α → State → Prop}

theorem spent_error {why : Complaint} : Spent (α := α) s (.error why) s' := nofun

theorem goes_error {why : Complaint} : Goes (β := β) s (.error why) s' := nofun

theorem goes_done {b : β} : Goes s (.ok (.done b)) s' := nofun

theorem Trace.append {log log' : List Moment} {t : State} (h : Trace s log s')
    (h' : Trace s' log' t) : Trace s (log ++ log') t := by
  induction log generalizing s with
  | nil =>
    cases h
    exact h'
  | cons m log ih => exact ⟨h.1, ih h.2⟩

/-- What each act of a log keeps holds at all its moments and at its end. -/
theorem Trace.invariant {P : State → Prop} {log : List Moment} (h : Trace s log s')
    (hstep : ∀ m ∈ log, P m.state → P (m.act.change m.state)) (hs : P s) :
    (∀ m ∈ log, P m.state) ∧ P s' := by
  induction log generalizing s with
  | nil =>
    cases h
    exact ⟨List.forall_mem_nil _, hs⟩
  | cons m log ih =>
    obtain ⟨rfl, htrace⟩ := h
    obtain ⟨hall, hend⟩ := ih htrace (fun m hm => hstep m (List.mem_cons_of_mem _ hm))
      (hstep m List.mem_cons_self hs)
    exact ⟨List.forall_mem_cons.2 ⟨hs, hall⟩, hend⟩

/-- If only tokens that are there are taken, they are the first ones. -/
theorem Trace.tokens {log : List Moment} (h : Trace s log s')
    (htake : ∀ m ∈ log, m.act = .take → m.state.rest ≠ []) :
    s.rest = log.filterMap Moment.taken? ++ s'.rest := by
  induction log generalizing s with
  | nil =>
    cases h
    rfl
  | cons m log ih =>
    obtain ⟨act, t⟩ := m
    obtain ⟨rfl, htrace⟩ := h
    have hlog := ih htrace fun m hm => htake m (List.mem_cons_of_mem _ hm)
    by_cases hact : act = .take
    · subst hact
      have hne : t.rest ≠ [] := htake _ List.mem_cons_self rfl
      obtain ⟨l, ts, ht⟩ := List.exists_cons_of_ne_nil hne
      rw [Act.rest_take ht] at hlog
      simp [Moment.taken?, ht, hlog]
    · rw [Act.rest_change hact] at hlog
      simpa [Moment.taken?, hact] using hlog

theorem Ending.Lawful.tokens {e : Ending α} (h : e.Lawful ls inner s) :
    s.rest = e.taken ++ e.state.rest :=
  h.trace.tokens fun m hm => (h.moments m hm).take

theorem Ending.Lawful.suffix {e : Ending α} (h : e.Lawful ls inner s) :
    e.state.rest <:+ s.rest :=
  ⟨e.taken, h.tokens.symm⟩

theorem Moment.Lawful.mono {d : Nat} {m : Moment} (h : m.Lawful ls true d) :
    m.Lawful ls inner d :=
  { h with start := fun hs => absurd (h.start hs).1 (by decide) }

theorem Ends.imp (h : Ends ls inner m s post) (hpost : ∀ a s', post a s' → post' a s') :
    Ends ls inner m s post' := by
  intro hls
  obtain ⟨e, hm, he, hp⟩ := h hls
  exact ⟨e, hm, he, hpost _ _ hp⟩

theorem Ends.returns (h : Ends ls inner m s post) : Returns ls inner m s :=
  h.imp fun _ _ _ => trivial

theorem Ends.outer (h : Ends ls true m s post) : Ends ls inner m s post := by
  intro hls
  obtain ⟨e, hm, he, hp⟩ := h hls
  exact ⟨e, hm, { he with moments := fun x hx => (he.moments x hx).mono }, hp⟩

/-- Whatever an action does, it adds no tokens. -/
theorem Returns.suffix (h : Returns ls inner m s) :
    Ends ls inner m s fun _ s' => s'.rest <:+ s.rest := by
  intro hls
  obtain ⟨e, hm, he, -⟩ := h hls
  exact ⟨e, hm, he, he.suffix⟩

theorem Returns.fewer {n : Nat} (h : Returns ls inner m s) (hn : s.rest.length < n) :
    Ends ls inner m s fun _ s' => s'.rest.length < n :=
  h.suffix.imp fun _ _ hs => Nat.lt_of_le_of_lt hs.length_le hn

theorem Ends.congr {m' : Nat → Action α} (hm : ∀ fuel, (m fuel).exec s = (m' fuel).exec s)
    (h : Ends ls inner m' s post) : Ends ls inner m s post := by
  intro hls
  obtain ⟨e, ⟨least, hleast⟩, he⟩ := h hls
  exact ⟨e, ⟨least, fun fuel hfuel => (hm fuel).trans (hleast fuel hfuel)⟩, he⟩

/-- The tokens that are left may be taken to be some of `ls`. -/
theorem Ends.among (h : s.rest <:+ ls → Ends ls inner m s post) : Ends ls inner m s post :=
  fun hls => h hls hls

/-- An action without calls needs no fuel. -/
theorem Ends.of_eq {act : Action α} {e : Ending α} (h : act.exec s = some e)
    (he : s.rest <:+ ls → e.Lawful ls inner s) (hpost : post e.answer e.state) :
    Ends ls inner (fun _ => act) s post :=
  fun hls => ⟨e, ⟨0, fun _ _ => h⟩, he hls, hpost⟩

theorem ends_pure {a : α} (h : post (.ok a) s) : Ends ls inner (fun _ => pure a) s post :=
  .of_eq rfl (fun _ => ⟨rfl, rfl, List.forall_mem_nil _, nofun⟩) h

/-- To give up is lawful if the complaint fits the token at hand. -/
theorem ends_fail {why : Complaint} (hwhy : s.rest <:+ ls → why.Located ls s.rest)
    (h : post (.error why) s) : Ends ls inner (fun _ => fail why) s post := by
  refine .of_eq rfl (fun hls => ⟨rfl, rfl, List.forall_mem_nil _, ?_⟩) h
  rintro _ ⟨⟩
  exact hwhy hls

theorem ends_expected {wanted : Wanted} (h : post (.error (.expected wanted)) s) :
    Ends ls inner (fun _ => fail (.expected wanted)) s post :=
  ends_fail (fun _ => trivial) h

/-- What begins where another action has ended. -/
theorem Ending.Lawful.append {e : Ending α} {e' : Ending β} (h : e.Lawful ls inner s)
    (h' : e'.Lawful ls inner e.state) :
    (Ending.mk e'.answer e'.state (e.log ++ e'.log)).Lawful ls inner s := by
  refine ⟨h'.depth.trans h.depth, h.trace.append h'.trace, ?_, h'.error⟩
  refine List.forall_mem_append.2 ⟨h.moments, ?_⟩
  rw [← h.depth]
  exact h'.moments

theorem bind_ok {act : Action α} {f : α → Action β} {a : α} {log : List Moment}
    (h : act.exec s = some ⟨.ok a, s', log⟩) :
    (act >>= f).exec s = ((f a).exec s').map fun e => ⟨e.answer, e.state, log ++ e.log⟩ := by
  simp only [bind, h]

theorem bind_error {act : Action α} {f : α → Action β} {why : Complaint} {log : List Moment}
    (h : act.exec s = some ⟨.error why, s', log⟩) :
    (act >>= f).exec s = some ⟨.error why, s', log⟩ := by
  simp only [bind, h]

/-- A sequence ends if its first part does and, after a good answer, the second. -/
theorem Ends.bind {f : Nat → α → Action β} {post' : Except Complaint β → State → Prop}
    (h : Ends ls inner m s post)
    (hok : ∀ a s', s'.depth = s.depth → s'.rest <:+ s.rest → post (.ok a) s' →
      Ends ls inner (fun fuel => f fuel a) s' post')
    (herror : ∀ why s', post (.error why) s' → post' (.error why) s') :
    Ends ls inner (fun fuel => m fuel >>= f fuel) s post' := by
  intro hls
  obtain ⟨⟨answer, s', log⟩, ⟨least, hm⟩, he, hp⟩ := h hls
  cases answer with
  | error why =>
    refine ⟨⟨.error why, s', log⟩, ⟨least, fun fuel hfuel => bind_error (hm fuel hfuel)⟩,
      ⟨he.depth, he.trace, he.moments, ?_⟩, herror why s' hp⟩
    rintro _ ⟨⟩
    exact he.error why rfl
  | ok a =>
    obtain ⟨e', ⟨least', hf⟩, he', hp'⟩ := hok a s' he.depth he.suffix hp (he.suffix.trans hls)
    refine ⟨⟨e'.answer, e'.state, log ++ e'.log⟩, ⟨max least least', fun fuel hfuel => ?_⟩,
      he.append he', hp'⟩
    rw [bind_ok (hm fuel (by omega)), hf fuel (by omega)]
    rfl

theorem Returns.bind {f : Nat → α → Action β} (h : Returns ls inner m s)
    (hok : ∀ a s', s'.depth = s.depth → Returns ls inner (fun fuel => f fuel a) s') :
    Returns ls inner (fun fuel => m fuel >>= f fuel) s :=
  Ends.bind h (fun a s' hd _ _ => hok a s' hd) fun _ _ _ => trivial

/-- If the first part takes a token, the sequence does. -/
theorem Ends.bind_spent {f : Nat → α → Action β} (h : Ends ls inner m s (Spent s))
    (hok : ∀ a s', s'.depth = s.depth → Returns ls inner (fun fuel => f fuel a) s') :
    Ends ls inner (fun fuel => m fuel >>= f fuel) s (Spent s) := by
  refine h.bind (fun a s' hd _ hspent => ?_) fun why s' _ b hb => by cases hb
  refine (hok a s' hd).suffix.imp fun _ s'' hs _ _ => ?_
  exact Nat.lt_of_le_of_lt hs.length_le (hspent a rfl)

/-- A question that changes nothing. -/
theorem Ends.ask {act : Action α} {a : α} {f : Nat → α → Action β}
    {post' : Except Complaint β → State → Prop} (hact : act.exec s = some ⟨.ok a, s, []⟩)
    (h : Ends ls inner (fun fuel => f fuel a) s post') :
    Ends ls inner (fun fuel => act >>= f fuel) s post' := by
  refine h.congr fun fuel => ?_
  rw [bind_ok hact]
  cases (f fuel a).exec s <;> rfl

/-- One act, which must be lawful at the depth where the action begins, and lead back to it. -/
theorem ends_perform {act : Act} {post : Except Complaint Unit → State → Prop}
    (hdepth : (act.change s).depth = s.depth)
    (hlawful : s.rest <:+ ls → (Moment.mk act s).Lawful ls inner s.depth)
    (hpost : post (.ok ()) (act.change s)) : Ends ls inner (fun _ => perform act) s post :=
  .of_eq rfl (fun hls => ⟨hdepth, ⟨rfl, rfl⟩, List.forall_mem_singleton.2 (hlawful hls), nofun⟩)
    hpost

/-- A call takes one unit of fuel. -/
theorem Ends.call {r : Routine α} (h : Ends ls inner (fun fuel => code (run fuel) r) s post) :
    Ends ls inner (fun fuel => run fuel r) s post := by
  intro hls
  obtain ⟨e, ⟨least, hleast⟩, he⟩ := h hls
  refine ⟨e, ⟨least + 1, fun fuel hfuel => ?_⟩, he⟩
  obtain ⟨fuel, rfl⟩ := Nat.exists_eq_add_of_le' (Nat.le_of_add_left_le hfuel)
  exact hleast fuel (by omega)

theorem Ends.ite {c : Prop} [Decidable c] {m' : Nat → Action α}
    (htrue : c → Ends ls inner m s post) (hfalse : ¬ c → Ends ls inner m' s post) :
    Ends ls inner (fun fuel => if c then m fuel else m' fuel) s post := by
  by_cases hc : c
  · simp only [if_pos hc]
    exact htrue hc
  · simp only [if_neg hc]
    exact hfalse hc

/-! ## Tokens -/

section

variable {f : Nat → Option Lexeme → Action α} {l : Lexeme} {ts : List Lexeme} (t : Token)

theorem Ends.peek_nil (h : s.rest = []) (hf : Ends ls inner (fun fuel => f fuel none) s post) :
    Ends ls inner (fun fuel => peek >>= f fuel) s post :=
  .ask (a := none) (by simp only [peek, s.current_eq, h, List.head?_nil]) hf

theorem Ends.peek_cons (h : s.rest = l :: ts)
    (hf : Ends ls inner (fun fuel => f fuel (some l)) s post) :
    Ends ls inner (fun fuel => peek >>= f fuel) s post :=
  .ask (a := some l) (by simp only [peek, s.current_eq, h, List.head?_cons]) hf

/-- Taking a token that is there. -/
theorem ends_advance {post : Except Complaint Span → State → Prop} (h : s.rest = l :: ts)
    (hpost : ∀ s', s'.rest = ts → post (.ok l.span) s') :
    Ends ls inner (fun _ => advance) s post := by
  have hplace : place.exec s = some ⟨.ok l.span, s, []⟩ := by
    simp only [place, h, Complaint.place]
  have htake : Ends ls inner (fun _ => perform .take) s fun a s' => a = .ok () ∧ s'.rest = ts := by
    refine ends_perform (State.depth_pull _ _) (fun _ => ?_) ⟨rfl, Act.rest_take h⟩
    refine ⟨Nat.le_refl _, Nat.le_max_left _ _, fun _ => by simp [h], ?_, ?_, ?_, fun _ => ?_⟩
    all_goals
      intro hact
      cases hact
  refine .ask hplace (htake.bind (fun _ s' _ _ heq => ends_pure (hpost s' heq.2)) ?_)
  exact fun _ _ heq => by cases heq.1

theorem Ends.take {f : Nat → Span → Action α} (h : s.rest = l :: ts)
    (hf : ∀ s', s'.depth = s.depth → s'.rest = ts →
      Ends ls inner (fun fuel => f fuel l.span) s' post) :
    Ends ls inner (fun fuel => advance >>= f fuel) s post := by
  have hadvance : Ends ls inner (fun _ => advance) s
      fun a s' => a = .ok l.span ∧ s'.rest = ts := ends_advance h fun _ hs' => ⟨rfl, hs'⟩
  refine hadvance.bind (fun span s' hd _ heq => ?_) fun why s' heq => ?_
  · obtain ⟨hspan, hs'⟩ := heq
    cases hspan
    exact hf s' hd hs'
  · cases heq.1

end

end

end ScriptCheck.Parser
