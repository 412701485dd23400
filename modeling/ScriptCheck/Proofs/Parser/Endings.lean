import ScriptCheck.Proofs.Parser.Laws

/-!
# Every routine comes to an end

One lemma for each routine and for each round of a loop says that it ends lawfully from every
state. Expressions are dealt with one depth at a time: where operands end, all levels do.
-/
namespace ScriptCheck.Parser

open Parser.Action

variable {α β : Type} {ls : List Lexeme} {inner : Bool} {s s' : State}

/-! ## Single tokens -/

theorem exec_check (t : Token) (s : State) :
    (check t).exec s = some ⟨.ok (s.rest.head?.map (·.token) == some t), s, []⟩ := by
  rw [← s.current_eq]
  rfl

theorem exists_of_check {t : Token} (h : (s.rest.head?.map (·.token) == some t) = true) :
    ∃ l ts, s.rest = l :: ts ∧ l.token = t := by
  cases hs : s.rest with
  | nil => simp [hs] at h
  | cons l ts => exact ⟨l, ts, rfl, by simpa [hs] using h⟩

/-- A token that is asked for is taken, or it is not the one at hand. -/
theorem ends_expect (t : Token) (s : State) : Ends ls inner (fun _ => expect t) s fun a s' =>
    Spent s a s' ∧ ((∃ why, a = .error why) → s.rest.head?.map (·.token) ≠ some t) := by
  refine .ask (exec_check t s) (.ite (fun h => ?_) fun h => ?_)
  · obtain ⟨l, ts, hs, -⟩ := exists_of_check h
    exact ends_advance hs fun s' hs' => ⟨fun _ _ => by simp [hs, hs'], nofun⟩
  · exact ends_expected ⟨spent_error, fun _ ht => h (by simp [ht])⟩

theorem spent_expect (t : Token) (s : State) : Ends ls inner (fun _ => expect t) s (Spent s) :=
  (ends_expect t s).imp fun _ _ h => h.1

theorem returns_expect (t : Token) (s : State) : Returns ls inner (fun _ => expect t) s :=
  (ends_expect t s).returns

theorem spent_expectIdent (s : State) : Ends ls inner (fun _ => expectIdent) s (Spent s) := by
  cases hs : s.rest with
  | nil => exact .peek_nil hs (ends_expected spent_error)
  | cons l ts =>
    obtain ⟨t, span⟩ := l
    refine .peek_cons hs ?_
    cases t with
    | name spelling => exact .take hs fun s' _ hs' => ends_pure fun _ _ => by simp [hs, hs']
    | _ => exact ends_expected spent_error

/-- If the answer is yes, the token has been taken. -/
theorem ends_matchToken (t : Token) (s : State) : Ends ls inner (fun _ => matchToken t) s
    fun a s' => a = .ok true → s'.rest.length < s.rest.length := by
  refine .ask (exec_check t s) (.ite (fun h => ?_) fun _ => ends_pure (by simp))
  obtain ⟨l, ts, hs, -⟩ := exists_of_check h
  exact .take hs fun s' _ hs' => ends_pure fun _ => by simp [hs, hs']

theorem returns_parenthesized {m : Nat → Action α}
    (h : ∀ s', s'.depth = s.depth → Returns ls inner m s') :
    Returns ls inner (fun fuel => parenthesized (m fuel)) s := by
  refine (returns_expect .openParen s).bind fun _ s₁ hd => (h s₁ hd).bind fun _ s₂ _ => ?_
  exact (returns_expect .closeParen s₂).bind fun _ _ _ => ends_pure trivial

/-- A number out of range is at hand still, and a sign was right before it. -/
theorem returns_literal {digits : String} {span : Span} {ts : List Lexeme} {sign : Option Span}
    (hs : s.rest = ⟨.number digits, span⟩ :: ts)
    (hsign : ∀ a ∈ sign, ⟨.minus, a⟩ :: s.rest <:+ ls) :
    Returns ls inner (fun _ => literal sign digits) s :=
  .ite (fun _ => .take hs fun _ _ _ => ends_pure trivial) fun _ =>
    ends_fail (fun _ => ⟨⟨span, ts, hs⟩, hsign⟩) trivial

theorem returns_type (s : State) : Returns ls inner (fun fuel => run fuel .type) s := by
  refine Ends.call ?_
  cases hs : s.rest with
  | nil => exact .peek_nil hs (ends_expected trivial)
  | cons l ts =>
    obtain ⟨t, span⟩ := l
    refine .peek_cons hs ?_
    cases t with
    | int32Word | boolWord | voidWord => exact .take hs fun _ _ _ => ends_pure trivial
    | _ => exact ends_expected trivial

/-! ## Loops -/

theorem Goes.of_suffix {answer : Except Complaint (ForInStep β)} {t : State}
    (hs : s'.rest <:+ s.rest) (h : Goes s' answer t) : Goes s answer t :=
  fun b hb => Nat.lt_of_lt_of_le (h b hb) hs.length_le

/-- A round may begin with anything that ends. -/
theorem Returns.bind_goes {m : Nat → Action α} {f : Nat → α → Action (ForInStep β)}
    (h : Returns ls inner m s)
    (hok : ∀ a s', s'.depth = s.depth → Ends ls inner (fun fuel => f fuel a) s' (Goes s')) :
    Ends ls inner (fun fuel => m fuel >>= f fuel) s (Goes s) :=
  Ends.bind h.suffix (fun a s' hd hs _ => (hok a s' hd).imp fun _ _ => .of_suffix hs)
    fun _ _ _ => goes_error

/-- A list goes on with a comma. -/
theorem goes_nextItem {item : Nat → Action α} (h : Returns ls inner item s) (items : List α) :
    Ends ls inner (fun fuel => nextItem (item fuel) items) s (Goes s) := by
  refine h.bind_goes fun a s' _ => ?_
  refine Ends.bind (ends_matchToken .comma s') (fun _ _ _ _ hcomma => ?_) fun _ _ _ => goes_error
  refine .ite (fun htrue => ends_pure ?_) fun _ => ends_pure goes_done
  exact fun _ _ => hcomma (by rw [htrue])

/-- If each round that goes on takes a token, the loop ends. -/
theorem returns_loop {l : Loop β} {d : Nat}
    (h : ∀ b s, s.depth = d → Ends ls inner (fun fuel => round (run fuel) l b) s (Goes s))
    (b : β) (s : State) (hd : s.depth = d) :
    Returns ls inner (fun fuel => run fuel (.loop l b)) s := by
  induction hn : s.rest.length using Nat.strongRecOn generalizing b s with
  | ind n ih =>
    subst hn
    refine Ends.call (Ends.bind (h b s hd) (fun step s' hd' _ hgoes => ?_) fun _ _ _ => trivial)
    cases step with
    | done b' => exact ends_pure trivial
    | yield b' => exact ih _ (hgoes b' rfl) b' s' (hd'.trans hd) rfl

theorem returns_parameter (s : State) : Returns ls inner (fun fuel => parameter (run fuel)) s := by
  refine (spent_expectIdent s).returns.bind fun name s₁ _ => ?_
  refine (returns_expect .colon s₁).bind fun _ s₂ _ => ?_
  exact (returns_type s₂).bind fun _ _ _ => ends_pure trivial

theorem goes_parameters (params : List Param) (s : State) :
    Ends ls inner (fun fuel => round (run fuel) .parameters params) s (Goes s) :=
  goes_nextItem (returns_parameter s) params

/-! ## Skipping -/

theorem goes_toProcedure (s : State) :
    Ends ls inner (fun fuel => round (run fuel) .toProcedure ()) s (Goes s) := by
  cases hs : s.rest with
  | nil => exact .peek_nil hs (ends_pure goes_done)
  | cons l ts =>
    refine .peek_cons hs (.ite (fun _ => ends_pure goes_done) fun _ => ?_)
    exact .take hs fun s' _ hs' => ends_pure fun _ _ => by simp [hs, hs']

theorem returns_skipProcedure (s : State) :
    Returns ls inner (fun fuel => run fuel .skipProcedure) s :=
  Ends.call (returns_loop (fun _ s _ => goes_toProcedure s) () s rfl)

/-- Fewer tokens are left, unless a body ended there from the start. -/
def Skipped (s s' : State) : Prop :=
  ∀ l ∈ s.rest.head?, l.token.endsBody = false → s'.rest.length < s.rest.length

theorem ends_toStatement (s : State) :
    Ends ls inner (fun fuel => round (run fuel) .toStatement ()) s
      fun a s' => Goes s a s' ∧ Skipped s s' := by
  cases hs : s.rest with
  | nil => exact .peek_nil hs (ends_pure ⟨goes_done, by simp [Skipped, hs]⟩)
  | cons l ts =>
    have hless (s' : State) (hs' : s'.rest = ts) : s'.rest.length < s.rest.length := by
      simp [hs, hs']
    refine .peek_cons hs (.ite (fun _ => ?_) fun _ => .ite (fun hl => ?_) fun _ => ?_)
    · exact .take hs fun s' _ hs' => ends_pure ⟨goes_done, fun _ _ _ => hless s' hs'⟩
    · exact ends_pure ⟨goes_done, by simp [Skipped, hs, hl]⟩
    · refine .take hs fun s' _ hs' => ends_pure ⟨fun _ _ => ?_, fun _ _ _ => ?_⟩
      all_goals exact hless s' hs'

theorem returns_toStatement (s : State) :
    Returns ls inner (fun fuel => run fuel (.loop .toStatement ())) s :=
  returns_loop (fun _ s _ => (ends_toStatement s).imp fun _ _ h => h.1) () s rfl

theorem Returns.skipped {m : Nat → Action α} (h : Returns ls inner m s') (hskip : Skipped s s') :
    Ends ls inner m s' fun _ s'' => Skipped s s'' :=
  h.suffix.imp fun _ _ hs l hl hbody => Nat.lt_of_le_of_lt hs.length_le (hskip l hl hbody)

/-- The first round takes a token already, unless a body ends there. -/
theorem ends_skipStatement (s : State) :
    Ends ls inner (fun fuel => run fuel .skipStatement) s fun _ s' => Skipped s s' := by
  refine Ends.call (Ends.call ?_)
  refine (ends_toStatement s).bind (fun step s' _ _ hround => ?_) fun _ _ h => h.2
  cases step with
  | done _ => exact Returns.skipped (ends_pure trivial) hround.2
  | yield _ => exact (returns_toStatement s').skipped hround.2

/-! ## Expressions -/

/-- Inside of an operand the counter is above where it was, so going back does not pass it. -/
theorem Moment.Lawful.below {d : Nat} {m : Moment} (h : m.Lawful ls true (d + 1))
    (hd : d < nestingLimit) : m.Lawful ls inner d where
  le_depth := Nat.le_of_succ_le h.le_depth
  depth_le := by
    have := h.depth_le
    omega
  take := h.take
  enter := h.enter
  leave := fun hm => Nat.lt_of_succ_lt (h.leave hm)
  start := fun hm => absurd (h.start hm).1 (by decide)
  record := h.record

/-- One level deeper, and back again. -/
theorem returns_nested {m : Nat → Action α} (hd : s.depth < nestingLimit)
    (h : Returns ls true m { s with depth := s.depth + 1 }) :
    Returns ls inner (fun fuel => nested (m fuel)) s := by
  intro hls
  obtain ⟨⟨answer, s', log⟩, ⟨least, hm⟩, he, -⟩ := h hls
  have hdepth : s'.depth = s.depth + 1 := he.depth
  refine ⟨⟨answer, { s' with depth := s'.depth - 1 }, ⟨.enter, s⟩ :: (log ++ [⟨.leave, s'⟩])⟩,
    ⟨least, fun fuel hfuel => ?_⟩, ⟨?_, ?_, ?_, he.error⟩, trivial⟩
  · have henter : (perform .enter).exec s =
        some ⟨.ok (), { s with depth := s.depth + 1 }, [⟨.enter, s⟩]⟩ := rfl
    have hattempt : (attempt (m fuel)).exec { s with depth := s.depth + 1 } =
        some ⟨.ok answer, s', log⟩ := by
      simp only [attempt, hm fuel hfuel, Option.map_some]
    have hleave : (perform .leave).exec s' =
        some ⟨.ok (), { s' with depth := s'.depth - 1 }, [⟨.leave, s'⟩]⟩ := rfl
    unfold nested
    rw [bind_ok henter, bind_ok hattempt, bind_ok hleave]
    cases answer <;> rfl
  · simp only [hdepth, Nat.add_sub_cancel]
  · exact ⟨rfl, he.trace.append ⟨rfl, rfl⟩⟩
  · refine List.forall_mem_cons.2 ⟨?_, List.forall_mem_append.2 ⟨?_, ?_⟩⟩
    · exact ⟨Nat.le_refl _, Nat.le_max_left _ _, nofun, fun _ => hd, nofun, nofun, nofun⟩
    · exact fun x hx => (he.moments x hx).below hd
    · refine List.forall_mem_singleton.2 ⟨?_, ?_, nofun, nofun, fun _ => ?_, nofun, nofun⟩
      all_goals
        simp only [hdepth]
        omega

theorem goes_operators {d : Nat} {tier : Tier} {tighter : List Tier}
    (hlevel : ∀ s, s.depth = d → Returns ls true (fun fuel => run fuel (.level tighter)) s)
    (left : Expr) (s : State) (hd : s.depth = d) :
    Ends ls true (fun fuel => round (run fuel) (.operators tier tighter) left) s (Goes s) := by
  cases hs : s.rest with
  | nil => exact .peek_nil hs (ends_pure goes_done)
  | cons l ts =>
    refine .peek_cons hs ?_
    rw [Option.bind_some]
    cases tier.ofToken? l.token with
    | none => exact ends_pure goes_done
    | some op =>
      refine .take hs fun s' hd' hs' => (Returns.fewer ?_ ?_).imp fun _ _ h _ _ => h
      · exact (hlevel s' (hd'.trans hd)).bind fun _ _ _ => ends_pure trivial
      · simp [hs, hs']

section

-- At one depth, if operands end there.
variable {d : Nat} (hunary : ∀ s, s.depth = d → Returns ls true (fun fuel => run fuel .unary) s)

include hunary

theorem returns_level (tiers : List Tier) (s : State) (hd : s.depth = d) :
    Returns ls true (fun fuel => run fuel (.level tiers)) s := by
  induction tiers generalizing s with
  | nil => exact Ends.call (hunary s hd)
  | cons tier tighter ih =>
    refine Ends.call (Returns.bind (ih s hd) fun left s' hd' => ?_)
    exact returns_loop (goes_operators ih) left s' (hd'.trans hd)

theorem goes_arguments (args : List Expr) (s : State) (hd : s.depth = d) :
    Ends ls true (fun fuel => round (run fuel) .arguments args) s (Goes s) :=
  goes_nextItem (returns_level hunary Tier.all s hd) args

theorem returns_argumentList (s : State) (hd : s.depth = d) :
    Returns ls true (fun fuel => run fuel .argumentList) s :=
  Ends.call (.ask rfl (.ite (fun _ => ends_pure trivial) fun _ =>
    returns_loop (goes_arguments hunary) [] s hd))

theorem returns_call (callee : Ident) (s : State) (hd : s.depth = d) :
    Returns ls true (fun fuel => run fuel (.call callee)) s := by
  refine Ends.call (Returns.bind (returns_parenthesized fun s₁ hd₁ => ?_) fun _ _ _ => ?_)
  · exact returns_argumentList hunary s₁ (hd₁.trans hd)
  · exact ends_pure trivial

theorem returns_primary (s : State) (hd : s.depth = d) :
    Returns ls true (fun fuel => run fuel .primary) s := by
  refine Ends.call ?_
  cases hs : s.rest with
  | nil => exact .peek_nil hs (ends_expected trivial)
  | cons l ts =>
    obtain ⟨t, span⟩ := l
    refine .peek_cons hs ?_
    cases t with
    | number digits => exact returns_literal hs nofun
    | trueWord | falseWord => exact .take hs fun _ _ _ => ends_pure trivial
    | name spelling =>
      refine (spent_expectIdent s).returns.bind fun name s₁ hd₁ => .ask rfl (.ite (fun _ => ?_) ?_)
      · exact (returns_call hunary name s₁ (hd₁.trans hd)).bind fun _ _ _ => ends_pure trivial
      · exact fun _ => ends_pure trivial
    | openParen =>
      refine .take hs fun s₁ hd₁ _ => ?_
      refine (returns_level hunary Tier.all s₁ (hd₁.trans hd)).bind fun e s₂ _ => ?_
      exact (returns_expect .closeParen s₂).bind fun _ _ _ => ends_pure trivial
    | _ => exact ends_expected trivial

theorem returns_operand (s : State) (hd : s.depth = d) :
    Returns ls true (fun fuel => run fuel .operand) s := by
  refine Ends.call ?_
  cases hs : s.rest with
  | nil => exact .peek_nil hs (returns_primary hunary s hd)
  | cons l ts =>
    obtain ⟨t, span⟩ := l
    refine .peek_cons hs ?_
    cases t with
    | minus =>
      refine .among fun hls => .take hs fun s₁ hd₁ hs₁ => ?_
      have hinner : Returns ls true (fun fuel => do
          let e ← run fuel .unary
          return Expr.unary .neg e (span.merge e.span)) s₁ :=
        (hunary s₁ (hd₁.trans hd)).bind fun _ _ _ => ends_pure trivial
      cases ts with
      | nil => exact .peek_nil hs₁ hinner
      | cons l' ts' =>
        obtain ⟨t', span'⟩ := l'
        refine .peek_cons hs₁ ?_
        cases t' with
        | number digits =>
          refine returns_literal hs₁ fun a ha => ?_
          cases ha
          rwa [hs₁, ← hs]
        | _ => exact hinner
    | notOp =>
      refine .take hs fun s₁ hd₁ _ => ?_
      exact (hunary s₁ (hd₁.trans hd)).bind fun _ _ _ => ends_pure trivial
    | _ => exact returns_primary hunary s hd

end

/-- An operand opens one more level, below the limit. -/
theorem returns_unary (s : State) : Returns ls true (fun fuel => run fuel .unary) s := by
  -- On what the counter leaves of the limit: inside of the operand it is one less.
  induction hk : nestingLimit - s.depth using Nat.strongRecOn generalizing s with
  | ind k ih =>
    subst hk
    refine Ends.call (.ask rfl (.ite (fun _ => ends_fail (fun _ => trivial) trivial) ?_))
    intro hlimit
    have hlt : s.depth < nestingLimit := Nat.lt_of_not_le hlimit
    refine returns_nested hlt (returns_operand (fun s' hd => ih _ ?_ s' rfl) _ rfl)
    simp only at hd
    omega

theorem returns_expression (s : State) :
    Returns ls inner (fun fuel => run fuel (.level Tier.all)) s :=
  (returns_level (fun s _ => returns_unary s) Tier.all s rfl).outer

theorem returns_value (s : State) :
    Returns ls inner (fun fuel => some <$> run fuel (.level Tier.all)) s :=
  (returns_expression s).bind fun _ _ _ => ends_pure trivial

/-! ## Statements -/

theorem returns_semicolon {stmt : Span → Stmt} (s : State) :
    Returns ls inner (fun _ => expect .semicolon >>= fun last => pure (stmt last)) s :=
  (returns_expect .semicolon s).bind fun _ _ _ => ends_pure trivial

theorem spent_declaration (s : State) :
    Ends ls true (fun fuel => run fuel .declaration) s (Spent s) := by
  refine Ends.call ((spent_expect .varWord s).bind_spent fun first s₁ _ => ?_)
  refine (spent_expectIdent s₁).returns.bind fun name s₂ _ => ?_
  refine (returns_expect .colon s₂).bind fun _ s₃ _ => (returns_type s₃).bind fun ty s₄ _ => ?_
  refine (ends_matchToken .becomes s₄).returns.bind fun found s₅ _ => .ite (fun _ => ?_) fun _ => ?_
  · exact (returns_value s₅).bind fun _ s₆ _ => returns_semicolon s₆
  · exact Returns.bind (ends_pure trivial) fun _ s₆ _ => returns_semicolon s₆

theorem spent_returning (s : State) :
    Ends ls true (fun fuel => run fuel .returning) s (Spent s) := by
  refine Ends.call ((spent_expect .returnWord s).bind_spent fun first s₁ _ => ?_)
  refine .ask (exec_check .semicolon s₁) (.ite (fun _ => ?_) fun _ => ?_)
  · exact Returns.bind (ends_pure trivial) fun _ s₂ _ => returns_semicolon s₂
  · exact (returns_value s₁).bind fun _ s₂ _ => returns_semicolon s₂

theorem spent_action (s : State) : Ends ls true (fun fuel => run fuel .action) s (Spent s) := by
  refine Ends.call ((spent_expectIdent s).bind_spent fun name s₁ _ => ?_)
  refine (ends_matchToken .becomes s₁).returns.bind fun found s₂ _ => .ite (fun _ => ?_) fun _ => ?_
  · exact (returns_expression s₂).bind fun _ s₃ _ => returns_semicolon s₃
  · refine .ask (exec_check .openParen s₂) (.ite (fun _ => ?_) fun _ => ends_expected trivial)
    refine (returns_call (fun s _ => returns_unary s) name s₂ rfl).bind fun _ s₃ _ => ?_
    exact returns_semicolon s₃

/-- The start of a statement or procedure, at the depth where the action begins. -/
theorem Ends.start {act : Act} {m : Nat → Action α} {post : Except Complaint α → State → Prop}
    (hact : act.isStart = true) (h : Ends ls false m s post) :
    Ends ls false (fun fuel => perform act >>= fun _ => m fuel) s post := by
  have hchange : act.change s = s := by
    cases act with
    | procedure | statement => rfl
    | _ => cases hact
  have hstart : Ends ls false (fun _ => perform act) s fun a s' => a = .ok () ∧ s' = s := by
    refine ends_perform (by rw [hchange]) (fun _ => ?_) ⟨rfl, hchange⟩
    refine ⟨Nat.le_refl _, Nat.le_max_left _ _, ?_, ?_, ?_, fun _ => ⟨rfl, rfl⟩, fun why => ?_⟩
    all_goals
      rintro rfl
      cases hact
  refine hstart.bind (fun _ s' _ _ heq => ?_) fun _ _ heq => by cases heq.1
  rw [heq.2]
  exact h

theorem spent_statement (s : State) :
    Ends ls false (fun fuel => run fuel .statement) s (Spent s) := by
  refine Ends.call (.start rfl ?_)
  cases hs : s.rest with
  | nil => exact .peek_nil hs (ends_expected spent_error)
  | cons l ts =>
    obtain ⟨t, span⟩ := l
    refine .peek_cons hs ?_
    cases t with
    | varWord => exact (spent_declaration s).outer
    | returnWord => exact (spent_returning s).outer
    | name spelling => exact (spent_action s).outer
    | _ => exact ends_expected spent_error

/-- What is given up inside of an attempt is given up for a complaint about the token at hand. -/
theorem Ends.attempt {m : Nat → Action α} {post : Except Complaint α → State → Prop}
    (h : Ends ls inner m s post) : Ends ls inner (fun fuel => Action.attempt (m fuel)) s
      fun a s' => ∃ answer, a = .ok answer ∧ post answer s' ∧
        ∀ why, answer = .error why → why.Located ls s'.rest := by
  intro hls
  obtain ⟨e, ⟨least, hm⟩, he, hpost⟩ := h hls
  refine ⟨⟨.ok e.answer, e.state, e.log⟩, ⟨least, fun fuel hfuel => ?_⟩,
    ⟨he.depth, he.trace, he.moments, nofun⟩, e.answer, rfl, hpost, he.error⟩
  simp only [Action.attempt, hm fuel hfuel, Option.map_some]

/-- Recording a complaint does not touch the tokens. -/
theorem Ends.record {why : Complaint} {m : Nat → Action α}
    {post : Except Complaint α → State → Prop} (hwhy : why.Located ls s.rest)
    (h : ∀ s', s'.depth = s.depth → s'.rest = s.rest → Ends ls inner m s' post) :
    Ends ls inner (fun fuel => perform (.record why) >>= fun _ => m fuel) s post := by
  have hrecord : Ends ls inner (fun _ => perform (.record why)) s
      fun a s' => a = .ok () ∧ s'.rest = s.rest := by
    refine ends_perform rfl (fun _ => ?_) ⟨rfl, rfl⟩
    refine ⟨Nat.le_refl _, Nat.le_max_left _ _, nofun, nofun, nofun, nofun, ?_⟩
    rintro _ ⟨⟩
    exact hwhy
  refine hrecord.bind (fun _ s' hd _ hs => h s' hd hs.2) fun _ _ heq => ?_
  cases heq.1

/-- A statement that can be read takes a token. One that cannot, and what is skipped after it, do
so together: where the statement has taken nothing no body ends, and skipping takes the token. -/
theorem goes_statements (body : List Stmt) (s : State) :
    Ends ls false (fun fuel => round (run fuel) .statements body) s (Goes s) := by
  cases hs : s.rest with
  | nil => exact .peek_nil hs (ends_pure goes_done)
  | cons l ts =>
    refine .peek_cons hs (.ite (fun _ => ends_pure goes_done) fun hbody => ?_)
    refine (spent_statement s).attempt.bind ?_ fun _ _ _ => goes_error
    rintro answer s₁ - hsuffix ⟨answer', hanswer, hspent, hwhy⟩
    cases hanswer
    cases answer with
    | ok stmt => exact ends_pure fun _ _ => hspent stmt rfl
    | error why =>
      refine .record (hwhy why rfl) fun s₂ _ hs₂ => ?_
      refine (ends_skipStatement s₂).bind (fun _ s₃ _ hsuffix₃ hskip => ends_pure fun _ _ => ?_)
        fun _ _ _ => goes_error
      rw [hs] at hsuffix ⊢
      -- Either the statement has taken nothing, and skipping begins at `l`, or `l` is gone already.
      rcases List.suffix_cons_iff.1 hsuffix with hsame | hless
      · rw [← hsame, ← hs₂]
        exact hskip l (by simp [hs₂, hsame]) (by simpa using hbody)
      · have := hless.length_le
        have := hsuffix₃.length_le
        rw [hs₂] at this
        simp only [List.length_cons]
        omega

/-! ## Procedures -/

theorem returns_parameterList (s : State) :
    Returns ls inner (fun fuel => run fuel .parameterList) s :=
  Ends.call (.ask rfl (.ite (fun _ => ends_pure trivial) fun _ =>
    returns_loop (fun params s _ => goes_parameters params s) [] s rfl))

theorem returns_heading (s : State) : Returns ls inner (fun fuel => heading (run fuel)) s := by
  refine (spent_expectIdent s).returns.bind fun name s₁ _ => ?_
  refine Returns.bind (returns_parenthesized fun s _ => returns_parameterList s) fun _ s₂ _ => ?_
  refine (returns_expect .colon s₂).bind fun _ s₃ _ => (returns_type s₃).bind fun _ s₄ _ => ?_
  exact (returns_expect .isWord s₄).bind fun _ _ _ => ends_pure trivial

/-- Whatever becomes of a procedure, its `def` is taken. -/
theorem ends_procedure (s : State) : Ends ls false (fun fuel => run fuel .procedure) s fun _ s' =>
    s.rest.head?.map (·.token) = some .defWord → s'.rest.length < s.rest.length := by
  refine Ends.call (.start rfl ((ends_expect .defWord s).bind (fun first s₁ _ _ hfirst => ?_) ?_))
  · have hrest : Returns ls false (fun fuel => do
        let head ← heading (run fuel)
        let body ← run fuel (.loop .statements [])
        let last ← expect .endWord
        return (⟨head.name, head.params, head.returns, body, first.merge last⟩ : Procedure))
        s₁ := by
      refine (returns_heading s₁).bind fun head s₂ _ => ?_
      refine (returns_loop (fun body s _ => goes_statements body s) [] s₂ rfl).bind ?_
      exact fun body s₃ _ => (returns_expect .endWord s₃).bind fun _ _ _ => ends_pure trivial
    exact (hrest.fewer (hfirst.1 first rfl)).imp fun _ _ h _ => h
  · exact fun why s₁ hwhy hdef => absurd hdef (hwhy.2 ⟨why, rfl⟩)

theorem goes_procedures (done : List Procedure) (s : State) :
    Ends ls false (fun fuel => round (run fuel) .procedures done) s (Goes s) := by
  have hskip (s' : State) (hlt : s'.rest.length < s.rest.length) : Ends ls false
      (fun fuel => do run fuel .skipProcedure; return ForInStep.yield done) s' (Goes s) := by
    have hreturns : Returns ls false
        (fun fuel => do run fuel .skipProcedure; return ForInStep.yield done) s' :=
      (returns_skipProcedure s').bind fun _ _ _ => ends_pure trivial
    exact (hreturns.fewer hlt).imp fun _ _ h _ _ => h
  cases hs : s.rest with
  | nil => exact .peek_nil hs (ends_pure goes_done)
  | cons l ts =>
    refine .peek_cons hs (.ite (fun hdef => ?_) fun _ => ?_)
    · refine (ends_procedure s).attempt.bind ?_ fun _ _ _ => goes_error
      rintro answer s₁ - - ⟨answer', hanswer, hspent, hwhy⟩
      have hspent := hspent (by simp [hs, hdef])
      cases hanswer
      cases answer with
      | ok p => exact ends_pure fun _ _ => hspent
      | error why => exact .record (hwhy why rfl) fun s₂ _ hs₂ => hskip s₂ (by rwa [hs₂])
    · refine .record trivial fun s₁ _ hs₁ => .take (hs₁.trans hs) fun s₂ _ hs₂ => hskip s₂ ?_
      simp [hs, hs₂]

/-! ## All routines and loops -/

/-- Does the loop stand inside of statements and headings? -/
def Loop.isInner : Loop β → Bool
  | .procedures | .statements => false
  | _ => true

/-- Does the routine stand inside of statements and headings, or is it one that skips? -/
def Routine.isInner : Routine α → Bool
  | .script | .procedure | .statement => false
  | .loop l _ => l.isInner
  | _ => true

/-- A round that goes on takes a token, whichever loop it is and wherever it begins. -/
theorem goes_round (l : Loop β) (b : β) (s : State) :
    Ends ls l.isInner (fun fuel => round (run fuel) l b) s (Goes s) := by
  cases l with
  | procedures => exact goes_procedures b s
  | statements => exact goes_statements b s
  | parameters => exact goes_parameters b s
  | arguments => exact goes_arguments (fun s _ => returns_unary s) b s rfl
  | operators tier tighter =>
    exact goes_operators (returns_level (fun s _ => returns_unary s) tighter) b s rfl
  | toProcedure => exact goes_toProcedure s
  | toStatement => exact (ends_toStatement s).imp fun _ _ h => h.1

/-- Every routine comes to a lawful end from every state. -/
theorem returns_run (r : Routine α) (s : State) :
    Returns ls r.isInner (fun fuel => run fuel r) s := by
  cases r with
  | script => exact Ends.call (returns_loop (fun done s _ => goes_procedures done s) [] s rfl)
  | procedure => exact (ends_procedure s).returns
  | parameterList => exact returns_parameterList s
  | type => exact returns_type s
  | statement => exact (spent_statement s).returns
  | declaration => exact (spent_declaration s).returns
  | returning => exact (spent_returning s).returns
  | action => exact (spent_action s).returns
  | call callee => exact returns_call (fun s _ => returns_unary s) callee s rfl
  | argumentList => exact returns_argumentList (fun s _ => returns_unary s) s rfl
  | level tiers => exact returns_level (fun s _ => returns_unary s) tiers s rfl
  | unary => exact returns_unary s
  | operand => exact returns_operand (fun s _ => returns_unary s) s rfl
  | primary => exact returns_primary (fun s _ => returns_unary s) s rfl
  | skipProcedure => exact returns_skipProcedure s
  | skipStatement => exact (ends_skipStatement s).returns
  | loop l carried => exact returns_loop (fun b s _ => goes_round l b s) carried s rfl

end ScriptCheck.Parser
