import ScriptCheck.Proofs.Grammar

/-!
# The grammar is unambiguous

No two derivations have the same tokens. The induction is over derivations with more
tokens behind them: two derivations of one kind that begin the same list of tokens are
equal and leave the same rest, as long as neither rest can go on with the last operand,
by an operator of one of the open tiers or by the arguments of a call.
-/
namespace ScriptCheck

theorem BinaryOp.ofToken?_token (op : BinaryOp) : BinaryOp.ofToken? op.token = some op := by
  cases op <;> rfl

theorem BinaryOp.token_injective {op op' : BinaryOp} (h : op.token = op'.token) : op = op' := by
  have hop := op.ofToken?_token
  rw [h, op'.ofToken?_token] at hop
  injection hop with hop
  exact hop.symm

theorem Tier.ofToken?_eq_some_iff {tier : Tier} {t : Token} {op : BinaryOp} :
    tier.ofToken? t = some op ↔ op.tier = tier ∧ t = op.token := by
  constructor
  · intro h
    obtain ⟨hop, htier⟩ := Option.filter_eq_some_iff.1 h
    refine ⟨by simpa using htier, ?_⟩
    cases t <;> simp only [BinaryOp.ofToken?, Option.some.injEq, reduceCtorEq] at hop <;>
      subst hop <;> rfl
  · rintro ⟨rfl, rfl⟩
    cases op <;> rfl

namespace Grammar

/-- The tokens that an expression can begin with. -/
def startsExpression : Token → Bool
  | .minus | .notOp | .number _ | .trueWord | .falseWord | .name _ | .openParen => true
  | _ => false

/-- The tokens cannot go on with an expression of the given tiers that stands before them. -/
def Follow (tiers : List Tier) (rest : List Token) : Prop :=
  ∀ t ∈ rest.head?, t ≠ .openParen ∧ ∀ op : BinaryOp, op.tier ∈ tiers → t ≠ op.token

theorem follow_cons {tiers : List Tier} {t : Token} {rest : List Token} (ht : t ≠ .openParen)
    (hop : ∀ op : BinaryOp, op.tier ∈ tiers → t ≠ op.token) : Follow tiers (t :: rest) := by
  intro t' ht'
  cases ht'
  exact ⟨ht, hop⟩

theorem follow_comma (tiers : List Tier) (rest : List Token) : Follow tiers (.comma :: rest) :=
  follow_cons (by decide) fun op _ => by cases op <;> decide

theorem follow_closeParen (tiers : List Tier) (rest : List Token) :
    Follow tiers (.closeParen :: rest) :=
  follow_cons (by decide) fun op _ => by cases op <;> decide

theorem follow_semicolon (tiers : List Tier) (rest : List Token) :
    Follow tiers (.semicolon :: rest) :=
  follow_cons (by decide) fun op _ => by cases op <;> decide

theorem Follow.tail {tier : Tier} {tiers : List Tier} {rest : List Token}
    (h : Follow (tier :: tiers) rest) : Follow tiers rest :=
  fun t ht => ⟨(h t ht).1, fun op hop => (h t ht).2 op (List.mem_cons_of_mem _ hop)⟩

/-- Links or their absence keep a tighter chain from going on. -/
theorem Links.follow {tier : Tier} {tiers : List Tier} (hn : tier ∉ tiers)
    (links : Links tier tiers) {rest : List Token} (h : Follow (tier :: tiers) rest) :
    Follow tiers (links.tokens ++ rest) := by
  cases links with
  | nil => exact h.tail
  | cons op htier next more =>
    refine follow_cons ?_ fun op' hop' heq => ?_
    · cases op <;> decide
    · rw [← BinaryOp.token_injective heq, htier] at hop'
      exact hn hop'

theorem Unary.exists_cons_tokens (u : Unary) :
    ∃ t ts, u.tokens = t :: ts ∧ startsExpression t = true := by
  cases u with
  | bool value => cases value <;> exact ⟨_, _, rfl, rfl⟩
  | _ => exact ⟨_, _, rfl, rfl⟩

theorem Chain.exists_cons_tokens {tiers : List Tier} (c : Chain tiers) :
    ∃ t ts, c.tokens = t :: ts ∧ startsExpression t = true := by
  match c with
  | .unary u => exact u.exists_cons_tokens
  | .chain first more =>
    obtain ⟨t, ts, h, ht⟩ := first.exists_cons_tokens
    exact ⟨t, ts ++ more.tokens, by rw [Chain.tokens, h]; rfl, ht⟩

/-- No expression begins with a token that begins none. -/
theorem Chain.tokens_append_ne {tiers : List Tier} (c : Chain tiers) {t : Token}
    (ht : startsExpression t = false) (rest rest' : List Token) :
    c.tokens ++ rest ≠ t :: rest' := by
  obtain ⟨t', ts, h, ht'⟩ := c.exists_cons_tokens
  intro heq
  rw [h] at heq
  injection heq with heq _
  rw [heq, ht] at ht'
  cases ht'

/-- What stands behind an item of a list in parentheses, where `more` are the next ones. -/
def afterItem (more : List (List Token)) (rest : List Token) : List Token :=
  match more with
  | [] => .closeParen :: rest
  | ts :: us => .comma :: (commas (ts :: us) ++ .closeParen :: rest)

theorem commas_cons_append (ts : List Token) (more : List (List Token)) (rest : List Token) :
    commas (ts :: more) ++ .closeParen :: rest = ts ++ afterItem more rest := by
  cases more with
  | nil => rfl
  | cons us more => simp only [commas, afterItem, List.append_assoc, List.cons_append]

theorem follow_afterItem (tiers : List Tier) (more : List (List Token)) (rest : List Token) :
    Follow tiers (afterItem more rest) := by
  cases more with
  | nil => exact follow_closeParen tiers rest
  | cons ts more => exact follow_comma tiers _

/-- A list in parentheses determines its items if each item is determined by its tokens. -/
theorem eq_of_commas_eq {δ : Type} {tokens : δ → List Token} {ds ds' : List δ}
    (hstart : ∀ d rest rest', tokens d ++ rest ≠ .closeParen :: rest')
    (hitem : ∀ d ∈ ds, ∀ d' more more' rest rest',
      tokens d ++ afterItem more rest = tokens d' ++ afterItem more' rest' →
        d = d' ∧ afterItem more rest = afterItem more' rest')
    {r r' : List Token}
    (h : commas (ds.map tokens) ++ .closeParen :: r =
      commas (ds'.map tokens) ++ .closeParen :: r') : ds = ds' ∧ r = r' := by
  induction ds generalizing ds' with
  | nil =>
    cases ds' with
    | nil => exact ⟨rfl, (List.cons.inj h).2⟩
    | cons d' ds' =>
      rw [List.map_cons, commas_cons_append] at h
      exact absurd h.symm (hstart d' _ _)
  | cons d ds ih =>
    obtain ⟨hd, hds⟩ := List.forall_mem_cons.1 hitem
    cases ds' with
    | nil =>
      rw [List.map_cons, commas_cons_append] at h
      exact absurd h (hstart d _ _)
    | cons d' ds' =>
      rw [List.map_cons, List.map_cons, commas_cons_append, commas_cons_append] at h
      obtain ⟨rfl, hrest⟩ := hd d' _ _ _ _ h
      cases ds with
      | nil =>
        cases ds' with
        | nil => exact ⟨rfl, (List.cons.inj hrest).2⟩
        | cons d' ds' => cases hrest
      | cons e ds =>
        cases ds' with
        | nil => cases hrest
        | cons d' ds' =>
          obtain ⟨hds', hr⟩ := @ih (d' :: ds') hds (List.cons.inj hrest).2
          exact ⟨by rw [hds'], hr⟩

theorem Chain.tokensAll_eq_map (es : List (Chain Tier.all)) :
    Chain.tokensAll es = es.map Chain.tokens := by
  induction es with
  | nil => rfl
  | cons e es ih => rw [Chain.tokensAll, ih, List.map_cons]

mutual

theorem Unary.eq_of_append_eq (u u' : Unary) {r r' : List Token} (hr : Follow [] r)
    (hr' : Follow [] r') (h : u.tokens ++ r = u'.tokens ++ r') : u = u' ∧ r = r' := by
  match u with
  | .neg inner =>
    cases u' with
    | neg inner' =>
      obtain ⟨rfl, rfl⟩ := inner.eq_of_append_eq inner' hr hr' (List.cons.inj h).2
      exact ⟨rfl, rfl⟩
    | bool value => cases value <;> cases h
    | _ => cases h
  | .not inner =>
    cases u' with
    | not inner' =>
      obtain ⟨rfl, rfl⟩ := inner.eq_of_append_eq inner' hr hr' (List.cons.inj h).2
      exact ⟨rfl, rfl⟩
    | bool value => cases value <;> cases h
    | _ => cases h
  | .number digits =>
    cases u' with
    | number digits' =>
      cases h
      exact ⟨rfl, rfl⟩
    | bool value => cases value <;> cases h
    | _ => cases h
  | .bool value =>
    cases u' with
    | bool value' =>
      cases value <;> cases value' <;> cases h
      all_goals exact ⟨rfl, rfl⟩
    | _ => cases value <;> cases h
  | .name spelling =>
    cases u' with
    | name spelling' =>
      cases h
      exact ⟨rfl, rfl⟩
    | call callee args =>
      cases h
      exact absurd rfl (hr .openParen rfl).1
    | bool value => cases value <;> cases h
    | _ => cases h
  | .call callee args =>
    cases u' with
    | name spelling' =>
      cases h
      exact absurd rfl (hr' .openParen rfl).1
    | call callee' args' =>
      simp only [Unary.tokens, List.cons_append, List.append_assoc, List.cons.injEq,
        Token.name.injEq, true_and, List.nil_append, Chain.tokensAll_eq_map] at h
      obtain ⟨rfl, rfl⟩ := eq_of_commas_eq (fun e => e.tokens_append_ne rfl)
        (fun e he e' _ _ _ _ => Chain.eq_of_mem_append_eq args e he e'
          (follow_afterItem _ _ _) (follow_afterItem _ _ _)) h.2
      exact ⟨by rw [h.1], rfl⟩
    | bool value => cases value <;> cases h
    | _ => cases h
  | .parens inner =>
    cases u' with
    | parens inner' =>
      simp only [Unary.tokens, List.cons_append, List.append_assoc, List.cons.injEq,
        true_and, List.nil_append] at h
      obtain ⟨rfl, hrest⟩ := inner.eq_of_append_eq inner' (by decide)
        (follow_closeParen _ r) (follow_closeParen _ r') h
      exact ⟨rfl, (List.cons.inj hrest).2⟩
    | bool value => cases value <;> cases h
    | _ => cases h

theorem Chain.eq_of_append_eq {tiers : List Tier} (c c' : Chain tiers) (hn : tiers.Nodup)
    {r r' : List Token} (hr : Follow tiers r) (hr' : Follow tiers r')
    (h : c.tokens ++ r = c'.tokens ++ r') : c = c' ∧ r = r' := by
  match c, c' with
  | .unary u, .unary u' =>
    obtain ⟨rfl, rfl⟩ := u.eq_of_append_eq u' hr hr' h
    exact ⟨rfl, rfl⟩
  | .chain first more, .chain first' more' =>
    obtain ⟨hmem, hn⟩ := List.nodup_cons.1 hn
    simp only [Chain.tokens, List.append_assoc] at h
    obtain ⟨rfl, hmore⟩ := first.eq_of_append_eq first' hn (more.follow hmem hr)
      (more'.follow hmem hr') h
    obtain ⟨rfl, rfl⟩ := more.eq_of_append_eq more' hmem hn hr hr' hmore
    exact ⟨rfl, rfl⟩

theorem Links.eq_of_append_eq {tier : Tier} {tiers : List Tier} (l l' : Links tier tiers)
    (hmem : tier ∉ tiers) (hn : tiers.Nodup) {r r' : List Token}
    (hr : Follow (tier :: tiers) r) (hr' : Follow (tier :: tiers) r')
    (h : l.tokens ++ r = l'.tokens ++ r') : l = l' ∧ r = r' := by
  match l with
  | .nil =>
    cases l' with
    | nil => exact ⟨rfl, h⟩
    | cons op htier next more =>
      cases h
      exact absurd rfl ((hr op.token rfl).2 op (by simp [htier]))
  | .cons op htier next more =>
    cases l' with
    | nil =>
      cases h
      exact absurd rfl ((hr' op.token rfl).2 op (by simp [htier]))
    | cons op' htier' next' more' =>
      simp only [Links.tokens, List.cons_append, List.append_assoc, List.cons.injEq] at h
      obtain rfl := BinaryOp.token_injective h.1
      obtain ⟨rfl, hmore⟩ := next.eq_of_append_eq next' hn (more.follow hmem hr)
        (more'.follow hmem hr') h.2
      obtain ⟨rfl, rfl⟩ := more.eq_of_append_eq more' hmem hn hr hr' hmore
      exact ⟨rfl, rfl⟩

/-- The same for every member of a list, so that the induction reaches arguments. -/
theorem Chain.eq_of_mem_append_eq (es : List (Chain Tier.all)) (e : Chain Tier.all)
    (he : e ∈ es) (e' : Chain Tier.all) {r r' : List Token} (hr : Follow Tier.all r)
    (hr' : Follow Tier.all r') (h : e.tokens ++ r = e'.tokens ++ r') : e = e' ∧ r = r' := by
  match es with
  | [] => cases he
  | e₀ :: es₀ =>
    rcases List.mem_cons.1 he with heq | he
    · rw [heq] at h ⊢
      exact e₀.eq_of_append_eq e' (by decide) hr hr' h
    · exact Chain.eq_of_mem_append_eq es₀ e he e' hr hr' h

end

theorem TypeName.token_injective {t t' : TypeName} (h : t.token = t'.token) : t = t' := by
  cases t <;> cases t' <;> first | rfl | cases h

/-- An expression in front of a semicolon. -/
theorem Chain.eq_of_semicolon (e e' : Expression) {r r' : List Token}
    (h : e.tokens ++ .semicolon :: r = e'.tokens ++ .semicolon :: r') : e = e' ∧ r = r' := by
  obtain ⟨he, hr⟩ := e.eq_of_append_eq e' (by decide) (follow_semicolon _ r)
    (follow_semicolon _ r') h
  exact ⟨he, (List.cons.inj hr).2⟩

/-- The arguments of a call, up to the closing parenthesis. -/
theorem Chain.eq_of_args (args args' : List Expression) {r r' : List Token}
    (h : commas (Chain.tokensAll args) ++ .closeParen :: r =
      commas (Chain.tokensAll args') ++ .closeParen :: r') : args = args' ∧ r = r' := by
  rw [Chain.tokensAll_eq_map, Chain.tokensAll_eq_map] at h
  exact eq_of_commas_eq (fun e => e.tokens_append_ne rfl)
    (fun e _ e' _ _ _ _ => e.eq_of_append_eq e' (by decide) (follow_afterItem _ _ _)
      (follow_afterItem _ _ _)) h

theorem Statement.eq_of_append_eq (s s' : Statement) {r r' : List Token}
    (h : s.tokens ++ r = s'.tokens ++ r') : s = s' ∧ r = r' := by
  rcases s with ⟨x, t, _ | e⟩ | ⟨x, e⟩ | ⟨x, args⟩ | (_ | e) <;>
    rcases s' with ⟨x', t', _ | e'⟩ | ⟨x', e'⟩ | ⟨x', args'⟩ | (_ | e') <;>
    simp only [Statement.tokens, List.cons_append, List.append_assoc, List.cons.injEq,
      List.nil_append, Token.name.injEq, reduceCtorEq, and_false, false_and, true_and] at h
  -- What is left are pairs of one kind, and a bare return beside one with a value.
  · obtain ⟨rfl, ht, rfl⟩ := h
    rw [TypeName.token_injective ht]
    exact ⟨rfl, rfl⟩
  · obtain ⟨rfl, ht, hinit⟩ := h
    obtain ⟨rfl, rfl⟩ := e.eq_of_semicolon e' hinit
    rw [TypeName.token_injective ht]
    exact ⟨rfl, rfl⟩
  · obtain ⟨rfl, hvalue⟩ := h
    obtain ⟨rfl, rfl⟩ := e.eq_of_semicolon e' hvalue
    exact ⟨rfl, rfl⟩
  · obtain ⟨rfl, hargs⟩ := h
    obtain ⟨rfl, hr⟩ := Chain.eq_of_args args args' hargs
    exact ⟨rfl, (List.cons.inj hr).2⟩
  · exact ⟨rfl, h⟩
  · exact absurd h.symm (e'.tokens_append_ne rfl _ _)
  · exact absurd h (e.tokens_append_ne rfl _ _)
  · obtain ⟨rfl, rfl⟩ := e.eq_of_semicolon e' h
    exact ⟨rfl, rfl⟩

theorem Statement.tokens_append_ne (s : Statement) (rest rest' : List Token) :
    s.tokens ++ rest ≠ .endWord :: rest' := by
  rcases s with ⟨x, t, _ | e⟩ | ⟨x, e⟩ | ⟨x, args⟩ | (_ | e) <;>
    simp [Statement.tokens]

theorem Parameter.eq_of_append_eq (p p' : Parameter) {r r' : List Token}
    (h : p.tokens ++ r = p'.tokens ++ r') : p = p' ∧ r = r' := by
  obtain ⟨x, t⟩ := p
  obtain ⟨x', t'⟩ := p'
  simp only [Parameter.tokens, List.cons_append, List.cons.injEq, Token.name.injEq,
    List.nil_append, true_and] at h
  obtain ⟨rfl, ht, rfl⟩ := h
  rw [TypeName.token_injective ht]
  exact ⟨rfl, rfl⟩

/-- The statements of a body, up to its `end`. -/
theorem Statement.eq_of_body_eq (body body' : List Statement) {r r' : List Token}
    (h : body.flatMap Statement.tokens ++ .endWord :: r =
      body'.flatMap Statement.tokens ++ .endWord :: r') : body = body' ∧ r = r' := by
  induction body generalizing body' with
  | nil =>
    cases body' with
    | nil => exact ⟨rfl, (List.cons.inj h).2⟩
    | cons s' body' =>
      rw [List.flatMap_cons, List.append_assoc] at h
      exact absurd h.symm (s'.tokens_append_ne _ _)
  | cons s body ih =>
    cases body' with
    | nil =>
      rw [List.flatMap_cons, List.append_assoc] at h
      exact absurd h (s.tokens_append_ne _ _)
    | cons s' body' =>
      rw [List.flatMap_cons, List.flatMap_cons, List.append_assoc, List.append_assoc] at h
      obtain ⟨rfl, hbody⟩ := s.eq_of_append_eq s' h
      obtain ⟨rfl, rfl⟩ := ih body' hbody
      exact ⟨rfl, rfl⟩

theorem Procedure.eq_of_append_eq (p p' : Procedure) {r r' : List Token}
    (h : p.tokens ++ r = p'.tokens ++ r') : p = p' ∧ r = r' := by
  obtain ⟨x, params, t, body⟩ := p
  obtain ⟨x', params', t', body'⟩ := p'
  simp only [Procedure.tokens, List.cons_append, List.append_assoc, List.cons.injEq,
    Token.name.injEq, List.nil_append, true_and] at h
  obtain ⟨rfl, hparams⟩ := h
  obtain ⟨rfl, hrest⟩ := eq_of_commas_eq (fun p rest rest' => by simp [Parameter.tokens])
    (fun p _ p' _ _ _ _ => p.eq_of_append_eq p') hparams
  simp only [List.cons.injEq, true_and] at hrest
  obtain ⟨ht, hbody⟩ := hrest
  obtain ⟨rfl, rfl⟩ := Statement.eq_of_body_eq body body' hbody
  rw [TypeName.token_injective ht]
  exact ⟨rfl, rfl⟩

theorem Script.eq_of_tokens_eq {s s' : Script} (h : s.tokens = s'.tokens) : s = s' := by
  obtain ⟨ps⟩ := s
  obtain ⟨ps'⟩ := s'
  simp only [Script.tokens] at h
  congr 1
  induction ps generalizing ps' with
  | nil =>
    cases ps' with
    | nil => rfl
    | cons p' ps' => cases h
  | cons p ps ih =>
    cases ps' with
    | nil => cases h
    | cons p' ps' =>
      rw [List.flatMap_cons, List.flatMap_cons] at h
      obtain ⟨rfl, hps⟩ := p.eq_of_append_eq p' h
      rw [ih ps' hps]

end Grammar
end ScriptCheck
