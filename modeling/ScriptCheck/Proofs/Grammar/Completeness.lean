import Mathlib.Data.List.Forall2
import ScriptCheck.Proofs.Grammar.Unambiguity
import ScriptCheck.Proofs.Reading.Resumption

/-!
# What the grammar derives is read

The tokens of a derivation, without places and with more tokens behind them that cannot
go on with it, are read as the tree of the derivation, and the tokens behind are left.
Numbers have to fit and the budget has to cover the nesting; nothing else is asked.
-/
namespace ScriptCheck

/-- Tokens that all stand nowhere. -/
def Grammar.bare (ts : List Token) : List Lexeme := ts.map (⟨·, nowhere⟩)

namespace Reader

open Grammar (bare nowhere)

variable {inner : Consumer Expr} {s : Span} {ls rest : List Lexeme} {e : Expr}

theorem run_bind_done {α β : Type} {p : Reader α} {k : α → Reader β} {a : α}
    (h : p.run ls = .done a rest) : (p >>= k).run ls = (k a).run rest := by
  rw [run_bind, h]

theorem run_token (t : Token) (s : Span) (ls : List Lexeme) :
    (token t).run (⟨t, s⟩ :: ls) = .done s ls := by
  simp [token, accept, run_bind]

theorem run_ident (x : String) (s : Span) (ls : List Lexeme) :
    ident.run (⟨.name x, s⟩ :: ls) = .done ⟨x, s⟩ ls := rfl

theorem run_literal {sign : Option Span} {digits : String}
    (h : fitsInt32 (signedValue sign digits) = true) :
    (literal sign digits).run (⟨.number digits, s⟩ :: ls) =
      .done (.int (signedValue sign digits) (signedSpan sign s)) ls := by
  rw [literal, if_pos h, run_bind, run_token]
  rfl

/-! What an operand comes down to, by the tokens at its front. -/

theorem operand_number (digits : String) :
    (operand inner).run (⟨.number digits, s⟩ :: ls) =
      (literal none digits).run (⟨.number digits, s⟩ :: ls) := rfl

theorem operand_signed (digits : String) (s' : Span) :
    (operand inner).run (⟨.minus, s⟩ :: ⟨.number digits, s'⟩ :: ls) =
      (literal (some s) digits).run (⟨.number digits, s'⟩ :: ls) := rfl

theorem operand_bool (value : Bool) :
    (operand inner).run (⟨if value then .trueWord else .falseWord, s⟩ :: ls) =
      .done (.bool value s) ls := by
  cases value <;> rfl

theorem operand_name {x : String} (h : ∀ l ∈ ls.head?, l.token ≠ .openParen) :
    (operand inner).run (⟨.name x, s⟩ :: ls) = .done (.var x s) ls := by
  cases ls with
  | nil => rfl
  | cons l ls =>
    obtain ⟨t, s'⟩ := l
    have ht : t ≠ .openParen := h _ rfl
    cases t
    case openParen => exact absurd rfl ht
    all_goals rfl

theorem operand_call (x : String) (s' : Span) :
    (operand inner).run (⟨.name x, s⟩ :: ⟨.openParen, s'⟩ :: ls) =
      (call (tiers inner) ⟨x, s⟩ >>= fun c => pure c.toExpr).run (⟨.openParen, s'⟩ :: ls) := rfl

theorem operand_parens :
    (operand inner).run (⟨.openParen, s⟩ :: ls) =
      ((tiers inner).val >>= fun e => token .closeParen >>= fun last =>
        pure (e.withSpan (s.merge last))).run ls := rfl

theorem operand_not :
    (operand inner).run (⟨.notOp, s⟩ :: ls) =
      (inner.val >>= fun e => pure (Expr.unary .not e (s.merge e.span))).run ls := rfl

theorem operand_neg (h : ∀ l ∈ ls.head?, ∀ digits, l.token ≠ .number digits) :
    (operand inner).run (⟨.minus, s⟩ :: ls) =
      (inner.val >>= fun e => pure (Expr.unary .neg e (s.merge e.span))).run ls := by
  cases ls with
  | nil => rfl
  | cons l ls =>
    obtain ⟨t, s'⟩ := l
    cases t
    case number digits => exact absurd rfl (h _ rfl digits)
    all_goals rfl

end Reader

namespace Grammar

/-- The reader takes each list of tokens, in front of a comma or a closing parenthesis, for
the value beside it. -/
def ReadsItems {α : Type} (item : Consumer α) (ws : List (List Token)) (as : List α) : Prop :=
  List.Forall₂ (fun w a => ∀ more rest,
    item.val.run (bare (w ++ afterItem more rest)) = .done a (bare (afterItem more rest))) ws as

theorem run_itemsFrom {α : Type} {item : Consumer α} {ws : List (List Token)} {as : List α}
    (h : ReadsItems item ws as) (hne : ws ≠ []) (rest : List Token) :
    item.itemsFrom (bare (commas ws ++ .closeParen :: rest)) =
      .done as (bare (.closeParen :: rest)) := by
  induction h with
  | nil => exact absurd rfl hne
  | @cons w a ws as hw hws ih =>
    have hrun := hw ws rest
    rw [commas_cons_append]
    cases hws with
    | nil =>
      refine Consumer.itemsFrom_last hrun fun s ls' hcomma => ?_
      cases hcomma
    | @cons w' a' ws as hw' hws =>
      exact Consumer.itemsFrom_more hrun (ih (List.cons_ne_nil _ _))

theorem run_parenthesized {α : Type} {item : Consumer α} {ws : List (List Token)} {as : List α}
    (h : ReadsItems item ws as)
    (hstart : ∀ w ∈ ws, ∀ rest rest', w ++ rest ≠ .closeParen :: rest') (rest : List Token) :
    item.parenthesized.val.run (bare (.openParen :: (commas ws ++ .closeParen :: rest))) =
      .done (as, nowhere) (bare rest) := by
  cases ws with
  | nil =>
    cases h
    rfl
  | cons w ws =>
    have hitems := run_itemsFrom h (List.cons_ne_nil _ _) rest
    -- An item begins with another token than the closing parenthesis, so items are read.
    cases hl : commas (w :: ws) ++ .closeParen :: rest with
    | nil => simp at hl
    | cons t ts =>
      have ht : t ≠ .closeParen := by
        rintro rfl
        rw [commas_cons_append] at hl
        exact hstart w List.mem_cons_self _ _ hl
      rw [hl] at hitems
      have hclose := Reader.run_bind_done (p := item.items)
        (k := fun values => Reader.token .closeParen >>= fun close => pure (values, close)) hitems
      cases t
      case closeParen => exact absurd rfl ht
      all_goals exact hclose

/-- No argument begins with a closing parenthesis. -/
theorem Chain.tokensAll_append_ne (es : List (Chain Tier.all)) :
    ∀ w ∈ Chain.tokensAll es, ∀ rest rest', w ++ rest ≠ .closeParen :: rest' := by
  intro w hw
  rw [Chain.tokensAll_eq_map] at hw
  obtain ⟨e, _, rfl⟩ := List.mem_map.1 hw
  exact e.tokens_append_ne rfl

theorem Unary.nesting_pos (u : Unary) : 0 < u.nesting := by
  cases u with
  | neg inner =>
    rw [Unary.nesting]
    split <;> omega
  | _ => simp only [Unary.nesting]; omega

theorem Chain.treeAll_eq_map (es : List (Chain Tier.all)) :
    Chain.treeAll es = es.map Chain.tree := by
  induction es with
  | nil => rfl
  | cons e es ih => rw [Chain.treeAll, ih, List.map_cons]

theorem Unary.number?_eq_some {u : Unary} {digits : String} (h : u.number? = some digits) :
    u = .number digits := by
  cases u <;> cases h
  rfl

theorem Unary.head_ne_number {u : Unary} (h : u.number? = none) (rest : List Token) :
    ∀ l ∈ (bare (u.tokens ++ rest)).head?, ∀ digits, l.token ≠ .number digits := by
  intro l hl digits
  cases u with
  | number => cases h
  | bool value => cases value <;> cases hl <;> simp
  | _ => cases hl; simp

mutual

/-- Trees of derivations stand nowhere. -/
theorem Unary.span_tree : ∀ u : Unary, u.tree.span = nowhere
  | .neg inner => by
    rw [Unary.tree]
    split <;> rfl
  | .not inner => rfl
  | .number _ | .bool _ | .name _ | .call _ _ => rfl
  | .parens inner => inner.span_tree

theorem Chain.span_tree {tiers : List Tier} : ∀ c : Chain tiers, c.tree.span = nowhere
  | .unary u => u.span_tree
  | .chain first more => more.span_treeFrom first.span_tree

theorem Links.span_treeFrom {tier : Tier} {tiers : List Tier} {left : Expr}
    (h : left.span = nowhere) : ∀ l : Links tier tiers, (l.treeFrom left).span = nowhere
  | .nil => h
  | .cons _ _ _ more => more.span_treeFrom rfl

end

theorem Chain.withSpan_tree {tiers : List Tier} (c : Chain tiers) :
    c.tree.withSpan nowhere = c.tree := by
  have h := c.span_tree
  cases htree : c.tree <;> rw [htree] at h <;> cases h <;> rfl

/-- The reader of expressions of some tiers. -/
def level (tiers : List Tier) (budget : Nat) : Consumer Expr :=
  tiers.foldr Reader.chain (Reader.unary budget)

/-- Every number fits 32 bits. -/
def Fits (values : List Int) : Prop := ∀ v ∈ values, fitsInt32 v = true

theorem Fits.left {vs ws : List Int} (h : Fits (vs ++ ws)) : Fits vs :=
  fun v hv => h v (List.mem_append_left _ hv)

theorem Fits.right {vs ws : List Int} (h : Fits (vs ++ ws)) : Fits ws :=
  fun v hv => h v (List.mem_append_right _ hv)

theorem Fits.append {vs ws : List Int} (h : Fits vs) (h' : Fits ws) : Fits (vs ++ ws) :=
  fun v hv => (List.mem_append.1 hv).elim (h v) (h' v)

/-- The limits of arguments are those of each one. -/
theorem limits_args {ds : List Expression} {budget : Nat}
    (h : ∀ d ∈ ds, Fits d.literals ∧ d.nesting ≤ budget) :
    Fits (Chain.literalsAll ds) ∧ Chain.nestingAll ds ≤ budget := by
  induction ds with
  | nil => exact ⟨List.forall_mem_nil _, Nat.zero_le _⟩
  | cons d ds ih =>
    obtain ⟨hd, hds⟩ := List.forall_mem_cons.1 h
    obtain ⟨hfits, hnested⟩ := ih hds
    exact ⟨hd.1.append hfits, Nat.max_le.2 ⟨hd.2, hnested⟩⟩

theorem ofToken?_of_follow {tier : Tier} {tiers : List Tier} {rest : List Token}
    (h : Follow (tier :: tiers) rest) :
    ∀ l ∈ (bare rest).head?, tier.ofToken? l.token = none := by
  intro l hl
  cases rest with
  | nil => cases hl
  | cons t rest =>
    cases hl
    refine Option.eq_none_iff_forall_ne_some.2 fun op hop => ?_
    obtain ⟨htier, ht⟩ := Tier.ofToken?_eq_some_iff.1 hop
    exact (h t rfl).2 op (by simp [htier]) ht

mutual

theorem Unary.run_tokens (u : Unary) (budget : Nat) (hfits : Fits u.literals)
    (hnest : u.nesting ≤ budget) (rest : List Token) (hrest : Follow [] rest) :
    (Reader.unary budget).val.run (bare (u.tokens ++ rest)) = .done u.tree (bare rest) := by
  obtain ⟨budget, rfl⟩ : ∃ b, budget = b + 1 :=
    ⟨budget - 1, by have := u.nesting_pos; omega⟩
  change (Reader.operand (Reader.unary budget)).run _ = _
  match u with
  | .neg inner =>
    cases hn : inner.number? with
    | some digits =>
      obtain rfl := Unary.number?_eq_some hn
      have hfit : fitsInt32 (-decimal digits) = true :=
        hfits _ (by simp [Unary.literals, Unary.number?])
      exact (Reader.operand_signed digits nowhere).trans (Reader.run_literal hfit)
    | none =>
      simp only [Unary.literals, Unary.nesting, hn] at hfits hnest
      have hinner := inner.run_tokens budget hfits (by omega) rest hrest
      rw [Unary.tree, hn]
      refine (Reader.operand_neg (Unary.head_ne_number hn rest)).trans
        ((Reader.run_bind_done hinner).trans ?_)
      rw [inner.span_tree]
      rfl
  | .not inner =>
    simp only [Unary.literals, Unary.nesting] at hfits hnest
    have hinner := inner.run_tokens budget hfits (by omega) rest hrest
    refine Reader.operand_not.trans ((Reader.run_bind_done hinner).trans ?_)
    rw [inner.span_tree]
    rfl
  | .number digits =>
    have hfit : fitsInt32 (decimal digits) = true := hfits _ (by simp [Unary.literals])
    exact (Reader.operand_number digits).trans (Reader.run_literal hfit)
  | .bool value => exact Reader.operand_bool value
  | .name spelling =>
    refine Reader.operand_name fun l hl => ?_
    cases rest with
    | nil => cases hl
    | cons t rest =>
      cases hl
      exact (hrest t rfl).1
  | .call callee args =>
    simp only [Unary.literals, Unary.nesting] at hfits hnest
    have hargs := Chain.readsItems args budget hfits (by omega)
    have hparens := run_parenthesized hargs (Chain.tokensAll_append_ne args) rest
    simp only [Unary.tokens, List.cons_append, List.append_assoc, List.nil_append]
    refine (Reader.operand_call callee nowhere).trans ?_
    rw [Reader.run_bind_done (Reader.run_bind_done hparens)]
    rfl
  | .parens inner =>
    simp only [Unary.literals, Unary.nesting] at hfits hnest
    have hinner := inner.run_tokens budget (by decide) hfits (by omega) (.closeParen :: rest)
      (follow_closeParen _ _)
    simp only [Unary.tokens, List.cons_append, List.append_assoc, List.nil_append]
    refine Reader.operand_parens.trans ((Reader.run_bind_done hinner).trans ?_)
    exact congrArg (Outcome.done · _) inner.withSpan_tree

theorem Chain.run_tokens {tiers : List Tier} (c : Chain tiers) (budget : Nat) (hn : tiers.Nodup)
    (hfits : Fits c.literals) (hnest : c.nesting ≤ budget) (rest : List Token)
    (hrest : Follow tiers rest) :
    (level tiers budget).val.run (bare (c.tokens ++ rest)) = .done c.tree (bare rest) := by
  match c with
  | .unary u => exact u.run_tokens budget hfits hnest rest hrest
  | .chain first more =>
    obtain ⟨hmem, hn⟩ := List.nodup_cons.1 hn
    simp only [Chain.literals, Chain.nesting] at hfits hnest
    have hfirst := first.run_tokens budget hn hfits.left (by omega) (more.tokens ++ rest)
      (more.follow hmem hrest)
    have hmore := more.run_tokens budget hmem hn hfits.right (by omega) rest hrest
      first.tree first.span_tree
    rw [Chain.tokens, List.append_assoc]
    exact (Reader.run_bind_done hfirst).trans hmore

theorem Links.run_tokens {tier : Tier} {tiers : List Tier} (l : Links tier tiers) (budget : Nat)
    (hmem : tier ∉ tiers) (hn : tiers.Nodup) (hfits : Fits l.literals)
    (hnest : l.nesting ≤ budget) (rest : List Token) (hrest : Follow (tier :: tiers) rest)
    (left : Expr) (hleft : left.span = nowhere) :
    Reader.chainFrom tier (level tiers budget) left (bare (l.tokens ++ rest)) =
      .done (l.treeFrom left) (bare rest) := by
  match l with
  | .nil => exact Reader.chainFrom_end (ofToken?_of_follow hrest)
  | .cons op htier next more =>
    simp only [Links.literals, Links.nesting] at hfits hnest
    have hnext := next.run_tokens budget hn hfits.left (by omega) (more.tokens ++ rest)
      (more.follow hmem hrest)
    have hmore := more.run_tokens budget hmem hn hfits.right (by omega) rest hrest
      (.binary op left next.tree nowhere) rfl
    have hjoin : Expr.join op left next.tree = .binary op left next.tree nowhere := by
      rw [Expr.join, hleft, next.span_tree, Span.merge_self]
    have hop : tier.ofToken? op.token = some op := Tier.ofToken?_eq_some_iff.2 ⟨htier, rfl⟩
    rw [Links.tokens, List.cons_append, List.append_assoc]
    refine (Reader.chainFrom_more (l := ⟨op.token, nowhere⟩) hop hnext).trans ?_
    rw [hjoin]
    exact hmore

/-- Arguments, each in front of a comma or the closing parenthesis. -/
theorem Chain.readsItems (es : List (Chain Tier.all)) (budget : Nat)
    (hfits : Fits (Chain.literalsAll es)) (hnest : Chain.nestingAll es ≤ budget) :
    ReadsItems (Reader.expr budget) (Chain.tokensAll es) (Chain.treeAll es) := by
  match es with
  | [] => exact List.Forall₂.nil
  | e :: es =>
    simp only [Chain.literalsAll, Chain.nestingAll] at hfits hnest
    refine List.Forall₂.cons (fun more rest => ?_)
      (Chain.readsItems es budget hfits.right (by omega))
    exact e.run_tokens budget (by decide) hfits.left (by omega) (afterItem more rest)
      (follow_afterItem _ _ _)

end

/-! ## Statements and procedures -/

/-- An expression that is within the limits. -/
def Admissible (e : Expression) : Prop := Fits e.literals ∧ e.nesting ≤ nestingLimit

/-- An expression of a statement, up to the token that ends it. -/
theorem Admissible.run {e : Expression} (h : Admissible e) {rest : List Token}
    (hrest : Follow Tier.all rest) :
    (Reader.expr nestingLimit).val.run (bare (e.tokens ++ rest)) = .done e.tree (bare rest) :=
  e.run_tokens nestingLimit (by decide) h.1 h.2 rest hrest

theorem run_declaration (x : String) (t : TypeName) (init : Option Expression)
    (h : ∀ e ∈ init.toList, Admissible e) (rest : List Token) :
    Reader.declaration.run (bare ((Statement.declare x t init).tokens ++ rest)) =
      .done (Statement.declare x t init).tree (bare rest) := by
  cases init with
  | none =>
    cases t <;> rfl
  | some e =>
    have he := (h e (by simp)).run (follow_semicolon _ rest)
    simp only [Statement.tokens, List.cons_append, List.append_assoc, List.nil_append]
    have hinit := Reader.run_bind_done (k := fun e => pure (some e)) he
    have hclose := Reader.run_bind_done
      (k := fun init => Reader.token .semicolon >>= fun last =>
        pure (Stmt.declare ⟨x, nowhere⟩ t.type init (nowhere.merge last))) hinit
    cases t <;> exact hclose

theorem run_returning (value : Option Expression)
    (h : ∀ e ∈ value.toList, Admissible e) (rest : List Token) :
    Reader.returning.run (bare ((Statement.ret value).tokens ++ rest)) =
      .done (Statement.ret value).tree (bare rest) := by
  cases value with
  | none => rfl
  | some e =>
    have he := (h e (by simp)).run (follow_semicolon _ rest)
    simp only [Statement.tokens, List.cons_append, List.append_assoc, List.nil_append]
    have hvalue := Reader.run_bind_done (k := fun e => pure (some e)) he
    have hclose := Reader.run_bind_done
      (k := fun value => Reader.token .semicolon >>= fun last =>
        pure (Stmt.ret value (nowhere.merge last))) hvalue
    -- The expression does not begin with the semicolon that would make the return bare.
    obtain ⟨t, ts, htokens, ht⟩ := e.exists_cons_tokens
    rw [htokens] at hclose ⊢
    cases t
    case semicolon => cases ht
    all_goals exact hclose

theorem run_assign (x : String) {e : Expression} (h : Admissible e) (rest : List Token) :
    Reader.action.run (bare ((Statement.assign x e).tokens ++ rest)) =
      .done (Statement.assign x e).tree (bare rest) := by
  have he := h.run (follow_semicolon _ rest)
  simp only [Statement.tokens, List.cons_append, List.append_assoc, List.nil_append]
  exact Reader.run_bind_done
    (k := fun value => Reader.token .semicolon >>= fun last =>
      pure (Stmt.assign ⟨x, nowhere⟩ value (nowhere.merge last))) he

theorem run_call (x : String) {args : List Expression} (h : ∀ e ∈ args, Admissible e)
    (rest : List Token) :
    Reader.action.run (bare ((Statement.call x args).tokens ++ rest)) =
      .done (Statement.call x args).tree (bare rest) := by
  obtain ⟨hfits, hnested⟩ := limits_args h
  have hargs := Chain.readsItems args nestingLimit hfits hnested
  have hparens := run_parenthesized hargs (Chain.tokensAll_append_ne args) (.semicolon :: rest)
  simp only [Statement.tokens, List.cons_append, List.append_assoc, List.nil_append]
  have hcall := Reader.run_bind_done
    (k := fun parens => pure (⟨⟨x, nowhere⟩, parens.1, nowhere.merge parens.2⟩ : Call)) hparens
  exact Reader.run_bind_done
    (k := fun c => Reader.token .semicolon >>= fun last =>
      pure (Stmt.call c (nowhere.merge last))) hcall

theorem Statement.run_tokens (s : Statement) (h : ∀ e ∈ s.expressions, Admissible e)
    (rest : List Token) :
    Reader.statement.run (bare (s.tokens ++ rest)) = .done s.tree (bare rest) := by
  match s with
  | .declare x t init =>
    refine Eq.trans ?_ (run_declaration x t init h rest)
    cases init <;> rfl
  | .assign x e => exact run_assign x (h e (by simp [Statement.expressions])) rest
  | .call x args => exact run_call x h rest
  | .ret value =>
    refine Eq.trans ?_ (run_returning value h rest)
    cases value <;> rfl

theorem Parameter.readsItems (ps : List Parameter) :
    ReadsItems ⟨Reader.param, Reader.consumes_param⟩ (ps.map Parameter.tokens)
      (ps.map Parameter.tree) := by
  induction ps with
  | nil => exact List.Forall₂.nil
  | cons p ps ih =>
    refine List.Forall₂.cons (fun more rest => ?_) ih
    obtain ⟨x, t⟩ := p
    cases t <;> rfl

/-- The tokens of a procedure between its `def` and its body. -/
def Procedure.headTokens (p : Procedure) (rest : List Token) : List Token :=
  .name p.name :: .openParen :: (commas (p.params.map Parameter.tokens) ++
    .closeParen :: .colon :: p.returns.token :: .isWord :: rest)

theorem Procedure.run_header (p : Procedure) (rest : List Token) :
    Reader.header.run (bare (p.headTokens rest)) =
      .done ⟨⟨p.name, nowhere⟩, p.params.map Parameter.tree, p.returns.type⟩ (bare rest) := by
  have hstart : ∀ w ∈ p.params.map Parameter.tokens, ∀ r r', w ++ r ≠ .closeParen :: r' := by
    intro w hw r r'
    obtain ⟨q, _, rfl⟩ := List.mem_map.1 hw
    simp [Parameter.tokens]
  have hparams := run_parenthesized (Parameter.readsItems p.params) hstart
    (.colon :: p.returns.token :: .isWord :: rest)
  refine (Reader.run_bind_done (Reader.run_ident p.name nowhere _)).trans ?_
  refine (Reader.run_bind_done hparams).trans ?_
  cases p.returns <;> rfl

theorem Body.read_tokens (eof : Span) (body : List Statement)
    (h : ∀ s ∈ body, ∀ e ∈ s.expressions, Admissible e) (rest : List Token) :
    Body.read eof (bare (body.flatMap Statement.tokens ++ .endWord :: rest)) =
      ⟨body.map Statement.tree, [], bare (.endWord :: rest)⟩ := by
  induction body with
  | nil => exact Body.read_end rfl
  | cons s body ih =>
    obtain ⟨hs, hbody⟩ := List.forall_mem_cons.1 h
    have hrun := s.run_tokens hs (body.flatMap Statement.tokens ++ .endWord :: rest)
    rw [List.flatMap_cons, List.append_assoc]
    -- A statement begins with a token that ends no body.
    obtain ⟨t, ts, htokens, ht⟩ : ∃ t ts, s.tokens = t :: ts ∧ t.endsBody = false := by
      rcases s with ⟨x, t, _ | e⟩ | ⟨x, e⟩ | ⟨x, args⟩ | (_ | e) <;> exact ⟨_, _, rfl, rfl⟩
    rw [htokens] at hrun ⊢
    refine (Body.read_done (l := ⟨t, nowhere⟩) ht hrun).trans ?_
    rw [ih hbody]
    rfl

theorem Attempt.read_tokens (eof : Span) (p : Procedure)
    (h : ∀ e ∈ p.expressions, Admissible e) (rest : List Token) :
    Attempt.read eof nowhere
        (bare (p.headTokens (p.body.flatMap Statement.tokens ++ .endWord :: rest))) =
      ⟨some p.tree, [], bare rest⟩ := by
  have hbody := Body.read_tokens eof p.body
    (fun s hs e he => h e (List.mem_flatMap.2 ⟨s, hs, he⟩)) rest
  unfold Attempt.read
  rw [p.run_header]
  simp only [hbody]
  rfl

theorem Harvest.read_tokens (eof : Span) (ps : List Procedure)
    (h : ∀ p ∈ ps, ∀ e ∈ p.expressions, Admissible e) :
    Harvest.read eof (bare (ps.flatMap Procedure.tokens)) = ⟨ps.map Procedure.tree, []⟩ := by
  induction ps with
  | nil => simp [bare, ScriptCheck.Harvest.read]
  | cons p ps ih =>
    obtain ⟨hp, hps⟩ := List.forall_mem_cons.1 h
    have htokens : (p :: ps).flatMap Procedure.tokens = .defWord ::
        p.headTokens (p.body.flatMap Statement.tokens ++
          .endWord :: ps.flatMap Procedure.tokens) := by
      simp only [List.flatMap_cons, Procedure.tokens, Procedure.headTokens, List.cons_append,
        List.append_assoc, List.nil_append]
    have hattempt := Attempt.read_tokens eof p hp (ps.flatMap Procedure.tokens)
    rw [htokens]
    change Harvest.read eof (⟨.defWord, nowhere⟩ :: bare _) = _
    rw [Harvest.read, if_pos rfl]
    simp only [hattempt, ih hps]
    rfl

end Grammar
end ScriptCheck
