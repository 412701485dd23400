import ScriptCheck.Proofs.Reading.Nested
import ScriptCheck.Proofs.Reading.Parts
import ScriptCheck.Proofs.Token.Patterns
import ScriptCheck.Proofs.Tree.Spans

/-!
# Spans begin and end with tokens

A reader takes every place that it gives from the tokens: the place of one token, or the cover
of two places that it has. So every span of a tree begins where a token begins and ends where
one ends, and every name with a place of its own is a token there.
-/
namespace ScriptCheck

/-- The span is not empty, begins with one of the tokens and ends with one. -/
structure Span.OnTokens (all : List Lexeme) (s : Span) : Prop where
  nonempty : s.start < s.stop
  start_mem : ∃ l ∈ all, l.span.start = s.start
  stop_mem : ∃ l ∈ all, l.span.stop = s.stop

/-- The name is one of the tokens. -/
def Ident.OnTokens (all : List Lexeme) (x : Ident) : Prop := ⟨.name x.name, x.span⟩ ∈ all

/-- The spans that the node has itself are on the tokens, and so is the callee of a call. -/
structure Expr.OnTokens (all : List Lexeme) (e : Expr) : Prop where
  spans : ∀ s ∈ e.ownSpans, s.OnTokens all
  callee : ∀ x ∈ e.calleeIdent?, x.OnTokens all

/-- So it is with every node of the expression. -/
def Expr.AllOnTokens (all : List Lexeme) (e : Expr) : Prop := ∀ n ∈ e.nodes, n.OnTokens all

structure Stmt.OnTokens (all : List Lexeme) (st : Stmt) : Prop where
  span : st.span.OnTokens all
  target : ∀ x ∈ st.target?, x.OnTokens all
  nodes : ∀ e ∈ st.nodes, e.OnTokens all

structure Procedure.OnTokens (all : List Lexeme) (p : Procedure) : Prop where
  span : p.span.OnTokens all
  name : p.name.OnTokens all
  params : ∀ q ∈ p.params, q.span.OnTokens all
  body : ∀ st ∈ p.body, st.OnTokens all

section

variable {all : List Lexeme} {s t : Span} {e : Expr}

theorem Span.OnTokens.merge (hs : s.OnTokens all) (ht : t.OnTokens all) :
    (s.merge t).OnTokens all := by
  refine ⟨?_, ?_, ?_⟩
  · have := hs.nonempty
    simp only [merge_start, merge_stop]
    omega
  · rw [merge_start]
    rcases Nat.le_total s.start t.start with hle | hle
    · rw [Nat.min_eq_left hle]
      exact hs.start_mem
    · rw [Nat.min_eq_right hle]
      exact ht.start_mem
  · rw [merge_stop]
    rcases Nat.le_total s.stop t.stop with hle | hle
    · rw [Nat.max_eq_right hle]
      exact ht.stop_mem
    · rw [Nat.max_eq_left hle]
      exact hs.stop_mem

theorem Lexeme.onTokens {l : Lexeme} (hall : Ordered all) (hl : l ∈ all) : l.span.OnTokens all :=
  ⟨hall.nonempty l hl, ⟨l, hl, rfl⟩, ⟨l, hl, rfl⟩⟩

theorem Expr.OnTokens.span (h : e.OnTokens all) : e.span.OnTokens all := by
  cases e <;> exact h.spans _ List.mem_cons_self

/-- A node that is no call has one span. -/
theorem Expr.onTokens_of_span (hspans : e.ownSpans = [e.span]) (hcallee : e.calleeIdent? = none)
    (h : e.span.OnTokens all) : e.OnTokens all := by
  refine ⟨?_, ?_⟩
  · rw [hspans]
    simpa using h
  · simp [hcallee]

theorem Expr.onTokens_call (hall : Ordered all) {callee : Ident} (args : List Expr)
    {callSpan : Span} (hcallee : callee.OnTokens all) (hcall : callSpan.OnTokens all)
    (hs : s.OnTokens all) :
    (Expr.call callee args callSpan s).OnTokens all := by
  refine ⟨?_, ?_⟩
  · simp only [ownSpans, List.forall_mem_cons]
    exact ⟨hs, hcall, Lexeme.onTokens hall hcallee, List.forall_mem_nil _⟩
  · rintro x ⟨⟩
    exact hcallee

theorem Expr.OnTokens.withSpan (h : e.OnTokens all) (hs : s.OnTokens all) :
    (e.withSpan s).OnTokens all := by
  cases e with
  | call callee args callSpan s' =>
    refine ⟨?_, h.callee⟩
    have hspans := h.spans
    simp only [Expr.withSpan, ownSpans, List.forall_mem_cons] at hspans ⊢
    exact ⟨hs, hspans.2⟩
  | _ => exact Expr.onTokens_of_span rfl rfl hs

namespace Expr

theorem allOnTokens_iff :
    e.AllOnTokens all ↔ e.OnTokens all ∧ ∀ n ∈ e.innerNodes, n.OnTokens all := by
  rw [AllOnTokens, e.nodes_eq, List.forall_mem_cons]

theorem AllOnTokens.span (h : e.AllOnTokens all) : e.span.OnTokens all :=
  (allOnTokens_iff.1 h).1.span

theorem AllOnTokens.withSpan (h : e.AllOnTokens all) (hs : s.OnTokens all) :
    (e.withSpan s).AllOnTokens all := by
  rw [allOnTokens_iff] at h ⊢
  rw [innerNodes_withSpan]
  exact ⟨h.1.withSpan hs, h.2⟩

theorem AllOnTokens.join {left right : Expr} (op : BinaryOp) (hleft : left.AllOnTokens all)
    (hright : right.AllOnTokens all) : (join op left right).AllOnTokens all :=
  allOnTokens_iff.2 ⟨onTokens_of_span rfl rfl (hleft.span.merge hright.span),
    List.forall_mem_append.2 ⟨hleft, hright⟩⟩

theorem AllOnTokens.unary (op : UnaryOp) (hs : s.OnTokens all) (h : e.AllOnTokens all) :
    (Expr.unary op e (s.merge e.span)).AllOnTokens all :=
  allOnTokens_iff.2 ⟨onTokens_of_span rfl rfl (hs.merge h.span), h⟩

end Expr

/-- The callee, the span and the arguments of the call are on the tokens. -/
def Call.OnTokens (all : List Lexeme) (c : Call) : Prop := c.toExpr.AllOnTokens all

theorem Call.onTokens (hall : Ordered all) {c : Call} (hcallee : c.callee.OnTokens all)
    (hspan : c.span.OnTokens all) (hargs : ∀ e ∈ c.args, e.AllOnTokens all) : c.OnTokens all := by
  refine Expr.allOnTokens_iff.2 ⟨Expr.onTokens_call hall c.args hcallee hspan hspan, ?_⟩
  intro n hn
  simp only [toExpr, Expr.innerNodes, Expr.nodesAll_eq_flatMap] at hn
  obtain ⟨e, he, hn⟩ := List.mem_flatMap.1 hn
  exact hargs e he n hn

end

namespace Reader

variable {α β : Type} {all : List Lexeme}

/-- What is read from some of the tokens is as described by `Q`. -/
def Draws (all : List Lexeme) (p : Reader α) (Q : α → Prop) : Prop :=
  ∀ ⦃ls x rest⦄, ls ⊆ all → p.run ls = .done x rest → Q x

theorem draws_pure {x : α} {Q : α → Prop} (h : Q x) : Draws all (pure x) Q := by
  intro ls y rest _ hrun
  cases hrun
  exact h

theorem draws_fail (why : Complaint) (Q : α → Prop) : Draws all (fail why) Q := by
  intro ls x rest _ hrun
  cases hrun

theorem Draws.bind {p : Reader α} {k : α → Reader β} {P : α → Prop} {Q : β → Prop}
    (hp : Draws all p P) (hk : ∀ x, P x → Draws all (k x) Q) : Draws all (p >>= k) Q := by
  intro ls y rest hls hrun
  obtain ⟨x, mid, hx, hy⟩ := bind_eq_done.1 hrun
  exact hk x (hp hls hx) (List.Subset.trans (suffix_of_done hx).subset hls) hy

theorem draws_peek_bind {k : Option Lexeme → Reader β} {Q : β → Prop}
    (hnone : Draws all (k none) Q) (hsome : ∀ t s, Draws all (k (some ⟨t, s⟩)) Q) :
    Draws all (peek >>= k) Q := by
  intro ls y rest hls hrun
  cases ls with
  | nil => exact hnone hls hrun
  | cons l ls => exact hsome l.token l.span hls hrun

theorem draws_accept (wanted : Wanted) (pick : Token → Option α) :
    Draws all (accept wanted pick) fun r => ∃ t, pick t = some r.1 ∧ ⟨t, r.2⟩ ∈ all := by
  intro ls r rest hls hrun
  cases ls with
  | nil => cases hrun
  | cons l ls =>
    cases hp : pick l.token with
    | none => simp [accept, hp] at hrun
    | some x =>
      simp only [accept, hp, Outcome.done.injEq] at hrun
      obtain ⟨rfl, rfl⟩ := hrun
      exact ⟨l.token, hp, hls List.mem_cons_self⟩

theorem draws_ident : Draws all ident (Ident.OnTokens all) := by
  refine (draws_accept _ _).bind fun ⟨name, s⟩ ⟨t, ht, hmem⟩ => draws_pure ?_
  cases t with
  | name spelling =>
    cases ht
    exact hmem
  | _ => cases ht

theorem draws_items {item : Consumer α} {ok : α → Prop} (h : Draws all item.val ok) :
    Draws all item.items fun xs => ∀ x ∈ xs, ok x := by
  intro ls xs rest hls hrun
  change item.itemsFrom ls = .done xs rest at hrun
  fun_induction Consumer.itemsFrom item ls generalizing xs rest with
  | case1 => cases hrun
  | case2 ls x s after hitem xs' rest' hmore ih =>
    cases hrun
    have hafter : after ⊆ all :=
      List.Subset.trans (List.subset_cons_self _ _)
        (List.Subset.trans (suffix_of_done hitem).subset hls)
    exact List.forall_mem_cons.2 ⟨h hls hitem, ih hafter hmore⟩
  | case3 => cases hrun
  | case4 ls x after _ hitem =>
    cases hrun
    simpa using h hls hitem

section

variable (hall : Ordered all)
include hall

theorem draws_token (t : Token) : Draws all (token t) (Span.OnTokens all) :=
  (draws_accept _ _).bind fun _ ⟨_, _, hmem⟩ => draws_pure (Lexeme.onTokens hall hmem)

theorem draws_type : Draws all type fun r => r.2.OnTokens all := by
  intro ls r rest hls hrun
  obtain ⟨t, _, hmem⟩ := draws_accept _ _ hls hrun
  exact Lexeme.onTokens hall hmem

theorem draws_parenthesized {item : Consumer α} {ok : α → Prop} (h : Draws all item.val ok) :
    Draws all item.parenthesized.val fun r => (∀ x ∈ r.1, ok x) ∧ r.2.OnTokens all := by
  refine (draws_token hall _).bind fun _ _ => ?_
  have hclose (p : Reader (List α)) (hp : Draws all p fun xs => ∀ x ∈ xs, ok x) :
      Draws all (do let values ← p; let close ← token .closeParen; return (values, close))
        fun r => (∀ x ∈ r.1, ok x) ∧ r.2.OnTokens all :=
    hp.bind fun _ hxs => (draws_token hall _).bind fun _ hs => draws_pure ⟨hxs, hs⟩
  refine draws_peek_bind (hclose _ (draws_items h)) fun t s => ?_
  cases t
  case closeParen => exact hclose _ (draws_pure (List.forall_mem_nil _))
  all_goals exact hclose _ (draws_items h)

end

/-! ## Expressions -/

/-- All nodes of the expression that is read are on the tokens. -/
def DrawsExpr (all : List Lexeme) (p : Reader Expr) : Prop := Draws all p (Expr.AllOnTokens all)

theorem draws_chainRest {tier : Tier} {operand : Consumer Expr} (h : DrawsExpr all operand.val)
    {left : Expr} (hleft : left.AllOnTokens all) :
    DrawsExpr all (chainRest tier operand left) := by
  intro ls e rest hls hrun
  change chainFrom tier operand left ls = .done e rest at hrun
  fun_induction chainFrom tier operand left ls with
  | case1 left =>
    cases hrun
    exact hleft
  | case2 left l ls _ =>
    cases hrun
    exact hleft
  | case3 left l ls op _ right after hright ih =>
    have hls' : ls ⊆ all := List.Subset.trans (List.subset_cons_self _ _) hls
    have hafter : after ⊆ all := List.Subset.trans (suffix_of_done hright).subset hls'
    exact ih (hleft.join op (h hls' hright)) hafter hrun
  | case4 => cases hrun

theorem drawsExpr_tiers {operand : Consumer Expr} (h : DrawsExpr all operand.val) :
    DrawsExpr all (tiers operand).val := by
  unfold tiers
  induction Tier.all with
  | nil => exact h
  | cons tier tiers ih => exact ih.bind fun left hleft => draws_chainRest ih hleft

section

variable (hall : Ordered all)
include hall

theorem draws_literal {sign : Option Span} (hsign : ∀ s ∈ sign, s.OnTokens all)
    (digits : String) : DrawsExpr all (literal sign digits) := by
  unfold literal
  split
  · refine (draws_token hall _).bind fun s hs => draws_pure ?_
    have hspan : (signedSpan sign s).OnTokens all := by
      cases sign with
      | none => exact hs
      | some first => exact (hsign first rfl).merge hs
    exact Expr.allOnTokens_iff.2 ⟨Expr.onTokens_of_span rfl rfl hspan, List.forall_mem_nil _⟩
  · exact draws_fail _ _

theorem draws_call {expr : Consumer Expr} (h : DrawsExpr all expr.val) {callee : Ident}
    (hcallee : callee.OnTokens all) : Draws all (call expr callee) (Call.OnTokens all) :=
  (draws_parenthesized hall h).bind fun _ ⟨hargs, hclose⟩ => draws_pure
    (Call.onTokens hall hcallee ((Lexeme.onTokens hall hcallee).merge hclose) hargs)

theorem drawsExpr_primary {expr : Consumer Expr} (h : DrawsExpr all expr.val) :
    DrawsExpr all (primary expr) := by
  have hleaf {e : Expr} (hspans : e.ownSpans = [e.span]) (hcallee : e.calleeIdent? = none)
      (hinner : e.innerNodes = []) (hs : e.span.OnTokens all) : e.AllOnTokens all :=
    Expr.allOnTokens_iff.2 ⟨Expr.onTokens_of_span hspans hcallee hs,
      hinner ▸ List.forall_mem_nil _⟩
  refine draws_peek_bind (draws_fail _ _) fun t s => ?_
  cases t
  case number digits => exact draws_literal hall (by simp) digits
  case trueWord =>
    exact (draws_token hall _).bind fun s hs => draws_pure (hleaf rfl rfl rfl hs)
  case falseWord =>
    exact (draws_token hall _).bind fun s hs => draws_pure (hleaf rfl rfl rfl hs)
  case name spelling =>
    refine draws_ident.bind fun x hx => ?_
    have hvar : DrawsExpr all (pure (.var x.name x.span)) :=
      draws_pure (hleaf rfl rfl rfl (Lexeme.onTokens hall hx))
    refine draws_peek_bind hvar fun t s => ?_
    cases t
    case openParen => exact (draws_call hall h hx).bind fun made hmade => draws_pure hmade
    all_goals exact hvar
  case openParen =>
    exact (draws_token hall _).bind fun first hfirst => h.bind fun e he =>
      (draws_token hall _).bind fun last hlast => draws_pure (he.withSpan (hfirst.merge hlast))
  all_goals exact draws_fail _ _

theorem drawsExpr_operand {inner : Consumer Expr} (h : DrawsExpr all inner.val) :
    DrawsExpr all (operand inner) := by
  have happly (op : UnaryOp) {sign : Span} (hsign : sign.OnTokens all) :
      DrawsExpr all (do let e ← inner.val; return .unary op e (sign.merge e.span)) :=
    h.bind fun e he => draws_pure (he.unary op hsign)
  have hprimary := drawsExpr_primary hall (drawsExpr_tiers h)
  refine draws_peek_bind hprimary fun t s => ?_
  cases t
  case minus =>
    refine (draws_token hall _).bind fun sign hsign => ?_
    refine draws_peek_bind (happly .neg hsign) fun t s => ?_
    cases t
    case number digits =>
      exact draws_literal hall (fun s hs => Option.mem_some_iff.1 hs ▸ hsign) digits
    all_goals exact happly .neg hsign
  case notOp => exact (draws_token hall _).bind fun first hfirst => happly .not hfirst
  all_goals exact hprimary

theorem drawsExpr_unary (budget : Nat) : DrawsExpr all (unary budget).val := by
  induction budget with
  | zero => exact draws_fail _ _
  | succ budget ih => exact drawsExpr_operand hall ih

theorem drawsExpr_expr (budget : Nat) : DrawsExpr all (expr budget).val :=
  drawsExpr_tiers (drawsExpr_unary hall budget)

/-! ## Statements -/

/-- The expression that is read, if there is one, is on the tokens with all its nodes. -/
def DrawsValue (all : List Lexeme) (p : Reader (Option Expr)) : Prop :=
  Draws all p fun value => ∀ e ∈ value, e.AllOnTokens all

theorem drawsValue_some :
    DrawsValue all (do let e ← (expr nestingLimit).val; return some e) := by
  refine (drawsExpr_expr hall _).bind fun e he => draws_pure ?_
  rintro e' ⟨⟩
  exact he

omit hall in
theorem drawsValue_none : DrawsValue all (pure none) := draws_pure (by simp)

theorem draws_declaration : Draws all declaration (Stmt.OnTokens all) := by
  refine (draws_token hall _).bind fun first hfirst => draws_ident.bind fun x hx =>
    (draws_token hall _).bind fun _ _ => (draws_type hall).bind fun ⟨ty, _⟩ _ => ?_
  have hclose {p : Reader (Option Expr)} (hp : DrawsValue all p) :
      Draws all (do let init ← p; let last ← token .semicolon
                    return .declare x ty init (first.merge last)) (Stmt.OnTokens all) := by
    refine hp.bind fun init hinit => (draws_token hall _).bind fun last hlast => draws_pure ?_
    refine ⟨hfirst.merge hlast, ?_, ?_⟩
    · rintro y ⟨⟩
      exact hx
    · cases init with
      | none => exact List.forall_mem_nil _
      | some e => simpa [Stmt.nodes, Expr.AllOnTokens] using hinit e rfl
  refine draws_peek_bind (hclose drawsValue_none) fun t s => ?_
  cases t
  case becomes =>
    exact (draws_token hall _).bind fun _ _ => hclose (drawsValue_some hall)
  all_goals exact hclose drawsValue_none

theorem draws_returning : Draws all returning (Stmt.OnTokens all) := by
  refine (draws_token hall _).bind fun first hfirst => ?_
  have hclose {p : Reader (Option Expr)} (hp : DrawsValue all p) :
      Draws all (do let value ← p; let last ← token .semicolon
                    return .ret value (first.merge last)) (Stmt.OnTokens all) := by
    refine hp.bind fun value hvalue => (draws_token hall _).bind fun last hlast => draws_pure ?_
    refine ⟨hfirst.merge hlast, by rintro x ⟨⟩, ?_⟩
    cases value with
    | none => exact List.forall_mem_nil _
    | some e => simpa [Stmt.nodes, Expr.AllOnTokens] using hvalue e rfl
  refine draws_peek_bind (hclose (drawsValue_some hall)) fun t s => ?_
  cases t
  case semicolon => exact hclose drawsValue_none
  all_goals exact hclose (drawsValue_some hall)

theorem draws_action : Draws all action (Stmt.OnTokens all) := by
  refine draws_ident.bind fun x hx => draws_peek_bind (draws_fail _ _) fun t s => ?_
  have hfirst := Lexeme.onTokens hall hx
  cases t
  case becomes =>
    refine (draws_token hall _).bind fun _ _ => (drawsExpr_expr hall _).bind fun e he =>
      (draws_token hall _).bind fun last hlast => draws_pure ⟨hfirst.merge hlast, ?_, he⟩
    rintro y ⟨⟩
    exact hx
  case openParen =>
    exact (draws_call hall (drawsExpr_expr hall _) hx).bind fun made hmade =>
      (draws_token hall _).bind fun last hlast =>
        draws_pure ⟨hfirst.merge hlast, by rintro x ⟨⟩, hmade⟩
  all_goals exact draws_fail _ _

theorem draws_statement : Draws all statement (Stmt.OnTokens all) := by
  refine draws_peek_bind (draws_fail _ _) fun t s => ?_
  cases t
  case varWord => exact draws_declaration hall
  case returnWord => exact draws_returning hall
  case name => exact draws_action hall
  all_goals exact draws_fail _ _

/-! ## Procedures -/

theorem draws_param : Draws all param fun p => p.span.OnTokens all :=
  draws_ident.bind fun _ hx => (draws_token hall _).bind fun _ _ =>
    (draws_type hall).bind fun _ hty => draws_pure ((Lexeme.onTokens hall hx).merge hty)

theorem draws_header : Draws all header fun head =>
    head.name.OnTokens all ∧ ∀ q ∈ head.params, q.span.OnTokens all :=
  draws_ident.bind fun _ hx => (draws_parenthesized hall (draws_param hall)).bind
    fun _ ⟨hparams, _⟩ => (draws_token hall _).bind fun _ _ => (draws_type hall).bind fun _ _ =>
      (draws_token hall _).bind fun _ _ => draws_pure ⟨hx, hparams⟩

end

end Reader

section

variable {all : List Lexeme}

theorem Body.onTokens (hall : Ordered all) (eof : Span) (ls : List Lexeme) : ls ⊆ all →
    ∀ st ∈ (Body.read eof ls).stmts, st.OnTokens all := by
  fun_induction Body.read eof ls with
  | case1 => exact fun _ => List.forall_mem_nil _
  | case2 => exact fun _ => List.forall_mem_nil _
  | case3 l ls _ stmt rest hrun more ih =>
    intro hls
    have hrest : rest ⊆ all := List.Subset.trans (Reader.suffix_of_done hrun).subset hls
    exact List.forall_mem_cons.2 ⟨Reader.draws_statement hall hls hrun, ih hrest⟩
  | case4 l ls _ why rest hrun more ih =>
    intro hls
    have hskip := (suffix_skipStatement rest).trans (Reader.suffix_of_stuck hrun)
    exact ih (List.Subset.trans hskip.subset hls)

theorem Attempt.onTokens (hall : Ordered all) {eof start : Span} {ls : List Lexeme}
    {p : Procedure} (hstart : start.OnTokens all) (hls : ls ⊆ all)
    (hp : (Attempt.read eof start ls).procedure = some p) : p.OnTokens all := by
  revert hp
  unfold Attempt.read
  split
  · intro hp
    cases hp
  · next head rest hhead =>
    obtain ⟨hname, hparams⟩ := Reader.draws_header hall hls hhead
    have hrest : rest ⊆ all := List.Subset.trans (Reader.suffix_of_done hhead).subset hls
    have hbody : (Body.read eof rest).rest ⊆ all :=
      List.Subset.trans (Body.suffix_read eof rest).subset hrest
    simp only
    split
    · intro hp
      cases hp
    · next last after hend =>
      intro hp
      cases hp
      have hlast := Reader.draws_token hall .endWord hbody hend
      exact ⟨hstart.merge hlast, hname, hparams, Body.onTokens hall eof rest hrest⟩

theorem Harvest.onTokens (hall : Ordered all) (eof : Span) (ls : List Lexeme) : ls ⊆ all →
    ∀ p ∈ (Harvest.read eof ls).procedures, p.OnTokens all := by
  fun_induction Harvest.read eof ls with
  | case1 => exact fun _ => List.forall_mem_nil _
  | case2 l ls hdef tried p hp more ih =>
    intro hls
    have hstart := Lexeme.onTokens hall (hls List.mem_cons_self)
    have htail : ls ⊆ all := List.Subset.trans (List.subset_cons_self _ _) hls
    have hrest : tried.rest ⊆ all := List.Subset.trans (Attempt.suffix_read _ _ ls).subset htail
    exact List.forall_mem_cons.2 ⟨Attempt.onTokens hall hstart htail hp, ih hrest⟩
  | case3 l ls hdef tried hp more ih =>
    intro hls
    have hskip := (suffix_skipProcedure tried.rest).trans
      ((Attempt.suffix_read eof l.span ls).trans (List.suffix_cons l ls))
    exact ih (List.Subset.trans hskip.subset hls)
  | case4 l ls hdef more ih =>
    intro hls
    have hskip := (suffix_skipProcedure ls).trans (List.suffix_cons l ls)
    exact ih (List.Subset.trans hskip.subset hls)

end

/-! ## Trees of texts -/

/-- A token stands for the characters at its span. -/
theorem Piece.Parted.exists_wins {n : Nat} {cs : List Char} {ps : List Piece} {l : Lexeme}
    (h : Parted n cs ps) (hl : .token l ∈ ps) : ∃ xs ys zs, cs = xs ++ (ys ++ zs) ∧
      n + Text.byteLength xs = l.span.start ∧
      l.span.start + Text.byteLength ys = l.span.stop ∧ l.token.Wins ys := by
  -- What stands in front of the token grows by the part that the piece or gap takes.
  have hlater {n : Nat} (part : List Char) {rest : List Char}
      (h : ∃ xs ys zs, rest = xs ++ (ys ++ zs) ∧
        n + Text.byteLength part + Text.byteLength xs = l.span.start ∧
        l.span.start + Text.byteLength ys = l.span.stop ∧ l.token.Wins ys) :
      ∃ xs ys zs, part ++ rest = xs ++ (ys ++ zs) ∧ n + Text.byteLength xs = l.span.start ∧
        l.span.start + Text.byteLength ys = l.span.stop ∧ l.token.Wins ys := by
    obtain ⟨xs, ys, zs, rfl, hstart, hstop, hwins⟩ := h
    refine ⟨part ++ xs, ys, zs, (List.append_assoc _ _ _).symm, ?_, hstop, hwins⟩
    rw [Text.byteLength_append]
    omega
  induction h with
  | done => cases hl
  | blanks _ _ ih => exact hlater _ (ih hl)
  | comment _ _ _ ih => exact hlater _ (ih hl)
  | @token n part rest ps t hwins _ _ ih =>
    rcases List.mem_cons.1 hl with heq | hl
    · cases heq
      exact ⟨[], part, rest, rfl, rfl, rfl, hwins⟩
    · exact hlater _ (ih hl)
  | @stray n c rest ps _ _ ih =>
    have hl : .token l ∈ ps := by simpa using hl
    exact hlater [c] (by simpa [Text.byteLength] using ih hl)

theorem Token.Matches.eq_of_name {x : String} {cs : List Char} (h : Matches (.name x) cs) :
    String.ofList cs = x := by
  cases h with
  | fixed h => simp [Scan.fixed] at h
  | name => rfl

/-- The slice of a text at a name is the name. -/
theorem Ident.OnTokens.slice {text : String} {x : Ident}
    (h : x.OnTokens (Piece.lexemes (Piece.scan text))) :
    Text.slice? text x.span = some x.name := by
  obtain ⟨xs, ys, zs, htext, hstart, hstop, hmatches, _⟩ :=
    (Piece.parted_scanFrom 0 text.toList).exists_wins (Piece.mem_lexemes h)
  rw [Text.slice?_of_append htext (by simpa using hstart) hstop, hmatches.eq_of_name]

theorem Script.onTokens_of_read {text : String} {s : Script} (h : read text = .ok s) :
    ∀ p ∈ s.procedures, p.OnTokens (Piece.lexemes (Piece.scan text)) := by
  obtain ⟨-, rfl⟩ := read_eq_ok_iff_harvest.1 h
  exact Harvest.onTokens (ordered_lexemes text) (eof text) _ (List.Subset.refl _)

section

variable {all : List Lexeme} (hall : Ordered all)
include hall

theorem Stmt.OnTokens.of_mem_spans {st : Stmt} (h : st.OnTokens all) :
    ∀ s ∈ st.spans, s.OnTokens all := by
  refine List.forall_mem_cons.2 ⟨h.span, List.forall_mem_append.2 ⟨?_, ?_⟩⟩
  · intro s hs
    obtain ⟨x, hx, rfl⟩ := List.mem_map.1 hs
    exact Lexeme.onTokens hall (h.target x (Option.mem_toList.1 hx))
  · intro s hs
    obtain ⟨e, he, hs⟩ := List.mem_flatMap.1 hs
    exact (h.nodes e he).spans s hs

theorem Procedure.OnTokens.of_mem_spans {p : Procedure} (h : p.OnTokens all) :
    ∀ s ∈ p.spans, s.OnTokens all := by
  refine List.forall_mem_cons.2 ⟨h.span, List.forall_mem_cons.2
    ⟨Lexeme.onTokens hall h.name, List.forall_mem_append.2 ⟨?_, ?_⟩⟩⟩
  · intro s hs
    obtain ⟨q, hq, rfl⟩ := List.mem_map.1 hs
    exact h.params q hq
  · intro s hs
    obtain ⟨st, hst, hs⟩ := List.mem_flatMap.1 hs
    exact (h.body st hst).of_mem_spans hall s hs

omit hall in
theorem Procedure.OnTokens.of_mem_idents {p : Procedure} (h : p.OnTokens all) :
    ∀ x ∈ p.idents, x.OnTokens all := by
  refine List.forall_mem_cons.2 ⟨h.name, ?_⟩
  intro x hx
  obtain ⟨st, hst, hx⟩ := List.mem_flatMap.1 hx
  rcases List.mem_append.1 hx with hx | hx
  · exact (h.body st hst).target x (Option.mem_toList.1 hx)
  · obtain ⟨e, he, hx⟩ := List.mem_filterMap.1 hx
    exact ((h.body st hst).nodes e he).callee x hx

end

/-- The tokens of a text lie inside it, and so does what they bound. -/
theorem Span.OnTokens.stop_le {text : String} {s : Span}
    (h : s.OnTokens (Piece.lexemes (Piece.scan text))) : s.stop ≤ text.utf8ByteSize := by
  obtain ⟨l, hl, hstop⟩ := h.stop_mem
  rw [← hstop]
  exact (Piece.partOf_of_mem (Piece.mem_lexemes hl)).stop_le

/-- Procedures that stand one behind the other, each of them inside the text. -/
theorem Script.Nested.of_forall_stop_le {s : Script} {n m : Nat} (h : s.Nested n)
    (hstop : ∀ p ∈ s.procedures, p.span.stop ≤ m) : s.Nested m := by
  refine ⟨h.parts.of_forall_stop_le (Nat.zero_le m) ?_, h.procedures⟩
  intro sp hsp
  obtain ⟨p, hp, rfl⟩ := List.mem_map.1 hsp
  exact hstop p hp

/-- The spans of the tree of a text are nested: the parts of every node stand inside it one
behind the other, none is empty, and operands and arguments never cover the whole expression.
Each span begins and ends with a token, and at the span of a name stands the name. -/
theorem Script.nested_spans_of_read (text : String) (s : Script) (h : read text = .ok s) :
    s.Nested text.utf8ByteSize ∧
      (∀ sp ∈ s.spans, sp.OnTokens (Piece.lexemes (Piece.scan text)) ∧
        sp.stop ≤ text.utf8ByteSize) ∧
      (∀ e ∈ s.nodes, ∀ part ∈ e.parts, part.span.Inside e.span) ∧
      ∀ x ∈ s.idents, Text.slice? text x.span = some x.name := by
  have hon := onTokens_of_read h
  have hspans : ∀ sp ∈ s.spans, sp.OnTokens (Piece.lexemes (Piece.scan text)) := by
    intro sp hsp
    obtain ⟨p, hp, hsp⟩ := List.mem_flatMap.1 hsp
    exact (hon p hp).of_mem_spans (ordered_lexemes text) sp hsp
  obtain ⟨n, hnested⟩ := nested_of_read h
  refine ⟨hnested.of_forall_stop_le fun p hp => (hon p hp).span.stop_le,
    fun sp hsp => ⟨hspans sp hsp, (hspans sp hsp).stop_le⟩, ?_, ?_⟩
  · intro e he part hpart
    exact (hnested.of_mem_nodes e he).inside_of_mem_parts hpart
  · intro x hx
    obtain ⟨p, hp, hx⟩ := List.mem_flatMap.1 hx
    exact ((hon p hp).of_mem_idents x hx).slice

/-- Parentheses widen the span of the call inside them, but not that of its callee. -/
theorem Script.nested_spans_widened :
    let text := "def f(a : Bool) : Bool is var b : Bool := (f(not a)); return b or f(b); end"
    ∃ s, read text = .ok s ∧
      s.idents = [⟨"f", ⟨4, 5⟩⟩, ⟨"b", ⟨30, 31⟩⟩, ⟨"f", ⟨43, 44⟩⟩, ⟨"f", ⟨66, 67⟩⟩] ∧
      s.nodes.map Expr.span =
        [⟨42, 52⟩, ⟨45, 50⟩, ⟨49, 50⟩, ⟨61, 70⟩, ⟨61, 62⟩, ⟨66, 70⟩, ⟨68, 69⟩] ∧
      s.Nested text.utf8ByteSize ∧
      (∀ e ∈ s.nodes, ∀ part ∈ e.parts, part.span.Inside e.span) ∧
      ∀ x ∈ s.idents, Text.slice? text x.span = some x.name := by
  intro text
  have hclean : (harvest text).faults = [] := by decide +kernel
  have hread : read text = .ok ⟨(harvest text).procedures⟩ :=
    read_eq_ok_iff_harvest.2 ⟨hclean, rfl⟩
  obtain ⟨hnested, _, hinside, hslices⟩ := nested_spans_of_read text _ hread
  exact ⟨_, hread, by decide +kernel, by decide +kernel, hnested, hinside, hslices⟩

end ScriptCheck
