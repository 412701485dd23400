import ScriptCheck.Proofs.CallGraph
import ScriptCheck.Proofs.Reading.Repeated
import ScriptCheck.Proofs.Token.Slices

/-!
# Every node is read from its own tokens

The tokens from which a node of an expression was read are covered by the span of the node.
Read on their own, from the loosest tier and at no depth, they are that node again. So the
span of a node is neither too wide nor too narrow, also where parentheses have widened it.
-/
namespace ScriptCheck

/-! ## Nodes and their tokens -/

/-- The tokens, read on their own, are the expression, and its span covers them. -/
structure Spells (part : List Lexeme) (e : Expr) : Prop where
  read : (Reader.expr nestingLimit).val.run part = .done e []
  covers : Covers part e.span

/-- Some tokens in a row spell the expression. -/
def Spelled (ls : List Lexeme) (e : Expr) : Prop := ∃ part, part <:+: ls ∧ Spells part e

theorem Spelled.mono {ls ls' : List Lexeme} {e : Expr} (h : Spelled ls e) (hs : ls <:+: ls') :
    Spelled ls' e := by
  obtain ⟨part, hpart, he⟩ := h
  exact ⟨part, hpart.trans hs, he⟩

/-- The nodes of an expression without the expression itself. -/
def Expr.innerNodes : Expr → List Expr
  | .int _ _ | .bool _ _ | .var _ _ => []
  | .call _ args _ _ => Expr.nodesAll args
  | .binary _ left right _ => left.nodes ++ right.nodes
  | .unary _ operand _ => operand.nodes

theorem Expr.nodes_eq (e : Expr) : e.nodes = e :: e.innerNodes := by
  cases e <;> simp [Expr.nodes, Expr.innerNodes]

theorem Expr.innerNodes_withSpan (s : Span) (e : Expr) :
    (e.withSpan s).innerNodes = e.innerNodes := by
  cases e <;> rfl

/-- All expressions of a statement. The call that a statement is counts as none, but those in
its arguments do. -/
def Stmt.exprNodes : Stmt → List Expr
  | .call c _ => Expr.nodesAll c.args
  | st => st.nodes

def Procedure.exprNodes (p : Procedure) : List Expr := p.body.flatMap Stmt.exprNodes

def Script.exprNodes (s : Script) : List Expr := s.procedures.flatMap Procedure.exprNodes

namespace Grammar

/-- The tokens that are taken for an expression are covered by its span, and they spell the
nodes that are asked for. -/
def Traces (p : Reader Expr) (nodes : Expr → List Expr) : Prop :=
  ∀ ⦃ls e rest⦄, Ordered ls → p.run ls = .done e rest →
    ∃ mid, ls = mid ++ rest ∧ Covers mid e.span ∧ ∀ n ∈ nodes e, Spelled mid n

section

variable {outer inner tiers : List Tier} {tier : Tier} {budget : Nat} {ls rest : List Lexeme}
  {e : Expr}

/-- If all nodes inside an expression are spelled, so is the expression itself. -/
theorem traces_of_innerNodes (htiers : outer ++ inner = Tier.all) (hbudget : budget ≤ nestingLimit)
    (h : Traces (level inner budget).val Expr.innerNodes) :
    Traces (level inner budget).val Expr.nodes := by
  intro ls e rest hs hrun
  obtain ⟨mid, rfl, hcovers, hbelow⟩ := h hs hrun
  obtain ⟨mid', hmid, hread⟩ := run_expr_of_level htiers hbudget hrun
  obtain rfl := List.append_cancel_right hmid
  refine ⟨mid, rfl, hcovers, ?_⟩
  rw [e.nodes_eq]
  exact List.forall_mem_cons.2 ⟨⟨mid, List.infix_rfl, hread, hcovers⟩, hbelow⟩

/-- The tokens that an operand was read from can be read again, with less behind them. -/
theorem Traces.run (h : Traces (level tiers budget).val Expr.nodes)
    (hbudget : budget ≤ nestingLimit) (hs : Ordered ls)
    (hrun : (level tiers budget).val.run ls = .done e rest) :
    ∃ mid, ls = mid ++ rest ∧ Covers mid e.span ∧ (∀ n ∈ e.nodes, Spelled mid n) ∧
      ∀ ⦃rest'⦄, rest' <+: rest →
        (level tiers nestingLimit).val.run (mid ++ rest') = .done e rest' := by
  obtain ⟨mid, rfl, hcovers, hnodes⟩ := h hs hrun
  obtain ⟨mid', hmid, hrepeat⟩ := Reader.repeats_tiers (Reader.repeats_unary hbudget) tiers hrun
  obtain rfl := List.append_cancel_right hmid
  exact ⟨mid, rfl, hcovers, hnodes, hrepeat⟩

/-- Of a chain the part `left` has been read, from the tokens `taken`, and `ls` is left. Reading
the chain anew comes to the same part at the same place, and the tokens spell its nodes. -/
structure Reached (tier : Tier) (tiers : List Tier) (taken ls : List Lexeme) (left : Expr) :
    Prop where
  again : ∀ rest, rest <+: ls → (level (tier :: tiers) nestingLimit).val.run (taken ++ rest) =
    Reader.chainFrom tier (level tiers nestingLimit) left rest
  covers : Covers taken left.span
  nodes : ∀ n ∈ left.nodes, Spelled taken n

/-- A part that reading comes to with nothing behind it is an expression on its own. -/
theorem run_expr_of_chainFrom (htiers : outer ++ tier :: tiers = Tier.all) {taken : List Lexeme}
    {left : Expr} (h : (level (tier :: tiers) nestingLimit).val.run (taken ++ []) =
      Reader.chainFrom tier (level tiers nestingLimit) left []) :
    (Reader.expr nestingLimit).val.run taken = .done left [] := by
  rw [List.append_nil, Reader.chainFrom_end (by simp)] at h
  show (level Tier.all nestingLimit).val.run taken = .done left []
  rw [← htiers]
  exact level_append h

/-- One more operator and its operand. -/
theorem Reached.step {taken first after : List Lexeme} {l : Lexeme} {op : BinaryOp}
    {left right : Expr} (h : Reached tier tiers taken (l :: (first ++ after)) left)
    (htiers : outer ++ tier :: tiers = Tier.all) (hop : tier.ofToken? l.token = some op)
    (hs : Ordered (taken ++ l :: first))
    (hrepeat : ∀ ⦃rest⦄, rest <+: after →
      (level tiers nestingLimit).val.run (first ++ rest) = .done right rest)
    (hcovers : Covers first right.span) (hnodes : ∀ n ∈ right.nodes, Spelled first n) :
    Reached tier tiers (taken ++ l :: first) after (.join op left right) := by
  have hagain : ∀ rest, rest <+: after →
      (level (tier :: tiers) nestingLimit).val.run ((taken ++ l :: first) ++ rest) =
        Reader.chainFrom tier (level tiers nestingLimit) (.join op left right) rest := by
    intro rest hrest
    have hprefix : l :: (first ++ rest) <+: l :: (first ++ after) :=
      List.cons_prefix_cons.2 ⟨rfl, (List.prefix_append_right_inj first).2 hrest⟩
    rw [List.append_assoc, List.cons_append, h.again _ hprefix]
    exact Reader.chainFrom_more hop (hrepeat hrest)
  have hjoin : Covers (taken ++ l :: first) (Expr.join op left right).span := by
    show Covers (taken ++ ([l] ++ first)) (left.span.merge right.span)
    exact h.covers.merge hcovers hs
  refine ⟨hagain, hjoin, fun n hn => ?_⟩
  rcases List.mem_cons.1 hn with rfl | hn
  · have hread := run_expr_of_chainFrom htiers (hagain [] List.nil_prefix)
    exact ⟨taken ++ l :: first, List.infix_rfl, hread, hjoin⟩
  rcases List.mem_append.1 hn with hn | hn
  · exact (h.nodes n hn).mono (List.prefix_append _ _).isInfix
  · exact (hnodes n hn).mono ((List.suffix_cons l first).trans (List.suffix_append _ _)).isInfix

/-- The rest of a chain, from the part that has been read. -/
theorem traces_chainFrom (htiers : outer ++ tier :: tiers = Tier.all)
    (hbudget : budget ≤ nestingLimit) (h : Traces (level tiers budget).val Expr.nodes)
    {left : Expr} (taken : List Lexeme) (hs : Ordered (taken ++ ls))
    (hleft : Reached tier tiers taken ls left)
    (hrun : Reader.chainFrom tier (level tiers budget) left ls = .done e rest) :
    ∃ mid, ls = mid ++ rest ∧ Covers (taken ++ mid) e.span ∧
      ∀ n ∈ e.nodes, Spelled (taken ++ mid) n := by
  have hend {left : Expr} {taken ls : List Lexeme} (hleft : Reached tier tiers taken ls left) :
      Covers (taken ++ []) left.span ∧ ∀ n ∈ left.nodes, Spelled (taken ++ []) n := by
    rw [List.append_nil]
    exact ⟨hleft.covers, hleft.nodes⟩
  fun_induction Reader.chainFrom tier (level tiers budget) left ls generalizing taken with
  | case1 left =>
    cases hrun
    exact ⟨[], rfl, hend hleft⟩
  | case2 left l ls hl =>
    cases hrun
    exact ⟨[], rfl, hend hleft⟩
  | case3 left l ls op hop right after hright ih =>
    have hls : Ordered ls := hs.sublist
      ((List.sublist_cons_self l ls).trans (List.sublist_append_right _ _))
    obtain ⟨first, rfl, hcovers, hnodes, hrepeat⟩ := h.run hbudget hls hright
    have hsplit (more : List Lexeme) :
        (taken ++ l :: first) ++ more = taken ++ l :: (first ++ more) := by simp
    rw [← hsplit] at hs
    have hjoin := hleft.step htiers hop (hs.sublist (List.sublist_append_left _ _)) hrepeat
      hcovers hnodes
    obtain ⟨mid, rfl, hmid⟩ := ih (taken ++ l :: first) hs hjoin hrun
    rw [hsplit] at hmid
    exact ⟨l :: (first ++ mid), by simp, hmid⟩
  | case4 => cases hrun

theorem traces_level (htiers : outer ++ inner = Tier.all) (hbudget : budget ≤ nestingLimit)
    (h : Traces (Reader.unary budget).val Expr.nodes) :
    Traces (level inner budget).val Expr.nodes := by
  induction inner generalizing outer with
  | nil => exact h
  | cons tier tiers ih =>
    have hoperand := @ih (outer ++ [tier]) (by simpa using htiers)
    intro ls e rest hs hrun
    obtain ⟨left, after, hleft, hchain⟩ := Reader.bind_eq_done.1 hrun
    obtain ⟨first, rfl, hcovers, hnodes, hrepeat⟩ := hoperand.run hbudget hs hleft
    have hreached : Reached tier tiers first after left :=
      ⟨fun rest hrest => Reader.run_bind_done (hrepeat hrest), hcovers, hnodes⟩
    obtain ⟨mid, rfl, hmid⟩ := traces_chainFrom htiers hbudget hoperand first hs hreached hchain
    exact ⟨first ++ mid, by rw [List.append_assoc], hmid⟩

end

/-! ## Operands -/

section

variable {inner : Consumer Expr} {expr : Consumer Expr} {ls rest : List Lexeme} {e : Expr}
  {es : List Expr}

theorem spelled_items (h : Traces expr.val Expr.nodes) (hs : Ordered ls)
    (hrun : expr.itemsFrom ls = .done es rest) :
    ∃ mid, ls = mid ++ rest ∧ ∀ n ∈ Expr.nodesAll es, Spelled mid n := by
  fun_induction Consumer.itemsFrom expr ls generalizing es rest with
  | case1 => cases hrun
  | case2 ls e s after hitem es' rest hmore ih =>
    cases hrun
    obtain ⟨first, rfl, _, hfirst⟩ := h hs hitem
    obtain ⟨mid, rfl, hmid⟩ := ih
      (hs.sublist ((List.sublist_cons_self _ _).trans (List.sublist_append_right _ _))) hmore
    refine ⟨first ++ ⟨.comma, s⟩ :: mid, by simp, fun n hn => ?_⟩
    rcases List.mem_append.1 hn with hn | hn
    · exact (hfirst n hn).mono (List.prefix_append _ _).isInfix
    · exact (hmid n hn).mono ((List.suffix_cons _ _).trans (List.suffix_append _ _)).isInfix
  | case3 => cases hrun
  | case4 ls e after _ hitem =>
    cases hrun
    obtain ⟨mid, rfl, _, hmid⟩ := h hs hitem
    exact ⟨mid, rfl, by simpa [Expr.nodesAll] using hmid⟩

theorem spelled_parenthesized (h : Traces expr.val Expr.nodes) (hs : Ordered ls) {close : Span}
    (hrun : expr.parenthesized.val.run ls = .done (es, close) rest) :
    ∃ s mid, ls = ⟨.openParen, s⟩ :: (mid ++ ⟨.closeParen, close⟩ :: rest) ∧
      ∀ n ∈ Expr.nodesAll es, Spelled mid n := by
  obtain ⟨s, mid, rfl, hlist⟩ := token_bind_inv hrun
  have hs := hs.sublist (List.sublist_cons_self _ _)
  have hitems (hrun : (expr.items >>= fun values => Reader.token .closeParen >>= fun close =>
      pure (values, close)).run mid = .done (es, close) rest) :
      ∃ s' mid', (⟨.openParen, s⟩ :: mid : List Lexeme) =
        ⟨.openParen, s'⟩ :: (mid' ++ ⟨.closeParen, close⟩ :: rest) ∧
        ∀ n ∈ Expr.nodesAll es, Spelled mid' n := by
    obtain ⟨es', last, hitems, hvalue⟩ := closed_inv hrun
    cases hvalue
    obtain ⟨mid', rfl, hmid⟩ := spelled_items h hs hitems
    exact ⟨s, mid', rfl, hmid⟩
  cases mid with
  | nil => exact hitems hlist
  | cons l mid =>
    obtain ⟨t, s'⟩ := l
    cases t
    case closeParen =>
      cases hlist
      exact ⟨s, [], rfl, List.forall_mem_nil _⟩
    all_goals exact hitems hlist

/-- A prefix operator and its operand. -/
theorem traces_prefixed (h : Traces inner.val Expr.nodes) {l : Lexeme} {op : UnaryOp}
    (hs : Ordered (l :: ls))
    (hrun : (inner.val >>= fun e => pure (Expr.unary op e (l.span.merge e.span))).run ls =
      .done e rest) :
    ∃ mid, l :: ls = mid ++ rest ∧ Covers mid e.span ∧ ∀ n ∈ e.innerNodes, Spelled mid n := by
  obtain ⟨operand, after, hinner, hdone⟩ := Reader.bind_eq_done.1 hrun
  cases hdone
  obtain ⟨mid, rfl, hcovers, hnodes⟩ := h (hs.sublist (List.sublist_cons_self _ _)) hinner
  refine ⟨l :: mid, rfl, ?_, fun n hn => (hnodes n hn).mono (List.suffix_cons l mid).isInfix⟩
  show Covers (l :: ([] ++ mid)) (l.span.merge operand.span)
  exact hcovers.after (hs.sublist (List.sublist_append_left (l :: mid) rest))

/-- A minus sign: part of a number that follows directly, an operator otherwise. -/
theorem traces_minus (h : Traces inner.val Expr.nodes) {s : Span}
    (hs : Ordered (⟨.minus, s⟩ :: ls))
    (hrun : (Reader.operand inner).run (⟨.minus, s⟩ :: ls) = .done e rest) :
    ∃ mid, ⟨.minus, s⟩ :: ls = mid ++ rest ∧ Covers mid e.span ∧
      ∀ n ∈ e.innerNodes, Spelled mid n := by
  by_cases hnumber : ∃ digits s' ls', ls = ⟨.number digits, s'⟩ :: ls'
  · obtain ⟨digits, s', ls', rfl⟩ := hnumber
    rw [Reader.operand_signed] at hrun
    obtain ⟨_, s'', hls, rfl⟩ := literal_inv hrun
    cases hls
    refine ⟨[⟨.minus, s⟩, ⟨.number digits, s'⟩], rfl, ?_, List.forall_mem_nil _⟩
    show Covers (⟨.minus, s⟩ :: ([] ++ [⟨.number digits, s'⟩])) (s.merge s')
    apply (covers_singleton ⟨.number digits, s'⟩).after
    exact hs.sublist (List.sublist_append_left [⟨.minus, s⟩, ⟨.number digits, s'⟩] rest)
  · have hhead : ∀ l ∈ ls.head?, ∀ digits, l.token ≠ .number digits := by
      rintro ⟨t, s'⟩ hl digits rfl
      obtain ⟨ls', rfl⟩ := List.head?_eq_some_iff.1 hl
      exact hnumber ⟨digits, s', ls', rfl⟩
    rw [Reader.operand_neg hhead] at hrun
    exact traces_prefixed h hs hrun

/-- A name: a call where an opening parenthesis follows, a variable otherwise. -/
theorem traces_name (h : Traces (Reader.tiers inner).val Expr.nodes) {x : String} {s : Span}
    (hs : Ordered (⟨.name x, s⟩ :: ls))
    (hrun : (Reader.operand inner).run (⟨.name x, s⟩ :: ls) = .done e rest) :
    ∃ mid, ⟨.name x, s⟩ :: ls = mid ++ rest ∧ Covers mid e.span ∧
      ∀ n ∈ e.innerNodes, Spelled mid n := by
  by_cases hopen : ∃ s' ls', ls = ⟨.openParen, s'⟩ :: ls'
  · obtain ⟨s', ls', rfl⟩ := hopen
    rw [Reader.operand_call] at hrun
    obtain ⟨c, after, hcall, hdone⟩ := Reader.bind_eq_done.1 hrun
    cases hdone
    obtain ⟨⟨args, close⟩, after, hparens, hdone⟩ := Reader.bind_eq_done.1 hcall
    cases hdone
    obtain ⟨s'', mid, hls, hnodes⟩ :=
      spelled_parenthesized h (hs.sublist (List.sublist_cons_self _ _)) hparens
    cases hls
    have hls : (⟨.name x, s⟩ :: ⟨.openParen, s'⟩ :: (mid ++ ⟨.closeParen, close⟩ :: rest) :
        List Lexeme) = (⟨.name x, s⟩ :: (⟨.openParen, s'⟩ :: mid ++ [⟨.closeParen, close⟩])) ++
          rest := by simp
    rw [hls] at hs ⊢
    refine ⟨_, rfl, ?_, fun n hn => ?_⟩
    · exact (covers_singleton ⟨.closeParen, close⟩).after
        (hs.sublist (List.sublist_append_left _ _))
    · exact (hnodes n hn).mono ⟨[⟨.name x, s⟩, ⟨.openParen, s'⟩], [⟨.closeParen, close⟩], rfl⟩
  · have hhead : ∀ l ∈ ls.head?, l.token ≠ .openParen := by
      rintro ⟨t, s'⟩ hl rfl
      obtain ⟨ls', rfl⟩ := List.head?_eq_some_iff.1 hl
      exact hopen ⟨s', ls', rfl⟩
    rw [Reader.operand_name hhead] at hrun
    cases hrun
    exact ⟨[⟨.name x, s⟩], rfl, covers_singleton _, List.forall_mem_nil _⟩

theorem traces_operand (h : Traces inner.val Expr.nodes)
    (hexpr : Traces (Reader.tiers inner).val Expr.nodes) :
    Traces (Reader.operand inner) Expr.innerNodes := by
  intro ls e rest hs hrun
  cases ls with
  | nil => cases hrun
  | cons l ls =>
    obtain ⟨t, s⟩ := l
    cases t
    case minus => exact traces_minus h hs hrun
    case notOp => exact traces_prefixed h hs hrun
    case number digits =>
      rw [Reader.operand_number] at hrun
      obtain ⟨_, s', hls, rfl⟩ := literal_inv hrun
      cases hls
      exact ⟨[⟨.number digits, s⟩], rfl, covers_singleton _, List.forall_mem_nil _⟩
    case trueWord =>
      cases hrun
      exact ⟨[⟨.trueWord, s⟩], rfl, covers_singleton _, List.forall_mem_nil _⟩
    case falseWord =>
      cases hrun
      exact ⟨[⟨.falseWord, s⟩], rfl, covers_singleton _, List.forall_mem_nil _⟩
    case name x => exact traces_name hexpr hs hrun
    case openParen =>
      rw [Reader.operand_parens] at hrun
      obtain ⟨e', s', hinner, rfl⟩ := closed_inv hrun
      obtain ⟨mid, rfl, _, hnodes⟩ := hexpr (hs.sublist (List.sublist_cons_self _ _)) hinner
      have hls : (⟨.openParen, s⟩ :: (mid ++ ⟨.closeParen, s'⟩ :: rest) : List Lexeme) =
          (⟨.openParen, s⟩ :: (mid ++ [⟨.closeParen, s'⟩])) ++ rest := by simp
      rw [hls] at hs ⊢
      refine ⟨_, rfl, ?_, fun n hn => ?_⟩
      · rw [Expr.span_withSpan]
        exact (covers_singleton ⟨.closeParen, s'⟩).after (hs.sublist (List.sublist_append_left _ _))
      · rw [Expr.innerNodes_withSpan] at hn
        have hn : n ∈ e'.nodes := e'.nodes_eq ▸ List.mem_cons_of_mem e' hn
        exact (hnodes n hn).mono ⟨[⟨.openParen, s⟩], [⟨.closeParen, s'⟩], rfl⟩
    all_goals cases hrun

/-- Every node of an expression is spelled by tokens of it. -/
theorem traces_unary {budget : Nat} (h : budget ≤ nestingLimit) :
    Traces (Reader.unary budget).val Expr.nodes := by
  induction budget with
  | zero =>
    intro ls e rest _ hrun
    cases hrun
  | succ budget ih =>
    have hunary := ih (by omega)
    have hexpr : Traces (level Tier.all budget).val Expr.nodes :=
      traces_level (List.nil_append _) (by omega) hunary
    exact traces_of_innerNodes (List.append_nil _) h (traces_operand hunary hexpr)

theorem traces_expr : Traces (Reader.expr nestingLimit).val Expr.nodes :=
  traces_level (List.nil_append _) (Nat.le_refl _) (traces_unary (Nat.le_refl _))

end

/-! ## Statements -/

section

variable {ls rest : List Lexeme} {st : Stmt}

/-- An expression and the semicolon behind it. -/
theorem spelled_value {f : Option Expr → Span → Stmt} (hs : Ordered ls)
    (h : (((Reader.expr nestingLimit).val >>= fun e => pure (some e)) >>= fun value =>
      Reader.token .semicolon >>= fun last => pure (f value last)).run ls = .done st rest) :
    ∃ e last, st = f (some e) last ∧ ∀ n ∈ e.nodes, Spelled ls n := by
  obtain ⟨value, last, hvalue, rfl⟩ := closed_inv h
  obtain ⟨e, after, he, hdone⟩ := Reader.bind_eq_done.1 hvalue
  cases hdone
  obtain ⟨mid, rfl, _, hnodes⟩ := traces_expr hs he
  exact ⟨e, last, rfl, fun n hn => (hnodes n hn).mono (List.prefix_append _ _).isInfix⟩

theorem spelled_declaration (hs : Ordered ls) (hrun : Reader.declaration.run ls = .done st rest) :
    ∀ n ∈ st.exprNodes, Spelled ls n := by
  obtain ⟨first, mid, rfl, hname⟩ := token_bind_inv hrun
  obtain ⟨x, mid, rfl, hcolon⟩ := ident_bind_inv hname
  obtain ⟨colon, mid, rfl, htype⟩ := token_bind_inv hcolon
  obtain ⟨t, s, mid, rfl, hinit⟩ := type_bind_inv htype
  have hnone (hrun : (pure none >>= fun init => Reader.token .semicolon >>= fun last =>
      pure (Stmt.declare x t.type init (first.merge last))).run mid = .done st rest) :
      ∀ n ∈ st.exprNodes, Spelled (⟨.varWord, first⟩ :: ⟨.name x.name, x.span⟩ ::
        ⟨.colon, colon⟩ :: ⟨t.token, s⟩ :: mid) n := by
    obtain ⟨init, last, hnone, rfl⟩ := closed_inv hrun
    cases hnone
    exact List.forall_mem_nil _
  cases mid with
  | nil => exact hnone hinit
  | cons l mid =>
    obtain ⟨t', s'⟩ := l
    cases t'
    case becomes =>
      have hsuffix : mid <:+ ⟨.varWord, first⟩ :: ⟨.name x.name, x.span⟩ :: ⟨.colon, colon⟩ ::
          ⟨t.token, s⟩ :: ⟨.becomes, s'⟩ :: mid := ⟨[_, _, _, _, _], rfl⟩
      obtain ⟨e, last, rfl, hnodes⟩ := spelled_value
        (f := fun init last => Stmt.declare x t.type init (first.merge last))
        (hs.sublist hsuffix.sublist) hinit
      intro n hn
      exact (hnodes n (by simpa [Stmt.exprNodes, Stmt.nodes] using hn)).mono hsuffix.isInfix
    all_goals exact hnone hinit

theorem spelled_returning (hs : Ordered ls) (hrun : Reader.returning.run ls = .done st rest) :
    ∀ n ∈ st.exprNodes, Spelled ls n := by
  obtain ⟨first, mid, rfl, hvalue⟩ := token_bind_inv hrun
  have hsome (hrun : (((Reader.expr nestingLimit).val >>= fun e => pure (some e)) >>=
      fun value => Reader.token .semicolon >>= fun last =>
        pure (Stmt.ret value (first.merge last))).run mid = .done st rest) :
      ∀ n ∈ st.exprNodes, Spelled (⟨.returnWord, first⟩ :: mid) n := by
    obtain ⟨e, last, rfl, hnodes⟩ := spelled_value (hs.sublist (List.sublist_cons_self _ _)) hrun
    intro n hn
    exact (hnodes n (by simpa [Stmt.exprNodes, Stmt.nodes] using hn)).mono
      (List.suffix_cons _ _).isInfix
  cases mid with
  | nil => exact hsome hvalue
  | cons l mid =>
    obtain ⟨t, s⟩ := l
    cases t
    case semicolon =>
      obtain ⟨value, last, hnone, rfl⟩ := closed_inv (p := pure none)
        (f := fun value last => Stmt.ret value (first.merge last)) hvalue
      cases hnone
      exact List.forall_mem_nil _
    all_goals exact hsome hvalue

theorem spelled_action (hs : Ordered ls) (hrun : Reader.action.run ls = .done st rest) :
    ∀ n ∈ st.exprNodes, Spelled ls n := by
  obtain ⟨x, mid, rfl, hmore⟩ := ident_bind_inv hrun
  cases mid with
  | nil => cases hmore
  | cons l mid =>
    obtain ⟨t, s⟩ := l
    cases t
    case becomes =>
      obtain ⟨e, last, he, rfl⟩ := closed_inv (p := (Reader.expr nestingLimit).val)
        (f := fun value last => Stmt.assign x value (x.span.merge last)) hmore
      have hsuffix : mid <:+ ⟨.name x.name, x.span⟩ :: ⟨.becomes, s⟩ :: mid := ⟨[_, _], rfl⟩
      obtain ⟨taken, rfl, _, hnodes⟩ := traces_expr (hs.sublist hsuffix.sublist) he
      intro n hn
      exact ((hnodes n hn).mono (List.prefix_append _ _).isInfix).mono hsuffix.isInfix
    case openParen =>
      obtain ⟨c, last, hcall, rfl⟩ := closed_inv (p := Reader.call (Reader.expr nestingLimit) x)
        (f := fun c last => Stmt.call c (x.span.merge last)) hmore
      obtain ⟨⟨args, close⟩, after, hparens, hdone⟩ := Reader.bind_eq_done.1 hcall
      cases hdone
      obtain ⟨s', taken, hls, hnodes⟩ := spelled_parenthesized traces_expr
        (hs.sublist (List.sublist_cons_self _ _)) hparens
      cases hls
      intro n hn
      refine (hnodes n hn).mono ?_
      exact ⟨[⟨.name x.name, x.span⟩, ⟨.openParen, s⟩], _, rfl⟩
    all_goals cases hmore

theorem spelled_statement (hs : Ordered ls) (hrun : Reader.statement.run ls = .done st rest) :
    ∀ n ∈ st.exprNodes, Spelled ls n := by
  cases ls with
  | nil => cases hrun
  | cons l ls =>
    obtain ⟨t, s⟩ := l
    cases t
    case varWord => exact spelled_declaration hs hrun
    case returnWord => exact spelled_returning hs hrun
    case name => exact spelled_action hs hrun
    all_goals cases hrun

end

end Grammar

end ScriptCheck
