import ScriptCheck.Proofs.Grammar.Completeness

/-!
# What is read is derived by the grammar

Whenever a reader is done, the tokens it took are those of a derivation whose tree, places
aside, is the value it gives; the numbers of the derivation fit, and its nesting is within
the budget.
-/
namespace ScriptCheck.Grammar

/-- Of the tokens `ls`, exactly `ts` were taken and `rest` is left. -/
def Took (ls : List Lexeme) (ts : List Token) (rest : List Lexeme) : Prop :=
  ls.map (·.token) = ts ++ rest.map (·.token)

section

variable {ls mid rest : List Lexeme} {ts us : List Token}

theorem took_nil (ls : List Lexeme) : Took ls [] ls := rfl

theorem Took.trans (h : Took ls ts mid) (h' : Took mid us rest) : Took ls (ts ++ us) rest := by
  unfold Took at *
  rw [h, h', List.append_assoc]

theorem Took.cons (t : Token) (s : Span) (h : Took ls ts rest) :
    Took (⟨t, s⟩ :: ls) (t :: ts) rest := by
  unfold Took at *
  rw [List.map_cons, h, List.cons_append]

end

section

variable {ls rest : List Lexeme} {s : Span}

theorem accept_inv {α : Type} {wanted : Wanted} {pick : Token → Option α} {a : α}
    (h : (Reader.accept wanted pick).run ls = .done (a, s) rest) :
    ∃ t, ls = ⟨t, s⟩ :: rest ∧ pick t = some a := by
  cases ls with
  | nil => cases h
  | cons l ls =>
    obtain ⟨t, s'⟩ := l
    cases hp : pick t with
    | none => simp [Reader.accept, hp] at h
    | some b =>
      simp only [Reader.accept, hp, Outcome.done.injEq, Prod.mk.injEq] at h
      obtain ⟨⟨rfl, rfl⟩, rfl⟩ := h
      exact ⟨t, rfl, hp⟩

theorem token_inv {t : Token} (h : (Reader.token t).run ls = .done s rest) :
    ls = ⟨t, s⟩ :: rest := by
  obtain ⟨⟨a, s'⟩, mid, hrun, hdone⟩ := Reader.bind_eq_done.1 h
  obtain ⟨t', rfl, hpick⟩ := accept_inv hrun
  cases hdone
  by_cases ht : t' = t
  · rw [ht]
  · rw [if_neg ht] at hpick
    cases hpick

theorem ident_inv {x : Ident} (h : Reader.ident.run ls = .done x rest) :
    ls = ⟨.name x.name, x.span⟩ :: rest := by
  obtain ⟨⟨a, s'⟩, mid, hrun, hdone⟩ := Reader.bind_eq_done.1 h
  obtain ⟨t, rfl, hpick⟩ := accept_inv hrun
  cases hdone
  cases t <;> cases hpick
  rfl

theorem type_inv {ty : Ty} (h : Reader.type.run ls = .done (ty, s) rest) :
    ∃ t : TypeName, ls = ⟨t.token, s⟩ :: rest ∧ ty = t.type := by
  obtain ⟨t, rfl, hpick⟩ := accept_inv h
  cases t <;> cases hpick
  · exact ⟨.int32, rfl, rfl⟩
  · exact ⟨.bool, rfl, rfl⟩
  · exact ⟨.void, rfl, rfl⟩

theorem literal_inv {sign : Option Span} {digits : String} {e : Expr}
    (h : (Reader.literal sign digits).run ls = .done e rest) :
    fitsInt32 (Reader.signedValue sign digits) = true ∧ ∃ s, ls = ⟨.number digits, s⟩ :: rest ∧
      e = .int (Reader.signedValue sign digits) (Reader.signedSpan sign s) := by
  unfold Reader.literal at h
  split at h
  · next hfits =>
    obtain ⟨s, mid, htoken, hdone⟩ := Reader.bind_eq_done.1 h
    cases hdone
    exact ⟨hfits, s, token_inv htoken, rfl⟩
  · cases h

end

section

variable {α β : Type} {ls rest : List Lexeme} {b : β}

theorem token_bind_inv {t : Token} {k : Span → Reader β}
    (h : (Reader.token t >>= k).run ls = .done b rest) :
    ∃ s mid, ls = ⟨t, s⟩ :: mid ∧ (k s).run mid = .done b rest := by
  obtain ⟨s, mid, ht, hk⟩ := Reader.bind_eq_done.1 h
  exact ⟨s, mid, token_inv ht, hk⟩

theorem ident_bind_inv {k : Ident → Reader β}
    (h : (Reader.ident >>= k).run ls = .done b rest) :
    ∃ x mid, ls = ⟨.name x.name, x.span⟩ :: mid ∧ (k x).run mid = .done b rest := by
  obtain ⟨x, mid, hx, hk⟩ := Reader.bind_eq_done.1 h
  exact ⟨x, mid, ident_inv hx, hk⟩

theorem type_bind_inv {k : Ty × Span → Reader β}
    (h : (Reader.type >>= k).run ls = .done b rest) :
    ∃ (t : TypeName) (s : Span) (mid : List Lexeme),
      ls = ⟨t.token, s⟩ :: mid ∧ (k (t.type, s)).run mid = .done b rest := by
  obtain ⟨⟨ty, s⟩, mid, hty, hk⟩ := Reader.bind_eq_done.1 h
  obtain ⟨t, hls, rfl⟩ := type_inv hty
  exact ⟨t, s, mid, hls, hk⟩

/-- What ends with a given token. -/
theorem closed_inv {p : Reader α} {t : Token} {f : α → Span → β}
    (h : (p >>= fun a => Reader.token t >>= fun last => pure (f a last)).run ls = .done b rest) :
    ∃ a last, p.run ls = .done a (⟨t, last⟩ :: rest) ∧ b = f a last := by
  obtain ⟨a, mid, hp, h⟩ := Reader.bind_eq_done.1 h
  obtain ⟨last, mid', rfl, hdone⟩ := token_bind_inv h
  cases hdone
  exact ⟨a, last, hp, rfl⟩

end

/-! ## Lists in parentheses -/

section

variable {α δ : Type} {item : Consumer α} {tokens : δ → List Token} {P : δ → α → Prop}
  {ls rest : List Lexeme} {as : List α}

/-- What `item` reads has a derivation that stands in the relation `P` to the value. -/
def Sound (p : Reader α) (tokens : δ → List Token) (P : δ → α → Prop) : Prop :=
  ∀ ⦃ls a rest⦄, p.run ls = .done a rest → ∃ d, Took ls (tokens d) rest ∧ P d a

theorem map_eq_of_forall₂ {β : Type} {f : α → β} {g : δ → β} {ds : List δ}
    (h : List.Forall₂ (fun d a => f a = g d) ds as) : as.map f = ds.map g := by
  induction h with
  | nil => rfl
  | cons hd _ ih => rw [List.map_cons, List.map_cons, hd, ih]

theorem itemsFrom_sound (h : Sound item.val tokens P) (hrun : item.itemsFrom ls = .done as rest) :
    ∃ ds, ds ≠ [] ∧ Took ls (commas (ds.map tokens)) rest ∧ List.Forall₂ P ds as := by
  fun_induction Consumer.itemsFrom item ls generalizing as rest with
  | case1 => cases hrun
  | case2 ls a s mid hitem as' rest' hmore ih =>
    cases hrun
    obtain ⟨d, htook, hd⟩ := h hitem
    obtain ⟨ds, hne, htooks, hds⟩ := ih hmore
    refine ⟨d :: ds, List.cons_ne_nil _ _, ?_, List.Forall₂.cons hd hds⟩
    cases ds with
    | nil => exact absurd rfl hne
    | cons d' ds => exact htook.trans (htooks.cons .comma s)
  | case3 => cases hrun
  | case4 ls a mid _ hitem =>
    cases hrun
    obtain ⟨d, htook, hd⟩ := h hitem
    exact ⟨[d], List.cons_ne_nil _ _, htook, List.Forall₂.cons hd List.Forall₂.nil⟩

theorem parenthesized_sound (h : Sound item.val tokens P) {close : Span}
    (hrun : item.parenthesized.val.run ls = .done (as, close) rest) :
    ∃ ds, Took ls (.openParen :: (commas (ds.map tokens) ++ [.closeParen])) rest ∧
      List.Forall₂ P ds as := by
  obtain ⟨s, mid, rfl, hlist⟩ := token_bind_inv hrun
  have hclose {p : Reader (List α)}
      (hp : Sound p (fun ds => commas (ds.map tokens)) (List.Forall₂ P))
      (hrun : (p >>= fun values => Reader.token .closeParen >>= fun close =>
        pure (values, close)).run mid = .done (as, close) rest) :
      ∃ ds, Took (⟨.openParen, s⟩ :: mid) (.openParen :: (commas (ds.map tokens) ++ [.closeParen]))
        rest ∧ List.Forall₂ P ds as := by
    obtain ⟨as', last, hitems, hvalue⟩ := closed_inv hrun
    cases hvalue
    obtain ⟨ds, htook, hds⟩ := hp hitems
    exact ⟨ds, (htook.trans ((took_nil rest).cons .closeParen close)).cons .openParen s, hds⟩
  have hitems : Sound item.items (fun ds => commas (ds.map tokens)) (List.Forall₂ P) := by
    intro ls as rest hrun
    obtain ⟨ds, _, htook, hds⟩ := itemsFrom_sound h hrun
    exact ⟨ds, htook, hds⟩
  have hnone : Sound (pure []) (fun ds => commas (ds.map tokens)) (List.Forall₂ P) := by
    intro ls as rest hrun
    cases hrun
    exact ⟨[], took_nil ls, List.Forall₂.nil⟩
  cases mid with
  | nil => exact hclose hitems hlist
  | cons l mid =>
    obtain ⟨t, s'⟩ := l
    cases t
    case closeParen => exact hclose hnone hlist
    all_goals exact hclose hitems hlist

end

/-! ## Expressions -/

/-- A value that was read within a budget, and what a derivation says of it. -/
structure Matches (budget : Nat) (e tree : Expr) (literals : List Int) (nesting : Nat) : Prop where
  tree : e.move .erase = tree
  fits : Fits literals
  nested : nesting ≤ budget

def SoundUnary (budget : Nat) (p : Reader Expr) : Prop :=
  Sound p Unary.tokens fun u e => Matches budget e u.tree u.literals u.nesting

def SoundChain (tiers : List Tier) (budget : Nat) (p : Reader Expr) : Prop :=
  Sound p (fun c : Chain tiers => c.tokens) fun c e => Matches budget e c.tree c.literals c.nesting

section

variable {budget : Nat} {ls rest : List Lexeme} {e : Expr}

theorem chainFrom_sound {tier : Tier} {tiers : List Tier} {operand : Consumer Expr}
    (h : SoundChain tiers budget operand.val) {left : Expr}
    (hrun : Reader.chainFrom tier operand left ls = .done e rest) :
    ∃ l : Links tier tiers, Took ls l.tokens rest ∧
      Matches budget e (l.treeFrom (left.move .erase)) l.literals l.nesting := by
  fun_induction Reader.chainFrom tier operand left ls with
  | case1 left =>
    cases hrun
    exact ⟨.nil, took_nil _, rfl, List.forall_mem_nil _, Nat.zero_le _⟩
  | case2 left l ls _ =>
    cases hrun
    exact ⟨.nil, took_nil _, rfl, List.forall_mem_nil _, Nat.zero_le _⟩
  | case3 left l ls op hop right mid hright ih =>
    obtain ⟨t, s⟩ := l
    obtain ⟨htier, rfl⟩ := Tier.ofToken?_eq_some_iff.1 hop
    obtain ⟨next, hnext, hnextm⟩ := h hright
    obtain ⟨more, hmore, hmorem⟩ := ih hrun
    refine ⟨.cons op htier next more, (hnext.trans hmore).cons _ s, ?_,
      hnextm.fits.append hmorem.fits, Nat.max_le.2 ⟨hnextm.nested, hmorem.nested⟩⟩
    rw [hmorem.tree, Links.treeFrom, ← hnextm.tree]
    rfl
  | case4 => cases hrun

theorem chain_sound {tier : Tier} {tiers : List Tier} {operand : Consumer Expr}
    (h : SoundChain tiers budget operand.val) :
    SoundChain (tier :: tiers) budget (Reader.chain tier operand).val := by
  intro ls e rest hrun
  obtain ⟨left, mid, hleft, hrun⟩ := Reader.bind_eq_done.1 hrun
  obtain ⟨first, hfirst, hfirstm⟩ := h hleft
  obtain ⟨more, hmore, hmorem⟩ := chainFrom_sound h hrun
  refine ⟨.chain first more, hfirst.trans hmore, ?_, hfirstm.fits.append hmorem.fits,
    Nat.max_le.2 ⟨hfirstm.nested, hmorem.nested⟩⟩
  rw [hmorem.tree, hfirstm.tree]
  rfl

theorem level_sound (tiers : List Tier) {operand : Consumer Expr}
    (h : SoundUnary budget operand.val) :
    SoundChain tiers budget (tiers.foldr Reader.chain operand).val := by
  induction tiers with
  | nil =>
    intro ls e rest hrun
    obtain ⟨u, htook, hm⟩ := h hrun
    exact ⟨.unary u, htook, hm.tree, hm.fits, hm.nested⟩
  | cons tier tiers ih => exact chain_sound ih

/-- The arguments of a call match one by one. -/
theorem matches_args {ds : List Expression} {es : List Expr}
    (h : List.Forall₂ (fun d e => Matches budget e d.tree d.literals d.nesting) ds es) :
    es.map (Expr.move .erase) = Chain.treeAll ds ∧
      ∀ d ∈ ds, Fits d.literals ∧ d.nesting ≤ budget := by
  constructor
  · rw [Chain.treeAll_eq_map]
    exact map_eq_of_forall₂ (h.imp fun _ _ hd => hd.tree)
  · induction h with
    | nil => exact List.forall_mem_nil _
    | cons hd _ ih => exact List.forall_mem_cons.2 ⟨⟨hd.fits, hd.nested⟩, ih⟩

/-- A minus sign: part of a number that follows directly, an operator otherwise. -/
theorem minus_sound {inner : Consumer Expr} (h : SoundUnary budget inner.val) {s : Span}
    (hrun : (Reader.operand inner).run (⟨.minus, s⟩ :: ls) = .done e rest) :
    ∃ u : Unary, Took (⟨.minus, s⟩ :: ls) u.tokens rest ∧
      Matches (budget + 1) e u.tree u.literals u.nesting := by
  by_cases hnumber : ∃ digits s' ls', ls = ⟨.number digits, s'⟩ :: ls'
  · obtain ⟨digits, s', ls', rfl⟩ := hnumber
    rw [Reader.operand_signed] at hrun
    obtain ⟨hfits, s'', hls, rfl⟩ := literal_inv hrun
    cases hls
    refine ⟨.neg (.number digits), ((took_nil _).cons _ s').cons _ s, rfl, ?_, Nat.le_add_left _ _⟩
    exact List.forall_mem_singleton.2 hfits
  · have hhead : ∀ l ∈ ls.head?, ∀ digits, l.token ≠ .number digits := by
      rintro ⟨t, s'⟩ hl digits rfl
      obtain ⟨ls', rfl⟩ := List.head?_eq_some_iff.1 hl
      exact hnumber ⟨digits, s', ls', rfl⟩
    rw [Reader.operand_neg hhead] at hrun
    obtain ⟨e', mid, hinner, hdone⟩ := Reader.bind_eq_done.1 hrun
    cases hdone
    obtain ⟨u, htook, hm⟩ := h hinner
    -- The operand starts with no number, so it is none.
    have hu : u.number? = none := by
      refine Option.eq_none_iff_forall_ne_some.2 fun digits hdigits => ?_
      obtain rfl := Unary.number?_eq_some hdigits
      cases ls with
      | nil => cases htook
      | cons l ls => exact hhead l rfl digits (List.cons.inj htook).1
    refine ⟨.neg u, htook.cons _ s, ?_, ?_, ?_⟩
    · rw [Expr.move, hm.tree, Unary.tree, hu]
      rfl
    · rw [Unary.literals, hu]
      exact hm.fits
    · have := hm.nested
      rw [Unary.nesting, hu]
      dsimp only
      omega

/-- A name: a call where an opening parenthesis follows, a variable otherwise. -/
theorem name_sound {inner : Consumer Expr} (h : SoundChain Tier.all budget (Reader.tiers inner).val)
    {x : String} {s : Span}
    (hrun : (Reader.operand inner).run (⟨.name x, s⟩ :: ls) = .done e rest) :
    ∃ u : Unary, Took (⟨.name x, s⟩ :: ls) u.tokens rest ∧
      Matches (budget + 1) e u.tree u.literals u.nesting := by
  by_cases hopen : ∃ s' ls', ls = ⟨.openParen, s'⟩ :: ls'
  · obtain ⟨s', ls', rfl⟩ := hopen
    rw [Reader.operand_call] at hrun
    obtain ⟨c, mid, hcall, hdone⟩ := Reader.bind_eq_done.1 hrun
    cases hdone
    obtain ⟨⟨args, close⟩, mid', hparens, hdone⟩ := Reader.bind_eq_done.1 hcall
    cases hdone
    obtain ⟨ds, htook, hds⟩ := parenthesized_sound h hparens
    obtain ⟨htrees, hlimits⟩ := matches_args hds
    obtain ⟨hfits, hnested⟩ := limits_args hlimits
    rw [← Chain.tokensAll_eq_map] at htook
    refine ⟨.call x ds, htook.cons _ s, ?_, hfits, ?_⟩
    · rw [Call.move_toExpr, Call.move, htrees]
      rfl
    · rw [Unary.nesting]
      omega
  · have hhead : ∀ l ∈ ls.head?, l.token ≠ .openParen := by
      rintro ⟨t, s'⟩ hl rfl
      obtain ⟨ls', rfl⟩ := List.head?_eq_some_iff.1 hl
      exact hopen ⟨s', ls', rfl⟩
    rw [Reader.operand_name hhead] at hrun
    cases hrun
    exact ⟨.name x, (took_nil _).cons _ s, rfl, List.forall_mem_nil _, Nat.le_add_left _ _⟩

/-- Operands of a level that nests one deeper than `inner`. -/
theorem operand_sound {inner : Consumer Expr} (h : SoundUnary budget inner.val) :
    SoundUnary (budget + 1) (Reader.operand inner) := by
  intro ls e rest hrun
  have hexpr : SoundChain Tier.all budget (Reader.tiers inner).val := level_sound Tier.all h
  cases ls with
  | nil => cases hrun
  | cons l ls =>
    obtain ⟨t, s⟩ := l
    cases t
    case minus => exact minus_sound h hrun
    case notOp =>
      rw [Reader.operand_not] at hrun
      obtain ⟨e', mid, hinner, hdone⟩ := Reader.bind_eq_done.1 hrun
      cases hdone
      obtain ⟨u, htook, hm⟩ := h hinner
      refine ⟨.not u, htook.cons _ s, ?_, hm.fits, ?_⟩
      · rw [Expr.move, hm.tree]
        rfl
      · have := hm.nested
        rw [Unary.nesting]
        omega
    case number digits =>
      rw [Reader.operand_number] at hrun
      obtain ⟨hfits, s', hls, rfl⟩ := literal_inv hrun
      cases hls
      exact ⟨.number digits, (took_nil _).cons _ s, rfl, List.forall_mem_singleton.2 hfits,
        Nat.le_add_left _ _⟩
    case trueWord =>
      cases hrun
      exact ⟨.bool true, (took_nil _).cons _ s, rfl, List.forall_mem_nil _, Nat.le_add_left _ _⟩
    case falseWord =>
      cases hrun
      exact ⟨.bool false, (took_nil _).cons _ s, rfl, List.forall_mem_nil _, Nat.le_add_left _ _⟩
    case name x => exact name_sound hexpr hrun
    case openParen =>
      rw [Reader.operand_parens] at hrun
      obtain ⟨e', s', hinner, rfl⟩ := closed_inv hrun
      obtain ⟨c, htook, hm⟩ := hexpr hinner
      refine ⟨.parens c, (htook.trans ((took_nil _).cons _ s')).cons _ s, ?_, hm.fits, ?_⟩
      · rw [Expr.move_withSpan, hm.tree]
        exact c.withSpan_tree
      · have := hm.nested
        rw [Unary.nesting]
        omega
    all_goals cases hrun

theorem unary_sound (budget : Nat) : SoundUnary budget (Reader.unary budget).val := by
  induction budget with
  | zero =>
    intro ls e rest hrun
    cases hrun
  | succ budget ih => exact operand_sound ih

theorem expr_sound (budget : Nat) : SoundChain Tier.all budget (Reader.expr budget).val :=
  level_sound Tier.all (unary_sound budget)

end

/-! ## Statements -/

theorem Matches.admissible {d : Expression} {e : Expr}
    (h : Matches nestingLimit e d.tree d.literals d.nesting) : Admissible d := ⟨h.fits, h.nested⟩

/-- What is read as a statement has a derivation whose tree it is, places aside, and whose
expressions are within the limits. -/
def SoundStatement (p : Reader Stmt) : Prop :=
  Sound p Statement.tokens fun d st =>
    st.move .erase = d.tree ∧ ∀ e ∈ d.expressions, Admissible e

section

variable {ls rest : List Lexeme}

/-- An optional expression and the semicolon behind it. -/
theorem value_sound {f : Option Expr → Span → Stmt} {st : Stmt}
    (h : (((Reader.expr nestingLimit).val >>= fun e => pure (some e)) >>= fun value =>
      Reader.token .semicolon >>= fun last => pure (f value last)).run ls = .done st rest) :
    ∃ (d : Expression) (e : Expr) (last : Span),
      Took ls (d.tokens ++ [.semicolon]) rest ∧ e.move .erase = d.tree ∧ Admissible d ∧
      st = f (some e) last := by
  obtain ⟨value, last, hvalue, rfl⟩ := closed_inv h
  obtain ⟨e, mid, he, hdone⟩ := Reader.bind_eq_done.1 hvalue
  cases hdone
  obtain ⟨d, htook, hm⟩ := expr_sound nestingLimit he
  exact ⟨d, e, last, htook.trans ((took_nil rest).cons _ last), hm.tree, hm.admissible, rfl⟩

theorem declaration_sound : SoundStatement Reader.declaration := by
  intro ls st rest hrun
  obtain ⟨first, mid, rfl, hname⟩ := token_bind_inv hrun
  obtain ⟨x, mid, rfl, hcolon⟩ := ident_bind_inv hname
  obtain ⟨colon, mid, rfl, htype⟩ := token_bind_inv hcolon
  obtain ⟨t, s, mid, rfl, hinit⟩ := type_bind_inv htype
  have hfront {ts : List Token} (h : Took mid ts rest) :
      Took (⟨.varWord, first⟩ :: ⟨.name x.name, x.span⟩ :: ⟨.colon, colon⟩ ::
        ⟨t.token, s⟩ :: mid) (.varWord :: .name x.name :: .colon :: t.token :: ts) rest :=
    (((h.cons _ s).cons _ colon).cons _ x.span).cons _ first
  have hbare (hrun : (pure none >>= fun init => Reader.token .semicolon >>= fun last =>
      pure (Stmt.declare x t.type init (first.merge last))).run mid = .done st rest) :
      ∃ d : Statement, Took (⟨.varWord, first⟩ :: ⟨.name x.name, x.span⟩ :: ⟨.colon, colon⟩ ::
        ⟨t.token, s⟩ :: mid) d.tokens rest ∧
        st.move .erase = d.tree ∧ ∀ e ∈ d.expressions, Admissible e := by
    obtain ⟨init, last, hnone, rfl⟩ := closed_inv hrun
    cases hnone
    exact ⟨.declare x.name t none, hfront ((took_nil rest).cons _ last), rfl,
      List.forall_mem_nil _⟩
  cases mid with
  | nil => exact hbare hinit
  | cons l mid =>
    obtain ⟨t', s'⟩ := l
    cases t'
    case becomes =>
      obtain ⟨d, e, last, htook, htree, hd, rfl⟩ := value_sound
        (f := fun init last => Stmt.declare x t.type init (first.merge last)) hinit
      refine ⟨.declare x.name t (some d), hfront (htook.cons _ s'), ?_,
        List.forall_mem_singleton.2 hd⟩
      rw [Stmt.move, Option.map_some, htree]
      rfl
    all_goals exact hbare hinit

theorem returning_sound : SoundStatement Reader.returning := by
  intro ls st rest hrun
  obtain ⟨first, mid, rfl, hvalue⟩ := token_bind_inv hrun
  have hsome (hrun : (((Reader.expr nestingLimit).val >>= fun e => pure (some e)) >>=
      fun value => Reader.token .semicolon >>= fun last =>
        pure (Stmt.ret value (first.merge last))).run mid = .done st rest) :
      ∃ d : Statement, Took (⟨.returnWord, first⟩ :: mid) d.tokens rest ∧
        st.move .erase = d.tree ∧ ∀ e ∈ d.expressions, Admissible e := by
    obtain ⟨d, e, last, htook, htree, hd, rfl⟩ := value_sound hrun
    refine ⟨.ret (some d), htook.cons _ first, ?_, List.forall_mem_singleton.2 hd⟩
    rw [Stmt.move, Option.map_some, htree]
    rfl
  cases mid with
  | nil => exact hsome hvalue
  | cons l mid =>
    obtain ⟨t, s⟩ := l
    cases t
    case semicolon =>
      obtain ⟨value, last, hnone, rfl⟩ := closed_inv (p := pure none)
        (f := fun value last => Stmt.ret value (first.merge last)) hvalue
      cases hnone
      exact ⟨.ret none, ((took_nil rest).cons _ s).cons _ first, rfl, List.forall_mem_nil _⟩
    all_goals exact hsome hvalue

theorem action_sound : SoundStatement Reader.action := by
  intro ls st rest hrun
  obtain ⟨x, mid, rfl, hmore⟩ := ident_bind_inv hrun
  cases mid with
  | nil => cases hmore
  | cons l mid =>
    obtain ⟨t, s⟩ := l
    cases t
    case becomes =>
      obtain ⟨e, last, he, rfl⟩ := closed_inv (p := (Reader.expr nestingLimit).val)
        (f := fun value last => Stmt.assign x value (x.span.merge last)) hmore
      obtain ⟨d, htook, hm⟩ := expr_sound nestingLimit he
      refine ⟨.assign x.name d, ?_, ?_, List.forall_mem_singleton.2 hm.admissible⟩
      · exact ((htook.trans ((took_nil rest).cons _ last)).cons _ s).cons _ x.span
      · rw [Stmt.move, hm.tree]
        rfl
    case openParen =>
      obtain ⟨c, last, hcall, rfl⟩ := closed_inv (p := Reader.call (Reader.expr nestingLimit) x)
        (f := fun c last => Stmt.call c (x.span.merge last)) hmore
      obtain ⟨⟨args, close⟩, mid', hparens, hdone⟩ := Reader.bind_eq_done.1 hcall
      cases hdone
      obtain ⟨ds, htook, hds⟩ := parenthesized_sound (expr_sound nestingLimit) hparens
      obtain ⟨htrees, hadm⟩ := matches_args hds
      refine ⟨.call x.name ds, ?_, ?_, hadm⟩
      · have htook := (htook.trans ((took_nil rest).cons _ last)).cons (.name x.name) x.span
        rw [← Chain.tokensAll_eq_map] at htook
        simpa [Statement.tokens] using htook
      · rw [Stmt.move, Call.move, htrees]
        rfl
    all_goals cases hmore

theorem statement_sound : SoundStatement Reader.statement := by
  intro ls st rest hrun
  cases ls with
  | nil => cases hrun
  | cons l ls =>
    obtain ⟨t, s⟩ := l
    cases t
    case varWord => exact declaration_sound hrun
    case returnWord => exact returning_sound hrun
    case name => exact action_sound hrun
    all_goals cases hrun

/-! ## Procedures -/

theorem param_sound :
    Sound Reader.param Parameter.tokens fun d p => p.move .erase = d.tree := by
  intro ls p rest hrun
  obtain ⟨x, mid, rfl, hcolon⟩ := ident_bind_inv hrun
  obtain ⟨colon, mid, rfl, htype⟩ := token_bind_inv hcolon
  obtain ⟨t, s, mid, rfl, hdone⟩ := type_bind_inv htype
  cases hdone
  exact ⟨⟨x.name, t⟩, (((took_nil _).cons _ s).cons _ colon).cons _ x.span, rfl⟩

theorem header_sound {head : Header} (hrun : Reader.header.run ls = .done head rest) :
    ∃ (ps : List Parameter) (t : TypeName),
      Took ls (.name head.name.name :: .openParen :: (commas (ps.map Parameter.tokens) ++
        [.closeParen, .colon, t.token, .isWord])) rest ∧
      head.params.map (Param.move .erase) = ps.map Parameter.tree ∧ head.returns = t.type := by
  obtain ⟨x, mid, rfl, hparams⟩ := ident_bind_inv hrun
  obtain ⟨⟨params, close⟩, mid', hparens, hcolon⟩ := Reader.bind_eq_done.1 hparams
  obtain ⟨ps, htook, hps⟩ := parenthesized_sound param_sound hparens
  obtain ⟨colon, mid, rfl, htype⟩ := token_bind_inv hcolon
  obtain ⟨t, s, mid, rfl, his⟩ := type_bind_inv htype
  obtain ⟨s', mid, rfl, hdone⟩ := token_bind_inv his
  cases hdone
  refine ⟨ps, t, ?_, ?_, rfl⟩
  · have hback : Took (⟨.colon, colon⟩ :: ⟨t.token, s⟩ :: ⟨.isWord, s'⟩ :: rest)
        [.colon, t.token, .isWord] rest := (((took_nil rest).cons _ s').cons _ s).cons _ colon
    simpa using (htook.trans hback).cons (.name x.name) x.span
  · exact map_eq_of_forall₂ hps

variable {eof : Span}

theorem body_sound (h : (Body.read eof ls).faults = []) :
    ∃ ds : List Statement, Took ls (ds.flatMap Statement.tokens) (Body.read eof ls).rest ∧
      (Body.read eof ls).stmts.map (Stmt.move .erase) = ds.map Statement.tree ∧
      ∀ d ∈ ds, ∀ e ∈ d.expressions, Admissible e := by
  fun_induction Body.read eof ls with
  | case1 => exact ⟨[], took_nil _, rfl, List.forall_mem_nil _⟩
  | case2 l ls _ => exact ⟨[], took_nil _, rfl, List.forall_mem_nil _⟩
  | case3 l ls _ st mid hst more ih =>
    obtain ⟨d, htook, htree, hd⟩ := statement_sound hst
    obtain ⟨ds, htooks, htrees, hds⟩ := ih h
    refine ⟨d :: ds, htook.trans htooks, ?_, List.forall_mem_cons.2 ⟨hd, hds⟩⟩
    rw [List.map_cons, List.map_cons, htree, htrees]
  | case4 => cases h

theorem attempt_sound {start : Span} (h : (Attempt.read eof start ls).faults = []) :
    ∃ p d, (Attempt.read eof start ls).procedure = some p ∧
      Took (⟨.defWord, start⟩ :: ls) (Procedure.tokens d) (Attempt.read eof start ls).rest ∧
      p.move .erase = d.tree ∧ ∀ e ∈ d.expressions, Admissible e := by
  unfold Attempt.read at h ⊢
  cases hhead : Reader.header.run ls with
  | stuck why mid => simp [hhead] at h
  | done head mid =>
    obtain ⟨ps, t, hfront, hparams, hreturns⟩ := header_sound hhead
    simp only [hhead] at h ⊢
    cases hend : (Reader.token .endWord).run (Body.read eof mid).rest with
    | stuck why mid' => simp [hend] at h
    | done last mid' =>
      simp only [hend] at h ⊢
      obtain ⟨ds, hbody, hstmts, hds⟩ := body_sound h
      rw [token_inv hend] at hbody
      refine ⟨_, ⟨head.name.name, ps, t, ds⟩, rfl, ?_, ?_, ?_⟩
      · have hall := (hfront.trans (hbody.trans ((took_nil mid').cons _ last))).cons
          .defWord start
        simpa [Procedure.tokens] using hall
      · rw [Procedure.move, hparams, hstmts, hreturns]
        rfl
      · intro e he
        obtain ⟨d, hd, he⟩ := List.mem_flatMap.1 he
        exact hds d hd e he

/-- Tokens that are read without a fault are those of a derivation, and the procedures that
were read are its trees. -/
theorem harvest_sound (h : (Harvest.read eof ls).faults = []) :
    ∃ d : Script, d.tokens = ls.map (·.token) ∧
      (Harvest.read eof ls).procedures.map (Procedure.move .erase) = d.tree.procedures ∧
      ∀ e ∈ d.expressions, Admissible e := by
  fun_induction Harvest.read eof ls with
  | case1 => exact ⟨⟨[]⟩, rfl, rfl, List.forall_mem_nil _⟩
  | case2 l ls hdef tried p hp more ih =>
    obtain ⟨htried, hmore⟩ := List.append_eq_nil_iff.1 h
    obtain ⟨p', d, hp', htook, htree, hd⟩ := attempt_sound htried
    obtain ⟨⟨ds⟩, htokens, htrees, hds⟩ := ih hmore
    obtain rfl : p = p' := Option.some.inj (hp.symm.trans hp')
    refine ⟨⟨d :: ds⟩, ?_, ?_, ?_⟩
    · have hl : l = ⟨.defWord, l.span⟩ := by rw [← hdef]
      rw [hl, htook, ← htokens]
      rfl
    · rw [List.map_cons, htree, htrees]
      rfl
    · intro e he
      rw [Script.expressions, List.flatMap_cons] at he
      rcases List.mem_append.1 he with he | he
      · exact hd e he
      · exact hds e he
  | case3 l ls hdef tried hnone more ih =>
    obtain ⟨htried, _⟩ := List.append_eq_nil_iff.1 h
    obtain ⟨p', _, hp', _⟩ := attempt_sound htried
    cases hnone.symm.trans hp'
  | case4 => cases h

end

end ScriptCheck.Grammar
