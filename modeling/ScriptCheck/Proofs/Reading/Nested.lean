import ScriptCheck.Proofs.Reading.Text
import ScriptCheck.Proofs.Tree.Nested

/-!
# What is read is nested

Tokens stand one behind the other, and readers take them from the front. So what a reader
gives stands behind the offset where its tokens begin, and the tokens that are left stand
behind what it gives. Each reader is described by what it says about these offsets, and the
descriptions follow one another as the readers do.
-/
namespace ScriptCheck

open ScriptCheck.Span (Row)

/-- The tokens stand one behind the other, from the offset `a` on. -/
structure From (a : Nat) (ls : List Lexeme) : Prop where
  ordered : Ordered ls
  le_start : ∀ l ∈ ls, a ≤ l.span.start

namespace From

variable {a : Nat} {l : Lexeme} {ls rest : List Lexeme}

theorem suffix (h : From a ls) (hs : rest <:+ ls) : From a rest :=
  ⟨h.ordered.sublist hs.sublist, fun l hl => h.le_start l (hs.subset hl)⟩

theorem tail (h : From a (l :: ls)) : From l.span.stop ls :=
  ⟨h.ordered.sublist (List.sublist_cons_self _ _), (List.pairwise_cons.1 h.ordered.apart).1⟩

theorem head (h : From a (l :: ls)) : l.span.Between a l.span.stop :=
  ⟨h.le_start l List.mem_cons_self, h.ordered.nonempty l List.mem_cons_self, Nat.le_refl _⟩

end From

namespace Reader

variable {α β : Type} {a b : Nat}

/-- If the tokens stand from `a` on, then what is read is as described by `Q`, up to an
offset from which on the other tokens stand. -/
def Places (p : Reader α) (a : Nat) (Q : α → Nat → Prop) : Prop :=
  ∀ ⦃ls x rest⦄, From a ls → p.run ls = .done x rest → ∃ b, Q x b ∧ From b rest

theorem places_pure {x : α} {Q : α → Nat → Prop} (h : Q x a) :
    (pure x : Reader α).Places a Q := by
  intro ls y rest hls hrun
  cases hrun
  exact ⟨a, h, hls⟩

theorem places_fail (why : Complaint) (Q : α → Nat → Prop) :
    (fail why : Reader α).Places a Q := by
  intro ls x rest _ hrun
  cases hrun

theorem Places.bind {p : Reader α} {k : α → Reader β} {P : α → Nat → Prop} {Q : β → Nat → Prop}
    (hp : p.Places a P) (hk : ∀ x b, P x b → (k x).Places b Q) : (p >>= k).Places a Q := by
  intro ls y rest hls hrun
  obtain ⟨x, mid, hx, hy⟩ := bind_eq_done.1 hrun
  obtain ⟨b, hP, hmid⟩ := hp hls hx
  exact hk x b hP hmid hy

/-- A choice by the next token: what holds in each case, and at the end of the text. -/
theorem places_peek_bind {k : Option Lexeme → Reader β} {Q : β → Nat → Prop}
    (hnone : (k none).Places a Q) (hsome : ∀ t s, (k (some ⟨t, s⟩)).Places a Q) :
    (peek >>= k).Places a Q := by
  intro ls y rest hls hrun
  cases ls with
  | nil => exact hnone hls hrun
  | cons l ls => exact hsome l.token l.span hls hrun

theorem places_accept (wanted : Wanted) (pick : Token → Option α) :
    (accept wanted pick).Places a fun r b => r.2.Between a b := by
  intro ls r rest hls hrun
  cases ls with
  | nil => cases hrun
  | cons l ls =>
    cases hp : pick l.token with
    | none => simp [accept, hp] at hrun
    | some x =>
      simp only [accept, hp, Outcome.done.injEq] at hrun
      obtain ⟨rfl, rfl⟩ := hrun
      exact ⟨l.span.stop, hls.head, hls.tail⟩

theorem places_token (t : Token) : (token t).Places a fun s b => s.Between a b :=
  (places_accept _ _).bind fun _ _ h => places_pure h

theorem places_ident : ident.Places a fun x b => x.span.Between a b :=
  (places_accept _ _).bind fun _ _ h => places_pure h

theorem places_type : type.Places a fun r b => r.2.Between a b := places_accept _ _

/-! ## Lists -/

section

variable {item : Consumer α} {span : α → Span} {ok : α → Prop}

theorem places_items (h : ∀ a, item.val.Places a fun x b => ok x ∧ (span x).Between a b) :
    item.items.Places a fun xs b => (∀ x ∈ xs, ok x) ∧ Row a (xs.map span) b := by
  intro ls xs rest hls hrun
  change item.itemsFrom ls = .done xs rest at hrun
  fun_induction Consumer.itemsFrom item ls generalizing a xs rest with
  | case1 => cases hrun
  | case2 ls x s after hitem xs' rest' hmore ih =>
    cases hrun
    obtain ⟨b, ⟨hok, hspan⟩, hafter⟩ := h a hls hitem
    obtain ⟨c, ⟨hoks, hrow⟩, hrest⟩ := ih hafter.tail hmore
    exact ⟨c, ⟨List.forall_mem_cons.2 ⟨hok, hoks⟩,
      Row.cons hspan (hrow.mono hafter.head.le_stop (Nat.le_refl _))⟩, hrest⟩
  | case3 => cases hrun
  | case4 ls x after _ hitem =>
    cases hrun
    obtain ⟨b, ⟨hok, hspan⟩, hafter⟩ := h a hls hitem
    exact ⟨b, ⟨by simpa using hok, Row.singleton hspan⟩, hafter⟩

theorem places_parenthesized (h : ∀ a, item.val.Places a fun x b => ok x ∧ (span x).Between a b) :
    item.parenthesized.val.Places a fun r b =>
      (∀ x ∈ r.1, ok x) ∧ Row a (r.1.map span ++ [r.2]) b := by
  refine (places_token _).bind fun first b hfirst => ?_
  have hclose (p : Reader (List α))
      (hp : p.Places b fun xs c => (∀ x ∈ xs, ok x) ∧ Row b (xs.map span) c) :
      (do let values ← p; let close ← token .closeParen; return (values, close)).Places b
        fun r c => (∀ x ∈ r.1, ok x) ∧ Row a (r.1.map span ++ [r.2]) c := by
    refine hp.bind fun xs c hxs => (places_token _).bind fun close d hclose => places_pure ?_
    have hrow := hxs.2.mono hfirst.le (Nat.le_refl c)
    exact ⟨hxs.1, Row.append_iff.2 ⟨c, hrow, Row.singleton hclose⟩⟩
  have hnone : (pure [] : Reader (List α)).Places b fun xs c =>
      (∀ x ∈ xs, ok x) ∧ Row b (xs.map span) c :=
    places_pure ⟨List.forall_mem_nil _, Nat.le_refl b⟩
  refine places_peek_bind (hclose _ (places_items h)) fun t s => ?_
  cases t
  case closeParen => exact hclose _ hnone
  all_goals exact hclose _ (places_items h)

end

/-! ## Expressions -/

/-- The expression is nested and lies between the offsets. -/
def PlacesExpr (p : Reader Expr) : Prop :=
  ∀ a, p.Places a fun e b => e.Nested ∧ e.span.Between a b

theorem places_chainRest {tier : Tier} {operand : Consumer Expr} (h : PlacesExpr operand.val)
    {left : Expr} (hleft : left.Nested) (hspan : left.span.Between a b) :
    (chainRest tier operand left).Places b fun e c => e.Nested ∧ e.span.Between a c := by
  intro ls e rest hls hrun
  change chainFrom tier operand left ls = .done e rest at hrun
  fun_induction chainFrom tier operand left ls generalizing b with
  | case1 left =>
    cases hrun
    exact ⟨b, ⟨hleft, hspan⟩, hls⟩
  | case2 left l ls _ =>
    cases hrun
    exact ⟨b, ⟨hleft, hspan⟩, hls⟩
  | case3 left l ls op _ right after hright ih =>
    have hbc := hls.head.le
    obtain ⟨c, ⟨hnested, hright⟩, hafter⟩ := h _ hls.tail hright
    refine ih ?_ (hspan.merge hbc hright) hafter hrun
    rw [Expr.join, hspan.merge_eq hbc hright]
    have hapart : left.span.stop ≤ right.span.start :=
      Nat.le_trans hspan.stop_le (Nat.le_trans hbc hright.le_start)
    exact .binary ⟨Nat.le_refl _, hspan.nonempty, hapart, hright.nonempty, Nat.le_refl _⟩
      hleft hnested
  | case4 => cases hrun

theorem placesExpr_tiers {operand : Consumer Expr} (h : PlacesExpr operand.val) :
    PlacesExpr (tiers operand).val := by
  unfold tiers
  induction Tier.all with
  | nil => exact h
  | cons tier tiers ih =>
    intro a
    exact (ih a).bind fun left b hleft => places_chainRest ih hleft.1 hleft.2

/-- A number, behind the sign that was taken before. -/
theorem places_literal {sign : Option Span} (hab : a ≤ b) (hsign : ∀ s ∈ sign, s.Between a b)
    (digits : String) :
    (literal sign digits).Places b fun e c => e.Nested ∧ e.span.Between a c := by
  unfold literal
  split
  · refine (places_token _).bind fun s c hs => places_pure ?_
    have hspan : (signedSpan sign s).Between a c := by
      cases sign with
      | none => exact hs.mono hab (Nat.le_refl c)
      | some first => exact (hsign first rfl).merge (Nat.le_refl b) hs
    exact ⟨.int hspan.nonempty, hspan⟩
  · exact places_fail _ _

theorem places_call {expr : Consumer Expr} (h : PlacesExpr expr.val) {callee : Ident}
    (hcallee : callee.span.Between a b) :
    (call expr callee).Places b fun made c =>
      made.Nested ∧ b ≤ c ∧ made.span.Between a c := by
  refine (places_parenthesized h).bind fun ⟨args, close⟩ c ⟨hargs, hrow⟩ => places_pure ?_
  obtain ⟨d, hrow, hle, hlt, hstop⟩ := Row.append_iff.1 hrow
  have hclose : close.Between d c := ⟨hle, hlt, hstop⟩
  refine ⟨⟨?_, hargs⟩, Nat.le_trans hrow.le hclose.le, hcallee.merge hrow.le hclose⟩
  rw [hcallee.merge_eq hrow.le hclose]
  exact ⟨Nat.le_refl _, hcallee.nonempty, hrow.mono hcallee.stop_le hclose.le_stop⟩

theorem placesExpr_primary {expr : Consumer Expr} (h : PlacesExpr expr.val) :
    PlacesExpr (primary expr) := by
  intro a
  refine places_peek_bind (places_fail _ _) fun t s => ?_
  cases t
  case number digits => exact places_literal (Nat.le_refl a) (by simp) digits
  case trueWord =>
    exact (places_token _).bind fun s b hs => places_pure ⟨.bool hs.nonempty, hs⟩
  case falseWord =>
    exact (places_token _).bind fun s b hs => places_pure ⟨.bool hs.nonempty, hs⟩
  case name spelling =>
    refine places_ident.bind fun x b hx => ?_
    have hvar : (pure (Expr.var x.name x.span) : Reader Expr).Places b fun e c =>
        e.Nested ∧ e.span.Between a c := places_pure ⟨.var hx.nonempty, hx⟩
    refine places_peek_bind hvar fun t s => ?_
    cases t
    case openParen =>
      refine (places_call h hx).bind fun made c ⟨hmade, _, hspan⟩ => places_pure ⟨?_, hspan⟩
      exact .call ⟨Nat.le_refl _, hspan.nonempty, Nat.le_refl _⟩ hmade.parts hmade.args
    all_goals exact hvar
  case openParen =>
    refine (places_token _).bind fun first b hfirst => (h b).bind fun e c he =>
      (places_token _).bind fun last d hlast => places_pure ?_
    have hspan := hfirst.merge he.2.le hlast
    refine ⟨?_, by rwa [Expr.span_withSpan]⟩
    rw [hfirst.merge_eq he.2.le hlast]
    exact he.1.withSpan (Nat.le_trans (Nat.le_of_lt hfirst.start_lt) he.2.le_start)
      (Nat.le_trans he.2.stop_le hlast.le_stop)
  all_goals exact places_fail _ _

theorem placesExpr_operand {inner : Consumer Expr} (h : PlacesExpr inner.val) :
    PlacesExpr (operand inner) := by
  intro a
  have happly (op : UnaryOp) {sign : Span} {b : Nat} (hsign : sign.Between a b) :
      (do let e ← inner.val; return .unary op e (sign.merge e.span) : Reader Expr).Places b
        fun e c => e.Nested ∧ e.span.Between a c := by
    refine (h b).bind fun e c he => places_pure ⟨?_, hsign.merge (Nat.le_refl b) he.2⟩
    rw [hsign.merge_eq (Nat.le_refl b) he.2]
    have hbehind : sign.start + 1 ≤ e.span.start :=
      Nat.lt_of_lt_of_le hsign.start_lt he.2.le_start
    exact .unary ⟨hbehind, he.2.nonempty, Nat.le_refl _⟩ he.1
  have hprimary := placesExpr_primary (placesExpr_tiers h) a
  refine places_peek_bind hprimary fun t s => ?_
  cases t
  case minus =>
    refine (places_token _).bind fun sign b hsign => ?_
    refine places_peek_bind (happly .neg hsign) fun t s => ?_
    cases t
    case number digits =>
      exact places_literal hsign.le (fun s hs => Option.mem_some_iff.1 hs ▸ hsign) digits
    all_goals exact happly .neg hsign
  case notOp => exact (places_token _).bind fun first b hfirst => happly .not hfirst
  all_goals exact hprimary

theorem placesExpr_unary (budget : Nat) : PlacesExpr (unary budget).val := by
  induction budget with
  | zero => exact fun a => places_fail _ _
  | succ budget ih => exact placesExpr_operand ih

theorem placesExpr_expr (budget : Nat) : PlacesExpr (expr budget).val :=
  placesExpr_tiers (placesExpr_unary budget)

/-! ## Statements -/

/-- The expression, if there is one, is nested and lies between the offsets. -/
def PlacesValue (p : Reader (Option Expr)) : Prop :=
  ∀ a, p.Places a fun value b =>
    (∀ e ∈ value, e.Nested) ∧ Row a (value.toList.map Expr.span) b

/-- The statement is nested and lies between the offsets. -/
def PlacesStmt (p : Reader Stmt) : Prop :=
  ∀ a, p.Places a fun stmt b => stmt.Nested ∧ stmt.span.Between a b

theorem placesValue_some : PlacesValue (do let e ← (expr nestingLimit).val; return some e) := by
  intro a
  refine (placesExpr_expr _ a).bind fun e b he => places_pure ⟨?_, Row.singleton he.2⟩
  intro e' he'
  cases he'
  exact he.1

theorem placesValue_none : PlacesValue (pure none) :=
  fun a => places_pure ⟨fun e he => (by cases he), Nat.le_refl a⟩

theorem placesStmt_declaration : PlacesStmt declaration := by
  intro a
  refine (places_token _).bind fun first b hfirst => places_ident.bind fun x c hx =>
    (places_token _).bind fun colon d hcolon => places_type.bind fun ⟨ty, s⟩ e hty => ?_
  have hce : c ≤ e := Nat.le_trans hcolon.le hty.le
  have hclose {e' : Nat} (he : e ≤ e') {p : Reader (Option Expr)} (hp : PlacesValue p) :
      (do let init ← p; let last ← token .semicolon
          return .declare x ty init (first.merge last) : Reader Stmt).Places e'
        fun stmt b => stmt.Nested ∧ stmt.span.Between a b := by
    refine (hp e').bind fun init f hinit => (places_token _).bind fun last g hlast =>
      places_pure ?_
    have hrow : Row b (x.span :: init.toList.map Expr.span) f :=
      Row.cons hx (hinit.2.mono (Nat.le_trans hce he) (Nat.le_refl f))
    refine ⟨?_, hfirst.merge hrow.le hlast⟩
    rw [hfirst.merge_eq hrow.le hlast]
    exact .declare (hrow.mono (Nat.le_of_lt hfirst.start_lt) hlast.le_stop) hinit.1
  have hnone := hclose (Nat.le_refl e) placesValue_none
  refine places_peek_bind hnone fun t s => ?_
  cases t
  case becomes =>
    exact (places_token _).bind fun becomes e' hbecomes => hclose hbecomes.le placesValue_some
  all_goals exact hnone

theorem placesStmt_returning : PlacesStmt returning := by
  intro a
  refine (places_token _).bind fun first b hfirst => ?_
  have hclose {p : Reader (Option Expr)} (hp : PlacesValue p) :
      (do let value ← p; let last ← token .semicolon
          return .ret value (first.merge last) : Reader Stmt).Places b
        fun stmt b => stmt.Nested ∧ stmt.span.Between a b := by
    refine (hp b).bind fun value c hvalue => (places_token _).bind fun last d hlast =>
      places_pure ?_
    refine ⟨?_, hfirst.merge hvalue.2.le hlast⟩
    rw [hfirst.merge_eq hvalue.2.le hlast]
    exact .ret (hvalue.2.mono hfirst.start_lt hlast.le_stop) hvalue.1
  have hsome := hclose placesValue_some
  refine places_peek_bind hsome fun t s => ?_
  cases t
  case semicolon => exact hclose placesValue_none
  all_goals exact hsome

theorem placesStmt_action : PlacesStmt action := by
  intro a
  refine places_ident.bind fun x b hx => places_peek_bind (places_fail _ _) fun t s => ?_
  cases t
  case becomes =>
    refine (places_token _).bind fun becomes c hbecomes => (placesExpr_expr _ c).bind
      fun e d he => (places_token _).bind fun last f hlast => places_pure ?_
    have hbd := Nat.le_trans hbecomes.le he.2.le
    refine ⟨?_, hx.merge hbd hlast⟩
    rw [hx.merge_eq hbd hlast]
    have hvalue := (Row.singleton he.2).mono (Nat.le_trans hx.stop_le hbecomes.le) hlast.le_stop
    exact .assign ⟨Nat.le_refl _, hx.nonempty, hvalue⟩ he.1
  case openParen =>
    have hself : x.span.Between x.span.start b := ⟨Nat.le_refl _, hx.nonempty, hx.stop_le⟩
    refine (places_call (placesExpr_expr _) hself).bind fun made c ⟨hmade, hbc, hspan⟩ =>
      (places_token _).bind fun last d hlast => places_pure ?_
    refine ⟨?_, hx.merge hbc hlast⟩
    rw [hx.merge_eq hbc hlast]
    exact .call ((Row.singleton hspan).mono (Nat.le_refl _) hlast.le_stop) hmade
  all_goals exact places_fail _ _

theorem placesStmt_statement : PlacesStmt statement := by
  intro a
  refine places_peek_bind (places_fail _ _) fun t s => ?_
  cases t
  case varWord => exact placesStmt_declaration a
  case returnWord => exact placesStmt_returning a
  case name => exact placesStmt_action a
  all_goals exact places_fail _ _

/-! ## Procedures -/

theorem places_param : param.Places a fun p b => True ∧ p.span.Between a b :=
  places_ident.bind fun _ _ hx => (places_token _).bind fun _ _ hcolon =>
    places_type.bind fun _ _ hty => places_pure ⟨trivial, hx.merge hcolon.le hty⟩

theorem places_header : header.Places a fun head b =>
    Row a (head.name.span :: head.params.map Param.span) b := by
  refine places_ident.bind fun x b hx =>
    (places_parenthesized fun _ => places_param).bind fun ⟨params, close⟩ c hparams =>
    (places_token _).bind fun colon d hcolon => places_type.bind fun ty e hty =>
    (places_token _).bind fun last f hlast => places_pure ?_
  obtain ⟨c', hrow, hclose⟩ := Row.append_iff.1 hparams.2
  have hcf : c' ≤ f := Nat.le_trans hclose.le
    (Nat.le_trans hcolon.le (Nat.le_trans hty.le hlast.le))
  exact Row.cons hx (hrow.mono (Nat.le_refl b) hcf)

end Reader

theorem Body.nested (eof : Span) (ls : List Lexeme) : ∀ a, From a ls →
    ∃ b, (∀ stmt ∈ (Body.read eof ls).stmts, stmt.Nested) ∧
      Row a ((Body.read eof ls).stmts.map Stmt.span) b ∧ From b (Body.read eof ls).rest := by
  fun_induction Body.read eof ls with
  | case1 => exact fun a h => ⟨a, List.forall_mem_nil _, Nat.le_refl a, h⟩
  | case2 => exact fun a h => ⟨a, List.forall_mem_nil _, Nat.le_refl a, h⟩
  | case3 l ls _ stmt rest hrun more ih =>
    intro a h
    obtain ⟨b, ⟨hstmt, hspan⟩, hrest⟩ := Reader.placesStmt_statement a h hrun
    obtain ⟨c, hstmts, hrow, hafter⟩ := ih b hrest
    exact ⟨c, List.forall_mem_cons.2 ⟨hstmt, hstmts⟩, Row.cons hspan hrow, hafter⟩
  | case4 l ls _ why rest hrun more ih =>
    intro a h
    exact ih a (h.suffix ((suffix_skipStatement rest).trans (Reader.suffix_of_stuck hrun)))

theorem Attempt.nested {eof start : Span} {ls : List Lexeme} {a b : Nat} {p : Procedure}
    (hstart : start.Between a b) (h : From b ls)
    (hp : (Attempt.read eof start ls).procedure = some p) :
    p.Nested ∧ ∃ c, p.span.Between a c ∧ From c (Attempt.read eof start ls).rest := by
  revert hp
  unfold Attempt.read
  split
  · intro hp
    cases hp
  · next head rest hhead =>
    obtain ⟨c, hparams, hrest⟩ := Reader.places_header h hhead
    obtain ⟨d, hstmts, hrow, hbody⟩ := Body.nested eof rest c hrest
    simp only
    split
    · intro hp
      cases hp
    · next last after hend =>
      intro hp
      cases hp
      obtain ⟨f, hlast, hafter⟩ := Reader.places_token .endWord hbody hend
      have hparts := Row.append_iff.2 ⟨c, hparams, hrow⟩
      refine ⟨⟨?_, hstmts⟩, f, hstart.merge hparts.le hlast, hafter⟩
      simp only [hstart.merge_eq hparts.le hlast]
      exact hparts.mono (Nat.le_of_lt hstart.start_lt) hlast.le_stop

theorem Harvest.nested (eof : Span) (ls : List Lexeme) : ∀ a, From a ls →
    (∀ p ∈ (Harvest.read eof ls).procedures, p.Nested) ∧
      ∃ b, Row a ((Harvest.read eof ls).procedures.map Procedure.span) b := by
  fun_induction Harvest.read eof ls with
  | case1 => exact fun a _ => ⟨List.forall_mem_nil _, a, Nat.le_refl a⟩
  | case2 l ls hdef tried p hp more ih =>
    intro a h
    obtain ⟨hnested, b, hspan, hrest⟩ := Attempt.nested h.head h.tail hp
    obtain ⟨hmore, c, hrow⟩ := ih b hrest
    exact ⟨List.forall_mem_cons.2 ⟨hnested, hmore⟩, c, Row.cons hspan hrow⟩
  | case3 l ls hdef tried hp more ih =>
    intro a h
    exact ih a (h.suffix ((suffix_skipProcedure _).trans
      ((Attempt.suffix_read eof l.span ls).trans (List.suffix_cons l ls))))
  | case4 l ls hdef more ih =>
    intro a h
    exact ih a (h.suffix ((suffix_skipProcedure ls).trans (List.suffix_cons l ls)))

/-- The tree of a text is nested. -/
theorem Script.nested_of_read {text : String} {s : Script} (h : read text = .ok s) :
    ∃ n, s.Nested n := by
  obtain ⟨-, rfl⟩ := read_eq_ok_iff_harvest.1 h
  have hfrom : From 0 (Piece.lexemes (Piece.scan text)) :=
    ⟨ordered_lexemes text, fun _ _ => Nat.zero_le _⟩
  obtain ⟨hprocs, n, hrow⟩ := Harvest.nested (eof text) _ 0 hfrom
  exact ⟨n, hrow, hprocs⟩

end ScriptCheck
