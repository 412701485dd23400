import ScriptCheck.Reading.Script

/-!
# Where readers are stuck

A complaint is about the first token that is left. Only a number out of range says more
than that, its digits and perhaps a sign: then the number is that first token, and the
sign is the token right before it.
-/
namespace ScriptCheck

/-- The complaint fits the tokens `ls` that were to be read, where `rest` is left. -/
def Complaint.Located (ls rest : List Lexeme) : Complaint → Prop
  | .outOfRange sign digits =>
    (∃ s after, rest = ⟨.number digits, s⟩ :: after) ∧
      ∀ s ∈ sign, ⟨.minus, s⟩ :: rest <:+ ls
  | _ => True

theorem Complaint.Located.mono {ls ls' rest : List Lexeme} {why : Complaint}
    (h : why.Located ls rest) (hs : ls <:+ ls') : why.Located ls' rest := by
  cases why with
  | outOfRange sign digits => exact ⟨h.1, fun s hsign => (h.2 s hsign).trans hs⟩
  | expected wanted => trivial
  | tooDeep => trivial

/-- A complaint is about tokens, not about a character. -/
theorem Complaint.isLexical_toFault (why : Complaint) (eof : Span) (rest : List Lexeme) :
    (why.toFault eof rest).isLexical = false := by
  cases why with
  | expected wanted => rfl
  | tooDeep => rfl
  | outOfRange sign digits => cases sign <;> rfl

namespace Reader

variable {α β : Type}

/-- Whenever the reader is stuck, its complaint fits the tokens. -/
def Locates (p : Reader α) : Prop :=
  ∀ ⦃ls why rest⦄, p.run ls = .stuck why rest → why.Located ls rest

theorem locates_pure (a : α) : (pure a : Reader α).Locates := by
  intro ls why rest h
  cases h

theorem locates_expected (wanted : Wanted) : (fail (.expected wanted) : Reader α).Locates := by
  intro ls why rest h
  cases h
  trivial

theorem Locates.bind {p : Reader α} {k : α → Reader β} (hp : p.Locates)
    (hk : ∀ a, (k a).Locates) : (p >>= k).Locates := by
  intro ls why rest h
  rcases bind_eq_stuck.1 h with h | ⟨a, mid, hdone, h⟩
  · exact hp h
  · exact (hk a h).mono (suffix_of_done hdone)

/-- A choice by the next token may use which token that is. -/
theorem locates_peek_bind {k : Option Lexeme → Reader β} (hnone : (k none).Locates)
    (hsome : ∀ l ls why rest, (k (some l)).run (l :: ls) = .stuck why rest →
      why.Located (l :: ls) rest) : (peek >>= k).Locates := by
  intro ls why rest h
  cases ls with
  | nil => exact hnone h
  | cons l ls => exact hsome l ls why rest h

theorem locates_accept (wanted : Wanted) (pick : Token → Option α) :
    (accept wanted pick).Locates := by
  intro ls why rest h
  cases ls with
  | nil =>
    cases h
    trivial
  | cons l ls =>
    cases hp : pick l.token with
    | none =>
      simp only [accept, hp, Outcome.stuck.injEq] at h
      rw [← h.1]
      trivial
    | some a => simp [accept, hp] at h

theorem locates_token (t : Token) : (token t).Locates :=
  (locates_accept _ _).bind fun _ => locates_pure _

theorem locates_ident : ident.Locates := (locates_accept _ _).bind fun _ => locates_pure _

theorem locates_type : type.Locates := locates_accept _ _

theorem locates_items {item : Consumer α} (h : item.val.Locates) : item.items.Locates := by
  intro ls why rest hstuck
  change item.itemsFrom ls = .stuck why rest at hstuck
  fun_induction Consumer.itemsFrom item ls with
  | case1 ls why' rest' hrun =>
    cases hstuck
    exact h hrun
  | case2 => cases hstuck
  | case3 ls a s after hrun why' rest' hmore ih =>
    cases hstuck
    exact (ih hmore).mono ((List.suffix_cons _ _).trans (suffix_of_done hrun))
  | case4 => cases hstuck

theorem locates_parenthesized {item : Consumer α} (h : item.val.Locates) :
    item.parenthesized.val.Locates := by
  refine (locates_token _).bind fun _ => ?_
  have hclose (p : Reader (List α)) (hp : p.Locates) :
      (do let values ← p; let close ← token .closeParen; return (values, close)).Locates :=
    hp.bind fun _ => (locates_token _).bind fun _ => locates_pure _
  refine locates_peek_bind (hclose _ (locates_items h)) fun l ls why rest => ?_
  obtain ⟨t, s⟩ := l
  cases t
  case closeParen => exact fun hrun => hclose _ (locates_pure []) hrun
  all_goals exact fun hrun => hclose _ (locates_items h) hrun

theorem locates_chainRest {tier : Tier} {operand : Consumer Expr} (h : operand.val.Locates)
    (left : Expr) : (chainRest tier operand left).Locates := by
  intro ls why rest hstuck
  change chainFrom tier operand left ls = .stuck why rest at hstuck
  fun_induction chainFrom tier operand left ls with
  | case1 => cases hstuck
  | case2 => cases hstuck
  | case3 left l ls op hop right rest' hrun ih =>
    exact (ih hstuck).mono ((suffix_of_done hrun).trans (List.suffix_cons _ _))
  | case4 left l ls op hop why' rest' hrun =>
    cases hstuck
    exact (h hrun).mono (List.suffix_cons _ _)

theorem locates_tiers {operand : Consumer Expr} (h : operand.val.Locates) :
    (tiers operand).val.Locates := by
  unfold tiers
  induction Tier.all with
  | nil => exact h
  | cons tier tiers ih => exact ih.bind fun left => locates_chainRest ih left

/-- A number is refused where it stands. -/
theorem located_literal {sign : Option Span} {digits : String} {s : Span} (pre : List Lexeme)
    {ls rest : List Lexeme} {why : Complaint} (hsign : ∀ sp ∈ sign, pre = [⟨.minus, sp⟩])
    (h : (literal sign digits).run (⟨.number digits, s⟩ :: ls) = .stuck why rest) :
    why.Located (pre ++ ⟨.number digits, s⟩ :: ls) rest := by
  unfold literal at h
  split at h
  · exact (((locates_token _).bind fun _ => locates_pure _) h).mono (List.suffix_append _ _)
  · cases h
    refine ⟨⟨s, ls, rfl⟩, fun sp hsp => ?_⟩
    rw [hsign sp hsp]
    exact List.suffix_refl _

theorem locates_call {expr : Consumer Expr} (h : expr.val.Locates) (callee : Ident) :
    (call expr callee).Locates :=
  (locates_parenthesized h).bind fun _ => locates_pure _

theorem locates_primary {expr : Consumer Expr} (h : expr.val.Locates) :
    (primary expr).Locates := by
  refine locates_peek_bind (locates_expected _) fun l ls why rest => ?_
  obtain ⟨t, s⟩ := l
  cases t
  case number digits => exact fun hrun => located_literal [] (by simp) hrun
  case trueWord => exact fun hrun => ((locates_token _).bind fun _ => locates_pure _) hrun
  case falseWord => exact fun hrun => ((locates_token _).bind fun _ => locates_pure _) hrun
  case name spelling =>
    refine fun hrun => (locates_ident.bind fun x => ?_) hrun
    refine locates_peek_bind (locates_pure _) fun l ls why rest => ?_
    obtain ⟨t, s⟩ := l
    cases t
    case openParen => exact fun hrun => ((locates_call h x).bind fun _ => locates_pure _) hrun
    all_goals exact fun hrun => locates_pure _ hrun
  case openParen =>
    exact fun hrun => ((locates_token _).bind fun _ => h.bind fun _ =>
      (locates_token _).bind fun _ => locates_pure _) hrun
  all_goals exact fun hrun => locates_expected _ hrun

theorem locates_operand {inner : Consumer Expr} (h : inner.val.Locates) :
    (operand inner).Locates := by
  have happly (op : UnaryOp) (sign : Span) :
      (do let e ← inner.val; return .unary op e (sign.merge e.span) : Reader Expr).Locates :=
    h.bind fun _ => locates_pure _
  refine locates_peek_bind (locates_primary (locates_tiers h)) fun l ls why rest => ?_
  obtain ⟨t, s⟩ := l
  cases t
  case minus =>
    intro hrun
    -- The sign is taken, and then only a number on its own looks back at it.
    rcases bind_eq_stuck.1 hrun with hrun | ⟨sign, mid, hsign, hrun⟩
    · exact locates_token _ hrun
    · obtain ⟨rfl, rfl⟩ : s = sign ∧ ls = mid := by
        simpa [token, accept, run_bind] using hsign
      cases ls with
      | nil => exact (happly .neg s hrun).mono (List.suffix_cons _ _)
      | cons l ls =>
        obtain ⟨t, s'⟩ := l
        cases t
        case number digits =>
          exact located_literal [⟨.minus, s⟩] (by simp) hrun
        all_goals exact (happly .neg s hrun).mono (List.suffix_cons _ _)
  case notOp => exact fun hrun => ((locates_token _).bind fun first => happly .not first) hrun
  all_goals exact fun hrun => locates_primary (locates_tiers h) hrun

theorem locates_unary (budget : Nat) : (unary budget).val.Locates := by
  induction budget with
  | zero =>
    intro ls why rest h
    cases h
    trivial
  | succ budget ih => exact locates_operand ih

theorem locates_expr (budget : Nat) : (expr budget).val.Locates :=
  locates_tiers (locates_unary budget)

theorem locates_declaration : declaration.Locates := by
  refine (locates_token _).bind fun first => locates_ident.bind fun x =>
    (locates_token _).bind fun _ => locates_type.bind fun ⟨ty, _⟩ => ?_
  have hclose (p : Reader (Option Expr)) (hp : p.Locates) :
      (do let init ← p; let last ← token .semicolon
          return .declare x ty init (first.merge last) : Reader Stmt).Locates :=
    hp.bind fun _ => (locates_token _).bind fun _ => locates_pure _
  refine locates_peek_bind (hclose _ (locates_pure none)) fun l ls why rest => ?_
  obtain ⟨t, s⟩ := l
  cases t
  case becomes =>
    exact fun hrun => ((locates_token _).bind fun _ =>
      hclose _ ((locates_expr _).bind fun _ => locates_pure _)) hrun
  all_goals exact fun hrun => hclose _ (locates_pure none) hrun

theorem locates_returning : returning.Locates := by
  refine (locates_token _).bind fun first => ?_
  have hclose (p : Reader (Option Expr)) (hp : p.Locates) :
      (do let value ← p; let last ← token .semicolon
          return .ret value (first.merge last) : Reader Stmt).Locates :=
    hp.bind fun _ => (locates_token _).bind fun _ => locates_pure _
  have hsome := hclose _ ((locates_expr nestingLimit).bind fun e => locates_pure (some e))
  refine locates_peek_bind hsome fun l ls why rest => ?_
  obtain ⟨t, s⟩ := l
  cases t
  case semicolon => exact fun hrun => hclose _ (locates_pure none) hrun
  all_goals exact fun hrun => hsome hrun

theorem locates_action : action.Locates := by
  refine locates_ident.bind fun x => ?_
  refine locates_peek_bind (locates_expected _) fun l ls why rest => ?_
  obtain ⟨t, s⟩ := l
  cases t
  case becomes =>
    exact fun hrun => ((locates_token _).bind fun _ => (locates_expr _).bind fun _ =>
      (locates_token _).bind fun _ => locates_pure _) hrun
  case openParen =>
    exact fun hrun => ((locates_call (locates_expr _) x).bind fun _ =>
      (locates_token _).bind fun _ => locates_pure _) hrun
  all_goals exact fun hrun => locates_expected _ hrun

theorem locates_statement : statement.Locates := by
  refine locates_peek_bind (locates_expected _) fun l ls why rest => ?_
  obtain ⟨t, s⟩ := l
  cases t
  case varWord => exact fun hrun => locates_declaration hrun
  case returnWord => exact fun hrun => locates_returning hrun
  case name => exact fun hrun => locates_action hrun
  all_goals exact fun hrun => locates_expected _ hrun

theorem locates_param : param.Locates :=
  locates_ident.bind fun _ => (locates_token _).bind fun _ =>
    locates_type.bind fun _ => locates_pure _

theorem locates_header : header.Locates :=
  locates_ident.bind fun _ => (locates_parenthesized locates_param).bind fun _ =>
    (locates_token _).bind fun _ => locates_type.bind fun _ =>
    (locates_token _).bind fun _ => locates_pure _

end Reader
end ScriptCheck
