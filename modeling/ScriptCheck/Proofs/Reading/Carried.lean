import ScriptCheck.Reading.Script
import ScriptCheck.Proofs.Tree.Moved

/-!
# Reading tokens that stand elsewhere

The same tokens can stand at other places, and a `def` can follow them where there was
the end of the text. Every reader treats the two texts alike: it is done or stuck at the
same token, and what it gives differs by the move of its spans alone. This is one
simulation, proved once per reader and once per loop; that places do not matter and that
nothing is read across a `def` are both cases of it.
-/
namespace ScriptCheck

/-- New surroundings for a list of tokens: how their spans move, and what stands behind
them, which is either nothing or begins with `def`. -/
structure Setting where
  move : Move
  tail : List Lexeme
  closed : ∀ l ∈ tail.head?, l.token = .defWord

namespace Setting

variable (σ : Setting)

/-- The tokens in their new surroundings. -/
def carry (ls : List Lexeme) : List Lexeme := ls.map (Lexeme.move σ.move) ++ σ.tail

/-- The same places, with tokens from a `def` on behind them. -/
def before (tail : List Lexeme) (h : ∀ l ∈ tail.head?, l.token = .defWord) : Setting :=
  ⟨.stay, tail, h⟩

/-- Other places and nothing behind. -/
def moved (m : Move) : Setting := ⟨m, [], by simp⟩

@[simp] theorem carry_nil : σ.carry [] = σ.tail := rfl

@[simp] theorem carry_cons (l : Lexeme) (ls : List Lexeme) :
    σ.carry (l :: ls) = l.move σ.move :: σ.carry ls := rfl

@[simp] theorem carry_before (tail ls : List Lexeme)
    (h : ∀ l ∈ tail.head?, l.token = .defWord) : (before tail h).carry ls = ls ++ tail := by
  rw [carry, before, Lexeme.map_move_stay]

@[simp] theorem carry_moved (m : Move) (ls : List Lexeme) :
    (moved m).carry ls = ls.map (Lexeme.move m) := List.append_nil _

end Setting

def Complaint.move (m : Move) : Complaint → Complaint
  | .expected wanted => .expected wanted
  | .tooDeep => .tooDeep
  | .outOfRange sign digits => .outOfRange (sign.map m) digits

/-- The outcome in new surroundings, where `f` moves the value. -/
def Outcome.carry {α β : Type} (σ : Setting) (f : α → β) : Outcome α → Outcome β
  | .done a rest => .done (f a) (σ.carry rest)
  | .stuck why rest => .stuck (why.move σ.move) (σ.carry rest)

namespace Reader

variable {α β γ δ : Type} {σ : Setting}

/-- In the new surroundings `q` reads as `p` does in the old ones. -/
def Follows (σ : Setting) (f : α → β) (p : Reader α) (q : Reader β) : Prop :=
  ∀ ls, q.run (σ.carry ls) = (p.run ls).carry σ f

theorem follows_pure (f : α → β) (a : α) : Follows σ f (pure a) (pure (f a)) := fun _ => rfl

theorem follows_fail (f : α → β) (why : Complaint) :
    Follows σ f (fail why) (fail (why.move σ.move)) := fun _ => rfl

/-- Sequences follow sequences, part by part. -/
theorem Follows.bind {f : α → β} {g : γ → δ} {p : Reader α} {q : Reader β}
    {k : α → Reader γ} {k' : β → Reader δ} (hp : Follows σ f p q)
    (hk : ∀ a, Follows σ g (k a) (k' (f a))) : Follows σ g (p >>= k) (q >>= k') := by
  intro ls
  rw [run_bind, run_bind, hp ls]
  cases p.run ls with
  | done a rest => exact hk a rest
  | stuck why rest => rfl

theorem Follows.map {f : α → β} {g : γ → δ} {p : Reader α} {q : Reader β} {h : α → γ}
    {h' : β → δ} (hp : Follows σ f p q) (hh : ∀ a, h' (f a) = g (h a)) :
    Follows σ g (h <$> p) (h' <$> q) := by
  refine hp.bind fun a => ?_
  have := follows_pure (σ := σ) g (h a)
  rwa [← hh a] at this

/-- A choice by the next token follows a choice that treats `def` as the end. -/
theorem follows_peek_bind {g : γ → δ} {k : Option Lexeme → Reader γ}
    {k' : Option Lexeme → Reader δ} (hdef : ∀ s, k' (some ⟨.defWord, s⟩) = k' none)
    (hk : ∀ seen, Follows σ g (k seen) (k' (seen.map (Lexeme.move σ.move)))) :
    Follows σ g (peek >>= k) (peek >>= k') := by
  intro ls
  rw [run_bind, run_bind, run_peek, run_peek]
  cases ls with
  | cons l ls => exact hk (some l) (l :: ls)
  | nil =>
    have hend := hk none []
    rw [Setting.carry_nil] at hend ⊢
    cases htail : σ.tail with
    | nil => rwa [htail] at hend
    | cons l ds =>
      have hl : l.token = .defWord := σ.closed l (by rw [htail]; rfl)
      have hsame : k' (some l) = k' none := by
        rw [← hdef l.span, ← hl]
      rw [htail] at hend
      simp only [List.head?_cons, hsame]
      exact hend

theorem follows_accept {wanted : Wanted} {pick : Token → Option α}
    (hpick : pick .defWord = none) :
    Follows σ (Prod.map id σ.move) (accept wanted pick) (accept wanted pick) := by
  intro ls
  cases ls with
  | nil =>
    rw [Setting.carry_nil]
    cases htail : σ.tail with
    | nil => simp [accept, Outcome.carry, Complaint.move, htail]
    | cons l ds =>
      have hl : l.token = .defWord := σ.closed l (by rw [htail]; rfl)
      simp [accept, hl, hpick, Outcome.carry, Complaint.move, htail]
  | cons l ls =>
    rw [Setting.carry_cons]
    cases hp : pick l.token with
    | none => simp [accept, Lexeme.move, hp, Outcome.carry, Complaint.move]
    | some a => simp [accept, Lexeme.move, hp, Outcome.carry]

theorem follows_token {t : Token} (ht : t ≠ .defWord) :
    Follows σ σ.move (token t) (token t) :=
  (follows_accept (by simp [ht.symm])).bind fun _ => follows_pure _ _

theorem follows_ident : Follows σ (Ident.move σ.move) ident ident :=
  (follows_accept rfl).bind fun _ => follows_pure (Ident.move σ.move) _

theorem follows_type : Follows σ (Prod.map id σ.move) type type := follows_accept rfl

end Reader

namespace Consumer

variable {α β : Type} {σ : Setting} {item : Consumer α} {a : α} {as : List α}
  {ls rest rest' : List Lexeme} {why : Complaint}

theorem itemsFrom_stuck (h : item.val.run ls = .stuck why rest) :
    itemsFrom item ls = .stuck why rest := by
  rw [itemsFrom]
  split <;> simp_all

/-- An item with no comma behind it is the last one. -/
theorem itemsFrom_last (h : item.val.run ls = .done a rest)
    (hlast : ∀ s ls', rest ≠ ⟨.comma, s⟩ :: ls') : itemsFrom item ls = .done [a] rest := by
  rw [itemsFrom]
  split
  · simp_all
  · next hcomma =>
    rw [h] at hcomma
    injection hcomma with _ hrest
    exact absurd hrest (hlast _ _)
  · simp_all

theorem itemsFrom_more {s : Span} (h : item.val.run ls = .done a (⟨.comma, s⟩ :: rest))
    (hmore : itemsFrom item rest = .done as rest') :
    itemsFrom item ls = .done (a :: as) rest' := by
  rw [itemsFrom]
  split <;> simp_all

theorem itemsFrom_more_stuck {s : Span} (h : item.val.run ls = .done a (⟨.comma, s⟩ :: rest))
    (hmore : itemsFrom item rest = .stuck why rest') :
    itemsFrom item ls = .stuck why rest' := by
  rw [itemsFrom]
  split <;> simp_all

theorem follows_items {f : α → β} {item : Consumer α} {item' : Consumer β}
    (h : Reader.Follows σ f item.val item'.val) :
    Reader.Follows σ (List.map f) item.items item'.items := by
  intro ls
  change itemsFrom item' (σ.carry ls) = (itemsFrom item ls).carry σ (List.map f)
  fun_induction itemsFrom item ls with
  | case1 ls why rest hrun =>
    have := h ls
    rw [hrun] at this
    exact itemsFrom_stuck this
  | case2 ls a s rest hrun as rest' hmore ih =>
    have := h ls
    rw [hrun] at this
    rw [hmore] at ih
    exact itemsFrom_more this ih
  | case3 ls a s rest hrun why rest' hmore ih =>
    have := h ls
    rw [hrun] at this
    rw [hmore] at ih
    exact itemsFrom_more_stuck this ih
  | case4 ls a rest hlast hrun =>
    have := h ls
    rw [hrun] at this
    refine itemsFrom_last this fun s ls' hcomma => ?_
    cases rest with
    | nil =>
      -- The tail cannot begin with a comma: it is empty or begins with `def`.
      have hl := σ.closed ⟨.comma, s⟩ (by rw [show σ.tail = _ from hcomma]; rfl)
      cases hl
    | cons l rest =>
      obtain ⟨t, s'⟩ := l
      injection hcomma with hl _
      injection hl with ht _
      exact hlast s' rest (by rw [show t = _ from ht])

theorem follows_parenthesized {f : α → β} (item : Consumer α) (item' : Consumer β)
    (h : Reader.Follows σ f item.val item'.val) :
    Reader.Follows σ (Prod.map (List.map f) σ.move) item.parenthesized.val
      item'.parenthesized.val := by
  refine (Reader.follows_token (by decide)).bind fun _ => ?_
  refine Reader.follows_peek_bind (fun _ => rfl) fun seen => ?_
  have hclose (p : Reader (List α)) (q : Reader (List β))
      (hpq : Reader.Follows σ (List.map f) p q) :
      Reader.Follows σ (Prod.map (List.map f) σ.move)
        (do let values ← p; let close ← Reader.token .closeParen; return (values, close))
        (do let values ← q; let close ← Reader.token .closeParen; return (values, close)) :=
    hpq.bind fun _ => (Reader.follows_token (by decide)).bind fun _ => Reader.follows_pure _ _
  rcases seen with _ | ⟨t, s⟩
  · exact hclose _ _ (follows_items h)
  · cases t
    case closeParen => exact hclose _ _ (Reader.follows_pure (List.map f) [])
    all_goals exact hclose _ _ (follows_items h)

end Consumer
namespace Reader

variable {σ : Setting} {tier : Tier} {operand operand' : Consumer Expr} {left right : Expr}
  {op : BinaryOp} {l : Lexeme} {ls rest : List Lexeme} {why : Complaint}

/-- A chain ends at the first token that is no operator of its tier. -/
theorem chainFrom_end (h : ∀ l ∈ ls.head?, tier.ofToken? l.token = none) :
    chainFrom tier operand left ls = .done left ls := by
  cases ls with
  | nil => rw [chainFrom]
  | cons l ls =>
    rw [chainFrom]
    split
    · rfl
    · next op hop =>
      rw [h l rfl] at hop
      cases hop

theorem chainFrom_more (hop : tier.ofToken? l.token = some op)
    (hrun : operand.val.run ls = .done right rest) :
    chainFrom tier operand left (l :: ls) =
      chainFrom tier operand (.join op left right) rest := by
  rw [chainFrom]
  split <;> simp_all
  split <;> simp_all

theorem chainFrom_stuck (hop : tier.ofToken? l.token = some op)
    (hrun : operand.val.run ls = .stuck why rest) :
    chainFrom tier operand left (l :: ls) = .stuck why rest := by
  rw [chainFrom]
  split <;> simp_all
  split <;> simp_all

theorem follows_chainRest (h : Follows σ (Expr.move σ.move) operand.val operand'.val)
    (left : Expr) :
    Follows σ (Expr.move σ.move) (chainRest tier operand left)
      (chainRest tier operand' (left.move σ.move)) := by
  intro ls
  change chainFrom tier operand' (left.move σ.move) (σ.carry ls) =
    (chainFrom tier operand left ls).carry σ (Expr.move σ.move)
  fun_induction chainFrom tier operand left ls with
  | case1 left =>
    refine chainFrom_end fun l hl => ?_
    rw [σ.closed l hl]
    rfl
  | case2 left l ls hop =>
    refine chainFrom_end fun l' hl' => ?_
    injection hl' with hl'
    rw [← hl']
    exact hop
  | case3 left l ls op hop right rest hrun ih =>
    have := h ls
    rw [hrun] at this
    rw [Setting.carry_cons, chainFrom_more (l := l.move σ.move) hop this, ← Expr.move_join]
    exact ih
  | case4 left l ls op hop why rest hrun =>
    have := h ls
    rw [hrun] at this
    exact chainFrom_stuck (l := l.move σ.move) hop this

theorem follows_chain (tier : Tier)
    (h : Follows σ (Expr.move σ.move) operand.val operand'.val) :
    Follows σ (Expr.move σ.move) (chain tier operand).val (chain tier operand').val :=
  h.bind fun left => follows_chainRest h left

theorem follows_tiers (h : Follows σ (Expr.move σ.move) operand.val operand'.val) :
    Follows σ (Expr.move σ.move) (tiers operand).val (tiers operand').val := by
  unfold tiers
  induction Tier.all with
  | nil => exact h
  | cons tier tiers ih => exact follows_chain tier ih

theorem follows_literal (sign : Option Span) (digits : String) :
    Follows σ (Expr.move σ.move) (literal sign digits) (literal (sign.map σ.move) digits) := by
  have hvalue : signedValue (sign.map σ.move) digits = signedValue sign digits := by
    cases sign <;> rfl
  have hspan (s : Span) : signedSpan (sign.map σ.move) (σ.move s) = σ.move (signedSpan sign s) := by
    cases sign with
    | none => rfl
    | some s' => exact (σ.move.apply_merge s' s).symm
  unfold literal
  rw [hvalue]
  split
  · refine (follows_token (by simp)).bind fun s => ?_
    rw [hspan]
    exact follows_pure (Expr.move σ.move) _
  · exact follows_fail _ _

theorem follows_call {expr expr' : Consumer Expr}
    (h : Follows σ (Expr.move σ.move) expr.val expr'.val) (callee : Ident) :
    Follows σ (Call.move σ.move) (call expr callee) (call expr' (callee.move σ.move)) := by
  refine (Consumer.follows_parenthesized expr expr' h).bind fun ⟨args, close⟩ => ?_
  have := follows_pure (σ := σ) (Call.move σ.move) ⟨callee, args, callee.span.merge close⟩
  rwa [Call.move, σ.move.apply_merge] at this

theorem follows_primary {expr expr' : Consumer Expr}
    (h : Follows σ (Expr.move σ.move) expr.val expr'.val) :
    Follows σ (Expr.move σ.move) (primary expr) (primary expr') := by
  refine follows_peek_bind (fun _ => rfl) fun seen => ?_
  rcases seen with _ | ⟨t, s⟩
  · exact follows_fail _ _
  · cases t
    case number digits => exact follows_literal none digits
    case trueWord =>
      exact (follows_token (by decide)).bind fun s =>
        follows_pure (Expr.move σ.move) (.bool true s)
    case falseWord =>
      exact (follows_token (by decide)).bind fun s =>
        follows_pure (Expr.move σ.move) (.bool false s)
    case name spelling =>
      refine follows_ident.bind fun x => follows_peek_bind (fun _ => rfl) fun seen => ?_
      have hvar := follows_pure (σ := σ) (Expr.move σ.move) (.var x.name x.span)
      rcases seen with _ | ⟨t, s⟩
      · exact hvar
      · cases t
        case openParen => exact (follows_call h x).map fun c => (Call.move_toExpr _ c).symm
        all_goals exact hvar
    case openParen =>
      refine (follows_token (by decide)).bind fun first => h.bind fun inner =>
        (follows_token (by decide)).bind fun last => ?_
      rw [← σ.move.apply_merge, ← Expr.move_withSpan]
      exact follows_pure (Expr.move σ.move) _
    all_goals exact follows_fail _ _

theorem follows_applied {inner inner' : Consumer Expr}
    (h : Follows σ (Expr.move σ.move) inner.val inner'.val) (op : UnaryOp) (sign : Span) :
    Follows σ (Expr.move σ.move)
      (do let e ← inner.val; return .unary op e (sign.merge e.span))
      (do let e ← inner'.val; return .unary op e ((σ.move sign).merge e.span)) := by
  refine h.bind fun e => ?_
  rw [Expr.span_move, ← σ.move.apply_merge]
  exact follows_pure (Expr.move σ.move) (.unary op e (sign.merge e.span))

theorem follows_operand {inner inner' : Consumer Expr}
    (h : Follows σ (Expr.move σ.move) inner.val inner'.val) :
    Follows σ (Expr.move σ.move) (Reader.operand inner) (Reader.operand inner') := by
  refine follows_peek_bind (fun _ => rfl) fun seen => ?_
  rcases seen with _ | ⟨t, s⟩
  · exact follows_primary (follows_tiers h)
  · cases t
    case minus =>
      refine (follows_token (by decide)).bind fun sign =>
        follows_peek_bind (fun _ => rfl) fun seen => ?_
      rcases seen with _ | ⟨t, s⟩
      · exact follows_applied h .neg sign
      · cases t
        case number digits => exact follows_literal (some sign) digits
        all_goals exact follows_applied h .neg sign
    case notOp => exact (follows_token (by decide)).bind fun first => follows_applied h .not first
    all_goals exact follows_primary (follows_tiers h)

theorem follows_unary (budget : Nat) :
    Follows σ (Expr.move σ.move) (unary budget).val (unary budget).val := by
  induction budget with
  | zero => exact follows_fail _ _
  | succ budget ih => exact follows_operand ih

theorem follows_expr (budget : Nat) :
    Follows σ (Expr.move σ.move) (expr budget).val (expr budget).val :=
  follows_tiers (follows_unary budget)

theorem follows_init :
    Follows σ (Option.map (Expr.move σ.move))
      (some <$> (expr nestingLimit).val) (some <$> (expr nestingLimit).val) :=
  (follows_expr _).map fun _ => rfl

theorem follows_declaration : Follows σ (Stmt.move σ.move) declaration declaration := by
  refine (follows_token (by decide)).bind fun first => follows_ident.bind fun x =>
    (follows_token (by decide)).bind fun _ => follows_type.bind fun ⟨ty, _⟩ =>
    follows_peek_bind (fun _ => rfl) fun seen => ?_
  have hclose (p : Reader (Option Expr))
      (hp : Follows σ (Option.map (Expr.move σ.move)) p p) :
      Follows σ (Stmt.move σ.move)
        (do let init ← p; let last ← token .semicolon
            return .declare x ty init (first.merge last))
        (do let init ← p; let last ← token .semicolon
            return .declare (x.move σ.move) ty init ((σ.move first).merge last)) := by
    refine hp.bind fun init => (follows_token (by decide)).bind fun last => ?_
    rw [← σ.move.apply_merge]
    exact follows_pure (Stmt.move σ.move) (.declare x ty init (first.merge last))
  have hnone := hclose (pure none) (follows_pure _ _)
  rcases seen with _ | ⟨t, s⟩
  · exact hnone
  · cases t
    case becomes =>
      exact (follows_token (by decide)).bind fun _ => hclose _ follows_init
    all_goals exact hnone

theorem follows_returning : Follows σ (Stmt.move σ.move) returning returning := by
  refine (follows_token (by decide)).bind fun first =>
    follows_peek_bind (fun _ => rfl) fun seen => ?_
  have hclose (p : Reader (Option Expr))
      (hp : Follows σ (Option.map (Expr.move σ.move)) p p) :
      Follows σ (Stmt.move σ.move)
        (do let value ← p; let last ← token .semicolon; return .ret value (first.merge last))
        (do let value ← p; let last ← token .semicolon
            return .ret value ((σ.move first).merge last)) := by
    refine hp.bind fun value => (follows_token (by decide)).bind fun last => ?_
    rw [← σ.move.apply_merge]
    exact follows_pure (Stmt.move σ.move) (.ret value (first.merge last))
  have hsome := hclose _ follows_init
  rcases seen with _ | ⟨t, s⟩
  · exact hsome
  · cases t
    case semicolon => exact hclose (pure none) (follows_pure _ _)
    all_goals exact hsome

theorem follows_action : Follows σ (Stmt.move σ.move) action action := by
  refine follows_ident.bind fun x => follows_peek_bind (fun _ => rfl) fun seen => ?_
  rcases seen with _ | ⟨t, s⟩
  · exact follows_fail _ _
  · cases t
    case becomes =>
      refine (follows_token (by decide)).bind fun _ => (follows_expr _).bind fun value =>
        (follows_token (by decide)).bind fun last => ?_
      have := follows_pure (σ := σ) (Stmt.move σ.move) (.assign x value (x.span.merge last))
      rwa [Stmt.move, σ.move.apply_merge] at this
    case openParen =>
      refine (follows_call (follows_expr _) x).bind fun c =>
        (follows_token (by decide)).bind fun last => ?_
      have := follows_pure (σ := σ) (Stmt.move σ.move) (.call c (x.span.merge last))
      rwa [Stmt.move, σ.move.apply_merge] at this
    all_goals exact follows_fail _ _

theorem follows_statement : Follows σ (Stmt.move σ.move) statement statement := by
  refine follows_peek_bind (fun _ => rfl) fun seen => ?_
  rcases seen with _ | ⟨t, s⟩
  · exact follows_fail _ _
  · cases t
    case varWord => exact follows_declaration
    case returnWord => exact follows_returning
    case name => exact follows_action
    all_goals exact follows_fail _ _

theorem follows_param : Follows σ (Param.move σ.move) param param := by
  refine follows_ident.bind fun x => (follows_token (by decide)).bind fun _ =>
    follows_type.bind fun ⟨ty, s⟩ => ?_
  have := follows_pure (σ := σ) (Param.move σ.move) ⟨x.name, ty, x.span.merge s⟩
  rwa [Param.move, σ.move.apply_merge] at this

end Reader

def Header.move (m : Move) (h : Header) : Header :=
  ⟨h.name.move m, h.params.map (Param.move m), h.returns⟩

theorem Reader.follows_header {σ : Setting} : Follows σ (Header.move σ.move) header header := by
  refine follows_ident.bind fun x =>
    (Consumer.follows_parenthesized ⟨param, consumes_param⟩ ⟨param, consumes_param⟩
      follows_param).bind fun ⟨params, _⟩ =>
    (follows_token (by decide)).bind fun _ => follows_type.bind fun ⟨ty, _⟩ =>
    (follows_token (by decide)).bind fun _ => ?_
  exact follows_pure (Header.move σ.move) ⟨x, params, ty⟩

end ScriptCheck
