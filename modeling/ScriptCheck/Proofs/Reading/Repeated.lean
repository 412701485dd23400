import ScriptCheck.Proofs.Grammar.Soundness

/-!
# Reading the same tokens again

An expression that was read is read again from the same tokens, also if fewer tokens follow
or none at all, and if more levels are left to nest. A reader looks at the next token to see
whether to go on; where it did not go on, it does not go on at the end of the text either.
-/
namespace ScriptCheck

namespace Reader

variable {α β : Type}

/-- What `p` has read is read by `q` from the tokens that `p` took, with some of those behind
them cut off. -/
def Repeats (p q : Reader α) : Prop :=
  ∀ ⦃ls a rest⦄, p.run ls = .done a rest →
    ∃ mid, ls = mid ++ rest ∧ ∀ ⦃rest'⦄, rest' <+: rest → q.run (mid ++ rest') = .done a rest'

theorem repeats_pure (a : α) : Repeats (pure a) (pure a) := by
  intro ls b rest h
  cases h
  exact ⟨[], rfl, fun _ _ => rfl⟩

theorem repeats_fail (why : Complaint) (q : Reader α) : Repeats (fail why) q := by
  intro ls a rest h
  cases h

theorem Repeats.bind {p q : Reader α} {k k' : α → Reader β} (hp : Repeats p q)
    (hk : ∀ a, Repeats (k a) (k' a)) : Repeats (p >>= k) (q >>= k') := by
  intro ls b rest h
  obtain ⟨a, after, ha, hb⟩ := bind_eq_done.1 h
  obtain ⟨first, rfl, hfirst⟩ := hp ha
  obtain ⟨second, rfl, hsecond⟩ := hk a hb
  refine ⟨first ++ second, by rw [List.append_assoc], fun rest' hrest => ?_⟩
  have hprefix : second ++ rest' <+: second ++ rest := (List.prefix_append_right_inj second).2 hrest
  rw [List.append_assoc, bind_eq_done]
  exact ⟨a, second ++ rest', hfirst hprefix, hsecond hrest⟩

/-- A choice by the next token is the same if that token is taken. If it is not, the choice
must be the same at the end of the text. -/
theorem repeats_peek_bind {k k' : Option Lexeme → Reader β}
    (hk : ∀ seen, Repeats (k seen) (k' seen))
    (hend : ∀ l ls b, (k (some l)).run (l :: ls) = .done b (l :: ls) →
      (k' none).run [] = .done b []) : Repeats (peek >>= k) (peek >>= k') := by
  intro ls b rest h
  change (k ls.head?).run ls = .done b rest at h
  obtain ⟨mid, rfl, hmid⟩ := hk _ h
  refine ⟨mid, rfl, fun rest' hrest => ?_⟩
  change (k' (mid ++ rest').head?).run (mid ++ rest') = .done b rest'
  have hsame := hmid hrest
  cases mid with
  | cons l mid => exact hsame
  | nil =>
    cases rest' with
    | cons l rest' =>
      obtain ⟨more, rfl⟩ := hrest
      exact hsame
    | nil =>
      cases rest with
      | nil => exact hsame
      | cons l rest => exact hend l rest b h

/-- A reader that takes a token leaves less than there was. -/
theorem Consumes.run_ne {p : Reader α} (h : p.Consumes) (ls : List Lexeme) (a : α) :
    p.run ls ≠ .done a ls := fun hrun => Nat.lt_irrefl _ (h hrun)

/-- A choice by the next token where that token is always taken. -/
theorem repeats_peek_bind_of_consumes {k k' : Option Lexeme → Reader β}
    (hk : ∀ seen, Repeats (k seen) (k' seen)) (hc : (peek >>= k).Consumes) :
    Repeats (peek >>= k) (peek >>= k') :=
  repeats_peek_bind hk fun l ls b h => absurd h (hc.run_ne (l :: ls) b)

theorem repeats_accept (wanted : Wanted) (pick : Token → Option α) :
    Repeats (accept wanted pick) (accept wanted pick) := by
  intro ls a rest h
  obtain ⟨t, rfl, hpick⟩ := Grammar.accept_inv h
  refine ⟨[⟨t, a.2⟩], rfl, fun rest' _ => ?_⟩
  simp only [accept, List.cons_append, List.nil_append, hpick]

theorem repeats_token (t : Token) : Repeats (token t) (token t) :=
  (repeats_accept _ _).bind fun _ => repeats_pure _

theorem repeats_ident : Repeats ident ident :=
  (repeats_accept _ _).bind fun _ => repeats_pure _

theorem repeats_items {item item' : Consumer α} (h : Repeats item.val item'.val) :
    Repeats item.items item'.items := by
  intro ls as rest hrun
  change item.itemsFrom ls = .done as rest at hrun
  fun_induction Consumer.itemsFrom item ls generalizing as rest with
  | case1 => cases hrun
  | case2 ls a s after hitem as' rest hmore ih =>
    cases hrun
    obtain ⟨first, rfl, hfirst⟩ := h hitem
    obtain ⟨second, rfl, hsecond⟩ := ih hmore
    refine ⟨first ++ ⟨.comma, s⟩ :: second, by simp, fun rest' hrest => ?_⟩
    have hprefix : ⟨.comma, s⟩ :: (second ++ rest') <+: ⟨.comma, s⟩ :: (second ++ rest) :=
      List.cons_prefix_cons.2 ⟨rfl, (List.prefix_append_right_inj second).2 hrest⟩
    rw [List.append_assoc, List.cons_append]
    exact Consumer.itemsFrom_more (hfirst hprefix) (hsecond hrest)
  | case3 => cases hrun
  | case4 ls a after hlast hitem =>
    cases hrun
    obtain ⟨mid, rfl, hmid⟩ := h hitem
    refine ⟨mid, rfl, fun rest' hrest => ?_⟩
    refine Consumer.itemsFrom_last (hmid hrest) fun s more hcomma => ?_
    obtain ⟨behind, rfl⟩ := hrest
    rw [hcomma] at hlast
    exact hlast s (more ++ behind) rfl

theorem repeats_parenthesized {item item' : Consumer α} (h : Repeats item.val item'.val) :
    Repeats item.parenthesized.val item'.parenthesized.val := by
  have hclose {p q : Reader (List α)} (hpq : Repeats p q) :
      Repeats (do let values ← p; let close ← token .closeParen; return (values, close))
        (do let values ← q; let close ← token .closeParen; return (values, close)) :=
    hpq.bind fun _ => (repeats_token _).bind fun _ => repeats_pure _
  have htaken (p : Reader (List α)) :
      (do let values ← p; let close ← token .closeParen; return (values, close)).Consumes :=
    consumes_bind_right fun _ => (consumes_token _).bind _
  refine (repeats_token _).bind fun _ => repeats_peek_bind_of_consumes (fun seen => ?_)
    (consumes_bind_right fun seen => ?_)
  · split
    · exact hclose (repeats_pure [])
    · exact hclose (repeats_items h)
  · split
    · exact htaken _
    · exact htaken _

theorem repeats_chainRest {tier : Tier} {operand operand' : Consumer Expr}
    (h : Repeats operand.val operand'.val) (left : Expr) :
    Repeats (chainRest tier operand left) (chainRest tier operand' left) := by
  intro ls e rest hrun
  change chainFrom tier operand left ls = .done e rest at hrun
  fun_induction chainFrom tier operand left ls with
  | case1 left =>
    cases hrun
    refine ⟨[], rfl, fun rest' hrest => ?_⟩
    rw [List.prefix_nil.1 hrest]
    exact chainFrom_end (by simp)
  | case2 left l ls hl =>
    cases hrun
    refine ⟨[], rfl, fun rest' hrest => chainFrom_end fun l' hl' => ?_⟩
    cases rest' with
    | nil => cases hl'
    | cons l'' rest' =>
      cases hl'
      rw [(List.cons_prefix_cons.1 hrest).1]
      exact hl
  | case3 left l ls op hl right after hright ih =>
    obtain ⟨first, rfl, hfirst⟩ := h hright
    obtain ⟨second, rfl, hsecond⟩ := ih hrun
    refine ⟨l :: (first ++ second), by simp, fun rest' hrest => ?_⟩
    have hprefix := (List.prefix_append_right_inj second).2 hrest
    show chainFrom tier operand' left (l :: (first ++ second ++ rest')) = .done e rest'
    rw [List.append_assoc, chainFrom_more hl (hfirst hprefix)]
    exact hsecond hrest
  | case4 => cases hrun

theorem repeats_chain (tier : Tier) {operand operand' : Consumer Expr}
    (h : Repeats operand.val operand'.val) :
    Repeats (chain tier operand).val (chain tier operand').val :=
  h.bind fun left => repeats_chainRest h left

theorem repeats_tiers {operand operand' : Consumer Expr} (h : Repeats operand.val operand'.val)
    (tiers : List Tier) :
    Repeats (tiers.foldr chain operand).val (tiers.foldr chain operand').val := by
  induction tiers with
  | nil => exact h
  | cons tier tiers ih => exact repeats_chain tier ih

theorem repeats_literal (sign : Option Span) (digits : String) :
    Repeats (literal sign digits) (literal sign digits) := by
  unfold literal
  split
  · exact (repeats_token _).bind fun _ => repeats_pure _
  · exact repeats_fail _ _

theorem repeats_call {expr expr' : Consumer Expr} (h : Repeats expr.val expr'.val)
    (callee : Ident) : Repeats (call expr callee) (call expr' callee) :=
  (repeats_parenthesized h).bind fun _ => repeats_pure _

theorem repeats_primary {expr expr' : Consumer Expr} (h : Repeats expr.val expr'.val) :
    Repeats (primary expr) (primary expr') := by
  refine repeats_peek_bind_of_consumes (fun seen => ?_) (consumes_primary expr)
  split
  · exact repeats_literal _ _
  · exact (repeats_token _).bind fun _ => repeats_pure _
  · exact (repeats_token _).bind fun _ => repeats_pure _
  · refine repeats_ident.bind fun x => repeats_peek_bind (fun seen => ?_) fun l ls e hrun => ?_
    · split
      · exact (repeats_call h x).bind fun _ => repeats_pure _
      · exact repeats_pure _
    · -- A name with no arguments behind it is a variable at the end of the text too.
      split at hrun
      · have hcall : (call expr x >>= fun c => pure c.toExpr).Consumes :=
          (expr.parenthesized.property.bind _).bind _
        exact absurd hrun (hcall.run_ne _ _)
      · cases hrun
        rfl
  · exact (repeats_token _).bind fun _ => h.bind fun _ =>
      (repeats_token _).bind fun _ => repeats_pure _
  · exact repeats_fail _ _

theorem repeats_operand {inner inner' : Consumer Expr} (h : Repeats inner.val inner'.val) :
    Repeats (operand inner) (operand inner') := by
  refine repeats_peek_bind_of_consumes (fun seen => ?_) (consumes_operand inner)
  split
  · refine (repeats_token _).bind fun sign => repeats_peek_bind_of_consumes (fun seen => ?_)
      (consumes_bind_right fun seen => ?_)
    · split
      · exact repeats_literal _ _
      · exact h.bind fun _ => repeats_pure _
    · split
      · exact consumes_literal _ _
      · exact inner.property.bind _
  · exact (repeats_token _).bind fun _ => h.bind fun _ => repeats_pure _
  · exact repeats_primary (repeats_tiers h Tier.all)

/-- What can be read with few levels to nest can be read with more. -/
theorem repeats_unary {budget budget' : Nat} (h : budget ≤ budget') :
    Repeats (unary budget).val (unary budget').val := by
  induction budget generalizing budget' with
  | zero => exact repeats_fail _ _
  | succ budget ih =>
    obtain ⟨more, rfl⟩ : ∃ more, budget' = more + 1 := ⟨budget' - 1, by omega⟩
    exact repeats_operand (ih (by omega))

end Reader

/-- An expression of the inner tiers, with nothing behind it, is an expression of all tiers. -/
theorem Grammar.level_append {outer inner : List Tier} {budget : Nat} {ls : List Lexeme} {e : Expr}
    (h : (level inner budget).val.run ls = .done e []) :
    (level (outer ++ inner) budget).val.run ls = .done e [] := by
  induction outer with
  | nil => exact h
  | cons tier outer ih =>
    refine Reader.bind_eq_done.2 ⟨e, [], ih, ?_⟩
    exact Reader.chainFrom_end (by simp)

/-- What was read at some tier and depth is read again as a whole expression. -/
theorem Grammar.run_expr_of_level {outer inner : List Tier} (htiers : outer ++ inner = Tier.all)
    {budget : Nat} (hbudget : budget ≤ nestingLimit) {ls rest : List Lexeme} {e : Expr}
    (h : (level inner budget).val.run ls = .done e rest) :
    ∃ mid, ls = mid ++ rest ∧ (Reader.expr nestingLimit).val.run mid = .done e [] := by
  obtain ⟨mid, hls, hmid⟩ := Reader.repeats_tiers (Reader.repeats_unary hbudget) inner h
  have hagain := hmid List.nil_prefix
  rw [List.append_nil] at hagain
  refine ⟨mid, hls, ?_⟩
  show (level Tier.all nestingLimit).val.run mid = .done e []
  rw [← htiers]
  exact level_append hagain

end ScriptCheck
