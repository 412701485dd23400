import ScriptCheck.Proofs.Parser.Laws
import ScriptCheck.Proofs.Reading.Resumption

/-!
# The parser does what the readers do

A routine that comes to an end has the answer of its reader, leaves the tokens that the reader
leaves and records the faults that are collected there. The budget of a reader is what is left of
the limit at the depth of the parser. Each routine is compared with its reader under the
assumption that the routines it calls agree with theirs; the fuel carries the induction.

Readers know nothing of the characters that begin no token. What they are compared with is
therefore a view of the state, which leaves these characters out.
-/
namespace ScriptCheck

/-- The answer of a reader. -/
def Outcome.answer {α : Type} : Outcome α → Except Complaint α
  | .done a _ => .ok a
  | .stuck why _ => .error why

def Outcome.map {α β : Type} (f : α → β) : Outcome α → Outcome β
  | .done a rest => .done (f a) rest
  | .stuck why rest => .stuck why rest

@[simp] theorem Outcome.map_append_nil {α : Type} (o : Outcome (List α)) :
    o.map ([] ++ ·) = o := by
  cases o <;> rfl

/-- The items of a list up to the closing parenthesis, which stays. -/
def Consumer.listing {α : Type} (item : Consumer α) : Reader (List α) := do
  match ← Reader.peek with
  | some ⟨.closeParen, _⟩ => pure []
  | _ => item.items

theorem Consumer.run_parenthesized {α : Type} (item : Consumer α) (ts : List Lexeme) :
    item.parenthesized.val.run ts =
      (do
        let _ ← Reader.token .openParen
        let values ← item.listing
        let close ← Reader.token .closeParen
        return (values, close) : Reader (List α × Span)).run ts := by
  unfold Consumer.parenthesized
  rw [Reader.run_bind, Reader.run_bind]
  -- The choice by the next token stands around what follows on the left, before it on the right.
  cases (Reader.token .openParen).run ts with
  | stuck why rest => rfl
  | done span rest =>
    cases rest with
    | nil => rfl
    | cons l rest =>
      obtain ⟨t, span⟩ := l
      cases t <;> rfl

/-- A procedure that is given up is given up for its last fault. -/
theorem Attempt.faults_of_none {eof start : Span} {ts : List Lexeme}
    (h : (Attempt.read eof start ts).procedure = none) : ∃ (why : Complaint) (found : List Fault),
      (Attempt.read eof start ts).faults =
        found ++ [why.toFault eof (Attempt.read eof start ts).rest] := by
  unfold Attempt.read at h ⊢
  split at h
  · next why rest hrun => exact ⟨why, [], rfl⟩
  · next head rest hrun =>
    simp only at h ⊢
    split at h
    · next why rest' hend => exact ⟨why, _, rfl⟩
    · next last rest' hend => cases h

namespace Parser

open Parser.Action

variable {α β : Type}

/-! ## Agreement -/

/-- If there is an ending, it has this answer and leads to this view. -/
def Gives (m : Action α) (v : View) (answer : Except Complaint α) (v' : View) : Prop :=
  ∀ s, s.view = v → ∀ e, m.exec s = some e → e.answer = answer ∧ e.state.view = v'

/-- The action does to the tokens what the outcome says, and nothing else. -/
def Reads (m : Action α) (v : View) (o : Outcome α) : Prop :=
  Gives m v o.answer { v with rest := o.rest }

section

variable {m : Action α} {f : α → Action β} {v v' v'' : View} {a : α} {b : Except Complaint β}
  {why : Complaint} {l : Lexeme} {ts : List Lexeme}

theorem gives_of_exec {answer : Except Complaint α} (h : ∀ s, s.view = v →
    ∃ s' log, m.exec s = some ⟨answer, s', log⟩ ∧ s'.view = v') : Gives m v answer v' := by
  intro s hs e he
  obtain ⟨s', log, hexec, hs'⟩ := h s hs
  cases hexec.symm.trans he
  exact ⟨rfl, hs'⟩

theorem gives_pure : Gives (pure a) v (.ok a) v :=
  gives_of_exec fun s hs => ⟨s, [], rfl, hs⟩

theorem gives_fail : Gives (fail (α := α) why) v (.error why) v :=
  gives_of_exec fun s hs => ⟨s, [], rfl, hs⟩

theorem gives_depth : Gives depth v (.ok v.depth) v := by
  refine gives_of_exec ?_
  rintro s rfl
  exact ⟨s, [], rfl, rfl⟩

theorem gives_perform {act : Act} (h : ∀ s, s.view = v → (act.change s).view = v') :
    Gives (perform act) v (.ok ()) v' :=
  gives_of_exec fun s hs => ⟨act.change s, [⟨act, s⟩], rfl, h s hs⟩

/-- The start of a procedure or a statement changes nothing. -/
theorem gives_start {act : Act} (hact : act.isStart = true) :
    Gives (perform act) v (.ok ()) v := by
  refine gives_perform fun s hs => ?_
  cases act with
  | procedure | statement => exact hs
  | _ => cases hact

theorem gives_record :
    Gives (perform (.record why)) v (.ok ())
      { v with faults := v.faults ++ [why.toFault v.eof v.rest] } := by
  refine gives_perform ?_
  rintro s rfl
  simp [Act.change, State.view, State.rest, Complaint.isLexical_toFault]

theorem Gives.bind (h : Gives m v (.ok a) v') (hf : Gives (f a) v' b v'') :
    Gives (m >>= f) v b v'' := by
  intro s hs e he
  cases hm : m.exec s with
  | none => simp [Bind.bind, hm] at he
  | some e₁ =>
    obtain ⟨answer, s₁, log⟩ := e₁
    obtain ⟨rfl, hs₁⟩ := h s hs _ hm
    rw [bind_ok hm] at he
    obtain ⟨e₂, he₂, rfl⟩ := Option.map_eq_some_iff.1 he
    exact hf s₁ hs₁ e₂ he₂

theorem Gives.bind_error (h : Gives m v (.error why) v') : Gives (m >>= f) v (.error why) v' := by
  intro s hs e he
  cases hm : m.exec s with
  | none => simp [Bind.bind, hm] at he
  | some e₁ =>
    obtain ⟨answer, s₁, log⟩ := e₁
    obtain ⟨rfl, hs₁⟩ := h s hs _ hm
    rw [Parser.bind_error hm] at he
    cases he
    exact ⟨rfl, hs₁⟩

theorem Gives.attempt {answer : Except Complaint α} (h : Gives m v answer v') :
    Gives (Action.attempt m) v (.ok answer) v' := by
  intro s hs e he
  obtain ⟨e₁, he₁, rfl⟩ := Option.map_eq_some_iff.1 he
  obtain ⟨rfl, hs₁⟩ := h s hs e₁ he₁
  exact ⟨rfl, hs₁⟩

theorem gives_advance (h : v.rest = l :: ts) :
    Gives advance v (.ok l.span) { v with rest := ts } := by
  refine gives_of_exec ?_
  rintro ⟨eof, current, ahead, depth, faults⟩ rfl
  cases current with
  | none => cases h
  | some l' =>
    cases h
    exact ⟨_, _, rfl, State.view_pull _ ahead⟩

theorem Gives.take {f : Span → Action β} (h : v.rest = l :: ts)
    (hf : Gives (f l.span) { v with rest := ts } b v') : Gives (advance >>= f) v b v' :=
  (gives_advance h).bind hf

theorem gives_peek : Gives peek v (.ok v.rest.head?) v := by
  refine gives_of_exec ?_
  rintro s rfl
  refine ⟨s, [], ?_, rfl⟩
  simp only [Action.peek, s.current_eq]
  rfl

theorem Gives.peek {f : Option Lexeme → Action β} (hf : Gives (f v.rest.head?) v b v') :
    Gives (Action.peek >>= f) v b v' :=
  gives_peek.bind hf

theorem Gives.ite_pos {m' : Action α} {answer : Except Complaint α} {c : Prop} [Decidable c]
    (hc : c) (h : Gives m v answer v') : Gives (if c then m else m') v answer v' := by
  rwa [if_pos hc]

theorem Gives.ite_neg {m' : Action α} {answer : Except Complaint α} {c : Prop} [Decidable c]
    (hc : ¬c) (h : Gives m v answer v') : Gives (if c then m' else m) v answer v' := by
  rwa [if_neg hc]

/-- A sequence agrees with a sequence, part by part. -/
theorem Reads.bind {p : Reader α} {q : α → Reader β} (h : Reads m v (p.run v.rest))
    (hf : ∀ a rest, p.run v.rest = .done a rest →
      Reads (f a) { v with rest := rest } ((q a).run rest)) :
    Reads (m >>= f) v ((p >>= q).run v.rest) := by
  rw [Reader.run_bind]
  cases hp : p.run v.rest with
  | done a rest =>
    rw [hp] at h
    exact Gives.bind h (hf a rest hp)
  | stuck why rest =>
    rw [hp] at h
    exact Gives.bind_error h

theorem Reads.peek {f : Option Lexeme → Action β} {q : Option Lexeme → Reader β}
    (h : Reads (f v.rest.head?) v ((q v.rest.head?).run v.rest)) :
    Reads (Action.peek >>= f) v ((Reader.peek >>= q).run v.rest) := Gives.peek h

theorem reads_pure (a : α) (v : View) : Reads (pure a) v (.done a v.rest) := gives_pure

theorem reads_fail (why : Complaint) (v : View) :
    Reads (fail (α := α) why) v (.stuck why v.rest) := gives_fail

theorem Reads.map {p : Reader α} (f : α → β) (h : Reads m v (p.run v.rest)) :
    Reads (f <$> m) v ((f <$> p).run v.rest) :=
  Reads.bind h fun _ _ _ => reads_pure _ _

/-- One level deeper, and back again. -/
theorem Reads.nested {o : Outcome α} (h : Reads m { v with depth := v.depth + 1 } o) :
    Reads (Action.nested m) v o := by
  have henter : Gives (perform .enter) v (.ok ()) { v with depth := v.depth + 1 } :=
    gives_perform fun s hs => by rw [← hs]; rfl
  have hleave : Gives (perform .leave) { v with depth := v.depth + 1, rest := o.rest } (.ok ())
      { v with rest := o.rest } := gives_perform fun s hs => by
    have hchange : (Act.leave.change s).view = { s.view with depth := s.view.depth - 1 } := rfl
    rw [hchange, hs]
    rfl
  refine henter.bind ((Gives.attempt h).bind (hleave.bind ?_))
  cases o with
  | done a rest => exact gives_pure
  | stuck why rest => exact gives_fail

end

/-! ## Single tokens -/

section

variable {v : View} {t : Token} {span : Span} {ts : List Lexeme}

theorem gives_check (t : Token) (v : View) :
    Gives (check t) v (.ok (v.rest.head?.map (·.token) == some t)) v :=
  gives_peek.bind gives_pure

theorem token_cons (t : Token) (span : Span) (ts : List Lexeme) :
    (Reader.token t).run (⟨t, span⟩ :: ts) = .done span ts := by
  simp [Reader.token, Reader.accept, Reader.run_bind]

theorem reads_expect (t : Token) (v : View) :
    Reads (expect t) v ((Reader.token t).run v.rest) := by
  obtain ⟨eof, rest, depth, faults⟩ := v
  refine Gives.bind (gives_check t _) ?_
  cases rest with
  | nil => exact gives_fail
  | cons l ts =>
    by_cases ht : l.token = t
    · subst ht
      rw [if_pos (by simp), show Reader.run _ (l :: ts) = _ from token_cons l.token l.span ts]
      exact gives_advance rfl
    · have hrun : (Reader.token t).run (l :: ts) = .stuck (.expected (.token t)) (l :: ts) := by
        simp [Reader.token, Reader.accept, Reader.run_bind, ht]
      rw [if_neg (by simp [ht]), hrun]
      exact gives_fail

theorem reads_expectIdent (v : View) : Reads expectIdent v (Reader.ident.run v.rest) := by
  obtain ⟨eof, rest, depth, faults⟩ := v
  refine Gives.peek ?_
  cases rest with
  | nil => exact gives_fail
  | cons l ts =>
    obtain ⟨t, span⟩ := l
    cases t with
    | name spelling => exact Gives.take rfl gives_pure
    | _ => exact gives_fail

theorem reads_literal (sign : Option Span) {digits : String}
    (h : v.rest = ⟨.number digits, span⟩ :: ts) :
    Reads (literal sign digits) v ((Reader.literal sign digits).run v.rest) := by
  obtain ⟨eof, rest, depth, faults⟩ := v
  cases h
  unfold literal Reader.literal
  split
  · rw [Reader.run_bind, token_cons]
    exact Gives.take rfl gives_pure
  · exact reads_fail _ _

theorem gives_matchToken (h : v.rest = ⟨t, span⟩ :: ts) :
    Gives (matchToken t) v (.ok true) { v with rest := ts } := by
  refine Gives.bind (gives_check t v) ?_
  rw [if_pos (by simp [h])]
  exact Gives.take h (gives_pure)

theorem gives_matchToken_ne (h : v.rest.head?.map (·.token) ≠ some t) :
    Gives (matchToken t) v (.ok false) v := by
  refine Gives.bind (gives_check t v) ?_
  rw [if_neg (by simpa using h)]
  exact gives_pure

/-- A choice by the token at hand. -/
theorem Reads.check {f : Bool → Action β} {q : Option Lexeme → Reader β}
    (h : Reads (f (v.rest.head?.map (·.token) == some t)) v ((q v.rest.head?).run v.rest)) :
    Reads (Action.check t >>= f) v ((Reader.peek >>= q).run v.rest) :=
  Gives.bind (gives_check t v) h

theorem Reads.take {f : Span → Action β} {q : Span → Reader β} (h : v.rest = ⟨t, span⟩ :: ts)
    (hf : Reads (f span) { v with rest := ts } ((q span).run ts)) :
    Reads (advance >>= f) v ((Reader.token t >>= q).run v.rest) := by
  have hrun : (Reader.token t >>= q).run v.rest = (q span).run ts := by
    rw [h, Reader.run_bind, token_cons]
  rw [hrun]
  exact Gives.take h hf

end

/-! ## What each routine has to do -/

/-- The operands that may stand at the depth of a view. -/
def View.operand (v : View) : Consumer Expr := Reader.unary (nestingLimit - v.depth)

/-- The expressions that may stand at the depth of a view. -/
def View.expr (v : View) : Consumer Expr := Reader.expr (nestingLimit - v.depth)

/-- The parameters of a procedure. -/
def paramItem : Consumer Param := ⟨Reader.param, Reader.consumes_param⟩

/-- What a routine must do from a state, told by the readers. Statements and procedures are read
where no expression is open. -/
def Meets : {α : Type} → Routine α → Action α → View → Prop
  | _, .script, m, v => v.depth = 0 →
    Gives m v (.ok (Harvest.read v.eof v.rest).procedures)
      { v with rest := [], faults := v.faults ++ (Harvest.read v.eof v.rest).faults }
  | _, .procedure, m, v => v.depth = 0 → ∀ l ts, v.rest = l :: ts → l.token = .defWord →
    let tried := Attempt.read v.eof l.span ts
    (∀ p, tried.procedure = some p →
      Gives m v (.ok p) { v with rest := tried.rest, faults := v.faults ++ tried.faults }) ∧
    (tried.procedure = none → ∃ why found,
      tried.faults = found ++ [why.toFault v.eof tried.rest] ∧
      Gives m v (.error why) { v with rest := tried.rest, faults := v.faults ++ found })
  | _, .parameterList, m, v => Reads m v (paramItem.listing.run v.rest)
  | _, .type, m, v => Reads m v (Reader.type.run v.rest)
  | _, .statement, m, v => v.depth = 0 → Reads m v (Reader.statement.run v.rest)
  | _, .declaration, m, v => v.depth = 0 → Reads m v (Reader.declaration.run v.rest)
  | _, .returning, m, v => v.depth = 0 → Reads m v (Reader.returning.run v.rest)
  | _, .action, m, v => v.depth = 0 → Reads m v (Reader.action.run v.rest)
  | _, .call callee, m, v => Reads m v ((Reader.call v.expr callee).run v.rest)
  | _, .argumentList, m, v => Reads m v (v.expr.listing.run v.rest)
  | _, .level tiers, m, v => Reads m v ((tiers.foldr Reader.chain v.operand).val.run v.rest)
  | _, .unary, m, v => Reads m v (v.operand.val.run v.rest)
  | _, .operand, m, v => Reads m v ((Reader.operand v.operand).run v.rest)
  | _, .primary, m, v => Reads m v ((Reader.primary v.expr).run v.rest)
  | _, .skipProcedure, m, v => Gives m v (.ok ()) { v with rest := skipProcedure v.rest }
  | _, .skipStatement, m, v => Gives m v (.ok ()) { v with rest := skipStatement v.rest }
  | _, .loop .procedures done, m, v => v.depth = 0 →
    Gives m v (.ok (done ++ (Harvest.read v.eof v.rest).procedures))
      { v with rest := [], faults := v.faults ++ (Harvest.read v.eof v.rest).faults }
  | _, .loop .statements body, m, v => v.depth = 0 →
    Gives m v (.ok (body ++ (Body.read v.eof v.rest).stmts))
      { v with
        rest := (Body.read v.eof v.rest).rest
        faults := v.faults ++ (Body.read v.eof v.rest).faults }
  | _, .loop .parameters params, m, v =>
    Reads m v ((paramItem.itemsFrom v.rest).map (params ++ ·))
  | _, .loop .arguments args, m, v => Reads m v ((v.expr.itemsFrom v.rest).map (args ++ ·))
  | _, .loop (.operators tier tighter) left, m, v =>
    Reads m v (Reader.chainFrom tier (tighter.foldr Reader.chain v.operand) left v.rest)
  | _, .loop .toProcedure _, m, v => Gives m v (.ok ()) { v with rest := skipProcedure v.rest }
  | _, .loop .toStatement _, m, v => Gives m v (.ok ()) { v with rest := skipStatement v.rest }

section

variable {self : {β : Type} → Routine β → Action β}
  (h : ∀ {β : Type} (r : Routine β) (v : View), Meets r (self r) v) (v : View)

include h

/-! ## Expressions -/

theorem meets_level (tiers : List Tier) : Meets (.level tiers) (code self (.level tiers)) v := by
  cases tiers with
  | nil => exact h .unary v
  | cons tier tighter =>
    exact Reads.bind (h (.level tighter) v) fun left rest _ =>
      h (.loop (.operators tier tighter) left) { v with rest := rest }

theorem meets_unary : Meets .unary (code self .unary) v := by
  show Reads _ v _
  unfold View.operand
  refine Gives.bind gives_depth ?_
  split
  · next hlimit =>
    rw [Nat.sub_eq_zero_of_le hlimit]
    exact reads_fail .tooDeep v
  · next hlimit =>
    have hbudget : nestingLimit - v.depth = nestingLimit - (v.depth + 1) + 1 := by omega
    rw [hbudget]
    exact Reads.nested (h .operand { v with depth := v.depth + 1 })

theorem meets_operand : Meets .operand (code self .operand) v := by
  obtain ⟨eof, rest, depth, faults⟩ := v
  cases rest with
  | nil => exact Reads.peek (h .primary _)
  | cons l ts =>
    obtain ⟨t, span⟩ := l
    refine Reads.peek ?_
    cases t with
    | minus =>
      refine Reads.take rfl ?_
      -- A minus is an operator unless a number follows.
      have hinner : Reads (do let e ← self .unary; return Expr.unary .neg e (span.merge e.span))
          ⟨eof, ts, depth, faults⟩ (((Reader.unary (nestingLimit - depth)).val >>= fun e =>
            pure (Expr.unary .neg e (span.merge e.span))).run ts) :=
        Reads.bind (h .unary ⟨eof, ts, depth, faults⟩) fun _ _ _ => reads_pure _ _
      cases ts with
      | nil => exact Reads.peek hinner
      | cons l' ts' =>
        obtain ⟨t', span'⟩ := l'
        refine Reads.peek ?_
        cases t' with
        | number digits => exact reads_literal (some span) rfl
        | _ => exact hinner
    | notOp =>
      refine Reads.take rfl ?_
      exact Reads.bind (h .unary ⟨eof, ts, depth, faults⟩) fun _ _ _ => reads_pure _ _
    | _ => exact h .primary _

theorem meets_primary : Meets .primary (code self .primary) v := by
  obtain ⟨eof, rest, depth, faults⟩ := v
  cases rest with
  | nil => exact Reads.peek (reads_fail _ _)
  | cons l ts =>
    obtain ⟨t, span⟩ := l
    refine Reads.peek ?_
    cases t with
    | number digits => exact reads_literal none rfl
    | trueWord | falseWord => exact Reads.take rfl (reads_pure _ _)
    | name spelling =>
      refine Reads.bind (reads_expectIdent _) fun name rest _ => Reads.check ?_
      have hcall : Reads (do return (← self (.call name)).toExpr) ⟨eof, rest, depth, faults⟩
          ((Reader.call (Reader.expr (nestingLimit - depth)) name >>= fun c =>
            pure c.toExpr).run rest) :=
        Reads.bind (h (.call name) ⟨eof, rest, depth, faults⟩) fun _ _ _ => reads_pure _ _
      cases rest with
      | nil => exact reads_pure _ _
      | cons l' ts' =>
        obtain ⟨t', span'⟩ := l'
        cases t' with
        | openParen => exact hcall
        | _ => exact reads_pure _ _
    | openParen =>
      refine Reads.take rfl ?_
      refine Reads.bind (h (.level Tier.all) ⟨eof, ts, depth, faults⟩) fun e rest _ => ?_
      exact Reads.bind (reads_expect .closeParen _) fun _ _ _ => reads_pure _ _
    | _ => exact reads_fail _ _

/-! ## Lists -/

omit h in
/-- A list is read item by item, as long as commas follow. -/
theorem reads_nextItem {item : Consumer α} {m : Action α} {again : List α → Action (List α)}
    (hitem : Reads m v (item.val.run v.rest))
    (hagain : ∀ items rest, Reads (again items) { v with rest := rest }
      ((item.itemsFrom rest).map (items ++ ·))) (items : List α) :
    Reads (nextItem m items >>= proceed again) v ((item.itemsFrom v.rest).map (items ++ ·)) := by
  cases hrun : item.val.run v.rest with
  | stuck why rest =>
    rw [hrun] at hitem
    rw [Consumer.itemsFrom_stuck hrun]
    exact Gives.bind_error (Gives.bind_error hitem)
  | done a rest =>
    rw [hrun] at hitem
    by_cases hcomma : ∃ span rest', rest = ⟨.comma, span⟩ :: rest'
    · obtain ⟨span, rest', rfl⟩ := hcomma
      have hitems : Gives (nextItem m items) v (.ok (.yield (items ++ [a])))
          { v with rest := rest' } :=
        Gives.bind hitem (Gives.bind (gives_matchToken rfl) gives_pure)
      have hmore : Reads (nextItem m items >>= proceed again) v
          ((item.itemsFrom rest').map (items ++ [a] ++ ·)) :=
        Gives.bind hitems (hagain (items ++ [a]) rest')
      cases hfrom : item.itemsFrom rest' with
      | done as rest'' =>
        rw [hfrom] at hmore
        rw [Consumer.itemsFrom_more hrun hfrom]
        simpa [Outcome.map] using hmore
      | stuck why rest'' =>
        rw [hfrom] at hmore
        rw [Consumer.itemsFrom_more_stuck hrun hfrom]
        exact hmore
    · have hlast : rest.head?.map (·.token) ≠ some .comma := by
        rintro hhead
        obtain ⟨⟨t, span⟩, hl, rfl⟩ := Option.map_eq_some_iff.1 hhead
        obtain ⟨rest', rfl⟩ := List.head?_eq_some_iff.1 hl
        exact hcomma ⟨span, rest', rfl⟩
      have hitems : Gives (nextItem m items) v (.ok (.done (items ++ [a])))
          { v with rest := rest } :=
        Gives.bind hitem (Gives.bind (gives_matchToken_ne hlast) gives_pure)
      rw [Consumer.itemsFrom_last hrun fun span ts hts => hcomma ⟨span, ts, hts⟩]
      exact Gives.bind hitems gives_pure

theorem meets_arguments (args : List Expr) :
    Meets (.loop .arguments args) (code self (.loop .arguments args)) v :=
  reads_nextItem v (h (.level Tier.all) v)
    (fun args rest => h (.loop .arguments args) { v with rest := rest }) args

theorem reads_parameter : Reads (parameter self) v (paramItem.val.run v.rest) := by
  refine Reads.bind (reads_expectIdent v) fun name rest _ => ?_
  refine Reads.bind (reads_expect .colon { v with rest := rest }) fun _ rest' _ => ?_
  exact Reads.bind (h .type { v with rest := rest' }) fun _ _ _ => reads_pure _ _

theorem meets_parameters (params : List Param) :
    Meets (.loop .parameters params) (code self (.loop .parameters params)) v :=
  reads_nextItem v (reads_parameter h v)
    (fun params rest => h (.loop .parameters params) { v with rest := rest }) params

omit h in
theorem reads_listing {item : Consumer α} {m : Action (List α)}
    (hm : Reads m v (item.itemsFrom v.rest)) :
    Reads (do if ← check .closeParen then return [] else m) v (item.listing.run v.rest) := by
  obtain ⟨eof, rest, depth, faults⟩ := v
  refine Reads.check ?_
  cases rest with
  | nil => exact hm
  | cons l ts =>
    obtain ⟨t, span⟩ := l
    cases t with
    | closeParen => exact reads_pure _ _
    | _ => exact hm

theorem meets_argumentList : Meets .argumentList (code self .argumentList) v := by
  have hargs := h (.loop .arguments []) v
  simp only [Meets, Outcome.map_append_nil] at hargs
  exact reads_listing v hargs

theorem meets_parameterList : Meets .parameterList (code self .parameterList) v := by
  have hparams := h (.loop .parameters []) v
  simp only [Meets, Outcome.map_append_nil] at hparams
  exact reads_listing v hparams

omit h in
theorem reads_parenthesized (item : Consumer α) {m : Action (List α)}
    (hm : ∀ rest, Reads m { v with rest := rest } (item.listing.run rest)) :
    Reads (parenthesized m) v (item.parenthesized.val.run v.rest) := by
  rw [Consumer.run_parenthesized]
  refine Reads.bind (reads_expect .openParen v) fun _ rest _ => ?_
  refine Reads.bind (hm rest) fun _ rest' _ => ?_
  exact Reads.bind (reads_expect .closeParen _) fun _ _ _ => reads_pure _ _

theorem meets_call (callee : Ident) : Meets (.call callee) (code self (.call callee)) v :=
  Reads.bind (reads_parenthesized v v.expr fun rest => h .argumentList { v with rest := rest })
    fun _ _ _ => reads_pure _ _

theorem meets_operators (tier : Tier) (tighter : List Tier) (left : Expr) :
    Meets (.loop (.operators tier tighter) left)
      (code self (.loop (.operators tier tighter) left)) v := by
  obtain ⟨eof, rest, depth, faults⟩ := v
  show Reads _ _ (Reader.chainFrom tier
    (tighter.foldr Reader.chain (Reader.unary (nestingLimit - depth))) left rest)
  cases rest with
  | nil =>
    rw [Reader.chainFrom_end (by simp)]
    exact Gives.bind (Gives.peek gives_pure) gives_pure
  | cons l ts =>
    cases hop : tier.ofToken? l.token with
    | none =>
      have hround : Gives (round self (.operators tier tighter) left)
          ⟨eof, l :: ts, depth, faults⟩ (.ok (.done left)) ⟨eof, l :: ts, depth, faults⟩ := by
        refine Gives.peek ?_
        simp only [List.head?_cons, Option.bind_some, hop]
        exact gives_pure
      rw [Reader.chainFrom_end (by simp [hop])]
      exact Gives.bind hround gives_pure
    | some op =>
      have hround {answer : Except Complaint (ForInStep Expr)} {v' : View}
          (hmore : Gives (do return .yield (.join op left (← self (.level tighter))))
            ⟨eof, ts, depth, faults⟩ answer v') :
          Gives (round self (.operators tier tighter) left) ⟨eof, l :: ts, depth, faults⟩
            answer v' := by
        refine Gives.peek ?_
        simp only [List.head?_cons, Option.bind_some, hop]
        exact Gives.take rfl hmore
      have hright := h (.level tighter) ⟨eof, ts, depth, faults⟩
      simp only [Meets, View.operand] at hright
      cases hrun :
          (tighter.foldr Reader.chain (Reader.unary (nestingLimit - depth))).val.run ts with
      | done right rest =>
        rw [hrun] at hright
        rw [Reader.chainFrom_more hop hrun]
        have hmore := h (.loop (.operators tier tighter) (.join op left right))
          ⟨eof, rest, depth, faults⟩
        exact Gives.bind (hround (Gives.bind hright gives_pure)) hmore
      | stuck why rest =>
        rw [hrun] at hright
        rw [Reader.chainFrom_stuck hop hrun]
        exact Gives.bind_error (hround (Gives.bind_error hright))

/-! ## Statements -/

omit h in
theorem meets_type : Meets .type (code self .type) v := by
  obtain ⟨eof, rest, depth, faults⟩ := v
  refine Gives.peek ?_
  cases rest with
  | nil => exact gives_fail
  | cons l ts =>
    obtain ⟨t, span⟩ := l
    cases t with
    | int32Word | boolWord | voidWord => exact Gives.take rfl gives_pure
    | _ => exact gives_fail

/-- Outside all expressions the whole limit is left. -/
theorem reads_expr (hdepth : v.depth = 0) :
    Reads (self (.level Tier.all)) v ((Reader.expr nestingLimit).val.run v.rest) := by
  obtain ⟨eof, rest, depth, faults⟩ := v
  cases hdepth
  exact h (.level Tier.all) _

omit h in
/-- Every statement ends with a semicolon. -/
theorem reads_last (f : Span → Stmt) :
    Reads (do return f (← expect .semicolon)) v
      ((do return f (← Reader.token .semicolon) : Reader Stmt).run v.rest) :=
  Reads.bind (reads_expect .semicolon v) fun _ _ _ => reads_pure _ _

theorem meets_declaration : Meets .declaration (code self .declaration) v := by
  intro hdepth
  refine Reads.bind (reads_expect .varWord v) fun first rest₁ _ => ?_
  refine Reads.bind (reads_expectIdent _) fun name rest₂ _ => ?_
  refine Reads.bind (reads_expect .colon _) fun _ rest₃ _ => ?_
  refine Reads.bind (h .type _) fun (ty, _) rest _ => ?_
  have hlast (init : Option Expr) (rest : List Lexeme) :=
    reads_last { v with rest := rest } fun last => .declare name ty init (first.merge last)
  cases rest with
  | nil =>
    refine Gives.bind (gives_matchToken_ne (by simp)) ?_
    exact Gives.bind gives_pure (hlast none _)
  | cons l ts =>
    obtain ⟨t, span⟩ := l
    cases t with
    | becomes =>
      have hinit := Reads.bind (Reads.map some (reads_expr h { v with rest := ts } hdepth))
        fun init rest' _ => hlast init rest'
      exact Gives.bind (gives_matchToken rfl) hinit
    | _ =>
      refine Gives.bind (gives_matchToken_ne (by simp)) ?_
      exact Gives.bind gives_pure (hlast none _)

theorem meets_returning : Meets .returning (code self .returning) v := by
  intro hdepth
  refine Reads.bind (reads_expect .returnWord v) fun first rest _ => Reads.check ?_
  have hlast (value : Option Expr) (rest : List Lexeme) :=
    reads_last { v with rest := rest } fun last => .ret value (first.merge last)
  have hvalue := Reads.bind (Reads.map some (reads_expr h { v with rest := rest } hdepth))
    fun value rest' _ => hlast value rest'
  cases rest with
  | nil => exact hvalue
  | cons l ts =>
    obtain ⟨t, span⟩ := l
    cases t with
    | semicolon => exact Gives.bind gives_pure (hlast none _)
    | _ => exact hvalue

theorem meets_action : Meets .action (code self .action) v := by
  intro hdepth
  obtain ⟨eof, rest, depth, faults⟩ := v
  obtain rfl : depth = 0 := hdepth
  refine Reads.bind (reads_expectIdent _) fun name rest _ => ?_
  cases rest with
  | nil =>
    refine Gives.bind (gives_matchToken_ne (by simp)) ?_
    exact Gives.bind (gives_check _ _) gives_fail
  | cons l ts =>
    obtain ⟨t, span⟩ := l
    cases t with
    | becomes =>
      have hassign := Reads.bind (reads_expr h ⟨eof, ts, 0, faults⟩ rfl) fun value rest' _ =>
        reads_last ⟨eof, rest', 0, faults⟩ fun last => .assign name value (name.span.merge last)
      exact Gives.bind (gives_matchToken rfl) hassign
    | openParen =>
      have hcall := Reads.bind (h (.call name) ⟨eof, ⟨.openParen, span⟩ :: ts, 0, faults⟩)
        fun made rest' _ =>
          reads_last ⟨eof, rest', 0, faults⟩ fun last => .call made (name.span.merge last)
      exact Gives.bind (gives_matchToken_ne (by simp)) (Gives.bind (gives_check _ _) hcall)
    | _ =>
      refine Gives.bind (gives_matchToken_ne (by simp)) ?_
      exact Gives.bind (gives_check _ _) gives_fail

theorem meets_statement : Meets .statement (code self .statement) v := by
  intro hdepth
  obtain ⟨eof, rest, depth, faults⟩ := v
  refine Gives.bind (gives_start rfl) ?_
  cases rest with
  | nil => exact Reads.peek (reads_fail _ _)
  | cons l ts =>
    obtain ⟨t, span⟩ := l
    refine Reads.peek ?_
    cases t with
    | varWord => exact h .declaration _ hdepth
    | returnWord => exact h .returning _ hdepth
    | name spelling => exact h .action _ hdepth
    | _ => exact reads_fail _ _

theorem meets_toStatement (carried : Unit) :
    Meets (.loop .toStatement carried) (code self (.loop .toStatement carried)) v := by
  obtain ⟨eof, rest, depth, faults⟩ := v
  show Gives _ _ _ _
  cases rest with
  | nil => exact Gives.bind (Gives.peek gives_pure) gives_pure
  | cons l ts =>
    rw [skipStatement]
    by_cases hsemi : l.token = .semicolon
    · have hround : Gives (round self .toStatement carried) ⟨eof, l :: ts, depth, faults⟩
          (.ok (.done ())) ⟨eof, ts, depth, faults⟩ :=
        Gives.peek (Gives.ite_pos hsemi (Gives.take rfl gives_pure))
      rw [if_pos hsemi]
      exact Gives.bind hround gives_pure
    · rw [if_neg hsemi]
      cases hend : l.token.endsBody with
      | true =>
        have hround : Gives (round self .toStatement carried) ⟨eof, l :: ts, depth, faults⟩
            (.ok (.done ())) ⟨eof, l :: ts, depth, faults⟩ :=
          Gives.peek (Gives.ite_neg hsemi (Gives.ite_pos hend gives_pure))
        exact Gives.bind hround gives_pure
      | false =>
        have hround : Gives (round self .toStatement carried) ⟨eof, l :: ts, depth, faults⟩
            (.ok (.yield ())) ⟨eof, ts, depth, faults⟩ :=
          Gives.peek (Gives.ite_neg hsemi (Gives.ite_neg (by simp [hend])
            (Gives.take rfl gives_pure)))
        exact Gives.bind hround (h (.loop .toStatement ()) ⟨eof, ts, depth, faults⟩)

theorem meets_toProcedure (carried : Unit) :
    Meets (.loop .toProcedure carried) (code self (.loop .toProcedure carried)) v := by
  obtain ⟨eof, rest, depth, faults⟩ := v
  show Gives _ _ _ _
  cases rest with
  | nil => exact Gives.bind (Gives.peek gives_pure) gives_pure
  | cons l ts =>
    by_cases hdef : l.token = .defWord
    · have hround : Gives (round self .toProcedure carried) ⟨eof, l :: ts, depth, faults⟩
          (.ok (.done ())) ⟨eof, l :: ts, depth, faults⟩ :=
        Gives.peek (Gives.ite_pos hdef gives_pure)
      have hskip : skipProcedure (l :: ts) = l :: ts := by simp [skipProcedure, hdef]
      rw [hskip]
      exact Gives.bind hround gives_pure
    · have hround : Gives (round self .toProcedure carried) ⟨eof, l :: ts, depth, faults⟩
          (.ok (.yield ())) ⟨eof, ts, depth, faults⟩ :=
        Gives.peek (Gives.ite_neg hdef (Gives.take rfl gives_pure))
      have hskip : skipProcedure (l :: ts) = skipProcedure ts := by simp [skipProcedure, hdef]
      rw [hskip]
      exact Gives.bind hround (h (.loop .toProcedure ()) ⟨eof, ts, depth, faults⟩)

theorem meets_statements (body : List Stmt) :
    Meets (.loop .statements body) (code self (.loop .statements body)) v := by
  intro hdepth
  obtain ⟨eof, rest, depth, faults⟩ := v
  cases rest with
  | nil =>
    simp only [Body.read, List.append_nil]
    exact Gives.bind (Gives.peek gives_pure) gives_pure
  | cons l ts =>
    cases hend : l.token.endsBody with
    | true =>
      have hround : Gives (round self .statements body) ⟨eof, l :: ts, depth, faults⟩
          (.ok (.done body)) ⟨eof, l :: ts, depth, faults⟩ :=
        Gives.peek (Gives.ite_pos hend gives_pure)
      simp only [Body.read_end hend, List.append_nil]
      exact Gives.bind hround gives_pure
    | false =>
      have hstmt := h .statement ⟨eof, l :: ts, depth, faults⟩ hdepth
      cases hrun : Reader.statement.run (l :: ts) with
      | done stmt rest =>
        rw [hrun] at hstmt
        have hround : Gives (round self .statements body) ⟨eof, l :: ts, depth, faults⟩
            (.ok (.yield (body ++ [stmt]))) ⟨eof, rest, depth, faults⟩ :=
          Gives.peek (Gives.ite_neg (by simp [hend])
            (Gives.bind (Gives.attempt hstmt) gives_pure))
        have hmore := h (.loop .statements (body ++ [stmt])) ⟨eof, rest, depth, faults⟩ hdepth
        rw [List.append_assoc] at hmore
        rw [Body.read_done hend hrun]
        exact Gives.bind hround hmore
      | stuck why rest =>
        rw [hrun] at hstmt
        have hround : Gives (round self .statements body) ⟨eof, l :: ts, depth, faults⟩
            (.ok (.yield body))
            ⟨eof, skipStatement rest, depth, faults ++ [why.toFault eof rest]⟩ :=
          Gives.peek (Gives.ite_neg (by simp [hend])
            (Gives.bind (Gives.attempt hstmt) (Gives.bind gives_record
              (Gives.bind (h .skipStatement _) gives_pure))))
        have hmore := h (.loop .statements body)
          ⟨eof, skipStatement rest, depth, faults ++ [why.toFault eof rest]⟩ hdepth
        simp only [List.append_assoc] at hmore
        rw [Body.read_stuck hend hrun]
        exact Gives.bind hround hmore

theorem meets_skipStatement : Meets .skipStatement (code self .skipStatement) v :=
  h (.loop .toStatement ()) v

/-! ## Procedures -/

theorem meets_skipProcedure : Meets .skipProcedure (code self .skipProcedure) v :=
  h (.loop .toProcedure ()) v

theorem reads_heading : Reads (heading self) v (Reader.header.run v.rest) := by
  refine Reads.bind (reads_expectIdent v) fun name rest₁ _ => ?_
  refine Reads.bind (reads_parenthesized _ paramItem fun rest =>
    h .parameterList { v with rest := rest }) fun (params, _) rest₂ _ => ?_
  refine Reads.bind (reads_expect .colon _) fun _ rest₃ _ => ?_
  refine Reads.bind (h .type _) fun (returns, _) rest₄ _ => ?_
  exact Reads.bind (reads_expect .isWord _) fun _ _ _ => reads_pure _ _

theorem meets_procedure : Meets .procedure (code self .procedure) v := by
  intro hdepth l ts hrest hdef
  obtain ⟨eof, rest, depth, faults⟩ := v
  obtain ⟨t, span⟩ := l
  obtain rfl : t = .defWord := hdef
  obtain rfl : rest = ⟨.defWord, span⟩ :: ts := hrest
  have hfirst : Gives (expect .defWord) ⟨eof, ⟨.defWord, span⟩ :: ts, depth, faults⟩ (.ok span)
      ⟨eof, ts, depth, faults⟩ := by
    have hexpect := reads_expect .defWord ⟨eof, ⟨.defWord, span⟩ :: ts, depth, faults⟩
    rwa [token_cons] at hexpect
  have hhead := reads_heading h ⟨eof, ts, depth, faults⟩
  cases hrun : Reader.header.run ts with
  | stuck why rest =>
    rw [hrun] at hhead
    have htried : Attempt.read eof span ts = ⟨none, [why.toFault eof rest], rest⟩ := by
      simp [Attempt.read, hrun]
    simp only [htried]
    refine ⟨nofun, fun _ => ⟨why, [], rfl, ?_⟩⟩
    rw [List.append_nil]
    -- The complaint is not among the faults yet: the loop that called records it.
    exact Gives.bind (gives_start rfl) (Gives.bind hfirst (Gives.bind_error hhead))
  | done head rest =>
    rw [hrun] at hhead
    have hbody := h (.loop .statements []) ⟨eof, rest, depth, faults⟩ hdepth
    have hlast := reads_expect .endWord ⟨eof, (Body.read eof rest).rest, depth,
      faults ++ (Body.read eof rest).faults⟩
    cases hend : (Reader.token .endWord).run (Body.read eof rest).rest with
    | stuck why rest' =>
      rw [hend] at hlast
      have htried : Attempt.read eof span ts =
          ⟨none, (Body.read eof rest).faults ++ [why.toFault eof rest'], rest'⟩ := by
        simp [Attempt.read, hrun, hend]
      simp only [htried]
      refine ⟨nofun, fun _ => ⟨why, _, rfl, ?_⟩⟩
      exact Gives.bind (gives_start rfl) (Gives.bind hfirst (Gives.bind hhead
        (Gives.bind hbody (Gives.bind_error hlast))))
    | done last rest' =>
      rw [hend] at hlast
      have htried : Attempt.read eof span ts =
          ⟨some ⟨head.name, head.params, head.returns, (Body.read eof rest).stmts,
            span.merge last⟩, (Body.read eof rest).faults, rest'⟩ := by
        simp [Attempt.read, hrun, hend]
      simp only [htried, Option.some.injEq]
      refine ⟨?_, nofun⟩
      rintro p rfl
      exact Gives.bind (gives_start rfl) (Gives.bind hfirst (Gives.bind hhead
        (Gives.bind hbody (Gives.bind hlast gives_pure))))

theorem meets_procedures (done : List Procedure) :
    Meets (.loop .procedures done) (code self (.loop .procedures done)) v := by
  intro hdepth
  obtain ⟨eof, rest, depth, faults⟩ := v
  cases rest with
  | nil =>
    simp only [Harvest.read, List.append_nil]
    exact Gives.bind (Gives.peek gives_pure) gives_pure
  | cons l ts =>
    by_cases hdef : l.token = .defWord
    · obtain ⟨hok, hbad⟩ := h .procedure ⟨eof, l :: ts, depth, faults⟩ hdepth l ts rfl hdef
      rw [Harvest.read, if_pos hdef]
      cases hp : (Attempt.read eof l.span ts).procedure with
      | some p =>
        have hround : Gives (round self .procedures done) ⟨eof, l :: ts, depth, faults⟩
            (.ok (.yield (done ++ [p]))) ⟨eof, (Attempt.read eof l.span ts).rest, depth,
              faults ++ (Attempt.read eof l.span ts).faults⟩ :=
          Gives.peek (Gives.ite_pos hdef
            (Gives.bind (Gives.attempt (hok p hp)) gives_pure))
        have hmore := h (.loop .procedures (done ++ [p])) ⟨eof, (Attempt.read eof l.span ts).rest,
          depth, faults ++ (Attempt.read eof l.span ts).faults⟩ hdepth
        simp only [List.append_assoc] at hmore
        simp only [hp]
        exact Gives.bind hround hmore
      | none =>
        obtain ⟨why, found, hfound, hproc⟩ := hbad hp
        have hround : Gives (round self .procedures done) ⟨eof, l :: ts, depth, faults⟩
            (.ok (.yield done)) ⟨eof, skipProcedure (Attempt.read eof l.span ts).rest, depth,
              faults ++ found ++ [why.toFault eof (Attempt.read eof l.span ts).rest]⟩ :=
          Gives.peek (Gives.ite_pos hdef
            (Gives.bind (Gives.attempt hproc) (Gives.bind gives_record
              (Gives.bind (h .skipProcedure _) gives_pure))))
        rw [List.append_assoc, ← hfound] at hround
        have hmore := h (.loop .procedures done)
          ⟨eof, skipProcedure (Attempt.read eof l.span ts).rest, depth,
            faults ++ (Attempt.read eof l.span ts).faults⟩ hdepth
        simp only [List.append_assoc] at hmore
        simp only [hp]
        exact Gives.bind hround hmore
    · have hround : Gives (round self .procedures done) ⟨eof, l :: ts, depth, faults⟩
          (.ok (.yield done)) ⟨eof, skipProcedure ts, depth,
            faults ++ [(Complaint.expected (.token .defWord)).toFault eof (l :: ts)]⟩ :=
        Gives.peek (Gives.ite_neg hdef (Gives.bind gives_record (Gives.take rfl
          (Gives.bind (h .skipProcedure _) gives_pure))))
      have hmore := h (.loop .procedures done) ⟨eof, skipProcedure ts, depth,
            faults ++ [(Complaint.expected (.token .defWord)).toFault eof (l :: ts)]⟩ hdepth
      simp only [List.append_assoc] at hmore
      rw [Harvest.read, if_neg hdef]
      exact Gives.bind hround hmore

theorem meets_script : Meets .script (code self .script) v := h (.loop .procedures []) v

/-- If all routines agree with their readers when they are called, they agree one call higher. -/
theorem meets_code : {α : Type} → (r : Routine α) → Meets r (code self r) v
  | _, .script => meets_script h v
  | _, .procedure => meets_procedure h v
  | _, .parameterList => meets_parameterList h v
  | _, .type => meets_type v
  | _, .statement => meets_statement h v
  | _, .declaration => meets_declaration h v
  | _, .returning => meets_returning h v
  | _, .action => meets_action h v
  | _, .call callee => meets_call h v callee
  | _, .argumentList => meets_argumentList h v
  | _, .level tiers => meets_level h v tiers
  | _, .unary => meets_unary h v
  | _, .operand => meets_operand h v
  | _, .primary => meets_primary h v
  | _, .skipProcedure => meets_skipProcedure h v
  | _, .skipStatement => meets_skipStatement h v
  | _, .loop .procedures done => meets_procedures h v done
  | _, .loop .statements body => meets_statements h v body
  | _, .loop .parameters params => meets_parameters h v params
  | _, .loop .arguments args => meets_arguments h v args
  | _, .loop (.operators tier tighter) left => meets_operators h v tier tighter left
  | _, .loop .toProcedure carried => meets_toProcedure h v carried
  | _, .loop .toStatement carried => meets_toStatement h v carried

end

theorem gives_starve {v v' : View} {answer : Except Complaint α} : Gives starve v answer v' := by
  intro s _ e he
  cases he

theorem meets_starve (r : Routine α) (v : View) : Meets r starve v := by
  cases r with
  | procedure =>
    intro _ l ts _ _
    refine ⟨fun p _ => gives_starve, fun hnone => ?_⟩
    obtain ⟨why, found, hfound⟩ := Attempt.faults_of_none hnone
    exact ⟨why, found, hfound, gives_starve⟩
  | script | statement | declaration | returning | action => exact fun _ => gives_starve
  | loop l carried =>
    cases l with
    | procedures | statements => exact fun _ => gives_starve
    | _ => exact gives_starve
  | _ => exact gives_starve

/-- Whatever the fuel, a routine that comes to an end does what its reader does. -/
theorem meets_run (fuel : Nat) {α : Type} (r : Routine α) (v : View) :
    Meets r (run fuel r) v := by
  -- All routines at once: each calls others, with one unit less.
  induction fuel generalizing α r v with
  | zero => exact meets_starve r v
  | succ fuel ih => exact meets_code ih v r

/-- What holds of every ending holds of the one that is reached. -/
theorem Settles.gives {m : Nat → Action α} {s : State} {e : Ending α} {v : View}
    {answer : Except Complaint α} (h : Settles m s e)
    (hm : ∀ fuel, Gives (m fuel) s.view answer v) : e.answer = answer ∧ e.state.view = v := by
  obtain ⟨least, hleast⟩ := h
  exact hm least s rfl e (hleast least (Nat.le_refl _))

end Parser

end ScriptCheck
