import ScriptCheck.Proofs.Grammar.Acceptance
import ScriptCheck.Proofs.Reading.Joined

/-!
# Faults stay within their statement

A statement ends with a semicolon and holds no other. So reading one, whether it is done or
stuck, never goes past the next semicolon, and giving up on it leads right behind that one.
A body cut at its semicolons is therefore read segment by segment. Each segment gives one
statement or one fault, whatever the segments around it are.
-/
namespace ScriptCheck

namespace Reader

variable {α β : Type}

/-! ## Readers and semicolons -/

/-- From `ls` one comes to `rest` without passing a semicolon. -/
def Reaches (ls rest : List Lexeme) : Prop :=
  ∃ taken, ls = taken ++ rest ∧ ∀ l ∈ taken, l.token ≠ .semicolon

theorem Reaches.refl (ls : List Lexeme) : Reaches ls ls := ⟨[], rfl, List.forall_mem_nil _⟩

theorem Reaches.trans {ls mid rest : List Lexeme} (h : Reaches ls mid) (h' : Reaches mid rest) :
    Reaches ls rest := by
  obtain ⟨taken, rfl, htaken⟩ := h
  obtain ⟨taken', rfl, htaken'⟩ := h'
  refine ⟨taken ++ taken', by rw [List.append_assoc], fun l hl => ?_⟩
  rcases List.mem_append.1 hl with hl | hl
  · exact htaken l hl
  · exact htaken' l hl

theorem reaches_cons {l : Lexeme} (h : l.token ≠ .semicolon) (ls : List Lexeme) :
    Reaches (l :: ls) ls := ⟨[l], rfl, List.forall_mem_singleton.2 h⟩

/-- Wherever the reader ends, it has passed no semicolon. -/
def PassesNone (p : Reader α) : Prop := ∀ ls, Reaches ls (p.run ls).rest

/-- Done, the reader has passed the next semicolon and stands right behind it; stuck, it has
passed none. -/
structure PassesOne (p : Reader α) : Prop where
  stuck : ∀ {ls why rest}, p.run ls = .stuck why rest → Reaches ls rest
  done : ∀ {ls a rest}, p.run ls = .done a rest → ∃ s, Reaches ls (⟨.semicolon, s⟩ :: rest)

theorem PassesNone.stuck {p : Reader α} (h : p.PassesNone) {ls rest : List Lexeme}
    {why : Complaint} (hrun : p.run ls = .stuck why rest) : Reaches ls rest := by
  have := h ls
  rwa [hrun] at this

theorem PassesNone.done {p : Reader α} (h : p.PassesNone) {ls rest : List Lexeme} {a : α}
    (hrun : p.run ls = .done a rest) : Reaches ls rest := by
  have := h ls
  rwa [hrun] at this

theorem passesNone_pure (a : α) : (pure a : Reader α).PassesNone := Reaches.refl

theorem passesNone_fail (why : Complaint) : (fail why : Reader α).PassesNone := Reaches.refl

theorem passesNone_peek : peek.PassesNone := Reaches.refl

theorem PassesNone.bind {p : Reader α} {k : α → Reader β} (hp : p.PassesNone)
    (hk : ∀ a, (k a).PassesNone) : (p >>= k).PassesNone := by
  intro ls
  rw [run_bind]
  cases hrun : p.run ls with
  | stuck why rest => exact hp.stuck hrun
  | done a mid => exact (hp.done hrun).trans (hk a mid)

theorem PassesNone.bind_one {p : Reader α} {k : α → Reader β} (hp : p.PassesNone)
    (hk : ∀ a, (k a).PassesOne) : (p >>= k).PassesOne := by
  constructor
  · intro ls why rest hrun
    rcases bind_eq_stuck.1 hrun with hrun | ⟨a, mid, ha, hrun⟩
    · exact hp.stuck hrun
    · exact (hp.done ha).trans ((hk a).stuck hrun)
  · intro ls b rest hrun
    obtain ⟨a, mid, ha, hrun⟩ := bind_eq_done.1 hrun
    obtain ⟨s, hs⟩ := (hk a).done hrun
    exact ⟨s, (hp.done ha).trans hs⟩

theorem passesNone_accept {wanted : Wanted} {pick : Token → Option α}
    (h : pick .semicolon = none) : (accept wanted pick).PassesNone := by
  intro ls
  cases ls with
  | nil => exact Reaches.refl _
  | cons l ls =>
    cases hpick : pick l.token with
    | none =>
      simp only [accept, hpick]
      exact Reaches.refl _
    | some a =>
      have hl : l.token ≠ .semicolon := by
        intro hl
        rw [hl, h] at hpick
        cases hpick
      simp only [accept, hpick]
      exact reaches_cons hl ls

theorem passesNone_token {t : Token} (h : t ≠ .semicolon) : (token t).PassesNone :=
  (passesNone_accept (if_neg (Ne.symm h))).bind fun _ => passesNone_pure _

theorem passesNone_ident : ident.PassesNone :=
  (passesNone_accept rfl).bind fun _ => passesNone_pure _

theorem passesNone_type : type.PassesNone := passesNone_accept rfl

theorem passesNone_items {item : Consumer α} (h : item.val.PassesNone) :
    item.items.PassesNone := by
  intro ls
  change Reaches ls (item.itemsFrom ls).rest
  fun_induction Consumer.itemsFrom item ls with
  | case1 ls why rest hrun => exact h.stuck hrun
  | case2 ls a s rest hrun as rest' hmore ih =>
    rw [hmore] at ih
    exact ((h.done hrun).trans (reaches_cons (by simp) rest)).trans ih
  | case3 ls a s rest hrun why rest' hmore ih =>
    rw [hmore] at ih
    exact ((h.done hrun).trans (reaches_cons (by simp) rest)).trans ih
  | case4 ls a rest _ hrun => exact h.done hrun

theorem passesNone_parenthesized {item : Consumer α} (h : item.val.PassesNone) :
    item.parenthesized.val.PassesNone := by
  have hclose (p : Reader (List α)) (hp : p.PassesNone) :
      (do let values ← p; let close ← token .closeParen; return (values, close)).PassesNone :=
    hp.bind fun _ => (passesNone_token (by simp)).bind fun _ => passesNone_pure _
  refine (passesNone_token (by simp)).bind fun _ => passesNone_peek.bind fun seen => ?_
  split
  · exact hclose _ (passesNone_pure [])
  · exact hclose _ (passesNone_items h)

theorem passesNone_chainRest {tier : Tier} {operand : Consumer Expr}
    (h : operand.val.PassesNone) (left : Expr) : (chainRest tier operand left).PassesNone := by
  intro ls
  change Reaches ls (chainFrom tier operand left ls).rest
  have hop {l : Lexeme} {op : BinaryOp} (hl : tier.ofToken? l.token = some op) :
      l.token ≠ .semicolon := by
    intro hs
    rw [hs] at hl
    cases tier <;> cases hl
  fun_induction chainFrom tier operand left ls with
  | case1 left => exact Reaches.refl _
  | case2 left l ls _ => exact Reaches.refl _
  | case3 left l ls op hl right rest hrun ih =>
    exact ((reaches_cons (hop hl) ls).trans (h.done hrun)).trans ih
  | case4 left l ls op hl why rest hrun =>
    exact (reaches_cons (hop hl) ls).trans (h.stuck hrun)

theorem passesNone_tiers {operand : Consumer Expr} (h : operand.val.PassesNone) :
    (tiers operand).val.PassesNone := by
  unfold tiers
  induction Tier.all with
  | nil => exact h
  | cons tier tiers ih => exact ih.bind fun left => passesNone_chainRest ih left

theorem passesNone_literal (sign : Option Span) (digits : String) :
    (literal sign digits).PassesNone := by
  unfold literal
  split
  · exact (passesNone_token (by simp)).bind fun _ => passesNone_pure _
  · exact passesNone_fail _

theorem passesNone_call {expr : Consumer Expr} (h : expr.val.PassesNone) (callee : Ident) :
    (call expr callee).PassesNone :=
  (passesNone_parenthesized h).bind fun _ => passesNone_pure _

theorem passesNone_primary {expr : Consumer Expr} (h : expr.val.PassesNone) :
    (primary expr).PassesNone := by
  refine passesNone_peek.bind fun seen => ?_
  split
  · exact passesNone_literal _ _
  · exact (passesNone_token (by simp)).bind fun _ => passesNone_pure _
  · exact (passesNone_token (by simp)).bind fun _ => passesNone_pure _
  · refine passesNone_ident.bind fun x => passesNone_peek.bind fun seen => ?_
    split
    · exact (passesNone_call h x).bind fun _ => passesNone_pure _
    · exact passesNone_pure _
  · exact (passesNone_token (by simp)).bind fun _ => h.bind fun _ =>
      (passesNone_token (by simp)).bind fun _ => passesNone_pure _
  · exact passesNone_fail _

theorem passesNone_operand {inner : Consumer Expr} (h : inner.val.PassesNone) :
    (operand inner).PassesNone := by
  refine passesNone_peek.bind fun seen => ?_
  split
  · refine (passesNone_token (by simp)).bind fun sign => passesNone_peek.bind fun seen => ?_
    split
    · exact passesNone_literal _ _
    · exact h.bind fun _ => passesNone_pure _
  · exact (passesNone_token (by simp)).bind fun _ => h.bind fun _ => passesNone_pure _
  · exact passesNone_primary (passesNone_tiers h)

theorem passesNone_expr (budget : Nat) : (expr budget).val.PassesNone := by
  apply passesNone_tiers
  induction budget with
  | zero => exact passesNone_fail _
  | succ budget ih => exact passesNone_operand ih

theorem passesOne_fail (why : Complaint) : (fail why : Reader α).PassesOne := by
  constructor
  · intro ls why' rest h
    cases h
    exact Reaches.refl ls
  · intro ls a rest h
    cases h

/-- A token that is not found is not taken. -/
theorem rest_of_token_stuck {t : Token} {ls rest : List Lexeme} {why : Complaint}
    (h : (token t).run ls = .stuck why rest) : rest = ls := by
  rw [token, bind_eq_stuck] at h
  rcases h with h | ⟨_, _, _, h⟩
  · cases ls with
    | nil => cases h; rfl
    | cons l ls =>
      by_cases hl : l.token = t
      · simp [accept, hl] at h
      · simp only [accept, if_neg hl, Outcome.stuck.injEq] at h
        exact h.2.symm
  · cases h

/-- The semicolon is the last token that is taken. -/
theorem passesOne_close (f : Span → β) :
    (token .semicolon >>= fun last => pure (f last)).PassesOne := by
  constructor
  · intro ls why rest h
    rcases bind_eq_stuck.1 h with h | ⟨_, _, _, h⟩
    · rw [rest_of_token_stuck h]
      exact Reaches.refl ls
    · cases h
  · intro ls b rest h
    obtain ⟨s, mid, rfl, hdone⟩ := Grammar.token_bind_inv h
    cases hdone
    exact ⟨s, Reaches.refl _⟩

theorem passesOne_declaration : declaration.PassesOne := by
  refine (passesNone_token (by simp)).bind_one fun first => passesNone_ident.bind_one fun x =>
    (passesNone_token (by simp)).bind_one fun _ => passesNone_type.bind_one fun ⟨ty, _⟩ =>
    passesNone_peek.bind_one fun seen => ?_
  split
  · exact (passesNone_token (by simp)).bind_one fun _ =>
      ((passesNone_expr _).bind fun _ => passesNone_pure _).bind_one fun _ => passesOne_close _
  · exact (passesNone_pure none).bind_one fun _ => passesOne_close _

theorem passesOne_returning : returning.PassesOne := by
  refine (passesNone_token (by simp)).bind_one fun first =>
    passesNone_peek.bind_one fun seen => ?_
  split
  · exact (passesNone_pure none).bind_one fun _ => passesOne_close _
  · exact ((passesNone_expr _).bind fun _ => passesNone_pure _).bind_one fun _ =>
      passesOne_close _

theorem passesOne_action : action.PassesOne := by
  refine passesNone_ident.bind_one fun x => passesNone_peek.bind_one fun seen => ?_
  split
  · exact (passesNone_token (by simp)).bind_one fun _ =>
      (passesNone_expr _).bind_one fun _ => passesOne_close _
  · exact (passesNone_call (passesNone_expr _) x).bind_one fun _ => passesOne_close _
  · exact passesOne_fail _

theorem passesOne_statement : statement.PassesOne := by
  refine passesNone_peek.bind_one fun seen => ?_
  split
  · exact passesOne_declaration
  · exact passesOne_returning
  · exact passesOne_action
  · exact passesOne_fail _

end Reader

/-! ## Segments -/

/-- A piece of a body up to its semicolon, with no `end` or `def` before it. -/
structure Segment where
  front : List Lexeme
  close : Span
  plain : ∀ l ∈ front, l.token ∉ [.semicolon, .endWord, .defWord]

namespace Segment

variable (s : Segment)

def lexemes : List Lexeme := s.front ++ [⟨.semicolon, s.close⟩]

/-- Where the first token begins, which may be the semicolon. -/
def start : Nat := (Complaint.place s.close s.front).start

/-- The tokens are a statement of the grammar, with numbers that fit 32 bits and expressions
that nest 64 deep at most. -/
def Valid : Prop :=
  ∃ d : Grammar.Statement, d.tokens = s.lexemes.map (·.token) ∧
    (∀ e ∈ d.expressions, ∀ v ∈ e.literals, -2147483648 ≤ v ∧ v ≤ 2147483647) ∧
    ∀ e ∈ d.expressions, e.nesting ≤ 64

/-- The statement is, places aside, the one that the tokens are derived as. -/
def States (st : Stmt) : Prop :=
  ∃ d : Grammar.Statement, d.tokens = s.lexemes.map (·.token) ∧ st.move .erase = d.tree

/-- The fault lies between the start of the segment and the end of its semicolon. -/
def Holds (f : Fault) : Prop :=
  s.start ≤ f.span.start ∧ f.span.start < f.span.stop ∧ f.span.stop ≤ s.close.stop

variable {s}

theorem not_semicolon {l : Lexeme} (h : l ∈ s.front) : l.token ≠ .semicolon := by
  have := s.plain l h
  simp only [List.mem_cons, not_or] at this
  exact this.1

theorem endsBody_eq_false {l : Lexeme} (h : l ∈ s.front) : l.token.endsBody = false := by
  have := s.plain l h
  simp only [List.mem_cons, not_or] at this
  simp [Token.endsBody, this.2.1, this.2.2.1]

/-- Without passing a semicolon one does not leave the segment. -/
theorem reaches_inv {more rest : List Lexeme} (h : Reader.Reaches (s.lexemes ++ more) rest) :
    ∃ taken left, s.front = taken ++ left ∧ rest = left ++ ⟨.semicolon, s.close⟩ :: more := by
  obtain ⟨taken, hsplit, htaken⟩ := h
  rw [lexemes, List.append_assoc, List.append_eq_append_iff] at hsplit
  rcases hsplit with ⟨left, rfl, hleft⟩ | ⟨left, hfront, hrest⟩
  · cases left with
    | nil => exact ⟨s.front, [], (List.append_nil _).symm, hleft.symm⟩
    | cons l left =>
      -- The semicolon would have been taken.
      have hl : l.token = .semicolon := by
        injection hleft with hl _
        rw [← hl]
      exact absurd hl (htaken l (by simp))
  · exact ⟨taken, left, hfront, hrest⟩

/-- Giving up within the segment leads right behind it. -/
theorem skipStatement_left {taken left more : List Lexeme} (h : s.front = taken ++ left) :
    skipStatement (left ++ ⟨.semicolon, s.close⟩ :: more) = more := by
  have hleft : ∀ l ∈ left, l ∈ s.front := fun l hl => h ▸ List.mem_append_right taken hl
  clear h
  induction left with
  | nil => simp [skipStatement]
  | cons l left ih =>
    obtain ⟨hl, hls⟩ := List.forall_mem_cons.1 hleft
    rw [List.cons_append, skipStatement, if_neg (not_semicolon hl),
      if_neg (by simp [endsBody_eq_false hl]), ih hls]

end Segment

/-- What is done with the bare tokens is done with the tokens themselves. -/
theorem Reader.run_of_bare {α : Type} {p : Reader α} {f : α → α}
    (hp : Reader.Follows (.moved .erase) f p p) {front rest : List Lexeme} {a : α}
    (h : p.run (Grammar.bare ((front ++ rest).map (·.token))) =
      .done a (Grammar.bare (rest.map (·.token)))) :
    ∃ b, p.run (front ++ rest) = .done b rest ∧ f b = a := by
  have herase (ls : List Lexeme) :
      ls.map (Lexeme.move .erase) = Grammar.bare (ls.map (·.token)) := by
    rw [Grammar.bare, List.map_map]
    rfl
  have hcarry := hp (front ++ rest)
  rw [Setting.carry_moved, herase, h] at hcarry
  cases hrun : p.run (front ++ rest) with
  | stuck why left =>
    rw [hrun] at hcarry
    cases hcarry
  | done b left =>
    rw [hrun, Outcome.carry, Setting.carry_moved, herase] at hcarry
    injection hcarry with hb hleft
    have hlength : left.length = rest.length := by
      simpa [Grammar.bare] using congrArg List.length hleft.symm
    have hsuffix : left <:+ rest := List.suffix_of_suffix_length_le (Reader.suffix_of_done hrun)
      (List.suffix_append front rest) (Nat.le_of_eq hlength)
    exact ⟨b, by rw [hsuffix.eq_of_length hlength], hb.symm⟩

namespace Segment

variable {s : Segment}

theorem run_of_derivation {d : Grammar.Statement} (htokens : d.tokens = s.lexemes.map (·.token))
    (hd : ∀ e ∈ d.expressions, Grammar.Admissible e) (more : List Lexeme) :
    ∃ st, Reader.statement.run (s.lexemes ++ more) = .done st more ∧ st.move .erase = d.tree := by
  apply Reader.run_of_bare Reader.follows_statement
  rw [List.map_append, ← htokens]
  exact d.run_tokens hd _

theorem derivation_of_run {st : Stmt} {more rest : List Lexeme}
    (h : Reader.statement.run (s.lexemes ++ more) = .done st rest) :
    rest = more ∧ ∃ d : Grammar.Statement, d.tokens = s.lexemes.map (·.token) ∧
      st.move .erase = d.tree ∧ ∀ e ∈ d.expressions, Grammar.Admissible e := by
  obtain ⟨close, hreach⟩ := Reader.passesOne_statement.done h
  obtain ⟨taken, left, hfront, hleft⟩ := reaches_inv hreach
  cases left with
  | cons l left =>
    have hl : l.token = .semicolon := by
      injection hleft with hl _
      rw [← hl]
    exact absurd hl (not_semicolon (by rw [hfront]; simp))
  | nil =>
    injection hleft with _ hrest
    subst hrest
    obtain ⟨d, htook, htree, hd⟩ := Grammar.statement_sound h
    refine ⟨rfl, d, ?_, htree, hd⟩
    rw [Grammar.Took, List.map_append] at htook
    exact (List.append_cancel_right htook).symm

theorem valid_iff : s.Valid ↔ ∃ d : Grammar.Statement, d.tokens = s.lexemes.map (·.token) ∧
    ∀ e ∈ d.expressions, Grammar.Admissible e := by
  constructor
  · rintro ⟨d, htokens, hfits, hnested⟩
    exact ⟨d, htokens, fun e he =>
      ⟨fun v hv => fitsInt32_iff.2 (hfits e he v hv), hnested e he⟩⟩
  · rintro ⟨d, htokens, hd⟩
    exact ⟨d, htokens, fun e he v hv => fitsInt32_iff.1 ((hd e he).1 v hv),
      fun e he => (hd e he).2⟩

/-- A valid segment is one statement, and reading goes on behind it. -/
theorem run_valid (h : s.Valid) (more : List Lexeme) :
    ∃ st, Reader.statement.run (s.lexemes ++ more) = .done st more ∧ s.States st := by
  obtain ⟨d, htokens, hd⟩ := valid_iff.1 h
  obtain ⟨st, hrun, htree⟩ := run_of_derivation htokens hd more
  exact ⟨st, hrun, d, htokens, htree⟩

/-- In any other reading is stuck before its semicolon is taken. -/
theorem run_invalid (h : ¬ s.Valid) (more : List Lexeme) :
    ∃ why taken left, s.front = taken ++ left ∧
      Reader.statement.run (s.lexemes ++ more) =
        .stuck why (left ++ ⟨.semicolon, s.close⟩ :: more) := by
  cases hrun : Reader.statement.run (s.lexemes ++ more) with
  | done st rest =>
    obtain ⟨_, d, htokens, _, hd⟩ := derivation_of_run hrun
    exact absurd (valid_iff.2 ⟨d, htokens, hd⟩) h
  | stuck why rest =>
    obtain ⟨taken, left, hfront, hleft⟩ := reaches_inv (Reader.passesOne_statement.stuck hrun)
    exact ⟨why, taken, left, hfront, by rw [hleft]⟩

/-- Validity is decided by reading the segment on its own. -/
instance (s : Segment) : Decidable s.Valid :=
  match hrun : Reader.statement.run (s.lexemes ++ []) with
  | .done _ _ => .isTrue (by
      obtain ⟨_, d, htokens, _, hd⟩ := derivation_of_run hrun
      exact valid_iff.2 ⟨d, htokens, hd⟩)
  | .stuck _ _ => .isFalse (by
      intro h
      obtain ⟨st, hdone, _⟩ := run_valid h []
      rw [hdone] at hrun
      cases hrun)

/-! ## Where the fault is -/

theorem bounds_of_mem (hs : Ordered s.lexemes) {l : Lexeme} (hl : l ∈ s.lexemes) :
    s.start ≤ l.span.start ∧ l.span.start < l.span.stop ∧ l.span.stop ≤ s.close.stop := by
  refine ⟨?_, hs.nonempty l hl, hs.stop_le hl⟩
  unfold lexemes at hs hl
  unfold start
  cases hfront : s.front with
  | nil =>
    rw [hfront] at hs hl
    exact hs.start_le hl
  | cons first front =>
    rw [hfront] at hs hl
    exact hs.start_le hl

/-- A complaint made before the semicolon is taken is about a token of the segment, or about
two of them. -/
theorem holds_toFault (hs : Ordered s.lexemes) {why : Complaint} {taken left more : List Lexeme}
    (hfront : s.front = taken ++ left)
    (hloc : why.Located (s.lexemes ++ more) (left ++ ⟨.semicolon, s.close⟩ :: more)) (eof : Span) :
    s.Holds (why.toFault eof (left ++ ⟨.semicolon, s.close⟩ :: more)) := by
  obtain ⟨l, rest, hl⟩ : ∃ l rest, left ++ [⟨.semicolon, s.close⟩] = l :: rest := by
    cases left with
    | nil => exact ⟨_, _, rfl⟩
    | cons l left => exact ⟨_, _, rfl⟩
  have hleft : left ++ ⟨.semicolon, s.close⟩ :: more = l :: (rest ++ more) := by
    rw [← List.cons_append, ← hl, List.append_assoc]
    rfl
  have hmem : l ∈ s.lexemes := by
    rw [lexemes, hfront, List.append_assoc, hl]
    simp
  have hbounds := bounds_of_mem hs hmem
  rw [hleft] at hloc ⊢
  cases why with
  | expected wanted => exact hbounds
  | tooDeep => exact hbounds
  | outOfRange sign digits =>
    cases sign with
    | none => exact hbounds
    | some sp =>
      -- The sign is taken already, but from the same segment.
      have hsign : ⟨.minus, sp⟩ ∈ s.lexemes := by
        obtain ⟨before, hbefore⟩ := hloc.2 sp rfl
        have hcancel : (before ++ ⟨.minus, sp⟩ :: l :: rest) ++ more = s.lexemes ++ more := by
          rw [← hbefore]
          simp
        rw [← List.append_cancel_right hcancel]
        simp
      have hbefore := bounds_of_mem hs hsign
      show s.start ≤ min sp.start l.span.start ∧
        min sp.start l.span.start < max sp.stop l.span.stop ∧
        max sp.stop l.span.stop ≤ s.close.stop
      simp only at hbefore
      omega

end Segment

/-! ## Bodies and procedures -/

/-- A body is read segment by segment: the valid ones are its statements, and each of the
others has one fault, which it holds. -/
theorem Body.read_segments (eof last : Span) (after : List Lexeme) (segments : List Segment)
    (hs : Ordered (segments.flatMap Segment.lexemes)) :
    ∃ stmts faults,
      Body.read eof (segments.flatMap Segment.lexemes ++ ⟨.endWord, last⟩ :: after) =
        ⟨stmts, faults, ⟨.endWord, last⟩ :: after⟩ ∧
      List.Forall₂ Segment.States (segments.filter (·.Valid)) stmts ∧
      List.Forall₂ Segment.Holds (segments.filter (¬ ·.Valid)) faults := by
  induction segments with
  | nil => exact ⟨[], [], Body.read_end rfl, .nil, .nil⟩
  | cons s segments ih =>
    rw [List.flatMap_cons] at hs
    obtain ⟨stmts, faults, hread, hstmts, hfaults⟩ :=
      ih (hs.sublist (List.sublist_append_right _ _))
    rw [List.flatMap_cons, List.append_assoc]
    generalize hmore : segments.flatMap Segment.lexemes ++ ⟨.endWord, last⟩ :: after = more at hread
    obtain ⟨l, ls, hl, hbody⟩ : ∃ l ls, s.lexemes ++ more = l :: ls ∧ l.token.endsBody = false := by
      unfold Segment.lexemes
      cases hfront : s.front with
      | nil => exact ⟨_, _, rfl, rfl⟩
      | cons l front => exact ⟨_, _, rfl, Segment.endsBody_eq_false (by rw [hfront]; simp)⟩
    by_cases hvalid : s.Valid
    · obtain ⟨st, hrun, hst⟩ := Segment.run_valid hvalid more
      rw [hl] at hrun
      refine ⟨st :: stmts, faults, ?_, ?_, ?_⟩
      · rw [hl, Body.read_done hbody hrun, hread]
      · rw [List.filter_cons_of_pos (by simpa using hvalid)]
        exact .cons hst hstmts
      · rw [List.filter_cons_of_neg (by simpa using hvalid)]
        exact hfaults
    · obtain ⟨why, taken, left, hfront, hrun⟩ := Segment.run_invalid hvalid more
      have hloc := Reader.locates_statement hrun
      have hholds := Segment.holds_toFault (hs.sublist (List.sublist_append_left _ _)) hfront
        hloc eof
      rw [hl] at hrun
      refine ⟨stmts, why.toFault eof (left ++ ⟨.semicolon, s.close⟩ :: more) :: faults, ?_, ?_, ?_⟩
      · rw [hl, Body.read_stuck hbody hrun, Segment.skipStatement_left hfront, hread]
      · rw [List.filter_cons_of_neg (by simpa using hvalid)]
        exact hstmts
      · rw [List.filter_cons_of_pos (by simpa using hvalid)]
        exact .cons hholds hfaults

/-- A procedure of the grammar up to its body. -/
structure Grammar.Heading where
  name : String
  params : List Parameter
  returns : TypeName

def Grammar.Heading.tokens (h : Grammar.Heading) : List Token :=
  [.defWord, .name h.name, .openParen] ++ commas (h.params.map Parameter.tokens) ++
    [.closeParen, .colon, h.returns.token, .isWord]

def Grammar.Heading.tree (h : Grammar.Heading) : Header :=
  ⟨⟨h.name, nowhere⟩, h.params.map Parameter.tree, h.returns.type⟩

/-- The part of a procedure before its body. -/
def Procedure.header (p : Procedure) : Header := ⟨p.name, p.params, p.returns⟩

theorem Grammar.Heading.run_header {head : Grammar.Heading} {front : List Lexeme}
    (h : .defWord :: front.map (·.token) = head.tokens) (rest : List Lexeme) :
    ∃ found, Reader.header.run (front ++ rest) = .done found rest ∧
      found.move .erase = head.tree := by
  let p : Grammar.Procedure := ⟨head.name, head.params, head.returns, []⟩
  have hfront : front.map (·.token) = p.headTokens [] := by
    injection h
  have htokens : p.headTokens [] ++ rest.map (·.token) = p.headTokens (rest.map (·.token)) := by
    simp [Procedure.headTokens]
  apply Reader.run_of_bare Reader.follows_header
  rw [List.map_append, hfront, htokens]
  exact p.run_header (rest.map (·.token))

/-- The tokens of one procedure, its body in segments. -/
theorem Harvest.read_segments (eof start last : Span) {head : Grammar.Heading}
    {front : List Lexeme} (hfront : .defWord :: front.map (·.token) = head.tokens)
    (segments : List Segment) (hs : Ordered (segments.flatMap Segment.lexemes)) :
    ∃ p faults,
      Harvest.read eof (⟨.defWord, start⟩ :: (front ++ (segments.flatMap Segment.lexemes ++
        [⟨.endWord, last⟩]))) = ⟨[p], faults⟩ ∧
      p.header.move .erase = head.tree ∧
      List.Forall₂ Segment.States (segments.filter (·.Valid)) p.body ∧
      List.Forall₂ Segment.Holds (segments.filter (¬ ·.Valid)) faults := by
  obtain ⟨stmts, faults, hbody, hstmts, hfaults⟩ := Body.read_segments eof last [] segments hs
  obtain ⟨found, hrun, hfound⟩ := Grammar.Heading.run_header hfront
    (segments.flatMap Segment.lexemes ++ [⟨.endWord, last⟩])
  let p : Procedure := ⟨found.name, found.params, found.returns, stmts, start.merge last⟩
  have hattempt : Attempt.read eof start
      (front ++ (segments.flatMap Segment.lexemes ++ [⟨.endWord, last⟩])) =
      ⟨some p, faults, []⟩ := by
    unfold Attempt.read
    rw [hrun]
    simp only [hbody, Reader.run_token, p]
  refine ⟨p, faults, ?_, hfound, hstmts, hfaults⟩
  rw [Harvest.read, if_pos rfl, hattempt]
  simp [Harvest.read]

/-- Faults are isolated: in a procedure with a proper heading and an `end`, each segment of
the body that is no valid statement has one fault, in order and within the segment, and there
is no other. If all are valid, the procedure consists of exactly these statements. -/
theorem Script.read_of_segments (text : String) (head : Grammar.Heading) (front : List Lexeme)
    (segments : List Segment) (last : Span)
    (hscan : Piece.scan text =
      (front ++ segments.flatMap Segment.lexemes ++ [Lexeme.mk .endWord last]).map .token)
    (hfront : front.map (·.token) = head.tokens) :
    List.Forall₂ Segment.Holds (segments.filter (¬ ·.Valid)) (faultsOf (read text)) ∧
      ((∀ s ∈ segments, s.Valid) → ∃ p, read text = .ok ⟨[p]⟩ ∧
        p.header.move .erase = head.tree ∧ List.Forall₂ Segment.States segments p.body) := by
  have hordered := ordered_lexemes text
  rw [hscan, Piece.lexemes_map_token] at hordered
  have hs : Ordered (segments.flatMap Segment.lexemes) :=
    (hordered.sublist (List.sublist_append_left _ _)).sublist (List.sublist_append_right _ _)
  obtain ⟨start, front, rfl⟩ : ∃ start front', front = ⟨.defWord, start⟩ :: front' := by
    cases front with
    | nil => cases hfront
    | cons l front =>
      injection hfront with hl _
      exact ⟨l.span, front, by rw [← hl]⟩
  obtain ⟨p, faults, hread, hheader, hstmts, hfaults⟩ :=
    Harvest.read_segments (eof text) start last hfront segments hs
  rw [List.append_assoc, List.cons_append] at hscan
  have hharvest : harvest text = ⟨[p], faults⟩ := (harvest_of_tokens hscan).trans hread
  constructor
  · rw [faultsOf_read, hharvest]
    exact hfaults
  · intro hvalid
    have hall : segments.filter (·.Valid) = segments :=
      List.filter_eq_self.2 fun s hs => decide_eq_true (hvalid s hs)
    have hnone : segments.filter (¬ ·.Valid) = [] :=
      List.filter_eq_nil_iff.2 fun s hs => by simpa using hvalid s hs
    rw [hall] at hstmts
    rw [hnone] at hfaults
    cases hfaults
    refine ⟨p, read_eq_ok_iff_harvest.2 ?_, hheader, hstmts⟩
    rw [hharvest]
    exact ⟨rfl, rfl⟩

/-- An assignment that breaks off at a parenthesis and an empty segment have a fault each, and
the call behind them has none; on its own it is the whole body. -/
theorem Script.read_of_segments_broken :
    let broken : Segment := ⟨[⟨.name "x", ⟨18, 19⟩⟩, ⟨.becomes, ⟨20, 22⟩⟩, ⟨.number "2", ⟨23, 24⟩⟩,
      ⟨.plus, ⟨24, 25⟩⟩, ⟨.closeParen, ⟨25, 26⟩⟩], ⟨26, 27⟩, by decide⟩
    let empty : Segment := ⟨[], ⟨28, 29⟩, by decide⟩
    let call (n : Nat) : Segment := ⟨[⟨.name "f", ⟨n, n + 1⟩⟩, ⟨.openParen, ⟨n + 1, n + 2⟩⟩,
      ⟨.closeParen, ⟨n + 2, n + 3⟩⟩], ⟨n + 3, n + 4⟩, by simp⟩
    List.Forall₂ Segment.Holds [broken, empty]
        (faultsOf (read "def f() : Void is x := 2+); ; f(); end")) ∧
      ∃ p, read "def f() : Void is f(); end" = .ok ⟨[p]⟩ ∧
        List.Forall₂ Segment.States [call 18] p.body := by
  intro broken empty call
  have hbroken : ¬ broken.Valid := by decide +kernel
  have hempty : ¬ empty.Valid := by decide +kernel
  have hcall : (call 30).Valid := by decide +kernel
  constructor
  · have hfaults := (read_of_segments "def f() : Void is x := 2+); ; f(); end" ⟨"f", [], .void⟩
      ((Piece.lexemes (Piece.scan "def f() : Void is x := 2+); ; f(); end")).take 7)
      [broken, empty, call 30] ⟨35, 38⟩ (by decide +kernel) (by decide +kernel)).1
    simpa [hbroken, hempty, hcall] using hfaults
  · obtain ⟨p, hread, _, hbody⟩ := (read_of_segments "def f() : Void is f(); end" ⟨"f", [], .void⟩
      ((Piece.lexemes (Piece.scan "def f() : Void is f(); end")).take 7)
      [call 18] ⟨23, 26⟩ (by decide +kernel) (by decide +kernel)).2 (by decide +kernel)
    exact ⟨p, hread, hbody⟩

end ScriptCheck
