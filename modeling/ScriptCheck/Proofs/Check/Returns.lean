import Mathlib.Data.List.Perm.Basic
import ScriptCheck.Proofs.Check.Names

/-!
# Returns are counted and checked

The checker counts the returns of a body on the way and complains at the second of them, and at
the end if it has met none. Told from the text alone, a body has at most one such complaint, and
where it stands depends on the first two returns only. Whether they are too many or not, all of
them are checked against the declared type, and this is all that is found in them.
-/
namespace ScriptCheck

open ScriptCheck.Finding (coded coded_append coded_eq_nil)

/-! ## Returns in the text -/

/-- The place of a statement that returns. -/
def Stmt.returnSpan? : Stmt → Option Span
  | .ret _ s => some s
  | _ => none

/-- The places of the returns of a body, in order. -/
def Procedure.returnSpans (p : Procedure) : List Span := p.body.filterMap Stmt.returnSpan?

/-- What is wrong with the number of returns: the second of them, or that there is none where
something other than `Void` is declared. -/
def Procedure.miscounts (p : Procedure) : List Finding :=
  match p.returnSpans with
  | [] => if p.returns = .void then [] else [⟨.returnCount 1, p.name.span⟩]
  | [_] => []
  | _ :: second :: _ => [⟨.returnCount 1, second⟩]

/-- What is found in a return, and the mismatch if it does not have the declared type. Without a
value the type is `Void` and the place that of the statement. -/
def Env.returnFindings (env : Env) (declared : Ty) (value : Option Expr) (s : Span) :
    List Finding :=
  let (actual, place, inside) := match value with
    | some e => ((env.infer e).1, e.span, (env.infer e).2)
    | none => (.void, s, [])
  inside ++ if actual = .error ∨ declared = .error ∨ actual = declared then []
    else [⟨.mismatch declared actual, place⟩]

namespace Procedure

variable (globals : GlobalTable) (p : Procedure)

/-- What is found in a statement that returns, behind the given ones. -/
def returnFindingsAt (before : List Stmt) : Stmt → List Finding
  | .ret value s => (p.envAfter globals before).returnFindings p.returns value s
  | _ => []

/-- What is found in the returns of a body, all of them, each where it stands. -/
def returnFindings : List Finding := flatMapAfter (p.returnFindingsAt globals) [] p.body

/-- What is found in a statement that does not return, behind the given ones. -/
def elsewhereAt (before : List Stmt) (stmt : Stmt) : List Finding :=
  if stmt.isReturn then [] else p.stmtFindings globals before stmt

/-- What is found outside of the returns: in the parameters and in all other statements. -/
def elsewhere : List Finding :=
  refusals (p.params.map LocalScope.ofParam) ++ flatMapAfter (p.elsewhereAt globals) [] p.body

end Procedure

/-! ## Counting -/

theorem coded_surplus (n : Nat) (s : Span) :
    coded "TooFewOrTooManyReturns" (surplus n s) = surplus n s := by
  unfold surplus
  split <;> rfl

/-- Behind two returns there is nothing more to say. -/
theorem flatMapAfter_surplus_eq_nil {before : List Span} (h : 2 ≤ before.length)
    (spans : List Span) : flatMapAfter (fun b => surplus b.length) before spans = [] := by
  induction spans generalizing before with
  | nil => rfl
  | cons s spans ih =>
    have hne : before.length ≠ 1 := by omega
    have hmore : 2 ≤ (before ++ [s]).length := by
      rw [List.length_append]
      omega
    rw [flatMapAfter, surplus, if_neg hne, ih hmore, List.append_nil]

/-- Of returns in a row just the second is one too many. -/
theorem flatMapAfter_surplus (spans : List Span) :
    flatMapAfter (fun b => surplus b.length) [] spans =
      (spans[1]?.map (Finding.mk (.returnCount 1))).toList := by
  match spans with
  | [] => rfl
  | [_] => rfl
  | first :: second :: spans =>
    have hmore := flatMapAfter_surplus_eq_nil (show 2 ≤ [first, second].length by simp) spans
    exact congrArg (⟨.returnCount 1, second⟩ :: ·) hmore

/-- A list with at most one member has one order only. -/
theorem eq_toList_of_perm {α : Type} {xs : List α} {x? : Option α} (h : xs.Perm x?.toList) :
    xs = x?.toList := by
  cases x? with
  | none => exact List.perm_nil.1 h
  | some x => exact List.perm_singleton.1 h

theorem countP_isReturn (stmts : List Stmt) :
    stmts.countP Stmt.isReturn = (stmts.filterMap Stmt.returnSpan?).length := by
  rw [List.length_filterMap_eq_countP]
  congr 1
  funext stmt
  cases stmt <;> rfl

namespace Progress

variable (p : Progress) (globals : GlobalTable) (returns : Ty)

/-- A statement complains about the number of returns just if it is the second return. -/
theorem surplus_step (stmt : Stmt) :
    (coded "TooFewOrTooManyReturns" (p.step globals returns stmt).2).Perm
      (stmt.returnSpan?.toList.flatMap (surplus p.returns)) := by
  have hown : coded "TooFewOrTooManyReturns" (p.own globals returns stmt) =
      stmt.returnSpan?.toList.flatMap (surplus p.returns) := by
    cases stmt with
    | declare target type init s =>
      rw [own, LocalScope.declare]
      cases p.scope.define target.name ⟨.var, type, target.span⟩ <;> rfl
    | assign target value s =>
      rw [own, Env.resolve]
      cases (p.env globals).scope.lookup target.name <;> rfl
    | call c s => rfl
    | ret value s =>
      have hvalue : coded "TooFewOrTooManyReturns"
          (if value.isNone then expectType returns .void s else []) = [] := by
        refine coded_eq_nil fun f hf => ?_
        rw [code_of_mem_expectType (List.mem_ite_nil_right.1 hf).2]
        decide
      rw [own, coded_append, hvalue]
      exact congrArg (· ++ []) (coded_surplus p.returns s)
  have hnodes : (stmt.nodes.flatMap fun e =>
      coded "TooFewOrTooManyReturns" ((p.env globals).own e)) = [] :=
    List.flatMap_eq_nil_iff.2 fun e _ =>
      Env.coded_own _ (by decide) (by decide) (by decide) e
  have hstep := p.coded_step globals returns (show _ ≠ "TooFewOrTooManyReturns" by decide) stmt
  rwa [hown, hnodes, List.append_nil] at hstep

end Progress

namespace Procedure

variable (globals : GlobalTable) (p : Procedure)

theorem lacking_eq : p.lacking globals =
    if p.returnSpans = [] ∧ p.returns ≠ .void then [⟨.returnCount 1, p.name.span⟩] else [] := by
  rw [lacking, returns_progressAfter, countP_isReturn]
  exact if_congr (and_congr_left' List.length_eq_zero_iff) rfl rfl

theorem miscounts_eq : p.miscounts =
    (p.returnSpans[1]?.map (Finding.mk (.returnCount 1))).toList ++ p.lacking globals := by
  rw [lacking_eq]
  unfold miscounts
  split
  · next h => by_cases hvoid : p.returns = .void <;> simp [h, hvoid]
  · next h => simp [h]
  · next h => simp [h]

/-- Along a body just the second return is one too many. -/
theorem flatMapAfter_surplus_body :
    flatMapAfter (fun before stmt =>
      stmt.returnSpan?.toList.flatMap (surplus (before.countP Stmt.isReturn))) [] p.body =
      (p.returnSpans[1]?.map (Finding.mk (.returnCount 1))).toList := by
  have hreturns := flatMapAfter_filterMap Stmt.returnSpan? (fun b => surplus b.length) [] [] p.body
  simp only [List.nil_append, List.filterMap_nil] at hreturns
  simp only [countP_isReturn]
  exact hreturns.trans (flatMapAfter_surplus _)

theorem surplus_body : coded "TooFewOrTooManyReturns"
    (flatMapAfter (p.stmtFindings globals) [] p.body) =
      (p.returnSpans[1]?.map (Finding.mk (.returnCount 1))).toList := by
  have hsteps := flatMapAfter_perm (fun before stmt =>
    (p.progressAfter globals before).surplus_step globals p.returns stmt) [] p.body
  simp only [returns_progressAfter] at hsteps
  rw [flatMapAfter_surplus_body] at hsteps
  rw [coded, filter_flatMapAfter]
  exact eq_toList_of_perm hsteps

/-- The complaints about the number of returns are those that the text calls for. -/
theorem miscounts_findings :
    coded "TooFewOrTooManyReturns" (p.findings globals) = p.miscounts := by
  have hparams : coded "TooFewOrTooManyReturns"
      (LocalScope.declareParams .empty p.params).2 = [] := by
    rw [(LocalScope.declareParams_eq Table.answers_empty p.params).2]
    refine coded_eq_nil fun f hf => ?_
    rw [code_of_mem_refusals hf]
    decide
  have hlacking : coded "TooFewOrTooManyReturns" (p.lacking globals) = p.lacking globals := by
    rw [lacking]
    split <;> rfl
  rw [findings_eq, coded_append, coded_append, hparams, List.nil_append, surplus_body, hlacking,
    p.miscounts_eq globals]

end Procedure

/-! ## Checking -/

theorem expectType_eq (expected actual : Ty) (s : Span) : expectType expected actual s =
    if actual = .error ∨ expected = .error ∨ actual = expected then []
    else [⟨.mismatch expected actual, s⟩] :=
  if_congr Ty.agrees_iff rfl rfl

theorem Env.returnFindings_eq (env : Env) (declared : Ty) (value : Option Expr) (s : Span) :
    env.returnFindings declared value s =
      value.elim (expectType declared .void s) (env.expect declared) := by
  cases value with
  | none =>
    rw [returnFindings, List.nil_append, ← expectType_eq]
    rfl
  | some e =>
    rw [returnFindings, ← expectType_eq]
    rfl

theorem flatMapAfter_append_perm {α β : Type} (f g : List α → α → List β) (before xs : List α) :
    (flatMapAfter (fun b x => f b x ++ g b x) before xs).Perm
      (flatMapAfter f before xs ++ flatMapAfter g before xs) := by
  induction xs generalizing before with
  | nil => exact .refl _
  | cons x xs ih =>
    simp only [flatMapAfter, List.append_assoc]
    refine List.Perm.append_left _ (((ih _).append_left _).trans ?_)
    exact List.perm_append_comm_assoc _ _ _

namespace Procedure

variable (globals : GlobalTable) (p : Procedure)

/-- In a return there are the complaint about its number, if it is the second one, and what
follows from its type. Only the first depends on the returns before it. -/
theorem stmtFindings_return (before : List Stmt) (value : Option Expr) (s : Span) :
    p.stmtFindings globals before (.ret value s) =
      surplus (before.countP Stmt.isReturn) s ++
        (p.envAfter globals before).returnFindings p.returns value s := by
  rw [stmtFindings_ret, Env.returnFindings_eq]

/-- What is found in a statement is about the number of returns, about the type of a return, or
made elsewhere. -/
theorem stmtFindings_eq (before : List Stmt) (stmt : Stmt) :
    p.stmtFindings globals before stmt =
      stmt.returnSpan?.toList.flatMap (surplus (before.countP Stmt.isReturn)) ++
        (p.returnFindingsAt globals before stmt ++ p.elsewhereAt globals before stmt) := by
  cases stmt with
  | ret value s =>
    rw [stmtFindings_return, Stmt.returnSpan?, Option.toList_some, List.flatMap_singleton]
    exact congrArg (surplus _ s ++ ·) (List.append_nil _).symm
  | declare | assign | call => rfl

/-- Nothing else is found in a procedure. -/
theorem findings_perm : (p.findings globals).Perm
    (p.miscounts ++ p.returnFindings globals ++ p.elsewhere globals) := by
  have hbody : (flatMapAfter (p.stmtFindings globals) [] p.body).Perm
      ((p.returnSpans[1]?.map (Finding.mk (.returnCount 1))).toList ++
        (p.returnFindings globals ++ flatMapAfter (p.elsewhereAt globals) [] p.body)) := by
    have hsplit := funext₂ (p.stmtFindings_eq globals)
    rw [hsplit, ← flatMapAfter_surplus_body]
    refine (flatMapAfter_append_perm _ _ [] p.body).trans (List.Perm.append_left _ ?_)
    exact flatMapAfter_append_perm _ _ [] p.body
  have hparams : (LocalScope.declareParams .empty p.params).2 =
      refusals (p.params.map LocalScope.ofParam) :=
    (LocalScope.declareParams_eq Table.answers_empty p.params).2
  rw [findings_eq, hparams, p.miscounts_eq globals, elsewhere, List.perm_iff_count]
  intro f
  have hcount := hbody.count_eq f
  simp only [List.count_append] at hcount ⊢
  omega

end Procedure

/-- All that is found in a script, with the returns apart. -/
theorem Script.findings_perm (s : Script) : s.findings.Perm (s.repeated ++
    s.procedures.flatMap fun p =>
      p.miscounts ++ p.returnFindings s.globals ++ p.elsewhere s.globals) :=
  List.Perm.append_left _ (List.Perm.flatMap_left _ fun p _ => p.findings_perm s.globals)

/-- Returns are counted once and checked always. The complaints about the number of returns are,
for each procedure, one about the second return, or one at the name where there is no return and
something other than `Void` is declared, or none. What is found in a return besides is what
follows from its type and the declared one, however many there are; and the diagnostics are these
and what is found elsewhere. -/
theorem Source.returns_counted (source : Source) (s : Script) :
    ((source.checkScript s).diagnostics.filter
        (·.problem.code = "TooFewOrTooManyReturns")).Perm
      ((s.procedures.flatMap Procedure.miscounts).map (Finding.locate source)) ∧
    (source.checkScript s).diagnostics.Perm ((s.repeated ++ s.procedures.flatMap fun p =>
      p.miscounts ++ p.returnFindings s.globals ++ p.elsewhere s.globals).map
        (Finding.locate source)) ∧
    ∀ p ∈ s.procedures,
      coded "TooFewOrTooManyReturns" (p.findings s.globals) = p.miscounts ∧
      (p.findings s.globals).Perm
        (p.miscounts ++ p.returnFindings s.globals ++ p.elsewhere s.globals) ∧
      ∀ before value sp after, p.body = before ++ .ret value sp :: after →
        (∃ front back, p.findings s.globals =
          front ++ p.stmtFindings s.globals before (.ret value sp) ++ back) ∧
        p.stmtFindings s.globals before (.ret value sp) =
          surplus (before.countP Stmt.isReturn) sp ++
            (p.envAfter s.globals before).returnFindings p.returns value sp := by
  refine ⟨?_, ?_, fun p _ => ⟨p.miscounts_findings s.globals, p.findings_perm s.globals, ?_⟩⟩
  · have hscript := s.coded_findings (show _ ≠ "TooFewOrTooManyReturns" by decide)
      fun p => .of_eq (p.miscounts_findings s.globals)
    exact (source.diagnostics_coded s _).trans (hscript.map _)
  · rw [Source.diagnostics_checkScript]
    exact ((Order.sort_perm (·.span.start) s.findings).trans s.findings_perm).map _
  · intro before value sp after hbody
    exact ⟨p.exists_findings_eq s.globals before hbody,
      p.stmtFindings_return s.globals before value sp⟩

/-- Of three returns the second is reported, the first two are blamed for their types, and in the
third nothing is found. `g` lacks a return; `h` needs none. -/
theorem Source.returns_counted_thrice :
    let source : Source := ⟨"main", ""⟩
    let here : Nat → Span := Span.point
    let x : Stmt := .assign ⟨"x", here 3⟩ (.bool true (here 3)) (here 3)
    let first : Stmt := .ret none (here 1)
    let second : Stmt := .ret (some (.bool true (here 5))) (here 4)
    let third : Stmt := .ret (some (.int 1 (here 7))) (here 6)
    let f : Procedure := ⟨⟨"f", here 0⟩, [], .int32, [first, x, second, third], here 0⟩
    let g : Procedure := ⟨⟨"g", here 8⟩, [], .bool, [], here 8⟩
    let h : Procedure := ⟨⟨"h", here 9⟩, [], .void, [], here 9⟩
    let s : Script := ⟨[f, g, h]⟩
    ((source.checkScript s).diagnostics.filter
        (·.problem.code = "TooFewOrTooManyReturns")).Perm
      ([⟨.returnCount 1, here 4⟩, ⟨.returnCount 1, here 8⟩].map (Finding.locate source)) ∧
    (source.checkScript s).diagnostics.Perm
      ([⟨.returnCount 1, here 4⟩, ⟨.mismatch .int32 .void, here 1⟩,
        ⟨.mismatch .int32 .bool, here 5⟩, ⟨.unknown "x", here 3⟩,
        ⟨.returnCount 1, here 8⟩].map (Finding.locate source)) ∧
    f ∈ s.procedures ∧
    coded "TooFewOrTooManyReturns" (f.findings s.globals) = [⟨.returnCount 1, here 4⟩] ∧
    f.stmtFindings s.globals [first, x] second =
      [⟨.returnCount 1, here 4⟩, ⟨.mismatch .int32 .bool, here 5⟩] ∧
    f.stmtFindings s.globals [first, x, second] third = [] := by
  intro source here x first second third f g h s
  obtain ⟨hcounts, hall, hplaces⟩ := returns_counted source s
  obtain ⟨hcoded, -, hreturns⟩ := hplaces f List.mem_cons_self
  have hmiscounts : s.procedures.flatMap Procedure.miscounts =
      [⟨.returnCount 1, here 4⟩, ⟨.returnCount 1, here 8⟩] := by
    decide +kernel
  have hfindings : (s.repeated ++ s.procedures.flatMap fun p =>
      p.miscounts ++ p.returnFindings s.globals ++ p.elsewhere s.globals) =
      [⟨.returnCount 1, here 4⟩, ⟨.mismatch .int32 .void, here 1⟩,
        ⟨.mismatch .int32 .bool, here 5⟩, ⟨.unknown "x", here 3⟩, ⟨.returnCount 1, here 8⟩] := by
    decide +kernel
  rw [hmiscounts] at hcounts
  rw [hfindings] at hall
  refine ⟨hcounts, hall, List.mem_cons_self, hcoded, ?_, ?_⟩
  · exact (hreturns [first, x] _ _ [third] rfl).2.trans (by decide +kernel)
  · exact (hreturns [first, x, second] _ _ [] rfl).2.trans (by decide +kernel)

end ScriptCheck
