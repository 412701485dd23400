import ScriptCheck.Proofs.Scope

/-!
# Procedures are checked one by one

The check of a procedure uses the rest of its script for one thing only: to learn what a
name that is called takes and gives. That is settled by the first declaration of the name.
So two scripts whose first declarations take and give the same find the same in a procedure
that both have, and a script can be rearranged as long as procedures of one name stay in
their order: the same is found, though perhaps in another order.
-/
namespace ScriptCheck

/-- The types that are taken and the type that is given. -/
def Signature.profile (sig : Signature) : List Ty × Ty := (sig.types, sig.returns)

def Procedure.profile (p : Procedure) : List Ty × Ty := (p.params.map (·.type), p.returns)

namespace Script

/-- The procedures of a name, in the order of declaration. -/
def named (s : Script) (x : String) : List Procedure := s.procedures.filter (·.name.name = x)

/-- The first declaration of a name. -/
def first? (s : Script) (x : String) : Option Procedure := s.procedures.find? (·.name.name = x)

theorem head?_named (s : Script) (x : String) : (s.named x).head? = s.first? x :=
  List.head?_filter

end Script

/-! ## Tables that answer alike -/

/-- Every name that is called takes and gives the same by both tables. -/
def GlobalTable.Alike (globals globals' : GlobalTable) : Prop :=
  ∀ x, (globals.lookup x).map Signature.profile = (globals'.lookup x).map Signature.profile

section

variable {globals globals' : GlobalTable}

theorem Env.callee_alike (h : globals.Alike globals') (scope : LocalScope) (callee : Ident)
    (provided : Nat) (s : Span) :
    Env.callee ⟨globals, scope⟩ callee provided s =
      Env.callee ⟨globals', scope⟩ callee provided s := by
  have hx := h callee.name
  unfold Env.callee
  cases hl : globals.lookup callee.name with
  | none =>
    cases hl' : globals'.lookup callee.name with
    | none => rfl
    | some sig' => rw [hl, hl'] at hx; cases hx
  | some sig =>
    cases hl' : globals'.lookup callee.name with
    | none => rw [hl, hl'] at hx; cases hx
    | some sig' =>
      rw [hl, hl'] at hx
      injection hx with hprofile
      injection hprofile with htypes hreturns
      simp only [htypes, hreturns]

mutual

theorem Env.infer_alike (h : globals.Alike globals') (scope : LocalScope) : ∀ e : Expr,
    Env.infer ⟨globals, scope⟩ e = Env.infer ⟨globals', scope⟩ e
  | .int _ _ | .bool _ _ => by rw [Env.infer, Env.infer]
  | .var _ _ => by
    rw [Env.infer, Env.infer]
    rfl
  | .call callee args callSpan _ => by
    rw [Env.infer, Env.infer, Env.callee_alike h scope]
    simp only [Env.inferArgs_alike h scope args]
  | .binary _ left right _ => by
    rw [Env.infer, Env.infer, Env.infer_alike h scope left, Env.infer_alike h scope right]
  | .unary _ operand _ => by
    rw [Env.infer, Env.infer, Env.infer_alike h scope operand]

theorem Env.inferArgs_alike (h : globals.Alike globals') (scope : LocalScope) :
    ∀ (args : List Expr) (types : List Ty),
      Env.inferArgs ⟨globals, scope⟩ types args = Env.inferArgs ⟨globals', scope⟩ types args
  | [], _ => by rw [Env.inferArgs, Env.inferArgs]
  | arg :: args, _ => by
    rw [Env.inferArgs, Env.inferArgs, Env.infer_alike h scope arg, Env.inferArgs_alike h scope args]

end

/-! ## What is found -/

theorem Env.expect_alike (h : globals.Alike globals') (scope : LocalScope) (expected : Ty)
    (e : Expr) :
    Env.expect ⟨globals, scope⟩ expected e = Env.expect ⟨globals', scope⟩ expected e := by
  rw [Env.expect, Env.expect, Env.infer_alike h scope e]

theorem Progress.step_alike (h : globals.Alike globals') (expected : Ty) (p : Progress)
    (stmt : Stmt) :
    p.step globals expected stmt = p.step globals' expected stmt := by
  have hexpect := Env.expect_alike h p.scope
  cases stmt with
  | declare target type init s =>
    cases init with
    | none => rfl
    | some e => simp only [Progress.step, hexpect]
  | assign target value s =>
    simp only [Progress.step, hexpect]
    rfl
  | call c s =>
    simp only [Progress.step, Env.callee_alike h p.scope, Env.inferArgs_alike h p.scope]
  | ret value s =>
    cases value with
    | none => rfl
    | some e => simp only [Progress.step, hexpect]

theorem Progress.run_alike (h : globals.Alike globals') (expected : Ty) (p : Progress)
    (stmts : List Stmt) :
    Progress.run globals expected p stmts = Progress.run globals' expected p stmts := by
  induction stmts generalizing p with
  | nil => rfl
  | cons stmt stmts ih =>
    rw [Progress.run, Progress.run, Progress.step_alike h]
    simp only [ih]

/-- By tables that answer alike the same is found in a procedure. -/
theorem Procedure.findings_alike (h : globals.Alike globals') (p : Procedure) :
    p.findings globals = p.findings globals' := by
  unfold Procedure.findings
  simp only [Progress.run_alike h]

end

/-! ## The table of a script -/

namespace GlobalTable

variable (globals : GlobalTable) (x : String)

/-- The complaint about a procedure whose name is taken. -/
def refusal (p : Procedure) : Finding := ⟨.duplicate p.name.name .proc, p.name.span⟩

theorem declareAll_cons (p : Procedure) (ps : List Procedure) :
    globals.declareAll (p :: ps) =
      let rest := GlobalTable.declareAll (globals.insert p.name.name p.signature) ps
      (rest.1, (if (globals.lookup p.name.name).isSome then [refusal p] else []) ++ rest.2) := by
  rw [declareAll, Table.insert, Table.define]
  cases globals.lookup p.name.name <;> rfl

/-- A name stands for what it stood for, or else for the first procedure declared with it. -/
theorem lookup_declareAll (ps : List Procedure) :
    (globals.declareAll ps).1.lookup x =
      (globals.lookup x).or ((ps.find? (·.name.name = x)).map Procedure.signature) := by
  induction ps generalizing globals with
  | nil => simp [declareAll]
  | cons p ps ih =>
    rw [declareAll_cons]
    dsimp only
    rw [ih, Table.lookup_insert]
    by_cases hx : p.name.name = x
    · simp [hx]
    · simp [hx, Ne.symm hx]

/-- Of the procedures of a free name all but the first are refused, of a taken one all. -/
theorem filter_declareAll (ps : List Procedure) :
    (globals.declareAll ps).2.filter (·.problem = .duplicate x .proc) =
      let named := ps.filter (·.name.name = x)
      (if (globals.lookup x).isSome then named else named.tail).map refusal := by
  induction ps generalizing globals with
  | nil => simp [declareAll]
  | cons p ps ih =>
    rw [declareAll_cons]
    dsimp only
    rw [List.filter_append, ih, Table.lookup_insert]
    by_cases hx : p.name.name = x
    · subst hx
      cases globals.lookup p.name.name <;> simp [refusal]
    · by_cases hp : (globals.lookup p.name.name).isSome <;> simp [hp, hx, Ne.symm hx, refusal]

/-- All complaints are refusals of procedures, in their order. -/
theorem sublist_declareAll (ps : List Procedure) :
    (globals.declareAll ps).2.Sublist (ps.map refusal) := by
  induction ps generalizing globals with
  | nil => exact List.Sublist.slnil
  | cons p ps ih =>
    rw [declareAll_cons]
    dsimp only
    split
    · exact (ih _).cons_cons _
    · exact (ih _).cons _

end GlobalTable

namespace Script

variable {s s' : Script}

theorem lookup_globals (s : Script) (x : String) :
    s.globals.lookup x = (s.first? x).map Procedure.signature := by
  rw [globals, GlobalTable.lookup_declareAll, Table.lookup_empty, Option.none_or]
  rfl

/-- Where first declarations take and give the same, the tables answer alike. -/
theorem globals_alike (h : ∀ x, (s.first? x).map Procedure.profile =
    (s'.first? x).map Procedure.profile) : s.globals.Alike s'.globals := by
  intro x
  rw [lookup_globals, lookup_globals, Option.map_map, Option.map_map]
  exact h x

/-- The second script is a rearrangement of the first in which procedures of one name keep
their order. -/
structure Rearranged (s s' : Script) : Prop where
  perm : s.procedures.Perm s'.procedures
  named : ∀ x, s.named x = s'.named x

theorem Rearranged.globals_alike (h : s.Rearranged s') : s.globals.Alike s'.globals := by
  apply Script.globals_alike
  intro x
  rw [← head?_named, ← head?_named, h.named]

/-- The same procedures are refused. -/
theorem Rearranged.repeated_perm (h : s.Rearranged s') : s.repeated.Perm s'.repeated := by
  have hfilter (x : String) : s.repeated.filter (·.problem = .duplicate x .proc) =
      s'.repeated.filter (·.problem = .duplicate x .proc) := by
    have hnamed : s.procedures.filter (·.name.name = x) = s'.procedures.filter (·.name.name = x) :=
      h.named x
    rw [repeated, repeated, GlobalTable.filter_declareAll, GlobalTable.filter_declareAll, hnamed]
  rw [List.perm_iff_count]
  intro f
  by_cases hf : ∃ x, f.problem = .duplicate x .proc
  · obtain ⟨x, hx⟩ := hf
    have hcount := congrArg (List.count f) (hfilter x)
    rwa [List.count_filter (by simpa using hx), List.count_filter (by simpa using hx)] at hcount
  · have hnone {t : Script} : f ∉ t.repeated := by
      intro hmem
      obtain ⟨p, _, rfl⟩ := List.mem_map.1 ((GlobalTable.sublist_declareAll _ _).subset hmem)
      exact hf ⟨_, rfl⟩
    rw [List.count_eq_zero.2 hnone, List.count_eq_zero.2 hnone]

theorem Rearranged.findings_perm (h : s.Rearranged s') : s.findings.Perm s'.findings := by
  have hsame : Procedure.findings s.globals = Procedure.findings s'.globals :=
    funext (Procedure.findings_alike h.globals_alike)
  rw [findings, findings, hsame]
  exact h.repeated_perm.append (h.perm.flatMap_right _)

end Script

theorem Source.checkScript_of_perm (source : Source) {s s' : Script}
    (h : s.findings.Perm s'.findings) :
    (∃ c c', source.checkScript s = .ok c ∧ source.checkScript s' = .ok c') ∨
      ∃ ds ds', source.checkScript s = .error ds ∧ source.checkScript s' = .error ds' ∧
        ds.Perm ds' := by
  unfold checkScript Script.check
  by_cases hs : s.findings = []
  · have hs' : s'.findings = [] := List.nil_perm.1 (hs ▸ h)
    left
    simp [hs, hs', Verdict.ofCheck]
  · have hs' : s'.findings ≠ [] := fun hnil => hs (List.perm_nil.1 (hnil ▸ h))
    right
    refine ⟨_, _, by rw [dif_neg hs]; rfl, by rw [dif_neg hs']; rfl, ?_⟩
    have hsort := (Order.sort_perm (·.span.start) s.findings).trans
      (h.trans (Order.sort_perm (·.span.start) s'.findings).symm)
    exact hsort.map _

/-- Checking is modular. A procedure that two scripts have gets the same diagnostics in both,
whatever else they hold, if the first declaration of each name takes and gives the same. So a
script can be rearranged, procedures of one name in their order: either both arrangements are
in order, or both have the same diagnostics, which may come in another order. -/
theorem Source.checkScript_modular (source : Source) :
    (∀ s s' : Script, (∀ x, (s.first? x).map Procedure.profile =
        (s'.first? x).map Procedure.profile) →
      ∀ p : Procedure, (p.findings s.globals).map (Finding.locate source) =
        (p.findings s'.globals).map (Finding.locate source)) ∧
      ∀ s s' : Script, s.Rearranged s' →
        (∃ c c', source.checkScript s = .ok c ∧ source.checkScript s' = .ok c') ∨
          ∃ ds ds', source.checkScript s = .error ds ∧ source.checkScript s' = .error ds' ∧
            ds.Perm ds' := by
  constructor
  · intro s s' h p
    rw [Procedure.findings_alike (Script.globals_alike h) p]
  · intro s s' h
    exact source.checkScript_of_perm h.findings_perm

/-- A caller of `g` may go behind both procedures of that name: it is checked against the first
of them as before, and all that changes is the order of the diagnostics. -/
theorem Source.checkScript_homonyms :
    let source : Source := ⟨"main", ""⟩
    let here : Span := .point 0
    let f : Procedure := ⟨⟨"f", here⟩, [], .bool,
      [.ret (some (.call ⟨"g", here⟩ [.int 1 here] here here)) here], here⟩
    let g : Procedure := ⟨⟨"g", here⟩, [⟨"n", .int32, here⟩], .int32, [], here⟩
    let g' : Procedure := ⟨⟨"g", here⟩, [], .bool, [.ret (some (.var "n" here)) here], here⟩
    Script.Rearranged ⟨[f, g, g']⟩ ⟨[g, g', f]⟩ ∧
      (f.findings (Script.mk [f, g, g']).globals).map (Finding.locate source) =
        (f.findings (Script.mk [g, g', f]).globals).map (Finding.locate source) ∧
      ∃ ds ds', source.checkScript ⟨[f, g, g']⟩ = .error ds ∧
        source.checkScript ⟨[g, g', f]⟩ = .error ds' ∧ ds.Perm ds' ∧
        ds.map (·.problem) =
          [.duplicate "g" .proc, .mismatch .bool .int32, .returnCount 1, .unknown "n"] ∧
        ds'.map (·.problem) =
          [.duplicate "g" .proc, .returnCount 1, .unknown "n", .mismatch .bool .int32] := by
  intro source here f g g'
  have h : Script.Rearranged ⟨[f, g, g']⟩ ⟨[g, g', f]⟩ := by
    have hperm : ([f] ++ [g, g']).Perm ([g, g'] ++ [f]) := List.perm_append_comm
    refine ⟨hperm, fun x => ?_⟩
    by_cases hx : "f" = x
    · subst hx
      rfl
    · have hf : [f].filter (·.name.name = x) = [] := by simp [f, hx]
      show ([f] ++ [g, g']).filter (·.name.name = x) = ([g, g'] ++ [f]).filter (·.name.name = x)
      rw [List.filter_append, List.filter_append, hf, List.nil_append, List.append_nil]
  have hfirst (x : String) : ((Script.mk [f, g, g']).first? x).map Procedure.profile =
      ((Script.mk [g, g', f]).first? x).map Procedure.profile := by
    rw [← Script.head?_named, ← Script.head?_named, h.named]
  refine ⟨h, (checkScript_modular source).1 _ _ hfirst f, ?_⟩
  rcases (checkScript_modular source).2 _ _ h with ⟨c, _, hc, _⟩ | ⟨ds, ds', hds, hds', hperm⟩
  · exact absurd (checkScript_eq_ok_iff.1 hc).1 (by decide +kernel)
  · have hproblems : (source.checkScript ⟨[f, g, g']⟩).diagnostics.map (·.problem) =
        [.duplicate "g" .proc, .mismatch .bool .int32, .returnCount 1, .unknown "n"] := by
      decide +kernel
    have hproblems' : (source.checkScript ⟨[g, g', f]⟩).diagnostics.map (·.problem) =
        [.duplicate "g" .proc, .returnCount 1, .unknown "n", .mismatch .bool .int32] := by
      decide +kernel
    rw [hds] at hproblems
    rw [hds'] at hproblems'
    exact ⟨ds, ds', hds, hds', hperm, hproblems, hproblems'⟩

end ScriptCheck
