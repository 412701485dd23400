import ScriptCheck.Analysis

/-!
# Tables of distinct names

Declaring names one after the other gives no complaint exactly if they are pairwise
distinct, and then the table holds all the declarations in their order. In such a table
looking a name up is the same as finding its entry. So in a script without findings the
names of procedures mean what was declared under them.
-/
namespace ScriptCheck

section

variable {κ α : Type} [DecidableEq κ] {entries : List (κ × α)} {k : κ} {a : α}

theorem lookup_none_iff_keys : entries.lookup k = none ↔ k ∉ entries.map (·.1) := by
  rw [List.lookup_eq_none_iff]
  simp only [List.mem_map, not_exists, not_and, bne_iff_ne]
  constructor
  · intro h p hp hk
    exact h p hp hk.symm
  · intro h p hp hk
    exact h p hp hk.symm

/-- Where keys are distinct, what is found under a key is its only entry. -/
theorem lookup_some_iff_mem (h : (entries.map (·.1)).Nodup) :
    entries.lookup k = some a ↔ (k, a) ∈ entries := by
  induction entries with
  | nil => simp
  | cons p entries ih =>
    obtain ⟨l, b⟩ := p
    obtain ⟨hl, hentries⟩ := List.nodup_cons.1 h
    by_cases hkl : k = l
    · subst hkl
      have hmem : (k, a) ∉ entries := fun hmem => hl (List.mem_map.2 ⟨_, hmem, rfl⟩)
      simp [hmem, eq_comm]
    · have hne : (k == l) = false := beq_false_of_ne hkl
      simp [List.lookup_cons, hne, hkl, ih hentries]

theorem lookup_map_snd {β : Type} (f : α → β) (entries : List (κ × α)) (k : κ) :
    (entries.map fun d => (d.1, f d.2)).lookup k = (entries.lookup k).map f := by
  induction entries with
  | nil => rfl
  | cons d entries ih =>
    obtain ⟨l, b⟩ := d
    rw [List.map_cons, List.lookup_cons, List.lookup_cons]
    cases k == l with
    | true => rfl
    | false => exact ih

end

namespace Table

variable {α : Type} {t : Table α} {x : String} {a : α}

/-- The names that are bound, in the order of definition. -/
def names (t : Table α) : List String := t.entries.map (·.1)

/-- The table with one more entry at its end. -/
def push (t : Table α) (x : String) (a : α) : Table α := ⟨t.entries ++ [(x, a)]⟩

@[simp] theorem names_push : (t.push x a).names = t.names ++ [x] := by
  simp [names, push]

theorem nodup_push (hn : t.names.Nodup) (h : x ∉ t.names) : (t.push x a).names.Nodup := by
  rw [names_push, List.nodup_append]
  refine ⟨hn, by simp, fun y hy z hz hyz => ?_⟩
  rw [hyz, List.mem_singleton.1 hz] at hy
  exact h hy

theorem lookup_eq_none_iff : t.lookup x = none ↔ x ∉ t.names := lookup_none_iff_keys

theorem lookup_eq_some_iff (h : t.names.Nodup) : t.lookup x = some a ↔ (x, a) ∈ t.entries :=
  lookup_some_iff_mem h

theorem define_of_mem (h : x ∈ t.names) : t.define x a = .error a := by
  unfold define
  cases hx : t.lookup x with
  | none => exact absurd h (lookup_eq_none_iff.1 hx)
  | some b => rfl

theorem define_of_not_mem (h : x ∉ t.names) : t.define x a = .ok (t.push x a) := by
  unfold define
  rw [lookup_eq_none_iff.2 h]
  rfl

end Table

namespace LocalScope

variable {scope : LocalScope} {x : String} {b : Binding} {ps : List Param}

theorem declare_of_mem (h : x ∈ scope.names) :
    scope.declare x b = (scope, [⟨.duplicate x b.kind, b.span⟩]) := by
  rw [declare, Table.define_of_mem h]

theorem declare_of_not_mem (h : x ∉ scope.names) : scope.declare x b = (scope.push x b, []) := by
  rw [declare, Table.define_of_not_mem h]

/-- What a parameter is bound to. -/
def ofParam (p : Param) : String × Binding := (p.name, ⟨.param, p.type, p.span⟩)

theorem declareParams_of_nodup (scope : LocalScope)
    (h : (scope.names ++ ps.map (·.name)).Nodup) :
    scope.declareParams ps = (⟨scope.entries ++ ps.map ofParam⟩, []) := by
  induction ps generalizing scope with
  | nil => simp [declareParams]
  | cons p ps ih =>
    have hp : p.name ∉ scope.names := fun hmem =>
      (List.nodup_append.1 h).2.2 _ hmem _ List.mem_cons_self rfl
    have hrest : ((scope.push p.name ⟨.param, p.type, p.span⟩).names ++ ps.map (·.name)).Nodup := by
      simpa using h
    rw [declareParams, declare_of_not_mem hp]
    simp only [ih _ hrest]
    simp [Table.push, ofParam]

theorem declareParams_clean (scope : LocalScope) (hn : scope.names.Nodup)
    (h : (scope.declareParams ps).2 = []) :
    (scope.names ++ ps.map (·.name)).Nodup := by
  induction ps generalizing scope with
  | nil => simpa using hn
  | cons p ps ih =>
    by_cases hp : p.name ∈ scope.names
    · rw [declareParams, declare_of_mem hp] at h
      cases h
    · rw [declareParams, declare_of_not_mem hp] at h
      simpa using ih _ (Table.nodup_push hn hp) h

end LocalScope

namespace GlobalTable

variable (globals : GlobalTable) {ps : List Procedure}

theorem declareAll_of_nodup (h : (globals.names ++ ps.map (·.name.name)).Nodup) :
    globals.declareAll ps =
      (⟨globals.entries ++ ps.map fun p => (p.name.name, p.signature)⟩, []) := by
  induction ps generalizing globals with
  | nil => simp [declareAll]
  | cons p ps ih =>
    have hp : p.name.name ∉ globals.names := fun hmem =>
      (List.nodup_append.1 h).2.2 _ hmem _ List.mem_cons_self rfl
    have hrest : ((globals.push p.name.name p.signature).names ++ ps.map (·.name.name)).Nodup := by
      simpa using h
    rw [declareAll, Table.define_of_not_mem hp]
    simp only [ih _ hrest]
    simp [Table.push]

theorem declareAll_clean (hn : globals.names.Nodup) (h : (globals.declareAll ps).2 = []) :
    (globals.names ++ ps.map (·.name.name)).Nodup := by
  induction ps generalizing globals with
  | nil => simpa using hn
  | cons p ps ih =>
    by_cases hp : p.name.name ∈ globals.names
    · rw [declareAll, Table.define_of_mem hp] at h
      cases h
    · rw [declareAll, Table.define_of_not_mem hp] at h
      simpa using ih _ (Table.nodup_push hn hp) h

end GlobalTable

namespace Script

variable {s : Script}

theorem repeated_eq_nil_iff : s.repeated = [] ↔ s.names.Nodup := by
  constructor
  · intro h
    exact GlobalTable.declareAll_clean Table.empty List.nodup_nil h
  · intro h
    exact congrArg Prod.snd (GlobalTable.declareAll_of_nodup Table.empty h)

theorem entries_globals (h : s.names.Nodup) :
    s.globals.entries = s.procedures.map fun p => (p.name.name, p.signature) :=
  congrArg (fun declared => declared.1.entries)
    (GlobalTable.declareAll_of_nodup Table.empty h)

/-- Of distinct names each one stands for the procedure that was declared with it. -/
theorem lookup_globals_iff (h : s.names.Nodup) {x : String} {sig : Signature} :
    s.globals.lookup x = some sig ↔ ∃ p ∈ s.procedures, p.name.name = x ∧ p.signature = sig := by
  have hentries := entries_globals h
  have hnames : s.globals.names.Nodup := by
    rw [Table.names, hentries, List.map_map]
    exact h
  rw [Table.lookup_eq_some_iff hnames, hentries]
  simp

end Script

/-- The verdict is good exactly on scripts without findings, and gives them back. -/
theorem Source.checkScript_eq_ok_iff {source : Source} {s : Script} {c : CheckedScript} :
    source.checkScript s = .ok c ↔ s.findings = [] ∧ c.script = s := by
  obtain ⟨script, hclean⟩ := c
  unfold Source.checkScript Script.check
  by_cases h : s.findings = []
  · simp [h, Verdict.ofCheck, eq_comm]
  · simp [h, Verdict.ofCheck]

/-- The diagnostics of a verdict; a good one has none. -/
def Verdict.diagnostics : Verdict → List Diagnostic
  | .ok _ => []
  | .error ds => ds

/-- The diagnostics of a tree are its findings in the order of the text, with their places. -/
theorem Source.diagnostics_checkScript (source : Source) (s : Script) :
    (source.checkScript s).diagnostics =
      (Order.sort (·.span.start) s.findings).map (Finding.locate source) := by
  unfold Source.checkScript Script.check
  by_cases h : s.findings = []
  · simp [h, Verdict.ofCheck, Verdict.diagnostics, Order.sort, Order.merge]
  · simp [h, Verdict.ofCheck, Verdict.diagnostics]

end ScriptCheck
