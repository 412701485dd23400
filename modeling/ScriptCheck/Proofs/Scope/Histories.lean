import ScriptCheck.Proofs.Scope

/-!
# Tables and the definitions that were tried

Procedures are defined in one table, parameters and variables in another. Whatever was tried so
far, a table answers with the first definition of a name. A further definition of that name in
the same table is handed back and changes nothing, and no definition touches the other table.
-/
namespace ScriptCheck

/-- The tables that names are defined in. -/
inductive NameSpace where
  | procedures
  | locals
deriving DecidableEq

/-- A definition that is tried: of a procedure, or of a parameter or variable, which its binding
tells apart. -/
inductive Definition where
  | procedure (signature : Signature)
  | binding (name : String) (bound : Binding)
deriving DecidableEq

/-- What a table has under a name. -/
inductive Entry where
  | procedure (signature : Signature)
  | binding (bound : Binding)
deriving DecidableEq

namespace Definition

def ofParam (p : Param) : Definition := .binding p.name ⟨.param, p.type, p.span⟩

def ofVar (x : Ident) (type : Ty) : Definition := .binding x.name ⟨.var, type, x.span⟩

def space : Definition → NameSpace
  | .procedure _ => .procedures
  | .binding _ _ => .locals

def name : Definition → String
  | .procedure s => s.name
  | .binding n _ => n

def entry : Definition → Entry
  | .procedure s => .procedure s
  | .binding _ b => .binding b

/-- Is it a definition of this name, in this table? -/
def isOf (space : NameSpace) (n : String) (d : Definition) : Bool :=
  d.space == space && d.name == n

theorem isOf_iff {space : NameSpace} {n : String} {d : Definition} :
    d.isOf space n = true ↔ d.space = space ∧ d.name = n := by
  simp [isOf]

end Definition

namespace Env

def empty : Env := ⟨.empty, .empty⟩

def lookup (env : Env) : NameSpace → String → Option Entry
  | .procedures, n => (env.globals.lookup n).map .procedure
  | .locals, n => (env.scope.lookup n).map .binding

/-- Tries a definition: the tables with it, or the definition as it was handed back. -/
def define (env : Env) : Definition → Except Definition Env
  | .procedure s =>
    match env.globals.define s.name s with
    | .ok globals => .ok ⟨globals, env.scope⟩
    | .error s' => .error (.procedure s')
  | .binding n b =>
    match env.scope.define n b with
    | .ok scope => .ok ⟨env.globals, scope⟩
    | .error b' => .error (.binding n b')

/-- The tables after a definition was tried. -/
def after (env : Env) (d : Definition) : Env :=
  match env.define d with
  | .ok env' => env'
  | .error _ => env

/-- The tables after definitions were tried one by one. -/
def afterAll (env : Env) (ds : List Definition) : Env := ds.foldl after env

/-! ## One definition -/

/-- A definition is refused exactly if its table has the name. -/
theorem define_eq (env : Env) (d : Definition) :
    env.define d =
      if (env.lookup d.space d.name).isSome then .error d else .ok (env.after d) := by
  cases d with
  | procedure s =>
    cases h : env.globals.lookup s.name <;>
      simp [define, after, lookup, Table.define, Definition.space, Definition.name, h]
  | binding n b =>
    cases h : env.scope.lookup n <;>
      simp [define, after, lookup, Table.define, Definition.space, Definition.name, h]

theorem define_eq_error_iff {env : Env} {d e : Definition} :
    env.define d = .error e ↔ e = d ∧ (env.lookup d.space d.name).isSome = true := by
  rw [define_eq]
  split
  · next h => simp [h, eq_comm]
  · next h => simp [h]

theorem define_eq_ok_iff {env env' : Env} {d : Definition} :
    env.define d = .ok env' ↔ env' = env.after d ∧ env.lookup d.space d.name = none := by
  rw [define_eq]
  split
  · next h => simp [Option.isSome_iff_ne_none.1 h]
  · next h => simp [Option.not_isSome_iff_eq_none.1 h, eq_comm]

theorem after_procedure (env : Env) (s : Signature) :
    env.after (.procedure s) = ⟨env.globals.insert s.name s, env.scope⟩ := by
  cases h : env.globals.define s.name s <;> simp [after, define, Table.insert, h]

theorem after_binding (env : Env) (n : String) (b : Binding) :
    env.after (.binding n b) = ⟨env.globals, env.scope.insert n b⟩ := by
  cases h : env.scope.define n b <;> simp [after, define, Table.insert, h]

/-- A definition decides its own name if that was free, and nothing else. -/
theorem lookup_after (env : Env) (d : Definition) (space : NameSpace) (n : String) :
    (env.after d).lookup space n =
      (env.lookup space n).or (if d.isOf space n then some d.entry else none) := by
  cases d with
  | procedure s =>
    rw [after_procedure]
    cases space with
    | procedures =>
      have hname : (Definition.procedure s).isOf .procedures n = true ↔ n = s.name :=
        Definition.isOf_iff.trans ⟨fun h => h.2.symm, fun h => ⟨rfl, h.symm⟩⟩
      simp only [lookup, Table.lookup_insert, Option.map_or, hname]
      split <;> rfl
    | locals => exact Option.or_none.symm
  | binding m b =>
    rw [after_binding]
    cases space with
    | procedures => exact Option.or_none.symm
    | locals =>
      have hname : (Definition.binding m b).isOf .locals n = true ↔ n = m :=
        Definition.isOf_iff.trans ⟨fun h => h.2.symm, fun h => ⟨rfl, h.symm⟩⟩
      simp only [lookup, Table.lookup_insert, Option.map_or, hname]
      split <;> rfl

theorem lookup_after_of_free {env : Env} {d : Definition}
    (hfree : env.lookup d.space d.name = none) (space : NameSpace) (n : String) :
    (env.after d).lookup space n =
      if space = d.space ∧ n = d.name then some d.entry else env.lookup space n := by
  rw [lookup_after]
  split
  · next h =>
    obtain ⟨rfl, rfl⟩ := Definition.isOf_iff.1 h
    rw [hfree, if_pos ⟨rfl, rfl⟩]
    rfl
  · next h =>
    rw [if_neg fun hn => h (Definition.isOf_iff.2 ⟨hn.1.symm, hn.2.symm⟩), Option.or_none]

/-! ## Histories -/

/-- The tables answer with the first of the definitions that were tried. -/
def Shows (env : Env) (ds : List Definition) : Prop :=
  ∀ space n, env.lookup space n = (ds.find? (Definition.isOf space n)).map Definition.entry

theorem Shows.after {env : Env} {ds : List Definition} (h : env.Shows ds) (d : Definition) :
    (env.after d).Shows (ds ++ [d]) := by
  intro space n
  rw [lookup_after, h space n, List.find?_append, Option.map_or, List.find?_singleton]
  split <;> rfl

theorem Shows.afterAll {env : Env} {ds : List Definition} (h : env.Shows ds)
    (more : List Definition) : (env.afterAll more).Shows (ds ++ more) := by
  induction more generalizing env ds with
  | nil =>
    rw [List.append_nil]
    exact h
  | cons d more ih =>
    have hmore := ih (h.after d)
    rw [List.append_assoc] at hmore
    exact hmore

theorem shows_empty : empty.Shows [] := by
  intro space n
  cases space <;> rfl

/-- The tables have a name exactly if some definition of it was tried. -/
theorem Shows.isSome_lookup_iff {env : Env} {ds : List Definition} (h : env.Shows ds)
    {space : NameSpace} {n : String} :
    (env.lookup space n).isSome = true ↔ ∃ d ∈ ds, d.isOf space n = true := by
  rw [h space n, Option.isSome_map, List.find?_isSome]

/-- Both tables keep the first definition of each name, whatever was tried before. A definition is
refused exactly if its name was defined in its table. It is handed back then, and nobody
sees a difference; otherwise its own name has its entry, and all other names are as before. The
other table is never affected. -/
theorem first_definition_holds (ds : List Definition) (d : Definition) {env : Env}
    (henv : env = empty.afterAll ds) :
    (∀ space n, env.lookup space n =
      (ds.find? (Definition.isOf space n)).map Definition.entry) ∧
    ((∃ e, env.define d = .error e) ↔ ∃ d' ∈ ds, d'.space = d.space ∧ d'.name = d.name) ∧
    (∀ e, env.define d = .error e →
      e = d ∧ ∀ space n, (env.after d).lookup space n = env.lookup space n) ∧
    (∀ env', env.define d = .ok env' → env' = env.after d ∧
      ∀ space n, env'.lookup space n =
        if space = d.space ∧ n = d.name then some d.entry else env.lookup space n) ∧
    ∀ space, space ≠ d.space → ∀ n, (env.after d).lookup space n = env.lookup space n := by
  have hshows : env.Shows ds := by
    rw [henv]
    exact shows_empty.afterAll ds
  refine ⟨hshows, ?_, fun e he => ?_, fun env' henv' => ?_, fun space hspace n => ?_⟩
  · simp only [define_eq_error_iff, hshows.isSome_lookup_iff, Definition.isOf_iff,
      exists_eq_left]
  · refine ⟨(define_eq_error_iff.1 he).1, fun space n => ?_⟩
    rw [after, he]
  · obtain ⟨rfl, hfree⟩ := define_eq_ok_iff.1 henv'
    exact ⟨rfl, lookup_after_of_free hfree⟩
  · rw [lookup_after, if_neg (fun h => hspace (Definition.isOf_iff.1 h).1.symm), Option.or_none]

/-- A variable with the name of a parameter is refused, although it comes with another type, and
the procedure of that name is not in its way. -/
theorem first_definition_holds_parameter :
    let x : Definition := .ofParam ⟨"x", .bool, ⟨6, 14⟩⟩
    let y : Definition := .ofVar ⟨"y", ⟨30, 31⟩⟩ .int32
    let ds : List Definition :=
      [.procedure ⟨"x", [⟨"x", .bool, ⟨6, 14⟩⟩], .int32, ⟨4, 5⟩⟩, x, y]
    let again : Definition := .ofVar ⟨"x", ⟨44, 45⟩⟩ .int32
    (empty.afterAll ds).define again = .error again ∧
      ((empty.afterAll ds).after again).lookup .locals "x" =
        some (.binding ⟨.param, .bool, ⟨6, 14⟩⟩) := by
  intro x y ds again
  obtain ⟨hlookup, hrefused, hkept, -, -⟩ := first_definition_holds ds again rfl
  obtain ⟨e, he⟩ := hrefused.2 ⟨x, by simp [ds], rfl, rfl⟩
  obtain ⟨rfl, hsame⟩ := hkept e he
  refine ⟨he, ?_⟩
  rw [hsame, hlookup]
  decide

end Env
end ScriptCheck
