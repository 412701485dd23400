import ScriptCheck.Proofs.Digraph

/-!
# The call graph is the call relation

The nodes of a script are listed in preorder, and its call sites are the calls among them.
A successful check leaves no call whose callee is not declared. So building the graph adds
no vertex beyond the declared procedures, and what it adds to each procedure is one target
per call site, in the order of the text.
-/
namespace ScriptCheck

/-! ## Call sites -/

mutual

/-- An expression and all expressions in it, each before those inside it. -/
def Expr.nodes : Expr → List Expr
  | .int value s => [.int value s]
  | .bool value s => [.bool value s]
  | .var x s => [.var x s]
  | .call callee args callSpan s => .call callee args callSpan s :: Expr.nodesAll args
  | .binary op left right s => .binary op left right s :: (left.nodes ++ right.nodes)
  | .unary op operand s => .unary op operand s :: operand.nodes

def Expr.nodesAll : List Expr → List Expr
  | [] => []
  | e :: es => e.nodes ++ Expr.nodesAll es

end

/-- The name that a call calls. -/
def Expr.callee? : Expr → Option String
  | .call callee _ _ _ => some callee.name
  | _ => none

/-- All expressions of a statement; one that is a call counts as such. -/
def Stmt.nodes : Stmt → List Expr
  | .declare _ _ init _ => init.toList.flatMap Expr.nodes
  | .assign _ value _ => value.nodes
  | .call c _ => c.toExpr.nodes
  | .ret value _ => value.toList.flatMap Expr.nodes

def Procedure.nodes (p : Procedure) : List Expr := p.body.flatMap Stmt.nodes

def Script.nodes (s : Script) : List Expr := s.procedures.flatMap Procedure.nodes

mutual

theorem Expr.filterMap_nodes : ∀ e : Expr, e.nodes.filterMap Expr.callee? = e.callees
  | .int _ _ | .bool _ _ | .var _ _ => rfl
  | .call callee args callSpan s => by
    have hcallee : (Expr.call callee args callSpan s).callee? = some callee.name := rfl
    rw [Expr.nodes, Expr.callees, List.filterMap_cons_some hcallee, Expr.filterMap_nodesAll]
  | .binary op left right s => by
    rw [Expr.nodes, Expr.callees, List.filterMap_cons_none rfl, List.filterMap_append,
      left.filterMap_nodes, right.filterMap_nodes]
  | .unary op operand s => by
    rw [Expr.nodes, Expr.callees, List.filterMap_cons_none rfl, operand.filterMap_nodes]

theorem Expr.filterMap_nodesAll :
    ∀ es : List Expr, (Expr.nodesAll es).filterMap Expr.callee? = Expr.calleesAll es
  | [] => rfl
  | e :: es => by
    rw [Expr.nodesAll, Expr.calleesAll, List.filterMap_append, e.filterMap_nodes,
      Expr.filterMap_nodesAll es]

end

theorem Stmt.filterMap_nodes (stmt : Stmt) : stmt.nodes.filterMap Expr.callee? = stmt.callees := by
  cases stmt with
  | declare target type init s =>
    cases init with
    | none => rfl
    | some e => simp [Stmt.nodes, Stmt.callees, Expr.filterMap_nodes]
  | assign target value s => exact value.filterMap_nodes
  | call c s => exact c.toExpr.filterMap_nodes
  | ret value s =>
    cases value with
    | none => rfl
    | some e => simp [Stmt.nodes, Stmt.callees, Expr.filterMap_nodes]

theorem Procedure.filterMap_nodes (p : Procedure) :
    p.nodes.filterMap Expr.callee? = p.callees := by
  rw [Procedure.nodes, Procedure.callees, List.filterMap_flatMap]
  simp only [Stmt.filterMap_nodes]

/-! ## Callees of checked scripts -/

section

variable {globals : GlobalTable}

/-- Every one of these names is declared. -/
def GlobalTable.Declares (globals : GlobalTable) (names : List String) : Prop :=
  ∀ x ∈ names, (globals.lookup x).isSome = true

theorem GlobalTable.Declares.append {xs ys : List String} (h : globals.Declares xs)
    (h' : globals.Declares ys) : globals.Declares (xs ++ ys) :=
  fun x hx => (List.mem_append.1 hx).elim (h x) (h' x)

theorem Env.declares_callee {env : Env} {callee : Ident} {provided : Nat} {s : Span}
    (h : (env.callee callee provided s).2.2 = []) :
    (env.globals.lookup callee.name).isSome = true := by
  unfold Env.callee at h
  cases hlookup : env.globals.lookup callee.name with
  | none => simp [hlookup] at h
  | some sig => rfl

mutual

/-- An expression without a finding calls declared procedures only. -/
theorem Env.declares_callees (env : Env) :
    ∀ e : Expr, (env.infer e).2 = [] → env.globals.Declares e.callees
  | .int _ _ | .bool _ _ | .var _ _ => fun _ => List.forall_mem_nil _
  | .call callee args callSpan s => fun h => by
    obtain ⟨hcallee, hargs⟩ := List.append_eq_nil_iff.1 h
    exact List.forall_mem_cons.2
      ⟨Env.declares_callee hcallee, env.declares_calleesAll args _ hargs⟩
  | .binary op left right s => fun h => by
    have hinside : (env.infer left).2 ++ (env.infer right).2 = [] := by
      simp only [Env.infer] at h
      split at h
      · exact h
      · exact (List.append_eq_nil_iff.1 h).1
    obtain ⟨hleft, hright⟩ := List.append_eq_nil_iff.1 hinside
    exact (env.declares_callees left hleft).append (env.declares_callees right hright)
  | .unary op operand s => fun h => by
    have hinside : (env.infer operand).2 = [] := by
      simp only [Env.infer] at h
      split at h
      · exact h
      · exact (List.append_eq_nil_iff.1 h).1
    exact env.declares_callees operand hinside

theorem Env.declares_calleesAll (env : Env) :
    ∀ (es : List Expr) (ts : List Ty), env.inferArgs ts es = [] →
      env.globals.Declares (Expr.calleesAll es)
  | [], _ => fun _ => List.forall_mem_nil _
  | e :: es, ts => fun h => by
    obtain ⟨hfirst, hrest⟩ := List.append_eq_nil_iff.1 h
    exact (env.declares_callees e (List.append_eq_nil_iff.1 hfirst).1).append
      (env.declares_calleesAll es ts.tail hrest)

end

theorem Env.declares_of_expect {env : Env} {t : Ty} {e : Expr} (h : env.expect t e = []) :
    env.globals.Declares e.callees :=
  env.declares_callees e (List.append_eq_nil_iff.1 h).1

variable {returns : Ty} {p : Progress} {stmt : Stmt} {stmts : List Stmt}

theorem Progress.declares_of_step (h : (p.step globals returns stmt).2 = []) :
    globals.Declares stmt.callees := by
  cases stmt with
  | declare target type init s =>
    obtain ⟨hinit, _⟩ := List.append_eq_nil_iff.1 h
    cases init with
    | none => exact List.forall_mem_nil _
    | some e => exact Env.declares_of_expect hinit
  | assign target value s => exact Env.declares_of_expect (List.append_eq_nil_iff.1 h).2
  | call c s =>
    exact Env.declares_callees ⟨globals, p.scope⟩ c.toExpr h
  | ret value s =>
    obtain ⟨_, hvalue⟩ := List.append_eq_nil_iff.1 h
    cases value with
    | none => exact List.forall_mem_nil _
    | some e => exact Env.declares_of_expect hvalue

theorem Progress.declares_of_run (h : (Progress.run globals returns p stmts).2 = []) :
    globals.Declares (stmts.flatMap Stmt.callees) := by
  induction stmts generalizing p with
  | nil => exact List.forall_mem_nil _
  | cons stmt stmts ih =>
    obtain ⟨hstep, hrest⟩ := List.append_eq_nil_iff.1 h
    exact (Progress.declares_of_step hstep).append (ih hrest)

theorem Procedure.declares_of_findings {p : Procedure} (h : p.findings globals = []) :
    globals.Declares p.callees :=
  Progress.declares_of_run (List.append_eq_nil_iff.1 (List.append_eq_nil_iff.1 h).1).2

end

namespace Script

variable {s : Script}

theorem nodup_names_of_clean (h : s.findings = []) : s.names.Nodup :=
  repeated_eq_nil_iff.1 (List.append_eq_nil_iff.1 h).1

/-- In a clean script every callee is the name of a procedure. -/
theorem callee_mem_names (h : s.findings = []) {p : Procedure} (hp : p ∈ s.procedures) {x : String}
    (hx : x ∈ p.callees) : x ∈ s.names := by
  have hclean := List.flatMap_eq_nil_iff.1 (List.append_eq_nil_iff.1 h).2 p hp
  obtain ⟨sig, hsig⟩ := Option.isSome_iff_exists.1 (Procedure.declares_of_findings hclean x hx)
  obtain ⟨q, hq, hname, _⟩ := (lookup_globals_iff (nodup_names_of_clean h)).1 hsig
  exact List.mem_map.2 ⟨q, hq, hname⟩

end Script

/-! ## Building the graph -/

namespace Digraph

variable {V : Type} [DecidableEq V] {g : Digraph V} {v : V}

/-- Between vertices of the graph an edge only adds to the targets of its source. -/
theorem addEdge_of_mem {source target : V} (hs : source ∈ g.vertices) (ht : target ∈ g.vertices) :
    g.addEdge source target = g.update source (· ++ [target]) := by
  rw [addEdge, addVertex_of_mem ht, addVertex_of_mem hs]

theorem update_update (f f' : List V → List V) :
    (g.update v f).update v f' = g.update v (f' ∘ f) := by
  simp only [update, List.map_map]
  congr 2
  funext entry
  by_cases hu : entry.1 = v <;> simp [hu]

/-- Edges from one vertex to others of the graph, one after the other. -/
theorem foldl_addEdge {targets : List V} (hv : v ∈ g.vertices)
    (ht : ∀ t ∈ targets, t ∈ g.vertices) :
    targets.foldl (fun g t => g.addEdge v t) g = g.update v (· ++ targets) := by
  induction targets generalizing g with
  | nil => simp [update]
  | cons t targets ih =>
    obtain ⟨ht, htargets⟩ := List.forall_mem_cons.1 ht
    rw [List.foldl_cons, addEdge_of_mem hv ht,
      ih (by rwa [vertices_update]) (by simpa only [vertices_update] using htargets), update_update]
    congr 1
    funext ts
    simp

/-- Distinct vertices are added in their order. -/
theorem foldl_addVertex {vs : List V} (h : (g.vertices ++ vs).Nodup) :
    vs.foldl addVertex g = ⟨g.adjacency ++ vs.map fun v => (v, [])⟩ := by
  induction vs generalizing g with
  | nil => simp
  | cons v vs ih =>
    have hv : v ∉ g.vertices := fun hmem =>
      (List.nodup_append.1 h).2.2 _ hmem _ List.mem_cons_self rfl
    rw [List.foldl_cons, addVertex_of_not_mem hv, ih (by simpa [vertices] using h)]
    simp

theorem update_of_not_mem (h : v ∉ g.vertices) (f : List V → List V) : g.update v f = g := by
  obtain ⟨adjacency⟩ := g
  refine congrArg Digraph.mk ((List.map_congr_left fun p hp => ?_).trans (List.map_id adjacency))
  have hne : p.1 ≠ v := fun hpv => h (List.mem_map.2 ⟨p, hp, hpv⟩)
  simp [hne]

/-- The vertex that is changed stands at one place. -/
theorem update_append_cons {before after : List (V × List V)} {targets : List V}
    (h : ((before ++ (v, targets) :: after).map (·.1)).Nodup) (f : List V → List V) :
    update ⟨before ++ (v, targets) :: after⟩ v f = ⟨before ++ (v, f targets) :: after⟩ := by
  rw [List.map_append, List.map_cons] at h
  obtain ⟨-, hcons, hdisjoint⟩ := List.nodup_append.1 h
  have hbefore : update ⟨before⟩ v f = ⟨before⟩ :=
    update_of_not_mem (fun hv => hdisjoint v hv v List.mem_cons_self rfl) f
  have hafter : update ⟨after⟩ v f = ⟨after⟩ := update_of_not_mem (List.nodup_cons.1 hcons).1 f
  rw [update, Digraph.mk.injEq] at hbefore hafter
  rw [update, List.map_append, List.map_cons, hbefore, hafter]
  simp only [if_pos]

end Digraph

namespace CallGraph

/-- A vertex with the targets it has in the end. -/
def entry (p : Procedure) : ProcNode × List ProcNode := (p.node, p.callees.map ProcNode.mk)

theorem nodup_nodes {ps : List Procedure} (h : (ps.map (·.name.name)).Nodup) :
    (ps.map Procedure.node).Nodup := by
  refine List.pairwise_map.2 ((List.pairwise_map.1 h).imp fun hne heq => ?_)
  exact hne (congrArg ProcNode.name heq)

theorem ofDeclarations_eq {s : Script} (h : s.names.Nodup) :
    ofDeclarations s = ⟨s.procedures.map fun p => (p.node, [])⟩ := by
  have hfold := Digraph.foldl_addVertex (g := .empty) (nodup_nodes h)
  rw [List.foldl_map, List.map_map] at hfold
  exact hfold

/-- The calls of a procedure that stands in the graph without targets. -/
theorem addCalls_eq {before after : List (ProcNode × List ProcNode)} {p : Procedure}
    (hnodup : ((before ++ (p.node, []) :: after).map (·.1)).Nodup)
    (hcallees : ∀ x ∈ p.callees, ⟨x⟩ ∈ (before ++ (p.node, []) :: after).map (·.1)) :
    addCalls ⟨before ++ (p.node, []) :: after⟩ p = ⟨before ++ entry p :: after⟩ := by
  have hnode : p.node ∈ (before ++ (p.node, []) :: after).map (·.1) := by simp
  have htargets : ∀ t ∈ p.callees.map ProcNode.mk,
      t ∈ (before ++ (p.node, []) :: after).map (·.1) := by
    intro t ht
    obtain ⟨x, hx, rfl⟩ := List.mem_map.1 ht
    exact hcallees x hx
  have hfold := Digraph.foldl_addEdge (g := ⟨before ++ (p.node, []) :: after⟩) hnode htargets
  rw [List.foldl_map, Digraph.update_append_cons hnodup] at hfold
  exact hfold

/-- The procedures `done` have their targets, those of `ps` are still to come. -/
theorem foldl_addCalls {done ps : List Procedure}
    (hnodup : ((done ++ ps).map Procedure.node).Nodup)
    (hcallees : ∀ p ∈ ps, ∀ x ∈ p.callees, ⟨x⟩ ∈ (done ++ ps).map Procedure.node) :
    ps.foldl addCalls ⟨done.map entry ++ ps.map fun p => (p.node, [])⟩ =
      ⟨(done ++ ps).map entry⟩ := by
  induction ps generalizing done with
  | nil => simp
  | cons p ps ih =>
    have hvertices : ((done.map entry ++ (p.node, []) ::
        ps.map fun p => (p.node, ([] : List ProcNode))).map (·.1)) =
        (done ++ p :: ps).map Procedure.node := by
      rw [List.map_append, List.map_cons, List.map_map, List.map_map, List.map_append,
        List.map_cons]
      rfl
    obtain ⟨hp, hps⟩ := List.forall_mem_cons.1 hcallees
    have hstep := addCalls_eq (by rw [hvertices]; exact hnodup) (by rw [hvertices]; exact hp)
    have hrest := @ih (done ++ [p]) (by simpa using hnodup) (by simpa using hps)
    rw [List.foldl_cons, List.map_cons, hstep]
    simpa using hrest

/-- Without findings the graph holds each procedure with its callees, and nothing else. -/
theorem ofScript_eq {s : Script} (h : s.findings = []) :
    ofScript s = ⟨s.procedures.map entry⟩ := by
  have hnames := Script.nodup_names_of_clean h
  have hcallees : ∀ p ∈ s.procedures, ∀ x ∈ p.callees,
      ⟨x⟩ ∈ s.procedures.map Procedure.node := by
    intro p hp x hx
    obtain ⟨q, hq, rfl⟩ := List.mem_map.1 (Script.callee_mem_names h hp hx)
    exact List.mem_map.2 ⟨q, hq, rfl⟩
  have hfold := @foldl_addCalls [] s.procedures (nodup_nodes hnames) hcallees
  rw [ofScript, ofDeclarations_eq hnames]
  exact hfold

/-- A number that each procedure's entry gives by its nodes is given by the nodes of all. -/
theorem total_entries {f : ProcNode × List ProcNode → Nat} {P : Expr → Bool}
    (h : ∀ p, f (entry p) = p.nodes.countP P) (ps : List Procedure) :
    total f (ps.map entry) = (ps.flatMap Procedure.nodes).countP P := by
  induction ps with
  | nil => rfl
  | cons p ps ih =>
    rw [List.map_cons, total_cons, List.flatMap_cons, List.countP_append, h, ih]

theorem length_entry (p : Procedure) :
    (entry p).2.length = p.nodes.countP (·.callee?.isSome) := by
  rw [entry, List.length_map, ← p.filterMap_nodes, List.length_filterMap_eq_countP]

theorem count_entry (p : Procedure) (q : ProcNode) :
    (entry p).2.count q = p.nodes.countP (·.callee? = some q.name) := by
  rw [entry, ← p.filterMap_nodes, List.count, List.countP_map, List.countP_filterMap]
  congr 1
  funext e
  cases e.callee? with
  | none => rfl
  | some x =>
    obtain ⟨y⟩ := q
    rw [Bool.eq_iff_iff]
    simp

end CallGraph

/-- The call graph of a script that passes the check: its vertices are the declared
procedures, each has the callees of its call sites in preorder as its targets, and edges
are counted by call sites. -/
theorem Source.callGraph_of_checkScript (source : Source) (s : Script) (c : CheckedScript)
    (h : source.checkScript s = .ok c) :
    c.callGraph.vertices = s.names.map ProcNode.mk ∧ c.callGraph.vertices.Nodup ∧
      (∀ p ∈ s.procedures, c.callGraph.neighbors p.node =
        .ok ((p.nodes.filterMap Expr.callee?).map ProcNode.mk)) ∧
      c.callGraph.edgeCount = s.nodes.countP (·.callee?.isSome) ∧
      ∀ q : ProcNode, c.callGraph.inDegree q = s.nodes.countP (·.callee? = some q.name) := by
  obtain ⟨hclean, rfl⟩ := Source.checkScript_eq_ok_iff.1 h
  have hgraph : c.callGraph = ⟨c.script.procedures.map CallGraph.entry⟩ :=
    CallGraph.ofScript_eq hclean
  have hvertices : c.callGraph.vertices = c.script.procedures.map Procedure.node := by
    rw [hgraph]
    simp [Digraph.vertices, CallGraph.entry]
  have hnodup : c.callGraph.vertices.Nodup := by
    rw [hvertices]
    exact CallGraph.nodup_nodes (Script.nodup_names_of_clean hclean)
  refine ⟨?_, hnodup, ?_, ?_, ?_⟩
  · rw [hvertices, Script.names, List.map_map]
    rfl
  · intro p hp
    have hentry : (p.node, p.callees.map ProcNode.mk) ∈ c.callGraph.adjacency := by
      rw [hgraph]
      exact List.mem_map.2 ⟨p, hp, rfl⟩
    rw [Digraph.neighbors, Digraph.targets?, (lookup_some_iff_mem hnodup).2 hentry,
      p.filterMap_nodes]
  · rw [hgraph]
    exact CallGraph.total_entries CallGraph.length_entry c.script.procedures
  · intro q
    rw [hgraph]
    exact CallGraph.total_entries (fun p => CallGraph.count_entry p q) c.script.procedures

/-- `def f() : Void is h(g(1)); end`, `def g(n : Int32) : Int32 is return g(g(n)); end` and
`def h(n : Int32) : Void is end`. -/
def Script.nestedCalls : Script :=
  let at0 : Span := .point 0
  let g (arg : Expr) : Expr := .call ⟨"g", at0⟩ [arg] at0 at0
  ⟨[⟨⟨"f", at0⟩, [], .void, [.call ⟨⟨"h", at0⟩, [g (.int 1 at0)], at0⟩ at0], at0⟩,
    ⟨⟨"g", at0⟩, [⟨"n", .int32, at0⟩], .int32, [.ret (some (g (g (.var "n" at0)))) at0], at0⟩,
    ⟨⟨"h", at0⟩, [⟨"n", .int32, at0⟩], .void, [], at0⟩]⟩

/-- A call comes before the call in its argument, and a procedure that calls itself twice
has two edges to itself. -/
theorem Source.callGraph_nestedCalls :
    ∃ c, Source.checkScript ⟨"main", ""⟩ Script.nestedCalls = .ok c ∧
      c.callGraph.vertices = [⟨"f"⟩, ⟨"g"⟩, ⟨"h"⟩] ∧
      c.callGraph.neighbors ⟨"f"⟩ = .ok [⟨"h"⟩, ⟨"g"⟩] ∧
      c.callGraph.edgeCount = 4 ∧ c.callGraph.inDegree ⟨"g"⟩ = 3 := by
  have hclean : Script.nestedCalls.findings = [] := by decide +kernel
  have hc : Source.checkScript ⟨"main", ""⟩ Script.nestedCalls = .ok ⟨Script.nestedCalls, hclean⟩ :=
    checkScript_eq_ok_iff.2 ⟨hclean, rfl⟩
  obtain ⟨hvertices, -, hneighbors, hedges, hdegree⟩ :=
    callGraph_of_checkScript ⟨"main", ""⟩ Script.nestedCalls _ hc
  have hfirst := hneighbors _ List.mem_cons_self
  have hfour : Script.nestedCalls.nodes.countP (·.callee?.isSome) = 4 := by decide
  have hthree : Script.nestedCalls.nodes.countP (·.callee? = some "g") = 3 := by decide
  exact ⟨_, hc, hvertices, hfirst, hedges.trans hfour, (hdegree ⟨"g"⟩).trans hthree⟩

end ScriptCheck
