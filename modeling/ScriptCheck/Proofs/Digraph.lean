import Mathlib.Data.List.Nodup
import ScriptCheck.Digraph
import ScriptCheck.Proofs.Scope

/-!
# Graphs and the changes that made them

A graph that was built from nothing by adding vertices, adding edges and removing edges shows
just that history: its vertices in the order in which they were first mentioned, the targets of
each in the order in which they were added, and between two vertices as many edges as were added
less those that were removed. Each change is first
described by what it does to the vertices and to the targets of each vertex; what a whole
history does follows from that, one change after the other.
-/
namespace ScriptCheck

/-! ## Totals and first occurrences -/

section

variable {α β : Type} {f g : α → Nat} {xs : List α}

theorem total_congr (h : ∀ x ∈ xs, f x = g x) : total f xs = total g xs := by
  induction xs with
  | nil => rfl
  | cons x xs ih =>
    obtain ⟨hx, hxs⟩ := List.forall_mem_cons.1 h
    rw [total_cons, total_cons, hx, ih hxs]

theorem total_add (f g : α → Nat) (xs : List α) :
    total (fun x => f x + g x) xs = total f xs + total g xs := by
  induction xs with
  | nil => rfl
  | cons x xs ih =>
    simp only [total_cons, ih]
    omega

theorem total_zero (xs : List α) : total (fun _ => 0) xs = 0 := by
  induction xs with
  | nil => rfl
  | cons x xs ih => rw [total_cons, ih]

/-- Rows and columns add up to the same. -/
theorem total_comm (f : α → β → Nat) (xs : List α) (ys : List β) :
    total (fun x => total (f x) ys) xs = total (fun y => total (f · y) xs) ys := by
  induction xs with
  | nil => exact (total_zero ys).symm
  | cons x xs ih => simp only [total_cons, ih, total_add]

variable [DecidableEq α]

/-- Each member of `ts` is counted at its one place in `vs`. -/
theorem total_count {vs ts : List α} (hvs : vs.Nodup) (hts : ∀ t ∈ ts, t ∈ vs) :
    total (ts.count ·) vs = ts.length := by
  induction ts with
  | nil => exact total_zero vs
  | cons t ts ih =>
    obtain ⟨ht, hts⟩ := List.forall_mem_cons.1 hts
    have hone (us : List α) : total (fun v => if t == v then 1 else 0) us = us.count t := by
      induction us with
      | nil => rfl
      | cons u us ih =>
        rw [total_cons, ih, List.count_cons, Nat.add_comm, Bool.beq_comm]
    simp only [List.count_cons, total_add, ih hts, hone, List.length_cons,
      List.count_eq_one_of_mem hvs ht]

end

namespace Digraph

section

variable {α : Type} [DecidableEq α] {x : α} {xs : List α}

theorem mem_distinct : x ∈ distinct xs ↔ x ∈ xs := by
  induction xs with
  | nil => rfl
  | cons y xs ih =>
    by_cases hxy : x = y
    · simp [distinct, hxy]
    · simp [distinct, hxy, ih]

theorem nodup_distinct (xs : List α) : (distinct xs).Nodup := by
  induction xs with
  | nil => exact List.nodup_nil
  | cons y xs ih => exact List.nodup_cons.2 ⟨by simp, ih.filter _⟩

/-- A further item is kept if it is new. -/
theorem distinct_concat (xs : List α) (x : α) :
    distinct (xs ++ [x]) = if x ∈ xs then distinct xs else distinct xs ++ [x] := by
  induction xs with
  | nil => rfl
  | cons y xs ih =>
    rw [List.cons_append, distinct, ih, distinct]
    by_cases hmem : x ∈ xs
    · simp [hmem]
    · by_cases hxy : x = y
      · subst hxy
        simp [hmem]
      · simp [hmem, hxy]

end

variable {V : Type} [DecidableEq V] {g g' : Digraph V} {u v a b source target : V}

/-! ## What each change does -/

theorem contains_iff : g.contains v = true ↔ v ∈ g.vertices := by
  rw [contains, targets?, Option.isSome_iff_ne_none, ne_eq, lookup_none_iff_keys, vertices,
    Decidable.not_not]

theorem targets?_eq_none_iff : g.targets? v = none ↔ v ∉ g.vertices := lookup_none_iff_keys

theorem addVertex_of_mem (h : v ∈ g.vertices) : g.addVertex v = g := by
  rw [addVertex, if_pos (contains_iff.2 h)]

theorem addVertex_of_not_mem (h : v ∉ g.vertices) :
    g.addVertex v = ⟨g.adjacency ++ [(v, [])]⟩ := by
  rw [addVertex, if_neg fun hv => h (contains_iff.1 hv)]

theorem vertices_addVertex (g : Digraph V) (v : V) :
    (g.addVertex v).vertices = if v ∈ g.vertices then g.vertices else g.vertices ++ [v] := by
  split
  · next h => rw [addVertex_of_mem h]
  · next h =>
    rw [addVertex_of_not_mem h]
    simp [vertices]

theorem mem_vertices_addVertex : u ∈ (g.addVertex v).vertices ↔ u ∈ g.vertices ∨ u = v := by
  rw [vertices_addVertex]
  split
  · next h => exact ⟨.inl, fun hu => hu.elim id fun huv => huv ▸ h⟩
  · simp

theorem vertices_update (f : List V → List V) : (g.update v f).vertices = g.vertices := by
  simp [vertices, update]

/-- The targets of a vertex, none if it is not one. -/
def targets (g : Digraph V) (v : V) : List V := (g.targets? v).getD []

theorem targets?_of_mem (h : v ∈ g.vertices) : g.targets? v = some (g.targets v) := by
  unfold targets
  cases ht : g.targets? v with
  | none => exact absurd h (targets?_eq_none_iff.1 ht)
  | some ts => rfl

theorem targets_of_not_mem (h : v ∉ g.vertices) : g.targets v = [] := by
  rw [targets, targets?_eq_none_iff.2 h]
  rfl

/-- A new vertex has no targets, and the others keep theirs. -/
theorem targets_addVertex (g : Digraph V) (v u : V) : (g.addVertex v).targets u = g.targets u := by
  by_cases hv : v ∈ g.vertices
  · rw [addVertex_of_mem hv]
  · rw [addVertex_of_not_mem hv, targets, targets?, List.lookup_append]
    cases hu : g.adjacency.lookup u with
    | some ts => simp [targets, targets?, hu]
    | none =>
      by_cases huv : u = v
      · subst huv
        simp [targets, targets?, hu]
      · simp [targets, targets?, hu, List.lookup_cons, beq_false_of_ne huv]

theorem targets?_update (g : Digraph V) (v u : V) (f : List V → List V) :
    (g.update v f).targets? u = if u = v then (g.targets? u).map f else g.targets? u := by
  unfold targets? update
  induction g.adjacency with
  | nil => simp
  | cons entry entries ih =>
    obtain ⟨w, ts⟩ := entry
    by_cases huw : u = w
    · subst huw
      by_cases huv : u = v <;> simp [huv]
    · simp only [List.map_cons, List.lookup_cons, beq_false_of_ne huw]
      exact ih

theorem targets_update_self (h : v ∈ g.vertices) (f : List V → List V) :
    (g.update v f).targets v = f (g.targets v) := by
  rw [targets, targets?_update, if_pos rfl, targets?_of_mem h]
  rfl

theorem targets_update_of_ne (h : u ≠ v) (f : List V → List V) :
    (g.update v f).targets u = g.targets u := by
  rw [targets, targets?_update, if_neg h]
  rfl

theorem vertices_addEdge (g : Digraph V) (source target : V) :
    (g.addEdge source target).vertices = ((g.addVertex target).addVertex source).vertices :=
  vertices_update _

theorem targets_addEdge (g : Digraph V) (source target u : V) :
    (g.addEdge source target).targets u =
      if u = source then g.targets u ++ [target] else g.targets u := by
  have hsource : source ∈ ((g.addVertex target).addVertex source).vertices :=
    mem_vertices_addVertex.2 (.inr rfl)
  unfold addEdge
  split
  · next h => rw [h, targets_update_self hsource, targets_addVertex, targets_addVertex]
  · next h => rw [targets_update_of_ne h, targets_addVertex, targets_addVertex]

/-- An edge can be removed exactly if there is one, and then the earliest goes. -/
theorem removeEdge?_eq (g : Digraph V) (source target : V) :
    g.removeEdge? source target =
      if target ∈ g.targets source then some (g.update source (·.erase target)) else none := by
  unfold removeEdge? targets
  cases g.targets? source with
  | none => simp
  | some ts => rfl

theorem removeEdge?_eq_some_iff :
    g.removeEdge? source target = some g' ↔
      target ∈ g.targets source ∧ g' = g.update source (·.erase target) := by
  rw [removeEdge?_eq]
  by_cases h : target ∈ g.targets source
  · simp [h, eq_comm]
  · simp [h]

theorem mem_vertices_of_mem_targets (h : u ∈ g.targets v) : v ∈ g.vertices := by
  by_contra hv
  rw [targets_of_not_mem hv] at h
  cases h

theorem vertices_removeEdge? (h : g.removeEdge? source target = some g') :
    g'.vertices = g.vertices := by
  rw [(removeEdge?_eq_some_iff.1 h).2, vertices_update]

theorem targets_removeEdge? (h : g.removeEdge? source target = some g') (u : V) :
    g'.targets u = if u = source then (g.targets u).erase target else g.targets u := by
  obtain ⟨htarget, rfl⟩ := removeEdge?_eq_some_iff.1 h
  split
  · next hu => rw [hu, targets_update_self (mem_vertices_of_mem_targets htarget)]
  · next hu => rw [targets_update_of_ne hu]

/-- The targets are cut at the first of its kind, and every other vertex keeps its own. -/
theorem neighbors_removeEdge? (h : g.removeEdge? source target = some g') :
    (∃ before after, g.neighbors source = .ok (before ++ target :: after) ∧ target ∉ before ∧
        g'.neighbors source = .ok (before ++ after)) ∧
      ∀ v, v ≠ source → g'.neighbors v = g.neighbors v := by
  obtain ⟨htarget, rfl⟩ := removeEdge?_eq_some_iff.1 h
  have hsource := mem_vertices_of_mem_targets htarget
  constructor
  · obtain ⟨before, after, hbefore, htargets, herase⟩ := List.exists_erase_eq htarget
    refine ⟨before, after, ?_, hbefore, ?_⟩
    · rw [neighbors, targets?_of_mem hsource, htargets]
    · rw [neighbors, targets?_update, if_pos rfl, targets?_of_mem hsource, Option.map_some, herase]
  · intro v hv
    rw [neighbors, targets?_update, if_neg hv]
    rfl

/-! ## Counting edges -/

/-- Number of edges from one vertex to another, none if the first is not in the graph. -/
def multiplicity (g : Digraph V) (a b : V) : Nat :=
  match g.neighbors a with
  | .ok targets => targets.count b
  | .error _ => 0

theorem multiplicity_eq (g : Digraph V) (a b : V) : g.multiplicity a b = (g.targets a).count b := by
  unfold multiplicity neighbors targets
  cases g.targets? a with
  | none => rfl
  | some ts => rfl

omit [DecidableEq V] in
theorem length_edges (g : Digraph V) : g.edges.length = g.edgeCount := by
  obtain ⟨entries⟩ := g
  unfold edges edgeCount
  induction entries with
  | nil => rfl
  | cons entry entries ih =>
    rw [List.flatMap_cons, List.length_append, List.length_map, ih, total_cons]

/-- Each vertex stands once, and every target is a vertex. -/
structure WellFormed (g : Digraph V) : Prop where
  nodup : g.vertices.Nodup
  closed : ∀ v, ∀ t ∈ g.targets v, t ∈ g.vertices

namespace WellFormed

theorem lookup_entry (h : g.WellFormed) {entry : V × List V} (hentry : entry ∈ g.adjacency) :
    g.targets? entry.1 = some entry.2 :=
  (lookup_some_iff_mem h.nodup).2 hentry

theorem targets_entry (h : g.WellFormed) {entry : V × List V} (hentry : entry ∈ g.adjacency) :
    g.targets entry.1 = entry.2 := by
  rw [targets, h.lookup_entry hentry]
  rfl

theorem mem_edges_iff (h : g.WellFormed) {edge : V × V} :
    edge ∈ g.edges ↔ edge.2 ∈ g.targets edge.1 := by
  obtain ⟨a, b⟩ := edge
  simp only [edges, List.mem_flatMap, List.mem_map, Prod.mk.injEq]
  constructor
  · rintro ⟨entry, hentry, t, ht, rfl, rfl⟩
    rwa [h.targets_entry hentry]
  · intro hb
    have hlookup := targets?_of_mem (mem_vertices_of_mem_targets hb)
    exact ⟨(a, g.targets a), (lookup_some_iff_mem h.nodup).1 hlookup, b, hb, rfl, rfl⟩

/-- The edges stand by source, each source with its targets. -/
theorem edges_eq (h : g.WellFormed) :
    g.edges = g.vertices.flatMap fun v => (g.targets v).map (v, ·) := by
  rw [edges, vertices, List.flatMap_map]
  refine List.flatMap_congr fun entry hentry => ?_
  rw [h.targets_entry hentry]

theorem mapM_outDegree (h : g.WellFormed) :
    g.vertices.mapM g.outDegree = .ok (g.adjacency.map (·.2.length)) := by
  have hentries (entries : List (V × List V)) (hall : ∀ e ∈ entries, e ∈ g.adjacency) :
      (entries.map (·.1)).mapM g.outDegree = .ok (entries.map (·.2.length)) := by
    induction entries with
    | nil => rfl
    | cons entry entries ih =>
      obtain ⟨hentry, hrest⟩ := List.forall_mem_cons.1 hall
      have hdegree : g.outDegree entry.1 = .ok entry.2.length := by
        rw [outDegree, neighbors, h.lookup_entry hentry]
        rfl
      rw [List.map_cons, List.mapM_cons, hdegree, ih hrest]
      rfl
  exact hentries g.adjacency fun _ he => he

/-- Every edge reaches some vertex, so the edges that reach the vertices are all edges. -/
theorem total_inDegree (h : g.WellFormed) : total g.inDegree g.vertices = g.edgeCount := by
  unfold inDegree edgeCount
  rw [total_comm (fun v (entry : V × List V) => entry.2.count v)]
  refine total_congr fun entry hentry => total_count h.nodup fun t ht => ?_
  exact h.closed entry.1 t (by rwa [h.targets_entry hentry])

end WellFormed

omit [DecidableEq V] in
theorem total_outDegree (g : Digraph V) :
    total id (g.adjacency.map (·.2.length)) = g.edgeCount := by
  unfold edgeCount
  induction g.adjacency with
  | nil => rfl
  | cons entry entries ih => rw [List.map_cons, total_cons, ih, total_cons, id]

end Digraph

/-! ## Histories -/

/-- A change to a graph, as it is asked for. -/
inductive Change (V : Type) where
  | addVertex (v : V)
  | addEdge (source target : V)
  | removeEdge (source target : V)
deriving DecidableEq

/-- The vertices that a change puts into the graph if they are not there, first to last. -/
def Change.mentions {V : Type} : Change V → List V
  | .addVertex v => [v]
  | .addEdge source target => [target, source]
  | .removeEdge _ _ => []

/-- What a change makes of the targets of a vertex. A new one goes behind the others, and the
earliest of its kind is removed. -/
def Change.edit {V : Type} [DecidableEq V] (v : V) (targets : List V) : Change V → List V
  | .addVertex _ => targets
  | .addEdge source target => if v = source then targets ++ [target] else targets
  | .removeEdge source target => if v = source then targets.erase target else targets

namespace Digraph

variable {V : Type} [DecidableEq V] {g : Digraph V} {a b : V}

/-- The graph after a change. -/
def apply (g : Digraph V) : Change V → Digraph V
  | .addVertex v => g.addVertex v
  | .addEdge source target => g.addEdge source target
  | .removeEdge source target => (g.removeEdge? source target).getD g

/-- Is the change made? Only removing an edge can be refused. -/
def grants (g : Digraph V) : Change V → Bool
  | .removeEdge source target => (g.removeEdge? source target).isSome
  | _ => true

/-- The graph after some changes, one after the other. -/
def applyAll (g : Digraph V) (changes : List (Change V)) : Digraph V := changes.foldl apply g

/-- The changes, each with the answer it gets. -/
def answers (g : Digraph V) : List (Change V) → List (Change V × Bool)
  | [] => []
  | c :: changes => (c, g.grants c) :: (g.apply c).answers changes

/-- One more vertex is one more mention. -/
theorem vertices_addVertex_of_distinct {mentioned : List V} (h : g.vertices = distinct mentioned)
    (v : V) : (g.addVertex v).vertices = distinct (mentioned ++ [v]) := by
  rw [vertices_addVertex, distinct_concat, h]
  simp only [mem_distinct]

theorem vertices_apply {mentioned : List V} (h : g.vertices = distinct mentioned) (c : Change V) :
    (g.apply c).vertices = distinct (mentioned ++ c.mentions) := by
  cases c with
  | addVertex v => exact vertices_addVertex_of_distinct h v
  | addEdge source target =>
    have htarget := vertices_addVertex_of_distinct h target
    rw [apply, vertices_addEdge, vertices_addVertex_of_distinct htarget source, List.append_assoc]
    rfl
  | removeEdge source target =>
    rw [Change.mentions, List.append_nil, apply, ← h]
    cases hr : g.removeEdge? source target with
    | none => rfl
    | some g' => exact vertices_removeEdge? hr

theorem targets_apply (g : Digraph V) (c : Change V) (v : V) :
    (g.apply c).targets v = c.edit v (g.targets v) := by
  cases c with
  | addVertex u => exact targets_addVertex g u v
  | addEdge source target => exact targets_addEdge g source target v
  | removeEdge source target =>
    rw [apply, Change.edit]
    cases hr : g.removeEdge? source target with
    | some g' => exact targets_removeEdge? hr v
    | none =>
      split
      · next hv =>
        have hnone : target ∉ g.targets v := by
          intro htarget
          rw [removeEdge?_eq, ← hv, if_pos htarget] at hr
          cases hr
        rw [List.erase_of_not_mem hnone]
        rfl
      · rfl

/-- An edge that is added counts, and one that is removed does no longer. -/
theorem multiplicity_apply (g : Digraph V) (c : Change V) (a b : V) :
    (g.apply c).multiplicity a b + [(c, g.grants c)].count (.removeEdge a b, true) =
      g.multiplicity a b + [c].count (.addEdge a b) := by
  simp only [multiplicity_eq]
  cases c with
  | addVertex v => simp [apply, targets_addVertex]
  | addEdge source target =>
    by_cases hs : a = source
    · subst hs
      by_cases ht : target = b <;> simp [apply, targets_addEdge, ht]
    · simp [apply, targets_addEdge, hs, Ne.symm hs]
  | removeEdge source target =>
    cases hr : g.removeEdge? source target with
    | none => simp [apply, grants, hr]
    | some g' =>
      have htarget := (removeEdge?_eq_some_iff.1 hr).1
      by_cases hs : a = source
      · subst hs
        by_cases ht : target = b
        · subst ht
          have hpos := List.count_pos_iff.2 htarget
          have hone : [(Change.removeEdge a target, true)].count (.removeEdge a target, true) = 1 :=
            List.count_singleton_self
          have hzero : [Change.removeEdge a target].count (.addEdge a target) = 0 := by simp
          rw [hzero, grants, hr, Option.isSome_some, hone, apply, hr, Option.getD_some,
            targets_removeEdge? hr, if_pos rfl, List.count_erase_self]
          omega
        · have herase := List.count_erase_of_ne (l := g.targets a) (Ne.symm ht)
          simp [apply, grants, hr, targets_removeEdge? hr, ht, herase]
      · simp [apply, grants, hr, targets_removeEdge? hr, hs, Ne.symm hs]

theorem WellFormed.addVertex (h : g.WellFormed) (v : V) : (g.addVertex v).WellFormed := by
  constructor
  · rw [vertices_addVertex]
    split
    · exact h.nodup
    · next hv =>
      refine List.nodup_append.2 ⟨h.nodup, List.nodup_singleton v, fun u hu w hw huw => hv ?_⟩
      rwa [← List.mem_singleton.1 hw, ← huw]
  · intro u t ht
    rw [targets_addVertex] at ht
    exact mem_vertices_addVertex.2 (.inl (h.closed u t ht))

/-- No change breaks a graph. The target of an edge is added before the edge is. -/
theorem WellFormed.apply (h : g.WellFormed) (c : Change V) : (g.apply c).WellFormed := by
  cases c with
  | addVertex v => exact h.addVertex v
  | addEdge source target =>
    have hends := (h.addVertex target).addVertex source
    have htarget : target ∈ ((g.addVertex target).addVertex source).vertices :=
      mem_vertices_addVertex.2 (.inl (mem_vertices_addVertex.2 (.inr rfl)))
    constructor
    · rw [Digraph.apply, vertices_addEdge]
      exact hends.nodup
    · intro u t ht
      rw [Digraph.apply, vertices_addEdge]
      rw [Digraph.apply, targets_addEdge] at ht
      have hold : t ∈ g.targets u → t ∈ ((g.addVertex target).addVertex source).vertices := by
        intro ht
        refine hends.closed u t ?_
        rwa [targets_addVertex, targets_addVertex]
      split at ht
      · rcases List.mem_append.1 ht with ht | ht
        · exact hold ht
        · rwa [List.mem_singleton.1 ht]
      · exact hold ht
  | removeEdge source target =>
    rw [Digraph.apply]
    cases hr : g.removeEdge? source target with
    | none => exact h
    | some g' =>
      constructor
      · rw [Option.getD_some, vertices_removeEdge? hr]
        exact h.nodup
      · intro u t ht
        rw [Option.getD_some, vertices_removeEdge? hr]
        rw [Option.getD_some, targets_removeEdge? hr] at ht
        refine h.closed u t ?_
        split at ht
        · exact List.mem_of_mem_erase ht
        · exact ht

theorem vertices_applyAll {mentioned : List V} (h : g.vertices = distinct mentioned)
    (changes : List (Change V)) :
    (g.applyAll changes).vertices = distinct (mentioned ++ changes.flatMap Change.mentions) := by
  induction changes generalizing g mentioned with
  | nil => simpa [applyAll] using h
  | cons c changes ih =>
    rw [List.flatMap_cons, ← List.append_assoc]
    exact ih (vertices_apply h c)

theorem targets_applyAll (g : Digraph V) (changes : List (Change V)) (v : V) :
    (g.applyAll changes).targets v = changes.foldl (Change.edit v) (g.targets v) := by
  induction changes generalizing g with
  | nil => rfl
  | cons c changes ih =>
    rw [List.foldl_cons, ← targets_apply]
    exact ih (g.apply c)

theorem multiplicity_applyAll (g : Digraph V) (changes : List (Change V)) (a b : V) :
    (g.applyAll changes).multiplicity a b + (g.answers changes).count (.removeEdge a b, true) =
      g.multiplicity a b + changes.count (.addEdge a b) := by
  induction changes generalizing g with
  | nil => rfl
  | cons c changes ih =>
    have hstep := multiplicity_apply g c a b
    have hrest := ih (g.apply c)
    rw [List.count_singleton, List.count_singleton] at hstep
    rw [answers, List.count_cons, List.count_cons]
    change ((g.apply c).applyAll changes).multiplicity a b + _ = _
    omega

theorem WellFormed.applyAll (h : g.WellFormed) (changes : List (Change V)) :
    (g.applyAll changes).WellFormed := by
  induction changes generalizing g with
  | nil => exact h
  | cons c changes ih => exact ih (h.apply c)

theorem wellFormed_empty : (empty : Digraph V).WellFormed :=
  ⟨List.nodup_nil, fun _ _ h => by cases h⟩

theorem neighbors_eq_error_iff : g.neighbors a = .error ⟨a⟩ ↔ a ∉ g.vertices := by
  rw [← targets?_eq_none_iff, neighbors]
  cases g.targets? a with
  | none => simp
  | some ts => simp

theorem neighbors_eq_ok_iff {ts : List V} :
    g.neighbors a = .ok ts ↔ a ∈ g.vertices ∧ ts = g.targets a := by
  by_cases ha : a ∈ g.vertices
  · rw [neighbors, targets?_of_mem ha]
    simp [ha, eq_comm]
  · rw [neighbors_eq_error_iff.2 ha]
    simp [ha]

theorem outDegree_eq_error_iff : g.outDegree a = .error ⟨a⟩ ↔ a ∉ g.vertices := by
  rw [← neighbors_eq_error_iff, outDegree]
  cases g.neighbors a with
  | error m => simp [Except.map]
  | ok ts => simp [Except.map]

theorem exists_outDegree_iff : (∃ n, g.outDegree a = .ok n) ↔ ∃ ts, g.neighbors a = .ok ts := by
  rw [outDegree]
  cases g.neighbors a with
  | error m => simp [Except.map]
  | ok ts => simp [Except.map]

/-- How an edge from `a` to `b` is removed. -/
structure RemovesFirst (g : Digraph V) (a b : V) : Prop where
  /-- An edge is removed exactly if there is one. -/
  grants_iff : g.grants (.removeEdge a b) = true ↔ 0 < g.multiplicity a b
  /-- Then the earliest goes, and the others keep their order. -/
  first : g.grants (.removeEdge a b) = true → ∃ before after,
    g.neighbors a = .ok (before ++ b :: after) ∧ b ∉ before ∧
      (g.apply (.removeEdge a b)).neighbors a = .ok (before ++ after)
  refused : g.grants (.removeEdge a b) = false → g.apply (.removeEdge a b) = g
  vertices : (g.apply (.removeEdge a b)).vertices = g.vertices
  others : ∀ v, v ≠ a → (g.apply (.removeEdge a b)).neighbors v = g.neighbors v

theorem removesFirst (g : Digraph V) (a b : V) : g.RemovesFirst a b := by
  have hiff : g.grants (.removeEdge a b) = true ↔ 0 < g.multiplicity a b := by
    rw [grants, removeEdge?_eq, multiplicity_eq, List.count_pos_iff]
    by_cases h : b ∈ g.targets a <;> simp [h]
  cases hr : g.removeEdge? a b with
  | none =>
    have hrefused : g.grants (.removeEdge a b) = false := by rw [grants, hr]; rfl
    have hsame : g.apply (.removeEdge a b) = g := by rw [apply, hr]; rfl
    refine ⟨hiff, fun h => ?_, fun _ => hsame, by rw [hsame], fun v _ => by rw [hsame]⟩
    rw [hrefused] at h
    cases h
  | some g' =>
    have hgranted : g.grants (.removeEdge a b) = true := by rw [grants, hr]; rfl
    have hnext : g.apply (.removeEdge a b) = g' := by rw [apply, hr]; rfl
    obtain ⟨hfirst, hothers⟩ := neighbors_removeEdge? hr
    rw [← hnext] at hfirst hothers
    refine ⟨hiff, fun _ => hfirst, fun h => ?_, ?_, hothers⟩
    · rw [hgranted] at h
      cases h
    · rw [hnext, vertices_removeEdge? hr]

/-- A graph as the changes `changes` leave it, with all that it can be asked for. -/
structure Reflects (g : Digraph V) (changes : List (Change V)) : Prop where
  /-- The vertices that were mentioned by an addition, in the order of first mention. -/
  vertices_eq : g.vertices = distinct (changes.flatMap Change.mentions)
  nodup_vertices : g.vertices.Nodup
  /-- The targets of a vertex stand in the order in which they were added. -/
  neighbors_eq : ∀ v ∈ g.vertices, g.neighbors v = .ok (changes.foldl (Change.edit v) [])
  /-- The edges stand in the order of their sources, those of one source in the order of its
  targets. -/
  edges_eq : g.edges = g.vertices.flatMap fun v => (changes.foldl (Change.edit v) []).map (v, ·)
  /-- Between two vertices are the edges that were added and not removed. -/
  multiplicity_eq : ∀ a b, g.multiplicity a b +
    (empty.answers changes).count (.removeEdge a b, true) = changes.count (.addEdge a b)
  removesFirst : ∀ a b, g.RemovesFirst a b
  ends_mem : ∀ edge ∈ g.edges, edge.1 ∈ g.vertices ∧ edge.2 ∈ g.vertices
  length_edges : g.edges.length = g.edgeCount
  total_outDegree : ∃ degrees, g.vertices.mapM g.outDegree = .ok degrees ∧
    total id degrees = g.edgeCount
  total_inDegree : total g.inDegree g.vertices = g.edgeCount
  nodup_edgeSet : g.edgeSet.Nodup
  mem_edgeSet : ∀ edge, edge ∈ g.edgeSet ↔ edge ∈ g.edges
  /-- Only what is no vertex has neither targets nor a degree. -/
  neighbors_iff : ∀ v, (v ∈ g.vertices ↔ ∃ ts, g.neighbors v = .ok ts) ∧
    (v ∉ g.vertices ↔ g.neighbors v = .error ⟨v⟩)
  outDegree_iff : ∀ v, (v ∈ g.vertices ↔ ∃ n, g.outDegree v = .ok n) ∧
    (v ∉ g.vertices ↔ g.outDegree v = .error ⟨v⟩)

/-- Whatever was added and removed, in whatever order, the graph shows it. -/
theorem reflects_applyAll (changes : List (Change V)) :
    (empty.applyAll changes).Reflects changes := by
  have hwell : (empty.applyAll changes).WellFormed := wellFormed_empty.applyAll changes
  have htargets := targets_applyAll empty changes
  have hcount := multiplicity_applyAll empty changes
  have hnone : (empty : Digraph V).vertices = distinct [] := rfl
  constructor
  case vertices_eq => exact vertices_applyAll hnone changes
  case nodup_vertices => exact hwell.nodup
  case neighbors_eq => exact fun v hv => neighbors_eq_ok_iff.2 ⟨hv, (htargets v).symm⟩
  case edges_eq =>
    rw [hwell.edges_eq]
    simp only [htargets]
    rfl
  case multiplicity_eq => exact fun a b => (hcount a b).trans (Nat.zero_add _)
  case removesFirst => exact Digraph.removesFirst _
  case ends_mem =>
    intro edge hedge
    have htarget := hwell.mem_edges_iff.1 hedge
    exact ⟨mem_vertices_of_mem_targets htarget, hwell.closed _ _ htarget⟩
  case length_edges => exact Digraph.length_edges _
  case total_outDegree => exact ⟨_, hwell.mapM_outDegree, Digraph.total_outDegree _⟩
  case total_inDegree => exact hwell.total_inDegree
  case nodup_edgeSet => exact nodup_distinct _
  case mem_edgeSet => exact fun edge => mem_distinct
  case neighbors_iff =>
    exact fun v => ⟨by simp [neighbors_eq_ok_iff], neighbors_eq_error_iff.symm⟩
  case outDegree_iff =>
    exact fun v => ⟨by simp [exists_outDegree_iff, neighbors_eq_ok_iff],
      outDegree_eq_error_iff.symm⟩

/-- A loop reaches the vertex that it leaves, and the second of two removals is refused. -/
example :
    let changes : List (Change Nat) :=
      [.addEdge 1 2, .addEdge 1 1, .removeEdge 1 2, .removeEdge 1 2, .addEdge 3 2]
    (empty.applyAll changes).vertices = [2, 1, 3] ∧ (empty.applyAll changes).inDegree 1 = 1 ∧
      (empty.applyAll changes).edges = [(1, 1), (3, 2)] ∧
      (empty.answers changes).map (·.2) = [true, true, true, false, true] := by
  decide

end Digraph
end ScriptCheck
