import ScriptCheck.Proofs.Reading.Nodes
import ScriptCheck.Proofs.Rendering
import ScriptCheck.Proofs.Tree.Paths
import ScriptCheck.Proofs.Tree.Spans

/-!
# How deep the trees of texts are

The limit on nesting is for calls, prefix operators and parentheses that stand inside each other.
A chain of operators makes its tree deeper too, but is one level however long it is: each
operator has all those before it for its left operand. So on a path through a tree that was read,
the limit holds for the nodes that are no binary operators. It also holds, six times over, for the
operators that are left to the right, since each of them begins a tighter tier. Nothing
limits how often a path goes to the left.
-/
namespace ScriptCheck

namespace Turn

/-- The nodes on the path that are no binary operators are `n` at most. With each of them go at
most six operators that the path leaves to the right, one for a tier; with the first of them,
`tiers` many. -/
structure Limited (ts : List Turn) (n tiers : Nat) : Prop where
  inward : ts.count .argument + ts.count .operand + 1 ≤ n
  length : ts.length + 7 ≤ 7 * n + tiers + ts.count .left

namespace Limited

variable {ts : List Turn} {n m tiers tiers' : Nat}

theorem mono (h : Limited ts n tiers) (hn : n ≤ m) (htiers : tiers ≤ tiers') :
    Limited ts m tiers' := by
  obtain ⟨hinward, hlength⟩ := h
  constructor <;> omega

theorem nil (hn : 0 < n) : Limited [] n tiers := by
  constructor
  · exact hn
  · rw [List.length_nil, List.count_nil]
    omega

/-- Inside a call or a prefix operator all tiers are there again, at the price of a level. -/
theorem argument (h : Limited ts n 6) : Limited (.argument :: ts) (1 + n) 0 := by
  obtain ⟨hinward, hlength⟩ := h
  constructor <;> simp (disch := decide) only
    [List.count_cons_self, List.count_cons_of_ne, List.length_cons] <;> omega

theorem operand (h : Limited ts n 6) : Limited (.operand :: ts) (1 + n) 0 := by
  obtain ⟨hinward, hlength⟩ := h
  constructor <;> simp (disch := decide) only
    [List.count_cons_self, List.count_cons_of_ne, List.length_cons] <;> omega

theorem left (h : Limited ts n tiers) : Limited (.left :: ts) n tiers := by
  obtain ⟨hinward, hlength⟩ := h
  constructor <;> simp (disch := decide) only
    [List.count_cons_self, List.count_cons_of_ne, List.length_cons] <;> omega

theorem right (h : Limited ts n tiers) : Limited (.right :: ts) n (tiers + 1) := by
  obtain ⟨hinward, hlength⟩ := h
  constructor <;> simp (disch := decide) only [List.count_cons_of_ne, List.length_cons] <;>
    omega

/-- The end of a path is within the limits of the whole. -/
theorem of_append {us : List Turn} (h : Limited (us ++ ts) n tiers) : Limited ts n tiers := by
  obtain ⟨hinward, hlength⟩ := h
  have hleft : us.count .left ≤ us.length := List.count_le_length
  rw [List.count_append, List.count_append] at hinward
  rw [List.length_append, List.count_append] at hlength
  constructor <;> omega

end Limited
end Turn

namespace Expr

/-- All paths through the expression are within the limits. -/
def Shallow (e : Expr) (n tiers : Nat) : Prop := ∀ ts, e.Path ts → Turn.Limited ts n tiers

namespace Shallow

variable {e left right : Expr} {n m tiers tiers' : Nat} {s : Span}

theorem mono (h : e.Shallow n tiers) (hn : n ≤ m) (htiers : tiers ≤ tiers') :
    e.Shallow m tiers' :=
  fun ts hts => (h ts hts).mono hn htiers

theorem pos (h : e.Shallow n tiers) : 0 < n := by
  obtain ⟨ts, hts⟩ := e.exists_path
  exact Nat.lt_of_lt_of_le (Nat.succ_pos _) (h ts hts).inward

theorem of_turns (hn : 0 < n)
    (h : ∀ p ∈ e.turns, ∀ ts, p.2.Path ts → Turn.Limited (p.1 :: ts) n tiers) :
    e.Shallow n tiers := by
  intro ts hts
  cases hts with
  | leaf => exact .nil hn
  | turn hturn hpath => exact h _ hturn _ hpath

theorem leaf (h : e.turns = []) : e.Shallow 1 0 := by
  refine of_turns Nat.one_pos ?_
  rw [h]
  exact List.forall_mem_nil _

theorem call {callee : Ident} {args : List Expr} {callSpan : Span}
    (h : ∀ arg ∈ args, arg.Shallow n 6) : (Expr.call callee args callSpan s).Shallow (1 + n) 0 := by
  refine of_turns (Nat.add_pos_left Nat.one_pos n) fun p hp ts hts => ?_
  obtain ⟨arg, harg, rfl⟩ := List.mem_map.1 hp
  exact (h arg harg ts hts).argument

theorem unary {op : UnaryOp} (h : e.Shallow n 0) : (Expr.unary op e s).Shallow (1 + n) 0 := by
  refine of_turns (Nat.add_pos_left Nat.one_pos n) fun p hp ts hts => ?_
  obtain rfl := List.mem_singleton.1 hp
  exact ((h ts hts).mono (Nat.le_refl n) (Nat.zero_le 6)).operand

/-- Parentheses leave no node behind, but they count as a level. -/
theorem parens (h : e.Shallow n 6) : e.Shallow (1 + n) 0 := by
  intro ts hts
  obtain ⟨hinward, hlength⟩ := h ts hts
  constructor <;> omega

theorem binary {op : BinaryOp} (hleft : left.Shallow n (tiers + 1))
    (hright : right.Shallow n tiers) : (Expr.binary op left right s).Shallow n (tiers + 1) := by
  refine of_turns hleft.pos fun p hp ts hts => ?_
  rcases List.mem_cons.1 hp with rfl | hp
  · exact (hleft ts hts).left
  · obtain rfl := List.mem_singleton.1 hp
    exact (hright ts hts).right

theorem of_move {move : Move} (h : (e.move move).Shallow n tiers) : e.Shallow n tiers :=
  fun ts hts => h ts (path_move_iff.2 hts)

theorem of_mem_nodes {node : Expr} (h : e.Shallow n tiers) (hnode : node ∈ e.nodes) :
    node.Shallow n tiers := by
  intro ts hts
  obtain ⟨us, hreaches⟩ := exists_reaches hnode
  exact (h _ (hreaches.path hts)).of_append

/-- Levels of recursion that are enough, if paths go to the left `k` times at most. -/
theorem within {k : Nat} (h : e.Shallow n 6) (hk : ∀ ts, e.Path ts → ts.count .left ≤ k) :
    e.Within (7 * n + k) := by
  intro ts hts
  have hlength := (h ts hts).length
  have hleft := hk ts hts
  omega

end Shallow
end Expr

/-! ## Derivations -/

namespace Grammar

mutual

/-- Nesting limits the paths through the tree of an operand, which has no tier at its root. -/
theorem Unary.shallow : ∀ u : Unary, u.tree.Shallow u.nesting 0
  | .neg inner => by
    rw [Unary.tree, Unary.nesting]
    split
    · exact .leaf rfl
    · exact inner.shallow.unary
  | .not inner => inner.shallow.unary
  | .number _ | .bool _ | .name _ => .leaf rfl
  | .call _ args => .call (Chain.shallowAll args)
  | .parens inner => inner.shallow.parens

/-- The path may leave one operator of each tier to the right. -/
theorem Chain.shallow {tiers : List Tier} : ∀ c : Chain tiers,
    c.tree.Shallow c.nesting tiers.length
  | .unary u => u.shallow
  | .chain first more =>
    more.shallow (first.shallow.mono (Nat.le_refl _) (Nat.le_succ _))

theorem Links.shallow {tier : Tier} {tiers : List Tier} : ∀ (l : Links tier tiers) {left : Expr}
    {n : Nat}, left.Shallow n (tiers.length + 1) →
      (l.treeFrom left).Shallow (max n l.nesting) (tiers.length + 1)
  | .nil, _, _, h => h.mono (Nat.le_max_left _ _) (Nat.le_refl _)
  | .cons _ _ next more, _, n, h => by
    have hleft := h.mono (Nat.le_max_left n next.nesting) (Nat.le_refl _)
    have hright := next.shallow.mono (Nat.le_max_right n next.nesting) (Nat.le_refl _)
    rw [Links.treeFrom, Links.nesting, ← Nat.max_assoc]
    exact more.shallow (hleft.binary hright)

theorem Chain.shallowAll : ∀ es : List (Chain Tier.all),
    ∀ e ∈ Chain.treeAll es, e.Shallow (Chain.nestingAll es) 6
  | [] => List.forall_mem_nil _
  | e :: es => List.forall_mem_cons.2
    ⟨e.shallow.mono (Nat.le_max_left _ _) (Nat.le_refl _),
      fun e' he' => (Chain.shallowAll es e' he').mono (Nat.le_max_right _ _) (Nat.le_refl _)⟩

end

/-! ## Scripts -/

theorem Statement.expressions_tree (st : Statement) :
    st.tree.expressions = st.expressions.map Chain.tree := by
  cases st with
  | declare name type init => cases init <;> rfl
  | assign => rfl
  | call callee args => exact Chain.treeAll_eq_map args
  | ret value => cases value <;> rfl

theorem Script.expressions_tree (d : Script) :
    d.tree.expressions = d.expressions.map Chain.tree := by
  simp only [tree, expressions, Script.expressions, ScriptCheck.Script.expressions,
    ScriptCheck.Procedure.expressions, Procedure.expressions, Procedure.tree, List.map_flatMap,
    List.flatMap_map, Statement.expressions_tree]

end Grammar

theorem Stmt.expressions_move (m : Move) (st : Stmt) :
    (st.move m).expressions = st.expressions.map (Expr.move m) := by
  cases st with
  | declare target type init s => cases init <;> rfl
  | assign => rfl
  | call => rfl
  | ret value s => cases value <;> rfl

theorem Procedure.expressions_move (m : Move) (p : Procedure) :
    (p.move m).expressions = p.expressions.map (Expr.move m) := by
  simp only [expressions, move, List.flatMap_map, List.map_flatMap, Stmt.expressions_move]

theorem Script.expressions_bare (s : Script) :
    s.bare.expressions = s.expressions.map (Expr.move .erase) := by
  simp only [expressions, bare, move, List.flatMap_map, List.map_flatMap,
    Procedure.expressions_move]

theorem Stmt.exprNodes_eq (st : Stmt) : st.exprNodes = st.expressions.flatMap Expr.nodes := by
  cases st with
  | declare target type init s => cases init <;> simp [exprNodes, nodes, expressions]
  | assign => simp [exprNodes, nodes, expressions]
  | call made s => exact Expr.nodesAll_eq_flatMap made.args
  | ret value s => cases value <;> simp [exprNodes, nodes, expressions]

theorem Procedure.exprNodes_eq (p : Procedure) :
    p.exprNodes = p.expressions.flatMap Expr.nodes := by
  rw [exprNodes, expressions, List.flatMap_assoc]
  exact congrArg p.body.flatMap (funext Stmt.exprNodes_eq)

theorem Script.exprNodes_eq (s : Script) : s.exprNodes = s.expressions.flatMap Expr.nodes := by
  rw [exprNodes, expressions, List.flatMap_assoc]
  exact congrArg s.procedures.flatMap (funext Procedure.exprNodes_eq)

namespace Script

variable {text : String} {s : Script} {e : Expr}

theorem mem_exprNodes_of_mem (he : e ∈ s.expressions) : e ∈ s.exprNodes := by
  rw [exprNodes_eq]
  refine List.mem_flatMap.2 ⟨e, he, ?_⟩
  rw [e.nodes_eq]
  exact List.mem_cons_self

/-- The limit on nesting limits all paths through a script that was read. -/
theorem shallow_of_read (h : read text = .ok s) (he : e ∈ s.exprNodes) : e.Shallow 64 6 := by
  rw [exprNodes_eq] at he
  obtain ⟨root, hroot, hnode⟩ := List.mem_flatMap.1 he
  obtain ⟨ls, hscan, hfaults, rfl⟩ := read_eq_ok_iff_tokens.1 h
  obtain ⟨d, htokens, -, hd⟩ := Grammar.harvest_sound hfaults
  have hderives : d.Derives text := ⟨ls, hscan, htokens.symm⟩
  have hbare := congrArg expressions (hderives.of_read h).1
  rw [expressions_bare, Grammar.Script.expressions_tree] at hbare
  have hmem := List.mem_map_of_mem (f := Expr.move .erase) hroot
  rw [hbare] at hmem
  obtain ⟨c, hc, heq⟩ := List.mem_map.1 hmem
  have hshallow := c.shallow.mono (hd c hc).2 (Nat.le_refl _)
  rw [heq] at hshallow
  exact hshallow.of_move.of_mem_nodes hnode

end Script

/-! ## Long sums -/

namespace Grammar

def one : Chain [.product] := .chain (.unary (.number "1")) .nil

/-- A plus sign and a one, `n` times. -/
def ones : Nat → Links .sum [.product]
  | 0 => .nil
  | n + 1 => .cons .add rfl one (ones n)

/-- A sum with `n` plus signs. -/
def longSum (n : Nat) : Expression :=
  .chain (.chain (.chain (.chain (.chain one (ones n)) .nil) .nil) .nil) .nil

/-- A procedure that returns the sum. -/
def summation (n : Nat) : Script := ⟨[⟨"f", [], .int32, [.ret (some (longSum n))]⟩]⟩

theorem legible_one : Token.Legible one.tokens := by
  intro t ht
  obtain rfl := List.mem_singleton.1 ht
  have hdigits : "1".toList.all Char.isDigit = true := by decide
  exact Token.scans_digits (by decide) (List.all_eq_true.1 hdigits)

theorem legible_ones (n : Nat) : Token.Legible (ones n).tokens := by
  induction n with
  | zero => exact List.forall_mem_nil _
  | succ n ih => exact .cons (Token.scans_of_isFixed rfl) (legible_one.append ih)

theorem tokens_summation (n : Nat) :
    (summation n).tokens =
      [.defWord, .name "f", .openParen, .closeParen, .colon, .int32Word, .isWord, .returnWord] ++
        (one.tokens ++ ((ones n).tokens ++ [.semicolon, .endWord])) := by
  simp [summation, longSum, Script.tokens, Procedure.tokens, Statement.tokens, Chain.tokens,
    Links.tokens, TypeName.token, commas]

theorem legible_summation (n : Nat) : Token.Legible (summation n).tokens := by
  rw [tokens_summation]
  have hname : Token.Scans "f" (.name "f") := Token.scans_name (by decide)
  have hhead : Token.Legible [.openParen, .closeParen, .colon, .int32Word, .isWord, .returnWord] :=
    Token.legible_of_isFixed rfl
  have hend : Token.Legible [.semicolon, .endWord] := Token.legible_of_isFixed rfl
  exact .append (.cons (Token.scans_of_isFixed rfl) (.cons hname hhead))
    (legible_one.append ((legible_ones n).append hend))

theorem nesting_ones_le (n : Nat) : (ones n).nesting ≤ 1 := by
  induction n with
  | zero => exact Nat.zero_le 1
  | succ n ih => exact Nat.max_le.2 ⟨Nat.le_refl 1, ih⟩

theorem fits_ones (n : Nat) : Fits (ones n).literals := by
  induction n with
  | zero => exact List.forall_mem_nil _
  | succ n ih => exact List.forall_mem_cons.2 ⟨by decide, ih⟩

theorem admissible_longSum (n : Nat) : Admissible (longSum n) := by
  constructor
  · simp only [longSum, Chain.literals, Links.literals, List.append_nil]
    exact fits_ones (n + 1)
  · have hnesting := nesting_ones_le n
    simp only [longSum, one, Chain.nesting, Links.nesting, Unary.nesting, nestingLimit]
    omega

/-- All plus signs stand on one path, which goes to the left at each. -/
theorem path_ones (n : Nat) {left : Expr} {ts : List Turn} (h : left.Path ts) :
    ((ones n).treeFrom left).Path (List.replicate n .left ++ ts) := by
  induction n generalizing left ts with
  | zero => exact h
  | succ n ih =>
    have hnext : (Expr.binary .add left one.tree nowhere).Path (.left :: ts) :=
      .turn List.mem_cons_self h
    rw [List.replicate_succ', List.append_assoc]
    exact ih hnext

theorem path_longSum (n : Nat) : (longSum n).tree.Path (List.replicate n .left) := by
  have hpath : ((ones n).treeFrom one.tree).Path (List.replicate n .left ++ []) :=
    path_ones n (.leaf rfl)
  rw [List.append_nil] at hpath
  exact hpath

/-- Sums are read however long they are. -/
theorem read_summation (n : Nat) :
    ∃ s, ScriptCheck.Script.read (Token.text (summation n).tokens) = .ok s ∧
      ∃ e ∈ s.exprNodes, e.Path (List.replicate n .left) := by
  have hderives : (summation n).Derives (Token.text (summation n).tokens) :=
    Piece.exists_scan_text (legible_summation n)
  have hlimits : ∀ e ∈ (summation n).expressions, Admissible e := by
    intro e he
    obtain rfl := List.mem_singleton.1 he
    exact admissible_longSum n
  obtain ⟨s, hread⟩ := hderives.exists_read hlimits
  have hbare := congrArg ScriptCheck.Script.expressions (hderives.of_read hread).1
  rw [ScriptCheck.Script.expressions_bare, Script.expressions_tree] at hbare
  obtain ⟨e, hexprs, he⟩ := List.map_eq_singleton_iff.1 hbare
  have hmem : e ∈ s.expressions := by
    rw [hexprs]
    exact List.mem_singleton_self e
  have hpath := path_longSum n
  rw [← he] at hpath
  exact ⟨s, hread, e, ScriptCheck.Script.mem_exprNodes_of_mem hmem, Expr.path_move_iff.1 hpath⟩

end Grammar

/-- On every path through an expression that was read, 64 nodes at most are no binary operators,
and `7 * 64` at most are left elsewhere than to the left. So inferring its type and collecting its
callees need `7 * 64` levels of recursion and one for each turn to the left, of which long sums
have any number. -/
theorem Script.paths_of_read :
    (∀ text s, read text = .ok s → ∀ e ∈ s.exprNodes,
      (∀ ts, e.Path ts →
        ts.count .argument + ts.count .operand + 1 ≤ 64 ∧
        ts.length + 1 ≤ 7 * 64 + ts.count .left) ∧
      ∀ k, (∀ ts, e.Path ts → ts.count .left ≤ k) →
        (∀ env : Env, env.inferWithin (7 * 64 + k) e = some (env.infer e)) ∧
        e.calleesWithin (7 * 64 + k) = some e.callees) ∧
    ∀ n, ∃ text s, read text = .ok s ∧ ∃ e ∈ s.exprNodes,
      e.Path (List.replicate n .left) ∧
      (∀ env : Env, env.inferWithin n e ≠ some (env.infer e)) ∧
      e.calleesWithin n ≠ some e.callees := by
  refine ⟨fun text s h e he => ⟨fun ts hts => ?_, fun k hk => ?_⟩, fun n => ?_⟩
  · obtain ⟨hinward, hlength⟩ := shallow_of_read h he ts hts
    exact ⟨hinward, by omega⟩
  · have hwithin := (shallow_of_read h he).within hk
    exact ⟨fun env => env.inferWithin_eq_some_iff.2 hwithin,
      Expr.calleesWithin_eq_some_iff.2 hwithin⟩
  · obtain ⟨s, hread, e, he, hpath⟩ := Grammar.read_summation n
    have hdeep : ¬ e.Within n := fun hwithin => by
      have := hwithin _ hpath
      rw [List.length_replicate] at this
      exact Nat.lt_irrefl n this
    exact ⟨_, s, hread, e, he, hpath, fun env h => hdeep (env.inferWithin_eq_some_iff.1 h),
      fun h => hdeep (Expr.calleesWithin_eq_some_iff.1 h)⟩

/-- Calls, signs and operators inside each other, with one turn to the left at most. -/
theorem Script.paths_of_read_nested :
    let text := "def f(a : Int32) : Int32 is return 1 - -f(a + 2 * f(-3)); end"
    ∃ s, read text = .ok s ∧
      (s.expressions.flatMap Expr.paths = [[.left], [.right, .operand, .argument, .left],
        [.right, .operand, .argument, .right, .left],
        [.right, .operand, .argument, .right, .right, .argument]]) ∧
      ∀ e ∈ s.exprNodes,
        (∀ env : Env, env.inferWithin (7 * 64 + 1) e = some (env.infer e)) ∧
        e.calleesWithin (7 * 64 + 1) = some e.callees := by
  intro text
  have hclean : (harvest text).faults = [] := by decide +kernel
  have hread : read text = .ok ⟨(harvest text).procedures⟩ :=
    read_eq_ok_iff_harvest.2 ⟨hclean, rfl⟩
  have hleft : ∀ e ∈ (Script.mk (harvest text).procedures).exprNodes,
      ∀ ts ∈ e.paths, ts.count .left ≤ 1 := by decide +kernel
  exact ⟨_, hread, by decide +kernel, fun e he => (paths_of_read.1 text _ hread e he).2 1
    fun ts hts => hleft e he ts (Expr.mem_paths_iff.2 hts)⟩

/-- Sixty-four plus signs are one level of nesting, and a path of sixty-five nodes. -/
theorem Script.path_of_long_sum :
    ∃ s, read ("def f ( ) : Int32 is return 1" ++ String.join (List.replicate 64 " + 1") ++
        " ; end") = .ok s ∧
      ∃ e ∈ s.exprNodes, ∃ ts, e.Path ts ∧ 64 < ts.length + 1 := by
  have htext : Token.text (Grammar.summation 64).tokens =
      "def f ( ) : Int32 is return 1" ++ String.join (List.replicate 64 " + 1") ++ " ; end" := by
    decide +kernel
  obtain ⟨s, hread, e, he, hpath⟩ := Grammar.read_summation 64
  rw [htext] at hread
  exact ⟨s, hread, e, he, _, hpath, by decide⟩

end ScriptCheck
