/-
  CommentQuota.Proofs.StackWalk — the walk with a stack is the recursion on the tree.

  The nodes still to visit stand on a stack whose top is its last entry. In a round the top is taken off and
  visited, and its named children are put on in reverse, so that the first of them is on top next. The stack
  then holds pending siblings of several levels, those of the deepest level on top and each level reversed.

  What a stack still leads to (`outstanding`) is the pre-order of its nodes from the top down. A round visits
  the first node of it and leaves the rest (`outstanding_of_round`), so the rounds come to an end, and they
  visit the pre-order of the root (`rounds_eq`).

  - `walk_isPreorder`: the rounds, the recursion on the tree, and the order of the nodes by their ways.
-/

import CommentQuota.Proofs.Innermost

namespace CommentQuota

namespace Node

/-! ## Rounds -/

/-- The node that a round visits and the stack that it leaves; an empty stack ends the rounds. -/
def round (stack : List Node) : Option (Node × List Node) :=
  stack.getLast?.map fun n => (n, stack.dropLast ++ n.namedChildren.reverse)

/-- The nodes visited in a number of rounds, or in fewer if they end, and the stack that is left. -/
def rounds : Nat → List Node → List Node × List Node
  | 0, stack => ([], stack)
  | k + 1, stack =>
    match round stack with
    | none => ([], stack)
    | some (n, left) => (n :: (rounds k left).1, (rounds k left).2)

/-- All that a stack still leads to, from the top down. -/
def outstanding (stack : List Node) : List Node := stack.reverse.flatMap preorder

theorem preorder_eq_flatMap (n : Node) : n.preorder = n :: n.namedChildren.flatMap preorder := by
  rw [preorder_eq, preorderAll_eq, namedChildren]

theorem outstanding_concat (stack : List Node) (n : Node) : outstanding (stack ++ [n]) = n.preorder ++ outstanding stack := by
  simp [outstanding]

theorem outstanding_eq_nil_iff {stack : List Node} : outstanding stack = [] ↔ stack = [] := by
  rcases List.eq_nil_or_concat stack with rfl | ⟨lower, top, rfl⟩
  · exact iff_of_true rfl rfl
  · rw [List.concat_eq_append, outstanding_concat, preorder_eq_flatMap]
    simp

theorem round_eq_none_iff {stack : List Node} : round stack = none ↔ stack = [] := by
  simp [round]

/-- A round visits the first of what is outstanding and leaves the rest. -/
theorem outstanding_of_round {stack left : List Node} {n : Node} (h : round stack = some (n, left)) :
    outstanding stack = n :: outstanding left := by
  obtain ⟨top, htop, heq⟩ := Option.map_eq_some_iff.mp h
  obtain ⟨rfl, rfl⟩ := Prod.mk.inj heq
  obtain ⟨lower, rfl⟩ := List.getLast?_eq_some_iff.mp htop
  rw [outstanding_concat, preorder_eq_flatMap, List.dropLast_concat]
  simp [outstanding]

theorem rounds_eq (k : Nat) (stack : List Node) :
    (rounds k stack).1 = (outstanding stack).take k ∧ outstanding (rounds k stack).2 = (outstanding stack).drop k := by
  induction k generalizing stack with
  | zero => exact ⟨rfl, rfl⟩
  | succ k ih =>
    rw [rounds]
    cases hround : round stack with
    | none =>
      have hnil := outstanding_eq_nil_iff.mpr (round_eq_none_iff.mp hround)
      simp [hnil]
    | some step =>
      obtain ⟨n, left⟩ := step
      obtain ⟨hvisited, hleft⟩ := ih left
      rw [outstanding_of_round hround, List.take_succ_cons, List.drop_succ_cons, ← hvisited, ← hleft]
      exact ⟨rfl, rfl⟩

theorem walk_eq_outstanding (root : Node) : walk (some root) = outstanding [root] := by
  simp [walk_eq_preorder, outstanding]

/-! ## The order of the nodes -/

/-- The ways of a tree are different from each other. -/
theorem ways_nodup (root : Node) : root.ways.Nodup := by
  refine root.ways_ordered.imp ?_
  intro a b hbefore heq
  exact hbefore.not_within (heq ▸ List.prefix_rfl)

theorem named_of_mem_tail (root : Node) {n : Node} (h : n ∈ root.preorder.tail) : n.named = true := by
  rw [preorder_eq_flatMap, List.tail_cons] at h
  obtain ⟨c, hc, hn⟩ := List.mem_flatMap.mp h
  have hsize := size_namedChild_lt hc
  rw [preorder_eq_flatMap] at hn
  rcases List.mem_cons.mp hn with rfl | hn
  · exact (List.mem_filter.mp hc).2
  · exact c.named_of_mem_tail (by rwa [preorder_eq_flatMap])
termination_by root.size

/-- The sequence is the pre-order of a tree. Since two nodes may be alike in everything, the nodes are told by the ways that
    lead down to them through named children. -/
structure IsPreorder (root : Node) (visited : List Node) : Prop where
  /-- The recursive definition. -/
  recursion : visited = root.preorder ∧ ∀ n : Node, n.preorder = n :: n.namedChildren.flatMap preorder
  /-- Every way that leads to a node is taken once, a parent before its children and siblings in their order. -/
  inOrder : ∃ ways : List Way, ways.map root.descend? = visited.map some ∧ ways.Nodup ∧
    (∀ way, way ∈ ways ↔ ∃ n, root.descend? way = some n) ∧ ways.Pairwise Way.Before
  /-- No anonymous node is visited but for the root. -/
  named : ∀ n ∈ visited.tail, n.named = true

theorem isPreorder_preorder (root : Node) : root.IsPreorder root.preorder where
  recursion := ⟨rfl, preorder_eq_flatMap⟩
  inOrder := ⟨root.ways, root.map_descend_ways, root.ways_nodup, fun _ => mem_ways, root.ways_ordered⟩
  named _ h := root.named_of_mem_tail h

end Node

/-- With the root on the stack, the rounds visit the nodes of the walk one by one and end after the last of them. The walk is the
    pre-order of the tree. -/
theorem walk_isPreorder (root : Node) :
    (∀ k, (Node.rounds k [root]).1 = (walk (some root)).take k) ∧
    (∀ k, (Node.rounds k [root]).2 = [] ↔ (walk (some root)).length ≤ k) ∧
    root.IsPreorder (walk (some root)) := by
  rw [Node.walk_eq_outstanding]
  refine ⟨?_, ?_, ?_⟩
  · intro k
    exact (Node.rounds_eq k [root]).1
  · intro k
    rw [← Node.outstanding_eq_nil_iff, (Node.rounds_eq k [root]).2, List.drop_eq_nil_iff]
  · rw [← Node.walk_eq_outstanding, walk_eq_preorder]
    exact root.isPreorder_preorder

end CommentQuota
