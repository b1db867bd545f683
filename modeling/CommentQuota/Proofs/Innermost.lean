/-
  CommentQuota.Proofs.Innermost — the function that encloses a row is the innermost one.

  Two nodes of a tree may be alike in everything, so a node is told by the way that leads down to it:
  the number of the named child taken on each level. A node lies inside another if its way goes on from
  the other's. Of two ways that part, one goes to an earlier child.

  - `map_descend_ways` / `mem_ways`: the nodes visited are those that the ways of the tree lead to.
  - `ways_ordered`: each way comes before those that go on from it, and before those it parts from for
    an earlier child. So the last function visited has no other inside it.
  - `enclosingFunction_innermost`: which function encloses a row, and where the others are.
-/

import CommentQuota.Proofs.Traversal
import Mathlib.Data.List.Infix

namespace CommentQuota

/-! ## Ways -/

/-- A way down a tree: which named child is taken on each level, counted from zero. -/
abbrev Way := List Nat

namespace Way

/-- A way branches off before another: where the two part, it goes to an earlier child. -/
def BranchesBefore (a b : Way) : Prop := ∃ (shared : Way) (i j : Nat), i < j ∧ shared ++ [i] <+: a ∧ shared ++ [j] <+: b

/-- A way comes before those that go on from it and those that it branches off before. -/
def Before (a b : Way) : Prop := (a <+: b ∧ a ≠ b) ∨ a.BranchesBefore b

variable {a b : Way}

/-- Ways that part lead to nodes neither of which lies inside the other. -/
theorem BranchesBefore.apart (h : a.BranchesBefore b) : ¬ a <+: b ∧ ¬ b <+: a := by
  obtain ⟨shared, i, j, hlt, ha, hb⟩ := h
  -- two ways of one length on the same way are one way, so the children taken would be the same
  have hne : ∀ w : Way, shared ++ [i] <+: w → ¬ shared ++ [j] <+: w := by
    intro w hi hj
    have hsame := (List.prefix_of_prefix_length_le hi hj (by simp)).eq_of_length (by simp)
    have hchild : i = j := by simpa using hsame
    omega
  exact ⟨fun h => hne b (ha.trans h) hb, fun h => hne a ha (hb.trans h)⟩

theorem Before.not_within (h : a.Before b) : ¬ b <+: a := by
  rcases h with ⟨hon, hne⟩ | h
  · intro hback
    exact hne (hon.eq_of_length_le hback.length_le)
  · exact h.apart.2

theorem before_of_nil {i : Nat} : Before [] (i :: b) := .inl ⟨List.nil_prefix, nofun⟩

theorem before_of_lt {i j : Nat} (h : i < j) : Before (i :: a) (j :: b) :=
  .inr ⟨[], i, j, h, ⟨a, rfl⟩, ⟨b, rfl⟩⟩

theorem Before.cons (h : a.Before b) (i : Nat) : Before (i :: a) (i :: b) := by
  rcases h with ⟨hon, hne⟩ | ⟨shared, j, k, hlt, ha, hb⟩
  · left
    exact ⟨(List.prefix_cons_inj i).mpr hon, fun h => hne (List.cons.inj h).2⟩
  · right
    exact ⟨i :: shared, j, k, hlt, (List.prefix_cons_inj i).mpr ha, (List.prefix_cons_inj i).mpr hb⟩

end Way

/-! ## The ways of a tree -/

namespace Node

/-- The node that a way leads to. -/
def descend? : Node → Way → Option Node
  | n, [] => some n
  | n, i :: way => n.namedChildren[i]?.bind (descend? · way)

mutual

/-- The ways that lead to a node, in the order of visit. -/
def ways : Node → List Way
  | ⟨_, _, _, _, _, _, children⟩ => [] :: waysFrom 0 children

/-- The ways through the named nodes of a list, whose numbers start at `i`. -/
def waysFrom (i : Nat) : List Node → List Way
  | [] => []
  | n :: ns => if n.named then (ways n).map (i :: ·) ++ waysFrom (i + 1) ns else waysFrom i ns

end

theorem waysFrom_eq (i : Nat) (ns : List Node) :
    waysFrom i ns = ((ns.filter (·.named)).zipIdx i).flatMap fun c => c.1.ways.map (c.2 :: ·) := by
  induction ns generalizing i with
  | nil => rfl
  | cons n ns ih => cases hn : n.named <;> simp [waysFrom, hn, ih]

theorem ways_eq (n : Node) : n.ways = [] :: n.namedChildren.zipIdx.flatMap fun c => c.1.ways.map (c.2 :: ·) := by
  obtain ⟨kind, start, stop, named, field, text, children⟩ := n
  rw [ways, waysFrom_eq]
  rfl

theorem descend_cons {n c : Node} {i : Nat} (h : n.namedChildren[i]? = some c) (way : Way) :
    n.descend? (i :: way) = c.descend? way := by
  rw [descend?, h, Option.bind_some]

/-- The ways of a tree are those that lead to a node. -/
theorem mem_ways {n : Node} {way : Way} : way ∈ n.ways ↔ ∃ m, n.descend? way = some m := by
  induction way generalizing n with
  | nil =>
    rw [ways_eq]
    exact iff_of_true List.mem_cons_self ⟨n, rfl⟩
  | cons i way ih =>
    rw [ways_eq]
    constructor
    · intro h
      obtain ⟨⟨c, j⟩, hc, hway⟩ := List.mem_flatMap.mp ((List.mem_cons.mp h).resolve_left nofun)
      obtain ⟨rest, hrest, heq⟩ := List.mem_map.mp hway
      obtain ⟨rfl, rfl⟩ := List.cons.inj heq
      rw [descend_cons (List.mk_mem_zipIdx_iff_getElem?.mp hc)]
      exact ih.mp hrest
    · rintro ⟨m, hm⟩
      obtain ⟨c, hc, hm⟩ := Option.bind_eq_some_iff.mp hm
      have hway := List.mem_map_of_mem (f := (i :: ·)) (ih.mpr ⟨m, hm⟩)
      exact List.mem_cons_of_mem _ (List.mem_flatMap.mpr ⟨(c, i), List.mk_mem_zipIdx_iff_getElem?.mpr hc, hway⟩)

/-- In the order of visit, the ways lead to the nodes visited. -/
theorem map_descend_ways (n : Node) : n.ways.map n.descend? = n.preorder.map some := by
  have hchild : ∀ c ∈ n.namedChildren.zipIdx, (c.1.ways.map (c.2 :: ·)).map n.descend? = c.1.preorder.map some := by
    rintro ⟨c, i⟩ hc
    have hc := List.mk_mem_zipIdx_iff_getElem?.mp hc
    have := size_namedChild_lt (List.mem_of_getElem? hc)
    simp only [List.map_map, ← map_descend_ways c]
    exact List.map_congr_left fun way _ => descend_cons hc way
  rw [ways_eq, preorder_eq, preorderAll_eq, List.map_cons, List.map_cons, List.map_flatMap, List.map_flatMap,
    List.flatMap_congr hchild, ← List.flatMap_map Prod.fst (fun c => (preorder c).map some), List.zipIdx_map_fst]
  rfl
termination_by n.size

/-- The nodes reached are those that some way leads to. -/
theorem reaches_iff {root n : Node} : root.Reaches n ↔ ∃ way, root.descend? way = some n := by
  have hvisited : root.Reaches n ↔ some n ∈ root.ways.map root.descend? := by
    rw [map_descend_ways, ← walk_eq_preorder, ← mem_walk, List.mem_map]
    simp
  rw [hvisited, List.mem_map]
  constructor
  · rintro ⟨way, -, hway⟩
    exact ⟨way, hway⟩
  · rintro ⟨way, hway⟩
    exact ⟨way, mem_ways.mpr ⟨n, hway⟩, hway⟩

/-- The ways are visited in their order. -/
theorem ways_ordered (n : Node) : n.ways.Pairwise Way.Before := by
  rw [ways_eq, List.pairwise_cons]
  constructor
  · intro way hway
    obtain ⟨c, -, hway⟩ := List.mem_flatMap.mp hway
    obtain ⟨rest, -, rfl⟩ := List.mem_map.mp hway
    exact Way.before_of_nil
  · rw [List.pairwise_flatMap]
    constructor
    · rintro ⟨c, i⟩ hc
      have := size_namedChild_lt (List.mem_of_getElem? (List.mk_mem_zipIdx_iff_getElem?.mp hc))
      rw [List.pairwise_map]
      exact (ways_ordered c).imp fun h => h.cons i
    · have hnumbers : (n.namedChildren.zipIdx.map Prod.snd).Pairwise (· < ·) := by
        rw [List.zipIdx_map_snd]
        exact List.pairwise_lt_range'
      refine (List.pairwise_map.mp hnumbers).imp fun hlt a ha b hb => ?_
      obtain ⟨a, -, rfl⟩ := List.mem_map.mp ha
      obtain ⟨b, -, rfl⟩ := List.mem_map.mp hb
      exact Way.before_of_lt hlt
termination_by n.size

end Node

/-! ## The innermost function -/

/-- The node of a document that a way leads to. -/
def nodeAt? (root : Option Node) (way : Way) : Option Node := root.bind (·.descend? way)

/-- The way leads to a function definition that spans the row. -/
def LeadsToFunction (root : Option Node) (row : Int) (way : Way) : Prop :=
  ∃ n, nodeAt? root way = some n ∧ n.kind = Node.functionKind ∧ n.start.row ≤ row ∧ row ≤ n.stop.row

theorem leadsToFunction_iff {root : Option Node} {row : Int} {way : Way} :
    LeadsToFunction root row way ↔
      ∃ n, nodeAt? root way = some n ∧ (n.kind == Node.functionKind && n.coversRow row) = true := by
  simp only [LeadsToFunction, Node.coversRow, Bool.and_eq_true, beq_iff_eq, decide_eq_true_eq]

/-- The way leads to the innermost of the functions that span the row: no other one lies inside it, and each other one
    has it inside or is branched off to before it. Where of any two of them one has the other inside, they all have it
    inside. -/
structure LeadsToInnermost (root : Option Node) (row : Int) (way : Way) : Prop where
  spans : LeadsToFunction root row way
  noneInside : ∀ other, LeadsToFunction root row other → way <+: other → other = way
  others : ∀ other, LeadsToFunction root row other → other ≠ way → other <+: way ∨ other.BranchesBefore way
  insideAll : (∀ a b, LeadsToFunction root row a → LeadsToFunction root row b → a <+: b ∨ b <+: a) →
    ∀ other, LeadsToFunction root row other → other <+: way

theorem LeadsToInnermost.of_last {root : Option Node} {row : Int} {way : Way} (h : LeadsToFunction root row way)
    (hlast : ∀ other, LeadsToFunction root row other → other = way ∨ other.Before way) :
    LeadsToInnermost root row way where
  spans := h
  noneInside other hother hinside := (hlast other hother).resolve_right fun hbefore => hbefore.not_within hinside
  others other hother hne := by
    rcases (hlast other hother).resolve_left hne with hon | hbranches
    · exact .inl hon.1
    · exact .inr hbranches
  insideAll hchain other hother := by
    rcases hlast other hother with rfl | hon | hbranches
    · exact List.prefix_rfl
    · exact hon.1
    · exact absurd (hchain other way hother h) (not_or.mpr hbranches.apart)

/-- The function that encloses a row is at a way behind the ways to all others that span it. -/
theorem exists_last_of_enclosingFunction {root fn : Node} {row : Int} (h : enclosingFunction (some root) row = some fn) :
    ∃ way, root.descend? way = some fn ∧ LeadsToFunction (some root) row way ∧
      ∀ other, LeadsToFunction (some root) row other → other = way ∨ other.Before way := by
  rw [enclosingFunction, walk_eq_preorder] at h
  obtain ⟨earlier, later, hwalk, hfn, hlater⟩ := getLast?_filter_eq_some.mp h
  -- the ways are split where the nodes visited are
  have hways := root.map_descend_ways
  rw [hwalk, List.map_append, List.map_cons] at hways
  obtain ⟨before, rest, hsplit, -, hrest⟩ := List.map_eq_append_iff.mp hways
  obtain ⟨way, behind, rfl, hway, hbehind⟩ := List.map_eq_cons_iff.mp hrest
  refine ⟨way, hway, leadsToFunction_iff.mpr ⟨fn, hway, hfn⟩, fun other hother => ?_⟩
  obtain ⟨n, hn, hspans⟩ := leadsToFunction_iff.mp hother
  have hmem := Node.mem_ways.mpr ⟨n, hn⟩
  have hordered := root.ways_ordered
  rw [hsplit] at hmem hordered
  rcases List.mem_append.mp hmem with hbefore | hmem
  · exact .inr ((List.pairwise_append.mp hordered).2.2 other hbefore way List.mem_cons_self)
  · rcases List.mem_cons.mp hmem with rfl | hmem
    · exact .inl rfl
    · -- no function that is visited later spans the row
      have hlate : some n ∈ later.map some := by
        rw [← hbehind, ← hn]
        exact List.mem_map_of_mem hmem
      obtain ⟨m, hm, hsome⟩ := List.mem_map.mp hlate
      obtain rfl := Option.some.inj hsome
      rw [hlater m hm] at hspans
      cases hspans

/-- A row is enclosed by no function exactly if no way leads to one that spans it. -/
theorem enclosingFunction_eq_none_iff_ways {root : Option Node} {row : Int} :
    enclosingFunction root row = none ↔ ∀ way, ¬ LeadsToFunction root row way := by
  rw [enclosingFunction_eq_none_iff]
  constructor
  · rintro h way ⟨n, hn, hkind, hspans⟩
    obtain ⟨r, hr, hway⟩ := Option.bind_eq_some_iff.mp hn
    exact h r n hr (Node.reaches_iff.mpr ⟨way, hway⟩) hkind hspans
  · rintro h r n rfl hreach hkind hspans
    obtain ⟨way, hway⟩ := Node.reaches_iff.mp hreach
    exact h way ⟨n, hway, hkind, hspans⟩

/-- Of any tree and for any row, the function that encloses the row is the innermost one that spans it, and there is none
    exactly if no function definition that is reached spans it. -/
theorem enclosingFunction_innermost (root : Option Node) (row : Int) :
    (enclosingFunction root row = none ↔ ∀ way, ¬ LeadsToFunction root row way) ∧
    ∀ fn, enclosingFunction root row = some fn →
      ∃ way, nodeAt? root way = some fn ∧ LeadsToInnermost root row way := by
  refine ⟨enclosingFunction_eq_none_iff_ways, fun fn h => ?_⟩
  cases root with
  | none => cases h
  | some root =>
    obtain ⟨way, hway, hspans, hlast⟩ := exists_last_of_enclosingFunction h
    exact ⟨way, hway, .of_last hspans hlast⟩

/-- A function on the rows 0 to 4 with another one on the rows 1 to 3 inside, and behind a semicolon a third one that
    starts on row 4. -/
def overlappingFunctions : Node :=
  let inner : Node := ⟨Node.functionKind, ⟨1, 2⟩, ⟨3, 3⟩, true, none, "", []⟩
  let outer : Node := ⟨Node.functionKind, ⟨0, 0⟩, ⟨4, 1⟩, true, none, "", [inner]⟩
  let semicolon : Node := ⟨";", ⟨4, 1⟩, ⟨4, 2⟩, false, none, "", []⟩
  let behind : Node := ⟨Node.functionKind, ⟨4, 3⟩, ⟨6, 1⟩, true, none, "", []⟩
  ⟨"translation_unit", ⟨0, 0⟩, ⟨6, 1⟩, true, none, "", [outer, semicolon, behind]⟩

/-- On the row that the outer and the last function share, the last one is found, which the outer one does not enclose. -/
theorem enclosingFunction_innermost_overlapping :
    ∃ fn, enclosingFunction (some overlappingFunctions) 4 = some fn ∧ fn.start = ⟨4, 3⟩ ∧
      ∃ way, nodeAt? (some overlappingFunctions) way = some fn ∧
        LeadsToInnermost (some overlappingFunctions) 4 way := by
  have hfound : ∃ fn, enclosingFunction (some overlappingFunctions) 4 = some fn ∧ fn.start = ⟨4, 3⟩ := by
    rw [enclosingFunction, walk_eq_preorder]
    exact ⟨_, rfl, rfl⟩
  obtain ⟨fn, hfn, hstart⟩ := hfound
  exact ⟨fn, hfn, hstart, (enclosingFunction_innermost (some overlappingFunctions) 4).2 fn hfn⟩

end CommentQuota
