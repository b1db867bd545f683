/-
  CommentQuota.Proofs.Traversal — what is reached in a syntax tree.

  - `walk_eq_preorder`: the work list visits the nodes in the order of the recursion on the tree.
  - `mem_walk`: what is visited is the root and every named child of what is visited.
  - `enclosingFunction_eq_none_iff`: which rows no function encloses.
  - `enclosingFunction_parse`: in a document, the function that encloses a row is the last of its
    functions that covers the row.
  - `walk_node`: what is reached in such a function: its name, its body and its comments.
-/

import CommentQuota.Syntax.Functions

namespace CommentQuota

namespace Node

/-! ## Order of visit -/

theorem preorder_eq (n : Node) : n.preorder = n :: preorderAll n.children := by
  cases n; rw [preorder]

theorem preorderAll_eq (ns : List Node) : preorderAll ns = (ns.filter (·.named)).flatMap preorder := by
  induction ns with
  | nil => rfl
  | cons n ns ih =>
    cases hn : n.named <;> simp [preorderAll, hn, ih]

theorem visit_eq (ns : List Node) : visit ns = ns.flatMap preorder := by
  fun_induction visit ns with
  | case1 => rfl
  | case2 n pending ih =>
    rw [ih, List.flatMap_append, List.flatMap_cons, preorder_eq n, preorderAll_eq, namedChildren, List.cons_append]

end Node

theorem walk_eq_preorder (n : Node) : walk (some n) = n.preorder := by
  simp [walk, Node.visit_eq]

/-! ## Nodes reached -/

namespace Node

/-- A node is reached from a root if it is the root or a named child of a node reached. -/
inductive Reaches (root : Node) : Node → Prop
  | root : Reaches root root
  | child {n c : Node} : Reaches root n → c ∈ n.namedChildren → Reaches root c

theorem Reaches.of_child {root c n : Node} (hc : c ∈ root.namedChildren) (h : c.Reaches n) : root.Reaches n := by
  induction h with
  | root => exact .child .root hc
  | child _ hd ih => exact .child ih hd

theorem mem_preorder {root n : Node} : n ∈ root.preorder ↔ n = root ∨ ∃ c ∈ root.namedChildren, n ∈ c.preorder := by
  rw [preorder_eq, preorderAll_eq, List.mem_cons, List.mem_flatMap, namedChildren]

theorem size_namedChild_lt {n c : Node} (h : c ∈ n.namedChildren) : c.size < n.size := by
  have := size_le_sizeAll (List.mem_filter.mp h).1
  rw [size_eq n]
  omega

theorem reaches_of_mem_preorder {root n : Node} (h : n ∈ root.preorder) : root.Reaches n := by
  rcases mem_preorder.mp h with rfl | ⟨c, hc, hn⟩
  · exact .root
  · have := size_namedChild_lt hc
    exact .of_child hc (reaches_of_mem_preorder hn)
termination_by root.size

theorem mem_preorder_of_child {root n c : Node} (h : n ∈ root.preorder) (hc : c ∈ n.namedChildren) :
    c ∈ root.preorder := by
  rcases mem_preorder.mp h with rfl | ⟨d, hd, hn⟩
  · exact mem_preorder.mpr (.inr ⟨c, hc, mem_preorder.mpr (.inl rfl)⟩)
  · have := size_namedChild_lt hd
    exact mem_preorder.mpr (.inr ⟨d, hd, mem_preorder_of_child hn hc⟩)
termination_by root.size

end Node

theorem mem_walk {root n : Node} : n ∈ walk (some root) ↔ root.Reaches n := by
  rw [walk_eq_preorder]
  constructor
  · exact Node.reaches_of_mem_preorder
  · intro h
    induction h with
    | root => exact Node.mem_preorder.mpr (.inl rfl)
    | child _ hc ih => exact Node.mem_preorder_of_child ih hc

/-- A row is enclosed by no function exactly if no function definition that is reached spans it. -/
theorem enclosingFunction_eq_none_iff {root : Option Node} {row : Int} :
    enclosingFunction root row = none ↔
      ∀ r fn, root = some r → r.Reaches fn → fn.kind = Node.functionKind →
        ¬ (fn.start.row ≤ row ∧ row ≤ fn.stop.row) := by
  rw [enclosingFunction, List.getLast?_eq_none_iff, List.filter_eq_nil_iff]
  cases root with
  | none => simp [walk]
  | some r =>
    simp only [mem_walk, Node.coversRow, Bool.and_eq_true, beq_iff_eq, decide_eq_true_eq, Option.some.injEq]
    constructor
    · rintro h _ fn rfl hreach hkind hrow
      exact h fn hreach ⟨hkind, hrow⟩
    · rintro h fn hreach ⟨hkind, hrow⟩
      exact h r fn rfl hreach hkind hrow

/-! ## Documents -/

/-- The comments of a document. -/
def commentTokens (t : Text) : List Token := (tokens t).filter (·.kind == .comment)

namespace FunctionSpan

/-- The function covers a row. -/
def coversRow (f : FunctionSpan) (row : Int) : Bool :=
  decide (f.first.start.row ≤ row) && decide (row ≤ f.closing.stop.row)

theorem coversRow_iff {f : FunctionSpan} {row : Int} :
    f.coversRow row = true ↔ f.first.start.row ≤ row ∧ row ≤ f.closing.stop.row := by
  simp [coversRow]

/-- The node of a function's name. -/
def nameNode (f : FunctionSpan) : Node :=
  ⟨"identifier", f.first.start, f.first.start, true, some "declarator", String.ofList f.name, []⟩

/-- The node of a function's body. -/
def bodyNode (f : FunctionSpan) : Node :=
  ⟨"compound_statement", f.opening.start, f.closing.stop, true, some "body", "",
    [⟨"\x7b", f.opening.start, f.opening.stop, false, none, "", []⟩]⟩

theorem preorder_commentNode (t : Token) : (commentNode t).preorder = [commentNode t] := rfl

theorem preorderAll_commentNodes (ts : List Token) : Node.preorderAll (ts.map commentNode) = ts.map commentNode := by
  induction ts with
  | nil => rfl
  | cons t ts ih =>
    rw [List.map_cons, Node.preorderAll, if_pos (show (commentNode t).named = true from rfl), ih, preorder_commentNode]
    rfl

theorem preorder_node (f : FunctionSpan) (cs : List Token) :
    (f.node cs).preorder = f.node cs :: f.nameNode :: f.bodyNode :: (cs.filter f.contains).map commentNode := by
  have hname : f.nameNode.preorder = [f.nameNode] := rfl
  have hbody : f.bodyNode.preorder = [f.bodyNode] := rfl
  have hchildren : (f.node cs).children = f.nameNode :: f.bodyNode :: (cs.filter f.contains).map commentNode := rfl
  rw [Node.preorder_eq, hchildren, Node.preorderAll, if_pos (show f.nameNode.named = true from rfl), Node.preorderAll,
    if_pos (show f.bodyNode.named = true from rfl), preorderAll_commentNodes, hname, hbody]
  rfl

theorem walk_node (f : FunctionSpan) (cs : List Token) :
    walk (some (f.node cs)) =
      f.node cs :: f.nameNode :: f.bodyNode :: (cs.filter f.contains).map commentNode := by
  rw [walk_eq_preorder, preorder_node]

/-- The comments reached in a function of a document are those of its tokens that start in it. -/
theorem exists_comment_walk_node {f : FunctionSpan} {t : Text} {P : Node → Prop} :
    (∃ c ∈ walk (some (f.node (commentTokens t))), c.kind = Node.commentKind ∧ P c) ↔
      ∃ u ∈ tokens t, u.kind = .comment ∧ f.contains u = true ∧ P (commentNode u) := by
  have hnode : (f.node (commentTokens t)).kind ≠ Node.commentKind := by simp [node, Node.functionKind, Node.commentKind]
  have hname : f.nameNode.kind ≠ Node.commentKind := by simp [nameNode, Node.commentKind]
  have hbody : f.bodyNode.kind ≠ Node.commentKind := by simp [bodyNode, Node.commentKind]
  rw [walk_node]
  constructor
  · rintro ⟨c, hc, hk, hP⟩
    simp only [List.mem_cons] at hc
    rcases hc with rfl | rfl | rfl | hc
    · exact absurd hk hnode
    · exact absurd hk hname
    · exact absurd hk hbody
    · obtain ⟨u, hu, rfl⟩ := List.mem_map.mp hc
      obtain ⟨hu, hcontains⟩ := List.mem_filter.mp hu
      obtain ⟨hu, hkind⟩ := List.mem_filter.mp hu
      exact ⟨u, hu, by simpa using hkind, hcontains, hP⟩
  · rintro ⟨u, hu, hk, hc, hP⟩
    refine ⟨commentNode u, ?_, rfl, hP⟩
    have hmem : u ∈ (commentTokens t).filter f.contains :=
      List.mem_filter.mpr ⟨List.mem_filter.mpr ⟨hu, by simpa using hk⟩, hc⟩
    simp [List.mem_map_of_mem hmem]

@[simp] theorem functionName_node (f : FunctionSpan) (cs : List Token) :
    (f.node cs).functionName = String.ofList f.name := by
  have hchild : (f.node cs).child? "declarator" = some f.nameNode := rfl
  rw [Node.functionName, hchild, Option.bind_some, Node.declaredName, if_pos (.inl rfl)]
  rfl

@[simp] theorem bodyStart_node (f : FunctionSpan) (cs : List Token) : (f.node cs).bodyStart = some f.opening.stop := rfl

end FunctionSpan

/-- The functions among the nodes that a function's node leads to: itself. -/
theorem filter_preorder_node (f : FunctionSpan) (cs : List Token) (row : Int) :
    (f.node cs).preorder.filter (fun n => n.kind == Node.functionKind && n.coversRow row) =
      if f.coversRow row then [f.node cs] else [] := by
  have hcomments : ((cs.filter f.contains).map FunctionSpan.commentNode).filter
      (fun n => n.kind == Node.functionKind && n.coversRow row) = [] := by
    rw [List.filter_eq_nil_iff]
    intro n hn
    obtain ⟨t, -, rfl⟩ := List.mem_map.mp hn
    simp [FunctionSpan.commentNode, Node.commentKind, Node.functionKind]
  have hname : (f.nameNode.kind == Node.functionKind) = false := rfl
  have hbody : (f.bodyNode.kind == Node.functionKind) = false := rfl
  have hkind : ((f.node cs).kind == Node.functionKind) = true := rfl
  have hcovers : (f.node cs).coversRow row = f.coversRow row := rfl
  simp only [FunctionSpan.preorder_node, List.filter_cons, hname, hbody, hkind, hcovers, hcomments, Bool.false_and,
    Bool.true_and, Bool.false_eq_true, if_false]

theorem enclosingFunction_parse (t : Text) (row : Int) :
    enclosingFunction (some (parse t)) row =
      (((functionSpans (tokens t)).filter (·.coversRow row)).getLast?).map (·.node (commentTokens t)) := by
  have hroot : (parse t).preorder = parse t :: (functionSpans (tokens t)).flatMap fun f => (f.node (commentTokens t)).preorder := by
    have hchildren : (parse t).children = (functionSpans (tokens t)).map (·.node (commentTokens t)) := rfl
    have hnamed : ((functionSpans (tokens t)).map (·.node (commentTokens t))).filter (·.named) =
        (functionSpans (tokens t)).map (·.node (commentTokens t)) := by
      rw [List.filter_eq_self]
      intro n hn
      obtain ⟨f, -, rfl⟩ := List.mem_map.mp hn
      rfl
    rw [Node.preorder_eq, hchildren, Node.preorderAll_eq, hnamed, List.flatMap_map]
  have hkind : ((parse t).kind == Node.functionKind) = false := rfl
  rw [enclosingFunction, walk_eq_preorder, hroot, List.filter_cons, hkind, Bool.false_and, if_neg (by simp),
    List.filter_flatMap, ← List.getLast?_map]
  congr 1
  induction functionSpans (tokens t) with
  | nil => rfl
  | cons f fs ih =>
    rw [List.flatMap_cons, ih, filter_preorder_node, List.filter_cons]
    split <;> rfl

/-- The last member with a property, and that no later one has it. -/
theorem getLast?_filter_eq_some {α : Type} {p : α → Bool} {xs : List α} {x : α} :
    (xs.filter p).getLast? = some x ↔ ∃ as bs, xs = as ++ x :: bs ∧ p x = true ∧ ∀ b ∈ bs, p b = false := by
  constructor
  · intro h
    obtain ⟨ys, hys⟩ := List.getLast?_eq_some_iff.mp h
    obtain ⟨as, bs, rfl, -, hbs⟩ := List.filter_eq_append_iff.mp hys
    obtain ⟨cs, ds, rfl, hcs, hx, hds⟩ := List.filter_eq_cons_iff.mp hbs
    refine ⟨as ++ cs, ds, by simp, hx, fun b hb => ?_⟩
    simpa using List.filter_eq_nil_iff.mp hds b hb
  · rintro ⟨as, bs, rfl, hx, hbs⟩
    have hnil : bs.filter p = [] := List.filter_eq_nil_iff.mpr fun b hb => by simp [hbs b hb]
    simp [List.filter_append, hx, hnil]

/-- The function that encloses a row of a document, with the functions before and behind it. -/
theorem enclosingFunction_parse_eq_some {t : Text} {row : Int} {fn : Node} :
    enclosingFunction (some (parse t)) row = some fn ↔
      ∃ fs f gs, functionSpans (tokens t) = fs ++ f :: gs ∧ f.coversRow row = true ∧
        (∀ g ∈ gs, g.coversRow row = false) ∧ fn = f.node (commentTokens t) := by
  rw [enclosingFunction_parse, Option.map_eq_some_iff]
  constructor
  · rintro ⟨f, hf, rfl⟩
    obtain ⟨fs, gs, hspans, hcovers, hlater⟩ := getLast?_filter_eq_some.mp hf
    exact ⟨fs, f, gs, hspans, hcovers, hlater, rfl⟩
  · rintro ⟨fs, f, gs, hspans, hcovers, hlater, rfl⟩
    exact ⟨f, getLast?_filter_eq_some.mpr ⟨fs, gs, hspans, hcovers, hlater⟩, rfl⟩

end CommentQuota
