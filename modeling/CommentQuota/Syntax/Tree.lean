/-
  CommentQuota.Syntax.Tree — syntax trees of source documents.

  - `Node`: a node with its kind, its place, and its children; anonymous nodes are punctuation and
    keywords. A child may stand in a named field of its parent.
  - `walk`: a node and everything below it that is reached through named children, by a work list
    that holds the nodes still to visit.
  - `Node.preorder`: the same sequence by recursion on the tree.
  - `Node.functionName` / `Node.bodyStart`: the name of a function and the place after the brace
    that opens its body.
-/

import CommentQuota.Text.Rows

namespace CommentQuota

/-- A node of a syntax tree. `start` is its first place and `stop` the place after its last
    character. -/
structure Node where
  kind : String
  start : Position
  stop : Position
  named : Bool
  field : Option String
  text : String
  children : List Node

namespace Node

/-- The kind of function definitions. -/
def functionKind : String := "function_definition"

/-- The kind of comments. -/
def commentKind : String := "comment"

def namedChildren (n : Node) : List Node := n.children.filter (·.named)

/-- The first child in a field. -/
def child? (n : Node) (field : String) : Option Node :=
  n.children.find? fun c => c.field == some field

/-- The node covers a row. -/
def coversRow (n : Node) (row : Int) : Bool := decide (n.start.row ≤ row) && decide (row ≤ n.stop.row)

/-- The rows a node covers, ascending. -/
def rowSpan (n : Node) : List Int :=
  (List.range (n.stop.row + 1 - n.start.row).toNat).map fun (i : Nat) => n.start.row + i

/-! ## Size -/

mutual

/-- The number of nodes in a tree. -/
def size : Node → Nat
  | ⟨_, _, _, _, _, _, children⟩ => sizeAll children + 1

def sizeAll : List Node → Nat
  | [] => 0
  | n :: ns => size n + sizeAll ns

end

theorem sizeAll_append (xs ys : List Node) : sizeAll (xs ++ ys) = sizeAll xs + sizeAll ys := by
  induction xs with
  | nil => simp [sizeAll]
  | cons n xs ih => simp only [List.cons_append, sizeAll, ih]; omega

theorem sizeAll_filter_le (p : Node → Bool) (xs : List Node) : sizeAll (xs.filter p) ≤ sizeAll xs := by
  induction xs with
  | nil => exact Nat.le_refl _
  | cons n xs ih =>
    rw [List.filter_cons]
    split <;> simp only [sizeAll] <;> omega

theorem size_eq (n : Node) : n.size = sizeAll n.children + 1 := by cases n; rfl

theorem size_le_sizeAll {n : Node} {xs : List Node} (h : n ∈ xs) : n.size ≤ sizeAll xs := by
  induction xs with
  | nil => cases h
  | cons x xs ih =>
    rcases List.mem_cons.mp h with rfl | h
    · simp only [sizeAll]; omega
    · have := ih h; simp only [sizeAll]; omega

/-- A child is smaller than its parent. -/
theorem size_child_lt {n c : Node} {field : String} (h : n.child? field = some c) : c.size < n.size := by
  have := size_le_sizeAll (List.mem_of_find?_eq_some h)
  rw [size_eq n]; omega

/-! ## Order of visit -/

mutual

/-- A node, then its named children with all they lead to, in order. -/
def preorder : Node → List Node
  | ⟨kind, start, stop, named, field, text, children⟩ =>
    ⟨kind, start, stop, named, field, text, children⟩ :: preorderAll children

/-- The sequences of the named nodes of a list. -/
def preorderAll : List Node → List Node
  | [] => []
  | n :: ns => if n.named then preorder n ++ preorderAll ns else preorderAll ns

end

/-- Visits the nodes of a work list: the first one, then its named children before the others. -/
def visit : List Node → List Node
  | [] => []
  | n :: pending => n :: visit (n.namedChildren ++ pending)
termination_by stack => sizeAll stack
decreasing_by
  have := sizeAll_filter_le (·.named) n.children
  simp only [sizeAll, sizeAll_append, namedChildren, size_eq n]
  omega

end Node

/-- The nodes reached from a root through named children, parents first; none without a root. -/
def walk (root : Option Node) : List Node :=
  match root with
  | none => []
  | some n => Node.visit [n]

namespace Node

/-! ## Functions -/

/-- The identifier that a declarator leads to, going down through inner declarators. -/
def declaredName (d : Node) : Option String :=
  if d.kind = "identifier" ∨ d.kind = "field_identifier" then some d.text
  else match _h : d.child? "declarator" with
    | some inner => declaredName inner
    | none => none
termination_by d.size
decreasing_by exact size_child_lt _h

/-- The name of a function. -/
def functionName (n : Node) : String :=
  ((n.child? "declarator").bind declaredName).getD "<anonymous>"

/-- The place directly after the brace that opens a function's body, if the body starts with one. -/
def bodyStart (n : Node) : Option Position :=
  match (n.child? "body").bind (·.children.head?) with
  | some opening => if opening.kind = "\x7b" then some opening.stop else none
  | none => none

end Node

/-- The function that encloses a row: of the function definitions that cover the row, the last one
    visited, so that an inner function wins over the one around it. -/
def enclosingFunction (root : Option Node) (line : Int) : Option Node :=
  ((walk root).filter fun n => n.kind == Node.functionKind && n.coversRow line).getLast?

end CommentQuota
