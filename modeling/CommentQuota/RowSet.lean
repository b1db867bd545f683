/-
  CommentQuota.RowSet — finite sets of rows.

  A set is the ascending list of its rows, so two sets with the same rows are equal and their size
  is the length of the list.

  - `mem_insert` / `mem_erase`: what adding and taking out a row does to the members.
-/

namespace CommentQuota

/-- A finite set of rows, held in ascending order. -/
structure RowSet where
  toList : List Int
  ordered : toList.Pairwise (· < ·)

namespace RowSet

def empty : RowSet := ⟨[], .nil⟩

instance : Membership Int RowSet := ⟨fun s r => r ∈ s.toList⟩

instance (r : Int) (s : RowSet) : Decidable (r ∈ s) := inferInstanceAs (Decidable (r ∈ s.toList))

def size (s : RowSet) : Nat := s.toList.length

/-- Puts a row into its place in an ascending list. -/
def place (r : Int) : List Int → List Int
  | [] => [r]
  | x :: xs => if r < x then r :: x :: xs else if r = x then x :: xs else x :: place r xs

theorem mem_place {r x : Int} {xs : List Int} : x ∈ place r xs ↔ x = r ∨ x ∈ xs := by
  induction xs with
  | nil => simp [place]
  | cons y ys ih =>
    unfold place
    split
    · simp
    · split
      · rename_i h; subst h; simp
      · simp only [List.mem_cons, ih]
        constructor
        · rintro (h | h | h) <;> simp [h]
        · rintro (h | h | h) <;> simp [h]

theorem place_ordered (r : Int) {xs : List Int} (h : xs.Pairwise (· < ·)) :
    (place r xs).Pairwise (· < ·) := by
  induction xs with
  | nil => simp [place]
  | cons y ys ih =>
    obtain ⟨hy, hys⟩ := List.pairwise_cons.mp h
    unfold place
    split
    · rename_i hr
      refine List.pairwise_cons.mpr ⟨fun z hz => ?_, h⟩
      rcases List.mem_cons.mp hz with rfl | hz
      · exact hr
      · have := hy z hz; omega
    · split
      · exact h
      · refine List.pairwise_cons.mpr ⟨fun z hz => ?_, ih hys⟩
        rcases mem_place.mp hz with rfl | hz
        · omega
        · exact hy z hz

def insert (s : RowSet) (r : Int) : RowSet := ⟨place r s.toList, place_ordered r s.ordered⟩

def erase (s : RowSet) (r : Int) : RowSet :=
  ⟨s.toList.filter (· != r), s.ordered.filter _⟩

/-- The rows that satisfy a test. -/
def filter (p : Int → Bool) (s : RowSet) : RowSet := ⟨s.toList.filter p, s.ordered.filter _⟩

def ofList (rows : List Int) : RowSet := rows.foldl insert empty

@[simp] theorem mem_insert {s : RowSet} {r x : Int} : x ∈ s.insert r ↔ x = r ∨ x ∈ s := mem_place

@[simp] theorem mem_erase {s : RowSet} {r x : Int} : x ∈ s.erase r ↔ x ∈ s ∧ x ≠ r := by
  show x ∈ s.toList.filter _ ↔ x ∈ s.toList ∧ x ≠ r
  simp

@[simp] theorem mem_filter {s : RowSet} {p : Int → Bool} {x : Int} :
    x ∈ s.filter p ↔ x ∈ s ∧ p x = true := List.mem_filter

@[simp] theorem not_mem_empty {x : Int} : ¬ x ∈ empty := List.not_mem_nil

end RowSet

end CommentQuota
