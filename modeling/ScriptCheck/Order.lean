/-!
# Order by a key

Lists are put in order of a natural number that each item has. Items of equal key
keep the order they came in.
-/

namespace ScriptCheck.Order

variable {α : Type}

/-- Puts `x` in front of the first item whose key is not smaller. -/
def insert (key : α → Nat) (x : α) : List α → List α
  | [] => [x]
  | y :: ys => if key x ≤ key y then x :: y :: ys else y :: insert key x ys

/-- Inserts all items of one list into another; among equal keys they go first. -/
def merge (key : α → Nat) (xs ys : List α) : List α := xs.foldr (insert key) ys

/-- The items in order of their keys. -/
def sort (key : α → Nat) (xs : List α) : List α := merge key xs []

theorem insert_perm (key : α → Nat) (x : α) (ys : List α) :
    (insert key x ys).Perm (x :: ys) := by
  induction ys with
  | nil => exact List.Perm.refl _
  | cons y ys ih =>
    rw [insert]
    split
    · exact List.Perm.refl _
    · exact (List.Perm.cons y ih).trans (List.Perm.swap x y ys)

theorem merge_perm (key : α → Nat) (xs ys : List α) : (merge key xs ys).Perm (xs ++ ys) := by
  induction xs with
  | nil => exact List.Perm.refl _
  | cons x xs ih => exact (insert_perm key x _).trans (List.Perm.cons x ih)

/-- Sorting neither loses nor adds an item. -/
theorem sort_perm (key : α → Nat) (xs : List α) : (sort key xs).Perm xs := by
  simpa [sort] using merge_perm key xs []

@[simp] theorem sort_eq_nil_iff {key : α → Nat} {xs : List α} : sort key xs = [] ↔ xs = [] := by
  constructor
  · intro h
    have := sort_perm key xs
    rw [h] at this
    exact List.nil_perm.1 this
  · rintro rfl
    rfl

/-- Keys never decrease along the list. -/
def Sorted (key : α → Nat) (xs : List α) : Prop := xs.Pairwise fun a b => key a ≤ key b

theorem Sorted.insert {key : α → Nat} {ys : List α} (h : Sorted key ys) (x : α) :
    Sorted key (insert key x ys) := by
  induction ys with
  | nil => simp [Sorted, Order.insert]
  | cons y ys ih =>
    obtain ⟨hy, hys⟩ := List.pairwise_cons.1 h
    rw [Order.insert]
    split
    · next hle =>
      refine List.pairwise_cons.2 ⟨fun z hz => ?_, h⟩
      rcases List.mem_cons.1 hz with rfl | hz
      · exact hle
      · exact Nat.le_trans hle (hy z hz)
    · next hlt =>
      refine List.pairwise_cons.2 ⟨fun z hz => ?_, ih hys⟩
      rcases List.mem_cons.1 ((insert_perm key x ys).mem_iff.1 hz) with rfl | hz
      · omega
      · exact hy z hz

theorem sorted_merge {key : α → Nat} (xs : List α) {ys : List α} (h : Sorted key ys) :
    Sorted key (merge key xs ys) := by
  induction xs with
  | nil => exact h
  | cons x xs ih => exact ih.insert x

theorem sorted_sort (key : α → Nat) (xs : List α) : Sorted key (sort key xs) :=
  sorted_merge xs List.Pairwise.nil

end ScriptCheck.Order
