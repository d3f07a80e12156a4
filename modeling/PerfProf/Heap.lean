import Mathlib.Data.List.Sort

/-! What a merge may rely on of an array-backed min-heap whose keys live outside the
array: rearranging keeps the elements, the root has a least key, and only the key
of the root may have changed when it is sifted down or taken off. -/
namespace PerfProf.Heap
variable {α : Type*}

structure MinHeap (α : Type*) where
  heapifyAll : (α → Nat) → List α → List α
  siftDown : (α → Nat) → List α → List α
  pop : (α → Nat) → List α → List α
  Ordered : (α → Nat) → List α → Prop
  root_le : ∀ {key x xs}, Ordered key (x :: xs) → ∀ y ∈ xs, key x ≤ key y
  heapifyAll_perm : ∀ key xs, (heapifyAll key xs).Perm xs
  heapifyAll_ordered : ∀ key xs, Ordered key (heapifyAll key xs)
  siftDown_perm : ∀ key xs, (siftDown key xs).Perm xs
  siftDown_ordered : ∀ {key key' x xs}, Ordered key (x :: xs) → (∀ y ∈ xs, key' y = key y) →
    Ordered key' (siftDown key' (x :: xs))
  pop_perm : ∀ key x xs, (pop key (x :: xs)).Perm xs
  pop_ordered : ∀ {key key' x xs}, Ordered key (x :: xs) → (∀ y ∈ xs, key' y = key y) →
    Ordered key' (pop key' (x :: xs))

section Sorted

def sortBy (key : α → Nat) (xs : List α) : List α :=
  xs.insertionSort (fun x y => key x ≤ key y)

theorem sortBy_perm (key : α → Nat) (xs : List α) : (sortBy key xs).Perm xs :=
  List.perm_insertionSort _ xs

theorem sortBy_pairwise (key : α → Nat) (xs : List α) :
    (sortBy key xs).Pairwise (fun x y => key x ≤ key y) := by
  have : Std.Total (fun x y : α => key x ≤ key y) := ⟨fun x y => Nat.le_total (key x) (key y)⟩
  have : IsTrans α (fun x y : α => key x ≤ key y) := ⟨fun _ _ _ => Nat.le_trans⟩
  exact List.pairwise_insertionSort _ xs

/-- A sorted array is a min-heap. -/
def sorted : MinHeap α where
  heapifyAll := sortBy
  siftDown := sortBy
  pop := fun key xs => sortBy key xs.tail
  Ordered := fun key xs => xs.Pairwise (fun x y => key x ≤ key y)
  root_le := fun h => (List.pairwise_cons.mp h).1
  heapifyAll_perm := sortBy_perm
  heapifyAll_ordered := sortBy_pairwise
  siftDown_perm := sortBy_perm
  siftDown_ordered := fun _ _ => sortBy_pairwise _ _
  pop_perm := fun key _ xs => sortBy_perm key xs
  pop_ordered := fun _ _ => sortBy_pairwise _ _

end Sorted

end PerfProf.Heap
