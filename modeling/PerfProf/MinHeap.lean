import Mathlib.Data.List.GetD
import Mathlib.Data.Nat.Factorization.Basic
import PerfProf.BinaryHeap
import PerfProf.Heap

/-! The min-heap of min_heap.h, as `order_process` calls it. Offsets are counted in elements;
`parent_offset` says that the scaled offsets of the source go to the same places. -/
namespace PerfProf.MinHeap
open PerfProf.BinaryHeap
variable {α β : Type*}

section Offset

/-- `parent`: `i` is the offset of the child in bytes. -/
def parentOffset (i : BitVec 64) (lsbit : BitVec 32) (size : BitVec 64) : BitVec 64 :=
  let i := i - size
  let i := i - (size &&& -(i &&& lsbit.setWidth 64))
  i / 2

/-- `elem_size & -elem_size`, as it is passed on. -/
def lsbit (size : BitVec 64) : BitVec 32 := (size &&& -size).setWidth 32

variable {size k m : Nat}

theorem getLsbD_ofNat_pow_mul (hsize : size = 2 ^ k * m) (i : Nat) (hi : i < k) :
    (BitVec.ofNat 64 size).getLsbD i = false := by
  rw [BitVec.getLsbD_ofNat, hsize, Nat.testBit_two_pow_mul]
  simp [Nat.not_le.mpr hi]

/-- The lowest bit of the size. -/
theorem and_neg_eq (hsize : size = 2 ^ k * m) (hm : m % 2 = 1) :
    BitVec.ofNat 64 size &&& -BitVec.ofNat 64 size = BitVec.twoPow 64 k := by
  have hk : (BitVec.ofNat 64 size).getLsbD k = decide (k < 64) := by
    rw [BitVec.getLsbD_ofNat, hsize, Nat.testBit_two_pow_mul]
    simp [Nat.testBit_zero, hm]
  refine BitVec.eq_of_getLsbD_eq fun i hi => ?_
  rw [BitVec.getLsbD_and, BitVec.getLsbD_neg, BitVec.getLsbD_twoPow]
  obtain hlt | rfl | hgt := Nat.lt_trichotomy i k
  · rw [getLsbD_ofNat_pow_mul hsize i hlt]
    simp [Nat.ne_of_gt hlt]
  · have hnone : ¬ ∃ j < i, (BitVec.ofNat 64 size).getLsbD j = true := by
      rintro ⟨j, hj, hbit⟩
      rw [getLsbD_ofNat_pow_mul hsize j hj] at hbit
      cases hbit
    rw [hk]
    simp [hnone, hi]
  · have hsome : ∃ j < i, (BitVec.ofNat 64 size).getLsbD j = true :=
      ⟨k, hgt, by rw [hk]; simp; omega⟩
    cases (BitVec.ofNat 64 size).getLsbD i with
    | false => simp [Nat.ne_of_lt hgt]
    | true => simp [hsome, hi, Nat.ne_of_lt hgt]

theorem and_twoPow_of_even (a : Nat) (ha : a % 2 = 0) (hsize : size = 2 ^ k * m) :
    BitVec.ofNat 64 (a * size) &&& BitVec.twoPow 64 k = 0#64 := by
  refine BitVec.eq_of_getLsbD_eq fun i hi => ?_
  rw [BitVec.getLsbD_and, BitVec.getLsbD_twoPow, BitVec.getLsbD_ofNat]
  by_cases hik : k = i
  · subst hik
    rw [hsize, Nat.mul_left_comm, Nat.testBit_two_pow_mul]
    simp [Nat.testBit_zero, Nat.mul_mod, ha]
  · simp [hik]

theorem and_twoPow_of_odd (a : Nat) (ha : a % 2 = 1) (hsize : size = 2 ^ k * m) (hm : m % 2 = 1) :
    BitVec.ofNat 64 (a * size) &&& BitVec.twoPow 64 k = BitVec.twoPow 64 k := by
  refine BitVec.eq_of_getLsbD_eq fun i hi => ?_
  rw [BitVec.getLsbD_and, BitVec.getLsbD_twoPow, BitVec.getLsbD_ofNat]
  by_cases hik : k = i
  · subst hik
    rw [hsize, Nat.mul_left_comm, Nat.testBit_two_pow_mul]
    simp [Nat.testBit_zero, Nat.mul_mod, ha, hm]
  · simp [hik]

theorem and_neg_twoPow (hsize : size = 2 ^ k * m) :
    BitVec.ofNat 64 size &&& -BitVec.twoPow 64 k = BitVec.ofNat 64 size := by
  refine BitVec.eq_of_getLsbD_eq fun i hi => ?_
  rw [BitVec.getLsbD_and, BitVec.getLsbD_neg]
  obtain hlt | hle := Nat.lt_or_ge i k
  · rw [getLsbD_ofNat_pow_mul hsize i hlt]
    rfl
  · have hset : ((BitVec.twoPow 64 k).getLsbD i ^^
        decide (i < 64) && decide (∃ j < i, (BitVec.twoPow 64 k).getLsbD j = true)) = true := by
      by_cases hik : k = i
      · subst hik
        have hnone : ¬ ∃ j < k, (BitVec.twoPow 64 k).getLsbD j = true := by
          rintro ⟨j, hj, hbit⟩
          rw [BitVec.getLsbD_twoPow] at hbit
          simp [Nat.ne_of_gt hj] at hbit
        rw [BitVec.getLsbD_twoPow]
        simp only [hnone, hi, decide_true, decide_false, Bool.and_true, Bool.and_false]
        rfl
      · have hsome : ∃ j < i, (BitVec.twoPow 64 k).getLsbD j = true := by
          refine ⟨k, by omega, ?_⟩
          rw [BitVec.getLsbD_twoPow]
          simp
          omega
        rw [BitVec.getLsbD_twoPow]
        simp only [hsome, hi, hik, decide_true, decide_false, Bool.and_true, Bool.and_false]
        rfl
    rw [hset, Bool.and_true]

theorem ofNat_half {b : Nat} (h : 2 * b < 2 ^ 64) : BitVec.ofNat 64 (2 * b) / 2 = BitVec.ofNat 64 b := by
  apply BitVec.eq_of_toNat_eq
  rw [BitVec.toNat_udiv, BitVec.toNat_ofNat, BitVec.toNat_ofNat, Nat.mod_eq_of_lt h,
    Nat.mod_eq_of_lt (by omega)]
  exact Nat.mul_div_cancel_left b (by decide)

/-- The branch-free offset of the parent is that of element `(j - 1) / 2`. -/
theorem parent_offset {j : Nat} (hj : 0 < j) (hpos : 0 < size) (hsize : size < 2 ^ 32)
    (hfit : j * size < 2 ^ 64) :
    parentOffset (BitVec.ofNat 64 (j * size)) (lsbit (BitVec.ofNat 64 size)) (BitVec.ofNat 64 size) =
      BitVec.ofNat 64 (parent j * size) := by
  obtain ⟨k, m, hm, hsize'⟩ : ∃ k m, m % 2 = 1 ∧ size = 2 ^ k * m := by
    obtain ⟨k, m, hodd, heq⟩ := Nat.exists_eq_two_pow_mul_odd (Nat.ne_of_gt hpos)
    exact ⟨k, m, Nat.odd_iff.mp hodd, heq⟩
  have hlsbit : (lsbit (BitVec.ofNat 64 size)).setWidth 64 = BitVec.twoPow 64 k := by
    have hk : 2 ^ k ≤ size := by
      rw [hsize']
      exact Nat.le_mul_of_pos_right _ (by omega)
    rw [lsbit, and_neg_eq hsize' hm]
    apply BitVec.eq_of_toNat_eq
    rw [BitVec.toNat_setWidth, BitVec.toNat_setWidth, BitVec.toNat_twoPow]
    have hlt : 2 ^ k < 2 ^ 32 := Nat.lt_of_le_of_lt hk hsize
    generalize 2 ^ k = e at hlt
    omega
  obtain ⟨a, rfl⟩ : ∃ a, j = a + 1 := ⟨j - 1, by omega⟩
  have hmul : (a + 1) * size = a * size + size := Nat.succ_mul a size
  have hsub : BitVec.ofNat 64 ((a + 1) * size) - BitVec.ofNat 64 size = BitVec.ofNat 64 (a * size) := by
    rw [hmul, BitVec.ofNat_add, BitVec.add_sub_cancel]
  obtain ⟨b, rfl | rfl⟩ : ∃ b, a = 2 * b ∨ a = 2 * b + 1 := ⟨a / 2, by omega⟩
  · have hpar : parent (2 * b + 1) = b := by
      unfold parent
      omega
    have htwo : 2 * b * size = 2 * (b * size) := Nat.mul_assoc 2 b size
    simp only [parentOffset]
    rw [hsub, hlsbit, and_twoPow_of_even _ (by omega) hsize', BitVec.neg_zero, BitVec.and_zero,
      BitVec.sub_zero, hpar, htwo]
    exact ofNat_half (by omega)
  · have hpar : parent (2 * b + 1 + 1) = b := by
      unfold parent
      omega
    have htwo : (2 * b + 1) * size = 2 * (b * size) + size := by rw [Nat.succ_mul, Nat.mul_assoc]
    simp only [parentOffset]
    rw [hsub, hlsbit, and_twoPow_of_odd _ (by omega) hsize' hm, and_neg_twoPow hsize', hpar, htwo,
      BitVec.ofNat_add, BitVec.add_sub_cancel]
    exact ofNat_half (by omega)

end Offset

section Operations
variable (less : α → α → Bool)

/-- `min_heap_char`, with the elements by index. -/
structure HeapArray (α : Type*) where
  nr : Nat
  size : Nat
  data : Nat → α

/-- Find the sift-down path all the way to the leaves. -/
def siftDownPath (data : Nat → α) (n : Nat) : Nat → Nat → Nat
  | 0, b => b
  | fuel + 1, b =>
    if 2 * b + 2 < n then
      siftDownPath data n fuel (if less (data (2 * b + 1)) (data (2 * b + 2)) then 2 * b + 1 else 2 * b + 2)
    else if 2 * b + 2 = n then 2 * b + 1 else b

/-- Backtrack to the correct location. -/
def backtrack (data : Nat → α) (a : Nat) : Nat → Nat → Nat
  | 0, b => b
  | fuel + 1, b => if b ≠ a ∧ less (data a) (data b) then backtrack data a fuel (parent b) else b

/-- Shift the element into its correct place. -/
def shift (a c : Nat) : Nat → Nat → (Nat → α) → Nat → α
  | 0, _, data => data
  | fuel + 1, b, data =>
    if b ≠ a then shift a c fuel (parent b) (swapAt data (parent b) c) else data

/-- `__min_heap_sift_down_inline`. -/
def minHeapSiftDown (heap : HeapArray α) (pos : Nat) : HeapArray α :=
  let b := siftDownPath less heap.data heap.nr heap.nr pos
  let b := backtrack less heap.data pos b b
  { heap with data := shift pos b b b heap.data }

/-- The loop of `__min_heap_sift_up_inline`. -/
def siftUp : Nat → Nat → (Nat → α) → Nat → α
  | 0, _, data => data
  | fuel + 1, a, data =>
    if a ≠ 0 then
      if less (data (parent a)) (data a) then data
      else siftUp fuel (parent a) (swapAt data a (parent a))
    else data

/-- `__min_heap_sift_up_inline`. -/
def minHeapSiftUp (heap : HeapArray α) (idx : Nat) : HeapArray α :=
  { heap with data := siftUp less idx idx heap.data }

/-- The loop of `__min_heapify_all_inline`; `i` elements are still to be sifted down. -/
def heapifyFrom : Nat → HeapArray α → HeapArray α
  | 0, heap => heap
  | i + 1, heap => heapifyFrom i (minHeapSiftDown less heap i)

/-- `__min_heapify_all_inline`. -/
def minHeapifyAll (heap : HeapArray α) : HeapArray α := heapifyFrom less (heap.nr / 2) heap

/-- `__min_heap_peek_inline`. -/
def minHeapPeek (heap : HeapArray α) : Option α := if heap.nr ≠ 0 then some (heap.data 0) else none

/-- `__min_heap_pop_inline`. -/
def minHeapPop (heap : HeapArray α) : HeapArray α × Bool :=
  if heap.nr ≤ 0 then (heap, false)
  else
    let nr := heap.nr - 1
    let heap := { heap with nr := nr, data := Function.update heap.data 0 (heap.data nr) }
    (minHeapSiftDown less heap 0, true)

/-- `__min_heap_pop_push_inline`. -/
def minHeapPopPush (heap : HeapArray α) (element : α) : HeapArray α :=
  minHeapSiftDown less { heap with data := Function.update heap.data 0 element } 0

/-- `__min_heap_push_inline`. -/
def minHeapPush (heap : HeapArray α) (element : α) : HeapArray α × Bool :=
  if heap.size ≤ heap.nr then (heap, false)
  else
    let pos := heap.nr
    let heap := { heap with nr := pos + 1, data := Function.update heap.data pos element }
    (minHeapSiftUp less heap pos, true)

/-- `__min_heap_del_inline`. -/
def minHeapDel (heap : HeapArray α) (idx : Nat) : HeapArray α × Bool :=
  if heap.nr ≤ 0 then (heap, false)
  else
    let heap := { heap with nr := heap.nr - 1 }
    if idx = heap.nr then (heap, true)
    else
      let heap := { heap with data := swapAt heap.data idx heap.nr }
      (minHeapSiftDown less (minHeapSiftUp less heap idx) idx, true)

end Operations

section Order
variable [LinearOrder β] {key : α → β} {less : α → α → Bool} {data : Nat → α} {n lo a b c : Nat}
  {heap : HeapArray α}

/-- The callback compares keys. -/
def Compares (key : α → β) (less : α → α → Bool) : Prop := ∀ x y, less x y = true ↔ key x < key y

/-- A heap in order. -/
def HeapArray.Ordered (key : α → β) (heap : HeapArray α) : Prop := OrderedFrom key heap.nr 0 heap.data

def HeapArray.elems (heap : HeapArray α) : List α := BinaryHeap.elems heap.nr heap.data

theorem leastChild_left (hb : 2 * b + 2 < n) (h : key (data (2 * b + 1)) ≤ key (data (2 * b + 2))) :
    LeastChild key n data b (2 * b + 1) := by
  refine ⟨by omega, by omega, (parent_eq (by omega)).mpr (Or.inl rfl), fun i hi hn hpi => ?_⟩
  obtain rfl | rfl := (parent_eq hi).mp hpi
  · exact le_rfl
  · exact h

theorem leastChild_right (hb : 2 * b + 2 < n) (h : key (data (2 * b + 2)) ≤ key (data (2 * b + 1))) :
    LeastChild key n data b (2 * b + 2) := by
  refine ⟨by omega, by omega, (parent_eq (by omega)).mpr (Or.inr rfl), fun i hi hn hpi => ?_⟩
  obtain rfl | rfl := (parent_eq hi).mp hpi
  · exact h
  · exact le_rfl

theorem leastChild_only (hb : 2 * b + 2 = n) : LeastChild key n data b (2 * b + 1) := by
  refine ⟨by omega, by omega, (parent_eq (by omega)).mpr (Or.inl rfl), fun i hi hn hpi => ?_⟩
  obtain rfl | rfl := (parent_eq hi).mp hpi
  · exact le_rfl
  · omega

/-- The path ends at a leaf. -/
theorem siftDownPath_descends (hless : Compares key less) (data : Nat → α) (n fuel : Nat) :
    ∀ b, n ≤ b + fuel → Descends key n data b (siftDownPath less data n fuel b) ∧
      n ≤ 2 * siftDownPath less data n fuel b + 1 := by
  induction fuel with
  | zero =>
    intro b hfuel
    exact ⟨.refl, by simp only [siftDownPath]; omega⟩
  | succ fuel ih =>
    intro b hfuel
    rw [siftDownPath]
    by_cases hboth : 2 * b + 2 < n
    · rw [if_pos hboth]
      have hchild : LeastChild key n data b
          (if less (data (2 * b + 1)) (data (2 * b + 2)) then 2 * b + 1 else 2 * b + 2) := by
        by_cases hl : less (data (2 * b + 1)) (data (2 * b + 2)) = true
        · rw [if_pos hl]
          exact leastChild_left hboth (le_of_lt ((hless _ _).mp hl))
        · rw [if_neg hl]
          exact leastChild_right hboth (not_lt.mp fun hlt => hl ((hless _ _).mpr hlt))
      generalize (if less (data (2 * b + 1)) (data (2 * b + 2)) then 2 * b + 1 else 2 * b + 2) = q
        at hchild ⊢
      have hlt := hchild.lt_child
      obtain ⟨hdesc, hleaf⟩ := ih q (by omega)
      exact ⟨Relation.ReflTransGen.head hchild hdesc, hleaf⟩
    · rw [if_neg hboth]
      by_cases hone : 2 * b + 2 = n
      · rw [if_pos hone]
        exact ⟨.single (leastChild_only hone), by omega⟩
      · rw [if_neg hone]
        exact ⟨.refl, by omega⟩

/-- Backtracking ends on the path, below nothing that is later. -/
theorem backtrack_spec (hless : Compares key less) (h : Descends key n data a b)
    (hend : ∀ i, 0 < i → i < n → parent i = b → key (data a) ≤ key (data i)) (fuel : Nat) (hfuel : b ≤ fuel) :
    Descends key n data a (backtrack less data a fuel b) ∧
      (backtrack less data a fuel b = a ∨ key (data (backtrack less data a fuel b)) ≤ key (data a)) ∧
      ∀ i, 0 < i → i < n → parent i = backtrack less data a fuel b → key (data a) ≤ key (data i) := by
  induction fuel generalizing b with
  | zero =>
    have hle := h.le
    exact ⟨h, Or.inl (by simp only [backtrack]; omega), hend⟩
  | succ fuel ih =>
    rw [backtrack]
    by_cases hup : b ≠ a ∧ less (data a) (data b) = true
    · rw [if_pos hup]
      obtain heq | ⟨p, hp, hchild⟩ := Relation.ReflTransGen.cases_tail h
      · exact absurd heq hup.1
      · have hlt := hchild.lt_child
        have hxb := (hless _ _).mp hup.2
        rw [hchild.parent]
        exact ih hp (fun i hi hn hpi => le_trans (le_of_lt hxb) (hchild.least i hi hn hpi)) (by omega)
    · rw [if_neg hup]
      refine ⟨h, ?_, hend⟩
      by_cases hba : b = a
      · exact Or.inl hba
      · exact Or.inr (not_lt.mp fun hlt => hup ⟨hba, (hless _ _).mpr hlt⟩)

/-- The exchanges on the way up. -/
theorem shift_eq (h : Descends key n data a b) (c fuel : Nat) (hfuel : b ≤ fuel) (data' : Nat → α) :
    shift a c fuel b data' = data' ∘ rotation a c b := by
  induction fuel generalizing b data' with
  | zero =>
    have hle := h.le
    obtain rfl : b = a := by omega
    rw [rotation_self]
    rfl
  | succ fuel ih =>
    rw [shift]
    obtain rfl | ⟨p, hp, hchild⟩ := Relation.ReflTransGen.cases_tail h
    · rw [if_neg (by simp), rotation_self]
      rfl
    · have hle := Descends.le hp
      have hlt := hchild.lt_child
      rw [if_pos (by omega), rotation_step (by omega), hchild.parent, ih hp (by omega)]
      rfl

theorem shift_elems (h : Descends key n data a b) (hc : c < n) (fuel : Nat) (data' : Nat → α)
    (hb : b < n) : (BinaryHeap.elems n (shift a c fuel b data')).Perm (BinaryHeap.elems n data') := by
  induction fuel generalizing b data' with
  | zero => exact .refl _
  | succ fuel ih =>
    rw [shift]
    obtain rfl | ⟨p, hp, hchild⟩ := Relation.ReflTransGen.cases_tail h
    · rw [if_neg (by simp)]
    · have hle := Descends.le hp
      have hlt := hchild.lt_child
      rw [if_pos (by omega), hchild.parent]
      exact (ih hp _ (by omega)).trans (elems_swapAt (by omega) hc)

/-- Where a sift ends up. -/
theorem siftDown_path (hless : Compares key less) (heap : HeapArray α) (pos : Nat) : ∃ b,
    (minHeapSiftDown less heap pos).data = shift pos b b b heap.data ∧
      Descends key heap.nr heap.data pos b ∧ (b = pos ∨ key (heap.data b) ≤ key (heap.data pos)) ∧
      ∀ i, 0 < i → i < heap.nr → parent i = b → key (heap.data pos) ≤ key (heap.data i) := by
  obtain ⟨hdesc, hleaf⟩ := siftDownPath_descends hless heap.data heap.nr heap.nr pos (Nat.le_add_left _ _)
  obtain ⟨hpath, hstop, hend⟩ := backtrack_spec hless hdesc (fun i hi hn hpi => by
    have hcases := (parent_eq hi).mp hpi
    omega) _ le_rfl
  exact ⟨_, rfl, hpath, hstop, hend⟩

theorem minHeapSiftDown_elems (hless : Compares key less) (heap : HeapArray α) (pos : Nat) :
    (minHeapSiftDown less heap pos).elems.Perm heap.elems := by
  obtain ⟨b, hdata, hpath, -⟩ := siftDown_path hless heap pos
  have hnr : (minHeapSiftDown less heap pos).nr = heap.nr := rfl
  rw [HeapArray.elems, hdata, hnr]
  obtain rfl | ⟨p, hp, hchild⟩ := Relation.ReflTransGen.cases_tail hpath
  · have hnone : ∀ fuel, shift b b fuel b heap.data = heap.data := by
      intro fuel
      cases fuel with
      | zero => rfl
      | succ fuel => rw [shift, if_neg (by simp)]
    rw [hnone]
    exact .refl _
  · exact shift_elems hpath hchild.lt _ heap.data hchild.lt

/-- What `__min_heap_sift_down_inline` does: the misplaced element finds its place. -/
theorem minHeapSiftDown_spec (heap : HeapArray α) (hless : Compares key less) (pos : Nat) (hlo : lo ≤ pos)
    (h : DownOrder key heap.nr lo pos heap.data) :
    OrderedFrom key heap.nr lo (minHeapSiftDown less heap pos).data := by
  obtain ⟨b, hdata, hpath, hstop, hend⟩ := siftDown_path hless heap pos
  rw [hdata, shift_eq hpath _ _ le_rfl]
  exact h.rotate hlo hpath hstop hend

@[simp] theorem minHeapSiftDown_nr (heap : HeapArray α) (pos : Nat) :
    (minHeapSiftDown less heap pos).nr = heap.nr := rfl

@[simp] theorem minHeapSiftDown_size (heap : HeapArray α) (pos : Nat) :
    (minHeapSiftDown less heap pos).size = heap.size := rfl

/-- What the loop of `__min_heap_sift_up_inline` does. -/
theorem siftUp_spec (hless : Compares key less) (fuel : Nat) (hfuel : a ≤ fuel) (ha : a < n)
    (h : UpOrder key n a data) : OrderedFrom key n 0 (siftUp less fuel a data) ∧
      (BinaryHeap.elems n (siftUp less fuel a data)).Perm (BinaryHeap.elems n data) := by
  induction fuel generalizing a data with
  | zero => exact ⟨h.settled fun hpos => by omega, .refl _⟩
  | succ fuel ih =>
    rw [siftUp]
    by_cases h0 : a ≠ 0
    · have hlt := parent_lt (Nat.pos_of_ne_zero h0)
      rw [if_pos h0]
      by_cases hl : less (data (parent a)) (data a) = true
      · rw [if_pos hl]
        exact ⟨h.settled fun _ => le_of_lt ((hless _ _).mp hl), .refl _⟩
      · rw [if_neg hl]
        have hle : key (data a) ≤ key (data (parent a)) := not_lt.mp fun hlt => hl ((hless _ _).mpr hlt)
        obtain ⟨hord, hperm⟩ := ih (by omega) (by omega) (h.exchange (Nat.pos_of_ne_zero h0) ha hle)
        exact ⟨hord, hperm.trans (elems_swapAt ha (by omega))⟩
    · rw [if_neg h0]
      exact ⟨h.settled fun hpos => by omega, .refl _⟩

theorem heapifyFrom_ordered (hless : Compares key less) (i : Nat) (heap : HeapArray α)
    (h : OrderedFrom key heap.nr i heap.data) : (heapifyFrom less i heap).Ordered key := by
  induction i generalizing heap with
  | zero => exact h
  | succ i ih =>
    exact ih (minHeapSiftDown less heap i) (minHeapSiftDown_spec _ hless i le_rfl h.down)

theorem heapifyFrom_same (less : α → α → Bool) (i : Nat) (heap : HeapArray α) :
    (heapifyFrom less i heap).nr = heap.nr ∧ (heapifyFrom less i heap).size = heap.size := by
  induction i generalizing heap with
  | zero => exact ⟨rfl, rfl⟩
  | succ i ih => exact ih (minHeapSiftDown less heap i)

theorem heapifyFrom_elems (hless : Compares key less) (i : Nat) (heap : HeapArray α) :
    (heapifyFrom less i heap).elems.Perm heap.elems := by
  induction i generalizing heap with
  | zero => exact .refl _
  | succ i ih => exact (ih (minHeapSiftDown less heap i)).trans (minHeapSiftDown_elems hless heap i)

/-- Floyd's heapification puts any array in order. -/
theorem minHeapifyAll_spec (hless : Compares key less) (heap : HeapArray α) :
    (minHeapifyAll less heap).Ordered key ∧ (minHeapifyAll less heap).elems.Perm heap.elems := by
  refine ⟨heapifyFrom_ordered hless (heap.nr / 2) heap fun i hi hn hlo => ?_,
    heapifyFrom_elems hless (heap.nr / 2) heap⟩
  -- the second half of the array has no children
  unfold parent at hlo
  omega

theorem elems_update_last (n : Nat) (data : Nat → α) (x : α) :
    BinaryHeap.elems (n + 1) (Function.update data n x) = BinaryHeap.elems n data ++ [x] := by
  rw [elems_succ, Function.update_self, elems_congr fun i hi => Function.update_of_ne (Nat.ne_of_lt hi) ..]

theorem elems_update_head (n : Nat) (data : Nat → α) (x : α) : ∃ rest,
    BinaryHeap.elems (n + 1) data = data 0 :: rest ∧
      BinaryHeap.elems (n + 1) (Function.update data 0 x) = x :: rest := by
  refine ⟨((List.range n).map Nat.succ).map data, ?_, ?_⟩
  · simp [BinaryHeap.elems, List.range_succ_eq_map]
  · simp only [BinaryHeap.elems, List.range_succ_eq_map, List.map_cons, Function.update_self, List.map_map]
    congr 1

/-- With a new root, or a new key of it, only the root can be out of place. -/
theorem downOrder_root {key' : α → β} {data' : Nat → α} (h : OrderedFrom key n 0 data) (hm : b ≤ n)
    (hsame : ∀ i, 0 < i → i < b → key' (data' i) = key (data i)) : DownOrder key' b 0 0 data' where
  off := by
    intro i hi hn _ hne
    have hlt := parent_lt hi
    rw [hsame _ (Nat.pos_of_ne_zero hne) (by omega), hsame i hi hn]
    exact h i hi (by omega) (Nat.zero_le _)
  bypass := fun hpos => absurd hpos (Nat.lt_irrefl 0)

/-- The array whose root `__min_heap_pop_inline` sifts down. -/
def HeapArray.lastToRoot (heap : HeapArray α) : HeapArray α :=
  { heap with nr := heap.nr - 1, data := Function.update heap.data 0 (heap.data (heap.nr - 1)) }

theorem minHeapPop_pos (less : α → α → Bool) (hnr : 0 < heap.nr) :
    minHeapPop less heap = (minHeapSiftDown less heap.lastToRoot 0, true) := by
  rw [minHeapPop, if_neg (by omega), HeapArray.lastToRoot]

theorem minHeapPop_elems (heap : HeapArray α) (hless : Compares key less) (hnr : 0 < heap.nr) :
    (heap.data 0 :: (minHeapPop less heap).1.elems).Perm heap.elems := by
  obtain ⟨n, hn⟩ : ∃ n, heap.nr = n + 1 := ⟨heap.nr - 1, by omega⟩
  rw [minHeapPop_pos less hnr]
  refine ((minHeapSiftDown_elems hless heap.lastToRoot 0).cons _).trans ?_
  simp only [HeapArray.lastToRoot, HeapArray.elems, hn, Nat.add_sub_cancel]
  cases n with
  | zero => exact .refl _
  | succ n =>
    obtain ⟨rest, hold, hnew⟩ := elems_update_head n heap.data (heap.data (n + 1))
    rw [hnew, elems_succ, hold]
    exact (List.perm_append_singleton _ _).symm.cons _

theorem minHeapPop_ordered {key' : α → β} (hless : Compares key' less) (h : heap.Ordered key)
    (hnr : 0 < heap.nr) (hsame : ∀ i, 0 < i → i < heap.nr → key' (heap.data i) = key (heap.data i)) :
    (minHeapPop less heap).1.Ordered key' := by
  rw [minHeapPop_pos less hnr]
  have hle : heap.lastToRoot.nr ≤ heap.nr := Nat.sub_le heap.nr 1
  refine minHeapSiftDown_spec _ hless 0 le_rfl (downOrder_root h hle fun i hi hlt => ?_)
  simp only [HeapArray.lastToRoot] at hlt ⊢
  rw [Function.update_of_ne (Nat.ne_of_gt hi)]
  exact hsame i hi (by omega)

theorem minHeapPopPush_spec (hless : Compares key less) (h : heap.Ordered key) (hnr : 0 < heap.nr) (x : α) :
    (minHeapPopPush less heap x).Ordered key ∧
      ∃ rest, heap.elems = heap.data 0 :: rest ∧ (minHeapPopPush less heap x).elems.Perm (x :: rest) := by
  obtain ⟨n, hn⟩ : ∃ n, heap.nr = n + 1 := ⟨heap.nr - 1, by omega⟩
  have hdown : DownOrder key heap.nr 0 0 (Function.update heap.data 0 x) :=
    downOrder_root h le_rfl fun i hi _ => by rw [Function.update_of_ne (Nat.ne_of_gt hi)]
  obtain ⟨rest, hold, hnew⟩ := elems_update_head n heap.data x
  refine ⟨minHeapSiftDown_spec { heap with data := Function.update heap.data 0 x } hless 0
    le_rfl hdown, rest, ?_, (minHeapSiftDown_elems hless _ 0).trans ?_⟩
  · rw [HeapArray.elems, hn, hold]
  · rw [HeapArray.elems, hn, hnew]

theorem minHeapPush_spec (hless : Compares key less) (h : heap.Ordered key) (hfull : heap.nr < heap.size)
    (x : α) : (minHeapPush less heap x).1.Ordered key ∧
      (minHeapPush less heap x).1.elems.Perm (x :: heap.elems) ∧
      (minHeapPush less heap x).1.nr = heap.nr + 1 ∧ (minHeapPush less heap x).1.size = heap.size := by
  have hup : UpOrder key (heap.nr + 1) heap.nr (Function.update heap.data heap.nr x) := by
    refine ⟨fun i hi hn hne => ?_, fun _ i hi hn hpi => ?_⟩
    · have hlt := parent_lt hi
      rw [Function.update_of_ne (by omega), Function.update_of_ne hne]
      exact h i hi (by omega) (Nat.zero_le _)
    · have hlt := parent_lt hi
      omega
  rw [minHeapPush, if_neg (by omega)]
  obtain ⟨hord, hperm⟩ := siftUp_spec hless heap.nr le_rfl (by omega) hup
  refine ⟨hord, hperm.trans ?_, rfl, rfl⟩
  rw [elems_update_last]
  exact List.perm_append_comm

theorem swapAt_last (hn : heap.nr = n + 1) (idx : Nat) (hidx : idx < n) :
    (heap.data idx :: BinaryHeap.elems n (swapAt heap.data idx n)).Perm heap.elems := by
  have hperm : (BinaryHeap.elems (n + 1) (swapAt heap.data idx n)).Perm (BinaryHeap.elems (n + 1) heap.data) :=
    elems_swapAt (by omega) (Nat.lt_succ_self n)
  rw [elems_succ, swapAt_right] at hperm
  rw [HeapArray.elems, hn]
  exact (List.perm_append_singleton _ _).symm.trans hperm

/-- An element that came from elsewhere is before its parent, or it may only go down. -/
theorem minHeapDel_spec (hless : Compares key less) (h : heap.Ordered key) {idx : Nat} (hidx : idx < heap.nr) :
    (minHeapDel less heap idx).1.Ordered key ∧
      (heap.data idx :: (minHeapDel less heap idx).1.elems).Perm heap.elems ∧
      (minHeapDel less heap idx).1.nr = heap.nr - 1 ∧ (minHeapDel less heap idx).1.size = heap.size := by
  obtain ⟨n, hn⟩ : ∃ n, heap.nr = n + 1 := ⟨heap.nr - 1, by omega⟩
  have hin : ∀ i, 0 < i → i < n → key (heap.data (parent i)) ≤ key (heap.data i) :=
    fun i hi hlt => h i hi (by omega) (Nat.zero_le _)
  rw [minHeapDel, if_neg (by omega)]
  simp only [hn, Nat.add_sub_cancel]
  by_cases hlast : idx = n
  · rw [if_pos hlast]
    refine ⟨fun i hi hlt _ => hin i hi hlt, ?_, rfl, rfl⟩
    simp only [HeapArray.elems, hn, hlast, elems_succ]
    exact (List.perm_append_singleton _ _).symm
  · rw [if_neg hlast]
    have hsame : ∀ i, i < n → i ≠ idx → swapAt heap.data idx n i = heap.data i :=
      fun i hi hne => swapAt_ne heap.data hne (Nat.ne_of_lt hi)
    have hbypass : 0 < idx → ∀ i, 0 < i → i < n → parent i = idx →
        key (swapAt heap.data idx n (parent idx)) ≤ key (swapAt heap.data idx n i) := by
      intro hpos i hi hlt hpi
      have hup := parent_lt hpos
      have hdown := parent_lt hi
      rw [hsame _ (by omega) (by omega), hsame i hlt (by omega)]
      refine le_trans (hin idx hpos (by omega)) ?_
      rw [← hpi]
      exact hin i hi hlt
    have hoff : ∀ i, 0 < i → i < n → i ≠ idx → parent i ≠ idx →
        key (swapAt heap.data idx n (parent i)) ≤ key (swapAt heap.data idx n i) := by
      intro i hi hlt hne hpne
      have hup := parent_lt hi
      rw [hsame _ (by omega) hpne, hsame i hlt hne]
      exact hin i hi hlt
    -- sifted up: the order is restored, or nothing moved and the element may only go down
    have hsift : ∃ data, siftUp less idx idx (swapAt heap.data idx n) = data ∧
        DownOrder key n 0 idx data ∧
        (BinaryHeap.elems n data).Perm (BinaryHeap.elems n (swapAt heap.data idx n)) := by
      refine ⟨_, rfl, ?_⟩
      by_cases hup : 0 < idx ∧ key (swapAt heap.data idx n idx) ≤ key (swapAt heap.data idx n (parent idx))
      · have horder : UpOrder key n idx (swapAt heap.data idx n) := by
          refine ⟨fun i hi hlt hne => ?_, hbypass⟩
          by_cases hpi : parent i = idx
          · rw [hpi]
            exact le_trans hup.2 (hbypass hup.1 i hi hlt hpi)
          · exact hoff i hi hlt hne hpi
        obtain ⟨hord, hperm⟩ := siftUp_spec hless idx le_rfl (by omega) horder
        exact ⟨hord.down_any idx, hperm⟩
      · have hstay : siftUp less idx idx (swapAt heap.data idx n) = swapAt heap.data idx n := by
          cases idx with
          | zero => rfl
          | succ j =>
            have hlt : key (swapAt heap.data (j + 1) n (parent (j + 1))) <
                key (swapAt heap.data (j + 1) n (j + 1)) :=
              not_le.mp fun hle => hup ⟨Nat.succ_pos j, hle⟩
            rw [siftUp, if_pos (Nat.succ_ne_zero j), if_pos ((hless _ _).mpr hlt)]
        rw [hstay]
        refine ⟨⟨fun i hi hlt _ hpi => ?_, fun hpos _ => hbypass hpos⟩, .refl _⟩
        by_cases hne : i = idx
        · subst hne
          exact le_of_lt (not_le.mp fun hle => hup ⟨hi, hle⟩)
        · exact hoff i hi hlt hne hpi
    obtain ⟨data, hdata, hdown, hperm⟩ := hsift
    simp only [minHeapSiftUp, hdata]
    refine ⟨minHeapSiftDown_spec ⟨n, heap.size, data⟩ hless idx (Nat.zero_le _) hdown,
      ?_, rfl, rfl⟩
    exact (((minHeapSiftDown_elems hless ⟨n, heap.size, data⟩ idx).trans hperm).cons _).trans
      (swapAt_last hn idx (by omega))

end Order

section Queue

/-- `less_than`: the callback compares times. -/
def lessThan (key : α → Nat) (x y : α) : Bool := decide (key x < key y)

theorem lessThan_compares (key : α → Nat) : Compares key (lessThan key) := by
  intro x y
  simp [lessThan]

variable {key : α → Nat} {less : α → α → Bool} {heap heap' : HeapArray α} {size : Nat}

inductive Op (α : Type*) where
  | push (element : α)
  | pop
  | popPush (element : α)
  | del (idx : Nat)

def HeapArray.step (less : α → α → Bool) (heap : HeapArray α) : Op α → HeapArray α
  | .push element => (minHeapPush less heap element).1
  | .pop => (minHeapPop less heap).1
  | .popPush element => minHeapPopPush less heap element
  | .del idx => (minHeapDel less heap idx).1

/-- What the callers see to. -/
def Op.Allowed (heap : HeapArray α) : Op α → Prop
  | .push _ | .pop => True
  | .popPush _ => 0 < heap.nr
  | .del idx => idx < heap.nr

/-- The heaps that operations make of an array that `min_heapify_all` puts in order. -/
inductive Built (less : α → α → Bool) (size nr : Nat) (data : Nat → α) :
    List (Op α) → HeapArray α → Prop where
  | init : Built less size nr data [] (minHeapifyAll less ⟨nr, size, data⟩)
  | op {ops : List (Op α)} {heap : HeapArray α} (h : Built less size nr data ops heap) (op : Op α)
      (hop : op.Allowed heap) : Built less size nr data (ops ++ [op]) (heap.step less op)

/-- A least element of a multiset is taken out of it. -/
def TakesLeast (key : α → Nat) (m m' : Multiset α) : Prop :=
  ∃ x, m = x ::ₘ m' ∧ ∀ y ∈ m, key x ≤ key y

/-- What a heap is for: a multiset of bounded size that gives its least elements. -/
inductive QueueStep (key : α → Nat) (size : Nat) : Op α → Multiset α → Multiset α → Prop where
  | push (x : α) (m : Multiset α) (h : m.card < size) : QueueStep key size (.push x) m (x ::ₘ m)
  | full (x : α) (m : Multiset α) (h : size ≤ m.card) : QueueStep key size (.push x) m m
  | pop {m m' : Multiset α} (h : TakesLeast key m m') : QueueStep key size .pop m m'
  | empty : QueueStep key size .pop 0 0
  | popPush (x : α) {m m' : Multiset α} (h : TakesLeast key m m') :
      QueueStep key size (.popPush x) m (x ::ₘ m')
  | del (idx : Nat) (x : α) (m : Multiset α) : QueueStep key size (.del idx) (x ::ₘ m) m

inductive QueueRun (key : α → Nat) (size : Nat) (m₀ : Multiset α) : List (Op α) → Multiset α → Prop where
  | init : QueueRun key size m₀ [] m₀
  | op {ops : List (Op α)} {m m' : Multiset α} {op : Op α} (h : QueueRun key size m₀ ops m)
      (hop : QueueStep key size op m m') : QueueRun key size m₀ (ops ++ [op]) m'

theorem HeapArray.card_elems (heap : HeapArray α) : (heap.elems : Multiset α).card = heap.nr := by
  simp [HeapArray.elems, BinaryHeap.elems]

/-- The root is what `min_heap_peek` and `min_heap_pop` give. -/
theorem takesLeast_root (h : heap.Ordered key) {rest : List α}
    (hperm : (heap.data 0 :: rest).Perm heap.elems) : TakesLeast key heap.elems rest := by
  refine ⟨heap.data 0, ?_, ?_⟩
  · rw [Multiset.cons_coe]
    exact (Multiset.coe_eq_coe.mpr hperm).symm
  · intro y hy
    obtain ⟨i, hi, rfl⟩ := List.mem_map.mp (Multiset.mem_coe.mp hy)
    exact OrderedFrom.root_le h (List.mem_range.mp hi)

/-- One operation on a heap in order. -/
theorem step_queue (hless : Compares key less) (h : heap.Ordered key) (hfit : heap.nr ≤ heap.size)
    {op : Op α} (hop : op.Allowed heap) :
    (heap.step less op).Ordered key ∧ (heap.step less op).nr ≤ (heap.step less op).size ∧
      (heap.step less op).size = heap.size ∧
      QueueStep key heap.size op heap.elems (heap.step less op).elems := by
  cases op with
  | push x =>
    by_cases hfull : heap.nr < heap.size
    · obtain ⟨hord, hperm, hnr, hsize⟩ := minHeapPush_spec hless h hfull x
      simp only [HeapArray.step]
      refine ⟨hord, by omega, hsize, ?_⟩
      rw [Multiset.coe_eq_coe.mpr hperm, ← Multiset.cons_coe]
      exact .push x _ (by rw [HeapArray.card_elems]; exact hfull)
    · have hstep : heap.step less (.push x) = heap := by
        rw [HeapArray.step, minHeapPush, if_pos (by omega)]
      rw [hstep]
      exact ⟨h, hfit, rfl, .full x _ (by rw [HeapArray.card_elems]; omega)⟩
  | pop =>
    by_cases hnr : 0 < heap.nr
    · have hord := minHeapPop_ordered hless h hnr fun _ _ _ => rfl
      have hperm := minHeapPop_elems _ hless hnr
      have hlast : (minHeapPop less heap).1.nr = heap.nr - 1 ∧ (minHeapPop less heap).1.size = heap.size := by
        rw [minHeapPop_pos less hnr]
        exact ⟨rfl, rfl⟩
      simp only [HeapArray.step]
      exact ⟨hord, by omega, hlast.2, .pop (takesLeast_root h hperm)⟩
    · have hstep : heap.step less .pop = heap := by
        rw [HeapArray.step, minHeapPop, if_pos (by omega)]
      have hnone : heap.elems = [] := by
        rw [HeapArray.elems, show heap.nr = 0 by omega]
        rfl
      rw [hstep, hnone]
      exact ⟨h, hfit, rfl, .empty⟩
  | popPush x =>
    obtain ⟨hord, rest, hold, hperm⟩ := minHeapPopPush_spec hless h hop x
    simp only [HeapArray.step]
    refine ⟨hord, hfit, rfl, ?_⟩
    rw [Multiset.coe_eq_coe.mpr hperm, ← Multiset.cons_coe]
    exact .popPush x (takesLeast_root h (List.Perm.of_eq hold.symm))
  | del idx =>
    obtain ⟨hord, hperm, hnr', hsize⟩ := minHeapDel_spec hless h hop
    simp only [HeapArray.step]
    refine ⟨hord, by omega, hsize, ?_⟩
    rw [← Multiset.coe_eq_coe.mpr hperm, ← Multiset.cons_coe]
    exact .del idx _ _

/-- The heap is a priority queue: whatever is done to it, it stays in order and its elements
are those of a multiset from which the operations take least elements. -/
theorem min_heap_is_queue (hless : Compares key less) {nr : Nat} {data : Nat → α} (hnr : nr ≤ size)
    {ops : List (Op α)} (h : Built less size nr data ops heap) :
    heap.Ordered key ∧ heap.nr ≤ size ∧
      QueueRun key size (BinaryHeap.elems nr data) ops heap.elems ∧
      ∀ x, minHeapPeek heap = some x → x ∈ heap.elems ∧ ∀ y ∈ heap.elems, key x ≤ key y := by
  have hrun : heap.Ordered key ∧ heap.nr ≤ size ∧ heap.size = size ∧
      QueueRun key size (BinaryHeap.elems nr data) ops heap.elems := by
    induction h with
    | init =>
      obtain ⟨hord, hperm⟩ := minHeapifyAll_spec hless ⟨nr, size, data⟩
      have hsame : (minHeapifyAll less ⟨nr, size, data⟩).nr = nr ∧
          (minHeapifyAll less ⟨nr, size, data⟩).size = size := heapifyFrom_same less _ _
      refine ⟨hord, hsame.1.trans_le hnr, hsame.2, ?_⟩
      rw [Multiset.coe_eq_coe.mpr hperm]
      exact .init
    | @op ops heap _ op hop ih =>
      obtain ⟨hord, hfit, hsize, hq⟩ := ih
      obtain ⟨hord', hfit', hsize', hstep⟩ := step_queue hless hord (hsize ▸ hfit) hop
      refine ⟨hord', ?_, hsize'.trans hsize, hq.op (hsize ▸ hstep)⟩
      rw [← hsize, ← hsize']
      exact hfit'
  obtain ⟨hord, hfit, -, hq⟩ := hrun
  refine ⟨hord, hfit, hq, fun x hx => ?_⟩
  unfold minHeapPeek at hx
  split at hx
  · rename_i hne
    cases hx
    refine ⟨List.mem_map.mpr ⟨0, List.mem_range.mpr (by omega), rfl⟩, fun y hy => ?_⟩
    obtain ⟨i, hi, rfl⟩ := List.mem_map.mp hy
    exact OrderedFrom.root_le hord (List.mem_range.mp hi)
  · cases hx

/-- The least comes out, and another element goes in. -/
theorem min_heap_is_queue_two : ∃ heap : HeapArray Nat,
    heap.elems = [1, 5] ∧ heap.Ordered id ∧ heap.nr ≤ 4 ∧
      QueueRun id 4 (BinaryHeap.elems 2 fun i => 5 - 3 * i) [.pop, .push 1] heap.elems := by
  have hbuilt : Built (lessThan id) 4 2 (fun i => 5 - 3 * i) [.pop, .push 1] _ :=
    (Built.init.op .pop trivial).op (.push 1) trivial
  obtain ⟨hord, hfit, hq, -⟩ := min_heap_is_queue (lessThan_compares id) (by decide) hbuilt
  exact ⟨_, by decide, hord, hfit, hq⟩

end Queue

section Interface

/-- An array with the elements of the list. -/
def load : List α → Option (HeapArray α)
  | [] => none
  | x :: xs => some ⟨xs.length + 1, xs.length + 1, fun i => (x :: xs).getD i x⟩

def onList (f : HeapArray α → HeapArray α) (xs : List α) : List α :=
  ((load xs).map fun heap => (f heap).elems).getD []

def ListOrdered (key : α → Nat) (xs : List α) : Prop :=
  ∀ heap, load xs = some heap → heap.Ordered key

variable {key key' : α → Nat} {f : HeapArray α → HeapArray α} {x : α} {xs : List α}

theorem load_elems {heap : HeapArray α} (h : load xs = some heap) : heap.elems = xs := by
  cases xs with
  | nil => cases h
  | cons x xs =>
    cases h
    refine List.ext_getElem (by simp [HeapArray.elems, BinaryHeap.elems]) fun i hi hi' => ?_
    simp only [HeapArray.elems, BinaryHeap.elems, List.getElem_map, List.getElem_range]
    exact List.getD_eq_getElem _ _ hi'

theorem onList_cons (f : HeapArray α → HeapArray α) (x : α) (xs : List α) : onList f (x :: xs) =
    (f ⟨xs.length + 1, xs.length + 1, fun i => (x :: xs).getD i x⟩).elems := rfl

/-- The order of a list is that of the array it was read from. -/
theorem listOrdered_elems {heap : HeapArray α} (h : heap.Ordered key) : ListOrdered key heap.elems := by
  intro heap' hload i hi hn _
  have helems := load_elems hload
  have hnr : heap'.nr = heap.nr := by
    rw [← heap'.card_elems, helems, heap.card_elems]
  have hdata : ∀ i, i < heap.nr → heap'.data i = heap.data i := by
    intro i hi
    have hget := congrArg (fun xs => xs[i]?) helems
    simpa [HeapArray.elems, BinaryHeap.elems, hnr, hi] using hget
  have hlt := parent_lt hi
  rw [hdata i (by omega), hdata _ (by omega)]
  exact h i hi (by omega) (Nat.zero_le _)

/-- Behind the head of the list the keys are those of the tail. -/
theorem key_tail (hkey : ∀ y ∈ xs, key' y = key y) (i : Nat) (hi : 0 < i) (hn : i < xs.length + 1) :
    key' ((x :: xs).getD i x) = key ((x :: xs).getD i x) := by
  obtain ⟨j, rfl⟩ : ∃ j, i = j + 1 := ⟨i - 1, by omega⟩
  rw [List.getD_cons_succ, List.getD_eq_getElem _ _ (by omega)]
  exact hkey _ (List.getElem_mem _)

/-- The min-heap of min_heap.h, as `order_process` uses it. -/
def minHeap : Heap.MinHeap α where
  heapifyAll := fun key => onList (minHeapifyAll (lessThan key))
  siftDown := fun key => onList fun heap => minHeapSiftDown (lessThan key) heap 0
  pop := fun key => onList fun heap => (minHeapPop (lessThan key) heap).1
  Ordered := ListOrdered
  root_le := by
    intro key x xs h y hy
    obtain ⟨i, hi, rfl⟩ := List.mem_iff_getElem.mp hy
    have hroot := OrderedFrom.root_le (h _ rfl) (show i + 1 < xs.length + 1 by omega)
    simpa [List.getD_eq_getElem, hi] using hroot
  heapifyAll_perm := by
    intro key xs
    cases xs with
    | nil => exact .refl _
    | cons x xs =>
      rw [onList_cons]
      exact (minHeapifyAll_spec (lessThan_compares key) _).2.trans (.of_eq (load_elems rfl))
  heapifyAll_ordered := by
    intro key xs
    cases xs with
    | nil => simp [onList, load, ListOrdered]
    | cons x xs =>
      rw [onList_cons]
      exact listOrdered_elems (minHeapifyAll_spec (lessThan_compares key) _).1
  siftDown_perm := by
    intro key xs
    cases xs with
    | nil => exact .refl _
    | cons x xs =>
      rw [onList_cons]
      exact (minHeapSiftDown_elems (lessThan_compares key) _ 0).trans (.of_eq (load_elems rfl))
  siftDown_ordered := by
    intro key key' x xs h hkey
    rw [onList_cons]
    exact listOrdered_elems (minHeapSiftDown_spec _ (lessThan_compares key') 0 le_rfl
      (downOrder_root (h _ rfl) le_rfl (key_tail hkey)))
  pop_perm := by
    intro key x xs
    rw [onList_cons]
    have hperm := minHeapPop_elems ⟨xs.length + 1, xs.length + 1, fun i => (x :: xs).getD i x⟩
      (lessThan_compares key) (Nat.succ_pos _)
    have hload : (⟨xs.length + 1, xs.length + 1, fun i => (x :: xs).getD i x⟩ : HeapArray α).elems = x :: xs :=
      load_elems rfl
    rw [hload] at hperm
    exact hperm.cons_inv
  pop_ordered := by
    intro key key' x xs h hkey
    rw [onList_cons]
    exact listOrdered_elems (minHeapPop_ordered (lessThan_compares key') (h _ rfl) (Nat.succ_pos _)
      (key_tail hkey))

end Interface

end PerfProf.MinHeap
