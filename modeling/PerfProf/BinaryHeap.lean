import Mathlib.Algebra.Group.End
import Mathlib.Data.List.Nodup
import Mathlib.Logic.Relation
import Mathlib.Order.Basic

/-! The order of an implicit binary heap: element `i` has the children `2 * i + 1` and
`2 * i + 2`. The array is a function on indices, of which the first `n` count. One element
may be out of place; carrying it down a path of least children, or up to its ancestors,
restores the order. -/
namespace PerfProf.BinaryHeap
open Equiv
variable {α β : Type*} [LinearOrder β] {key : α → β} {data data' : Nat → α}
  {n lo a b c i p q : Nat}

def parent (i : Nat) : Nat := (i - 1) / 2

/-- The elements below `lo` and its successors are not before their parents. -/
def OrderedFrom (key : α → β) (n lo : Nat) (data : Nat → α) : Prop :=
  ∀ i, 0 < i → i < n → lo ≤ parent i → key (data (parent i)) ≤ key (data i)

def swapAt (data : Nat → α) (i j : Nat) : Nat → α := data ∘ swap i j

/-- The elements of the array. -/
def elems (n : Nat) (data : Nat → α) : List α := (List.range n).map data

section Index

theorem parent_lt (h : 0 < i) : parent i < i := by
  unfold parent
  omega

theorem parent_eq (h : 0 < i) : parent i = p ↔ i = 2 * p + 1 ∨ i = 2 * p + 2 := by
  unfold parent
  omega

end Index

section Swap

theorem swapAt_left (data : Nat → α) (i j : Nat) : swapAt data i j i = data j :=
  congrArg data (swap_apply_left i j)

theorem swapAt_right (data : Nat → α) (i j : Nat) : swapAt data i j j = data i :=
  congrArg data (swap_apply_right i j)

theorem swapAt_ne (data : Nat → α) {i j k : Nat} (hi : k ≠ i) (hj : k ≠ j) :
    swapAt data i j k = data k :=
  congrArg data (swap_apply_of_ne_of_ne hi hj)

theorem elems_swapAt {i j : Nat} (hi : i < n) (hj : j < n) :
    (elems n (swapAt data i j)).Perm (elems n data) := by
  have hrange : ((List.range n).map (swap i j)).Perm (List.range n) := by
    refine (List.perm_ext_iff_of_nodup ?_ List.nodup_range).mpr fun k => ?_
    · exact List.nodup_range.map (swap i j).injective
    · have hback : ∀ k, k < n → swap i j k < n := by
        intro k hk
        by_cases hki : k = i
        · rw [hki, swap_apply_left]
          exact hj
        · by_cases hkj : k = j
          · rw [hkj, swap_apply_right]
            exact hi
          · rw [swap_apply_of_ne_of_ne hki hkj]
            exact hk
      simp only [List.mem_map, List.mem_range]
      refine ⟨?_, fun hk => ⟨swap i j k, hback k hk, swap_apply_self i j k⟩⟩
      rintro ⟨l, hl, rfl⟩
      exact hback l hl
  have hmap := hrange.map data
  rw [List.map_map] at hmap
  exact hmap

theorem elems_congr (h : ∀ i, i < n → data' i = data i) : elems n data' = elems n data :=
  List.map_congr_left fun i hi => h i (List.mem_range.mp hi)

theorem elems_succ (n : Nat) (data : Nat → α) : elems (n + 1) data = elems n data ++ [data n] := by
  simp [elems, List.range_succ]

end Swap

section Down

/-- Element `a` may be after its children, but nothing else is out of place. -/
structure DownOrder (key : α → β) (n lo a : Nat) (data : Nat → α) : Prop where
  off : ∀ i, 0 < i → i < n → lo ≤ parent i → parent i ≠ a → key (data (parent i)) ≤ key (data i)
  bypass : 0 < a → lo ≤ parent a → ∀ i, 0 < i → i < n → parent i = a →
    key (data (parent a)) ≤ key (data i)

/-- `q` is a least child of `p`. -/
structure LeastChild (key : α → β) (n : Nat) (data : Nat → α) (p q : Nat) : Prop where
  pos : 0 < q
  lt : q < n
  parent : parent q = p
  least : ∀ i, 0 < i → i < n → BinaryHeap.parent i = p → key (data q) ≤ key (data i)

/-- Going up from `b` to `a`, every element on the way changes places with `c`. -/
def rotation (a c b : Nat) : Perm Nat :=
  if h : b ≤ a then 1 else swap (parent b) c * rotation a c (parent b)
termination_by b
decreasing_by exact parent_lt (by omega)

theorem OrderedFrom.down (h : OrderedFrom key n (lo + 1) data) : DownOrder key n lo lo data where
  off := fun i hi hn hlo hne => h i hi hn (Nat.lt_of_le_of_ne hlo (Ne.symm hne))
  bypass := fun ha hlo => absurd (parent_lt ha) (Nat.not_lt.mpr hlo)

theorem OrderedFrom.down_any (h : OrderedFrom key n lo data) (a : Nat) : DownOrder key n lo a data where
  off := fun i hi hn hlo _ => h i hi hn hlo
  bypass := by
    intro ha hlo i hi hn hpi
    have hlt := parent_lt hi
    refine le_trans (h a ha (by omega) hlo) ?_
    have hia := h i hi hn (by rw [hpi]; exact Nat.le_of_lt (Nat.lt_of_le_of_lt hlo (parent_lt ha)))
    rw [hpi] at hia
    exact hia

theorem rotation_self (a c : Nat) : rotation a c a = 1 := by
  rw [rotation, dif_pos le_rfl]

theorem rotation_step (h : a < b) :
    rotation a c b = swap (parent b) c * rotation a c (parent b) := by
  rw [rotation, dif_neg (by omega)]

theorem LeastChild.lt_child (h : LeastChild key n data p q) : p < q :=
  h.parent ▸ parent_lt h.pos

/-- A way down by least children. -/
def Descends (key : α → β) (n : Nat) (data : Nat → α) : Nat → Nat → Prop :=
  Relation.ReflTransGen (LeastChild key n data)

theorem Descends.le (h : Descends key n data a b) : a ≤ b := by
  induction h with
  | refl => exact le_rfl
  | tail _ hchild ih => exact Nat.le_of_lt (Nat.lt_of_le_of_lt ih hchild.lt_child)

/-- The topmost exchange first. -/
theorem rotation_head (hq : LeastChild key n data a q) (h : Descends key n data q b) :
    rotation a c b = rotation q c b * swap a c := by
  have hlt := hq.lt_child
  induction h with
  | refl => rw [rotation_step hlt, hq.parent, rotation_self, rotation_self, one_mul, mul_one]
  | @tail p b h hchild ih =>
    have hle := Descends.le h
    have hpb := hchild.lt_child
    rw [rotation_step (show a < b by omega), hchild.parent, ih, rotation_step (show q < b by omega),
      hchild.parent, mul_assoc]

theorem rotation_above (h : Descends key n data q b) (hbc : b ≤ c) (ha : a < q) :
    rotation q c b a = a := by
  induction h with
  | refl => rw [rotation_self, Perm.one_apply]
  | @tail p b h hchild ih =>
    have hle := Descends.le h
    have hpb := hchild.lt_child
    rw [rotation_step (by omega), hchild.parent, Perm.mul_apply, ih (by omega),
      swap_apply_of_ne_of_ne (by omega) (by omega)]

theorem rotation_last (h : Descends key n data q b) (hbc : b ≤ c) :
    b = q ∨ rotation q c b c = q := by
  induction h with
  | refl => exact Or.inl rfl
  | @tail p b h hchild ih =>
    have hle := Descends.le h
    have hpb := hchild.lt_child
    refine Or.inr ?_
    rw [rotation_step (by omega), hchild.parent, Perm.mul_apply]
    obtain rfl | hlast := ih (by omega)
    · rw [rotation_self, Perm.one_apply, swap_apply_right]
    · by_cases hqp : q = p
      · subst hqp
        rw [rotation_self, Perm.one_apply, swap_apply_right]
      · rw [hlast, swap_apply_of_ne_of_ne hqp (by omega)]

/-- Sifting from `a` to `c` is one exchange with the next element, and then sifting from
there. -/
theorem rotation_swap (hq : LeastChild key n data a q) (h : Descends key n data q c) :
    rotation a c c = swap a q * rotation q c c := by
  have hlt := hq.lt_child
  have hlast : rotation q c c c = q := by
    obtain rfl | hlast := rotation_last h le_rfl
    · rw [rotation_self, Perm.one_apply]
    · exact hlast
  rw [rotation_head hq h, mul_swap_eq_swap_mul, rotation_above h le_rfl hlt, hlast]

/-- On the way down nothing is before what was passed. -/
theorem DownOrder.le_key (ho : DownOrder key n lo a data) (hlo : lo ≤ a)
    (hq : LeastChild key n data a q) (h : Descends key n data q c) : key (data q) ≤ key (data c) := by
  have hlt := hq.lt_child
  induction h with
  | refl => exact le_rfl
  | @tail p b h hchild ih =>
    have hle := Descends.le h
    have hstep := ho.off b hchild.pos hchild.lt (by rw [hchild.parent]; omega)
      (by rw [hchild.parent]; omega)
    rw [hchild.parent] at hstep
    exact le_trans ih hstep

/-- One exchange moves the misplaced element to its least child. -/
theorem DownOrder.exchange (ho : DownOrder key n lo a data) (hq : LeastChild key n data a q)
    (hle : key (data q) ≤ key (data a)) : DownOrder key n lo q (swapAt data a q) := by
  have hlt := hq.lt_child
  have hsame : ∀ i, i ≠ a → i ≠ q → swapAt data a q i = data i := fun i ha hq => swapAt_ne data ha hq
  refine ⟨fun i hi hn hlo hne => ?_, fun _ hlo i hi hn hpi => ?_⟩
  · have hpar := parent_lt hi
    by_cases hpa : parent i = a
    · rw [hpa, swapAt_left]
      by_cases hiq : i = q
      · rw [hiq, swapAt_right]
        exact hle
      · rw [hsame i (by omega) hiq]
        exact hq.least i hi hn hpa
    · by_cases hia : i = a
      · subst hia
        rw [swapAt_left, hsame _ hpa (by omega)]
        exact ho.bypass hi hlo q hq.pos hq.lt hq.parent
      · have hiq : i ≠ q := by
          rintro rfl
          exact hpa hq.parent
        rw [hsame _ hpa hne, hsame i hia hiq]
        exact ho.off i hi hn hlo hpa
  · have hpar := parent_lt hi
    rw [hq.parent] at hlo ⊢
    rw [swapAt_left, hsame i (by omega) (by omega), ← hpi]
    exact ho.off i hi hn (by omega) (by omega)

/-- Where nothing below is before the misplaced element the order is restored. -/
theorem DownOrder.settled (ho : DownOrder key n lo a data)
    (hend : ∀ i, 0 < i → i < n → parent i = a → key (data a) ≤ key (data i)) :
    OrderedFrom key n lo data := by
  intro i hi hn hlo
  by_cases hpa : parent i = a
  · rw [hpa]
    exact hend i hi hn hpa
  · exact ho.off i hi hn hlo hpa

/-- Sifting down restores the order, if it ends above all that is after the element. -/
theorem DownOrder.rotate (ho : DownOrder key n lo a data) (hlo : lo ≤ a)
    (h : Descends key n data a c) (hc : c = a ∨ key (data c) ≤ key (data a))
    (hend : ∀ i, 0 < i → i < n → parent i = c → key (data a) ≤ key (data i)) :
    OrderedFrom key n lo (data ∘ rotation a c c) := by
  -- the way down is that of the array as it was; what is still to come of it is unchanged
  have hmain : ∀ {p}, Descends key n data p c → ∀ data', (∀ i, p < i → data' i = data i) → lo ≤ p →
      DownOrder key n lo p data' → data' p = data a → OrderedFrom key n lo (data' ∘ rotation p c c) := by
    intro p hp
    induction hp using Relation.ReflTransGen.head_induction_on with
    | refl =>
      intro data' hsame _ ho' hx
      rw [rotation_self]
      refine ho'.settled fun i hi hn hpi => ?_
      rw [hx, hsame i (hpi ▸ parent_lt hi)]
      exact hend i hi hn hpi
    | @head p q hq hqc ih =>
      intro data' hsame hlop ho' hx
      have hlt := hq.lt_child
      have hdesc : ∀ {b}, Descends key n data q b → Descends key n data' q b := by
        intro b hb
        induction hb with
        | refl => exact .refl
        | @tail u v hu huv ih =>
          have hqu := Descends.le hu
          have huv' := huv.lt_child
          refine ih.tail ⟨huv.pos, huv.lt, huv.parent, fun i hi hn hpi => ?_⟩
          have hui : u < i := hpi ▸ parent_lt hi
          rw [hsame v (by omega), hsame i (by omega)]
          exact huv.least i hi hn hpi
      have hq' : LeastChild key n data' p q := by
        refine ⟨hq.pos, hq.lt, hq.parent, fun i hi hn hpi => ?_⟩
        rw [hsame q hlt, hsame i (hpi ▸ parent_lt hi)]
        exact hq.least i hi hn hpi
      have hqc' := hdesc hqc
      have hcq := Descends.le hqc'
      have hle : key (data' q) ≤ key (data' p) := by
        refine le_trans (ho'.le_key hlop hq' hqc') ?_
        rw [hsame c (by omega), hx]
        obtain rfl | hc := hc
        · exact le_rfl
        · exact hc
      rw [rotation_swap hq hqc]
      refine ih (swapAt data' p q) (fun i hi => ?_) (by omega) (ho'.exchange hq' hle) ?_
      · rw [swapAt_ne data' (by omega) (by omega), hsame i (by omega)]
      · rw [swapAt_right, hx]
  exact hmain h data (fun _ _ => rfl) hlo ho rfl

end Down

section Up

/-- Element `a` may be before its parent, but nothing else is out of place. -/
structure UpOrder (key : α → β) (n a : Nat) (data : Nat → α) : Prop where
  off : ∀ i, 0 < i → i < n → i ≠ a → key (data (parent i)) ≤ key (data i)
  bypass : 0 < a → ∀ i, 0 < i → i < n → parent i = a → key (data (parent a)) ≤ key (data i)

theorem UpOrder.exchange (ho : UpOrder key n a data) (ha : 0 < a) (hn : a < n)
    (hle : key (data a) ≤ key (data (parent a))) : UpOrder key n (parent a) (swapAt data a (parent a)) := by
  have hlt := parent_lt ha
  have hsame : ∀ i, i ≠ a → i ≠ parent a → swapAt data a (parent a) i = data i :=
    fun i hi hp => swapAt_ne data hi hp
  refine ⟨fun i hi hin hne => ?_, fun hp i hi hin hpi => ?_⟩
  · have hpar := parent_lt hi
    by_cases hia : i = a
    · rw [hia, swapAt_left, swapAt_right]
      exact hle
    · rw [hsame i hia hne]
      by_cases hpa : parent i = a
      · rw [hpa, swapAt_left]
        exact ho.bypass ha i hi hin hpa
      · by_cases hpp : parent i = parent a
        · rw [hpp, swapAt_right]
          refine le_trans hle ?_
          rw [← hpp]
          exact ho.off i hi hin hia
        · rw [hsame _ hpa hpp]
          exact ho.off i hi hin hia
  · have hpp := parent_lt hp
    have hpar := ho.off (parent a) hp (by omega) (by omega)
    rw [hsame (parent (parent a)) (by omega) (by omega)]
    by_cases hia : i = a
    · rw [hia, swapAt_left]
      exact hpar
    · rw [hsame i hia (by have := parent_lt hi; omega)]
      refine le_trans hpar ?_
      rw [← hpi]
      exact ho.off i hi hin hia

theorem UpOrder.settled (ho : UpOrder key n a data)
    (hend : 0 < a → key (data (parent a)) ≤ key (data a)) : OrderedFrom key n 0 data := by
  intro i hi hn _
  by_cases hia : i = a
  · subst hia
    exact hend hi
  · exact ho.off i hi hn hia

end Up

/-- The root is least. -/
theorem OrderedFrom.root_le (h : OrderedFrom key n 0 data) (hi : i < n) :
    key (data 0) ≤ key (data i) := by
  induction i using Nat.strongRecOn with
  | ind i ih =>
    by_cases h0 : i = 0
    · rw [h0]
    · have hpos : 0 < i := Nat.pos_of_ne_zero h0
      have hlt := parent_lt hpos
      exact le_trans (ih (parent i) hlt (by omega)) (h i hpos hi (Nat.zero_le _))

end PerfProf.BinaryHeap
