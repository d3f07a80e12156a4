import Mathlib.Data.List.Basic
import Mathlib.Data.List.Infix

/-! Circular buffers of `size` cells with one cell left free, after circ_buf.h: the
index arithmetic, and `Holds`, which says that the cells from `tail` up to `head`
are a given list. A producer appends at `head`, a consumer takes from `tail`. -/
namespace PerfProf.Circ
variable {α : Type*}

/-- `CIRC_CNT`. The mask `size - 1` of an `int` is the remainder modulo a power of two. -/
def cnt (head tail : Int) (size : Nat) : Nat := ((head - tail) % size).toNat

/-- `CIRC_SPACE` -/
def space (head tail : Int) (size : Nat) : Nat := cnt tail (head+1) size

/-- `CIRC_CNT_TO_END` -/
def cntToEnd (head tail size : Nat) : Nat :=
  let toEnd := size - tail
  let n := (head + toEnd) % size
  if n < toEnd then n else toEnd

/-- `CIRC_SPACE_TO_END` -/
def spaceToEnd (head tail size : Nat) : Nat :=
  let toEnd := size - 1 - head
  let n := (toEnd + tail) % size
  if n ≤ toEnd then n else toEnd + 1

/-- `memcpy(&buf[dst], xs, ...)` -/
def memcpy (buf : Nat → α) (dst : Nat) (xs : List α) : Nat → α :=
  fun j => if dst ≤ j then (xs[j - dst]?).getD (buf j) else buf j

/-- The `n` cells that start at `src`. -/
def cells (buf : Nat → α) (src n : Nat) : List α := (List.range n).map fun i => buf (src + i)

/-- The `n` cells from `tail` on, around the end of the buffer. -/
def slice (buf : Nat → α) (size tail n : Nat) : List α :=
  (List.range n).map fun i => buf ((tail + i) % size)

theorem mod_wrap {a size : Nat} (h : a < 2 * size) :
    a % size = if a < size then a else a - size := by
  split
  · next hlt => exact Nat.mod_eq_of_lt hlt
  · next hge =>
    rw [Nat.mod_eq_sub_mod (by omega), Nat.mod_eq_of_lt (by omega)]

theorem cnt_eq {head tail size : Nat} (ht : tail ≤ size) :
    cnt head tail size = (head + (size - tail)) % size := by
  have hcast : ((head : Int) - tail) % size = ((head + (size - tail) : Nat) : Int) % size := by
    rw [show ((head + (size - tail) : Nat) : Int) = ((head : Int) - tail) + size by omega]
    exact (Int.add_emod_right _ _).symm
  rw [cnt, hcast, ← Int.natCast_emod, Int.toNat_natCast]

theorem space_eq {head tail size : Nat} (hh : head < size) (ht : tail < size) :
    space head tail size = size - 1 - cnt head tail size := by
  rw [space, show (head : Int) + 1 = ((head + 1 : Nat) : Int) by omega,
    cnt_eq (by omega), cnt_eq (by omega),
    mod_wrap (by omega), mod_wrap (by omega)]
  split <;> split <;> omega

theorem memcpy_inside (buf : Nat → α) {dst j : Nat} {xs : List α} (hlo : dst ≤ j)
    (hhi : j - dst < xs.length) : memcpy buf dst xs j = xs[j - dst] := by
  simp [memcpy, hlo, hhi]

theorem memcpy_outside (buf : Nat → α) {dst j : Nat} {xs : List α}
    (h : j < dst ∨ dst + xs.length ≤ j) : memcpy buf dst xs j = buf j := by
  unfold memcpy
  split
  · rw [List.getElem?_eq_none (by omega), Option.getD_none]
  · rfl

theorem memcpy_nil (buf : Nat → α) (dst : Nat) : memcpy buf dst [] = buf := by
  funext j
  exact memcpy_outside buf (by simp; omega)

@[simp] theorem length_slice (buf : Nat → α) (size tail n : Nat) :
    (slice buf size tail n).length = n := by
  simp [slice]

/-- The buffer between `tail` and `head` holds `xs`. -/
structure Holds (buf : Nat → α) (size head tail : Nat) (xs : List α) : Prop where
  head_lt : head < size
  tail_lt : tail < size
  count : cnt head tail size = xs.length
  read : slice buf size tail xs.length = xs

namespace Holds
variable {buf : Nat → α} {size head tail : Nat} {xs : List α}

theorem empty (buf : Nat → α) {size : Nat} (h : 0 < size) : Holds buf size 0 0 ([] : List α) where
  head_lt := h
  tail_lt := h
  count := by simp [cnt]
  read := by simp [slice]

theorem length_lt (h : Holds buf size head tail xs) : xs.length < size := by
  have h1 := h.head_lt
  have h2 := h.tail_lt
  rw [← h.count, cnt_eq (by omega)]
  exact Nat.mod_lt _ (by omega)

theorem space_eq (h : Holds buf size head tail xs) :
    space head tail size = size - 1 - xs.length := by
  rw [Circ.space_eq h.head_lt h.tail_lt, h.count]

theorem head_eq (h : Holds buf size head tail xs) : head = (tail + xs.length) % size := by
  have h1 := h.head_lt
  have h2 := h.tail_lt
  have h3 := h.count
  have h4 := h.length_lt
  rw [cnt_eq (by omega), mod_wrap (by omega)] at h3
  rw [mod_wrap (by omega)]
  split at h3 <;> split <;> omega

theorem getElem (h : Holds buf size head tail xs) {i : Nat} (hi : i < xs.length) :
    xs[i] = buf ((tail + i) % size) := by
  have hr : (slice buf size tail xs.length)[i]? = xs[i]? := by rw [h.read]
  rw [List.getElem?_eq_getElem (by simpa using hi), List.getElem?_eq_getElem hi] at hr
  simpa [slice] using (Option.some.inj hr).symm

/-- What lies contiguously at `tail` is the front of the queue. -/
theorem cells_eq (h : Holds buf size head tail xs) {n : Nat} (hn : n ≤ xs.length)
    (hend : tail + n ≤ size) : cells buf tail n = xs.take n := by
  apply List.ext_getElem
  · simp [cells, hn]
  · intro i h1 h2
    have hi : i < n := by simpa [cells] using h1
    rw [List.getElem_take, h.getElem (by omega), Nat.mod_eq_of_lt (by omega)]
    simp [cells]

theorem cntToEnd_eq (h : Holds buf size head tail xs) :
    cntToEnd head tail size = min xs.length (size - tail) := by
  have h1 := h.head_lt
  have h2 := h.tail_lt
  rw [← h.count, cnt_eq (by omega), cntToEnd]
  split <;> omega

theorem spaceToEnd_eq (h : Holds buf size head tail xs) :
    spaceToEnd head tail size = min (size - 1 - xs.length) (size - head) := by
  have h1 := h.head_lt
  have h2 := h.tail_lt
  rw [← h.count, cnt_eq (by omega), spaceToEnd]
  rw [mod_wrap (by omega), mod_wrap (by omega)]
  split <;> split <;> split <;> omega

theorem pop (h : Holds buf size head tail xs) {k : Nat} (hk : k ≤ xs.length) :
    Holds buf size head ((tail + k) % size) (xs.drop k) := by
  have h1 := h.head_lt
  have h2 := h.tail_lt
  have h3 := h.length_lt
  refine ⟨h1, Nat.mod_lt _ (by omega), ?_, ?_⟩
  · have hc := h.count
    rw [cnt_eq (by omega), mod_wrap (by omega)] at hc
    have hlt : (tail + k) % size < size := Nat.mod_lt _ (by omega)
    rw [cnt_eq (by omega), mod_wrap (by omega), mod_wrap (by omega),
      List.length_drop]
    split at hc <;> split <;> split <;> omega
  · apply List.ext_getElem
    · simp
    · intro i hi1 hi2
      have hi : k + i < xs.length := by
        rw [List.length_drop] at hi2
        omega
      rw [List.getElem_drop, h.getElem hi]
      simp only [slice, List.getElem_map, List.getElem_range]
      rw [Nat.mod_add_mod, Nat.add_assoc]

/-- A copy at `head` in two parts, the second one from cell 0 on, appends to the queue. The
first part may be short of the end of the buffer only when it is the whole copy. -/
theorem push (h : Holds buf size head tail xs) {ys : List α} {k : Nat}
    (hfit : ys.length ≤ space head tail size) (hk : k ≤ ys.length) (hend : head + k ≤ size)
    (hpart : k = ys.length ∨ head + k = size) :
    Holds (memcpy (memcpy buf head (ys.take k)) 0 (ys.drop k)) size
      ((head + ys.length) % size) tail (xs ++ ys) := by
  have h1 := h.head_lt
  have h2 := h.tail_lt
  have h3 := h.length_lt
  have hhead := h.head_eq
  rw [h.space_eq] at hfit
  rw [mod_wrap (by omega)] at hhead
  refine ⟨Nat.mod_lt _ (by omega), h2, ?_, ?_⟩
  · have hlt : (head + ys.length) % size < size := Nat.mod_lt _ (by omega)
    rw [cnt_eq (by omega), List.length_append]
    rw [mod_wrap (show head + ys.length < 2 * size by omega)]
    rw [mod_wrap (by split <;> omega)]
    split at hhead <;> split <;> split <;> omega
  · apply List.ext_getElem
    · simp
    · intro i hi1 hi2
      have hi : i < xs.length + ys.length := by simpa using hi2
      simp only [slice, List.getElem_map, List.getElem_range]
      rw [mod_wrap (by omega)]
      by_cases hold : i < xs.length
      · rw [List.getElem_append_left hold, h.getElem hold, mod_wrap (by omega)]
        rw [memcpy_outside _ (by simp only [List.length_drop]; split at hhead <;> split <;> omega),
          memcpy_outside _ (by simp only [List.length_take]; split at hhead <;> split <;> omega)]
      · rw [List.getElem_append_right (by omega)]
        by_cases hfirst : i - xs.length < k
        · have hpos : (if tail + i < size then tail + i else tail + i - size) =
              head + (i - xs.length) := by
            split at hhead <;> split <;> omega
          rw [hpos, memcpy_outside _ (by simp only [List.length_drop]; omega),
            memcpy_inside _ (by omega) (by simp only [List.length_take]; omega)]
          simp
        · have hpos : (if tail + i < size then tail + i else tail + i - size) =
              i - xs.length - k := by
            split at hhead <;> split <;> omega
          rw [hpos, memcpy_inside _ (by omega) (by simp only [List.length_drop]; omega)]
          simp only [List.getElem_drop, Nat.sub_zero]
          congr 1
          omega

end Holds
end PerfProf.Circ
