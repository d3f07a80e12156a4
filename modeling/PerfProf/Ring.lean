import Mathlib.Algebra.Order.Ring.Int
import Mathlib.Data.List.Basic

/-! Reading a perf ring buffer that is not in overwrite mode (lib/perf/mmap.c). The
kernel's side is the list of the records it has written; positions are byte
offsets from the beginning of that list and only their low bits index the ring. -/
namespace PerfProf.Ring

inductive Kind where
  | sample (time : Nat)
  | lost (id lost : Nat)
  | other (type : Nat)
deriving DecidableEq

/-- A record as the kernel writes it. -/
structure Record where
  kind : Kind
  size : Nat
  header_le : 8 ≤ size
  aligned : size % 8 = 0
deriving DecidableEq

/-- `PERF_RECORD_SAMPLE`, with its time. -/
def Record.sample? (r : Record) : Option Nat :=
  match r.kind with
  | .sample t => some t
  | _ => none

def extent : List Record → Nat
  | [] => 0
  | r :: rs => r.size + extent rs

/-- The record that starts at a position. -/
def recordAt : List Record → Nat → Option Record
  | [], _ => none
  | r :: rs, p => if p = 0 then some r else if p < r.size then none else recordAt rs (p - r.size)

/-- The records with the positions where they start, the first one at `base`. -/
def offsets (base : Nat) : List Record → List (Nat × Record)
  | [] => []
  | r :: rs => (base, r) :: offsets (base + r.size) rs

theorem extent_append (xs ys : List Record) : extent (xs ++ ys) = extent xs + extent ys := by
  induction xs with
  | nil => simp [extent]
  | cons r rs ih => rw [List.cons_append, extent, extent, ih, Nat.add_assoc]

theorem offsets_append (base : Nat) (xs ys : List Record) :
    offsets base (xs ++ ys) = offsets base xs ++ offsets (base + extent xs) ys := by
  induction xs generalizing base with
  | nil => simp [offsets, extent]
  | cons r rs ih => simp only [List.cons_append, offsets, extent, ih, Nat.add_assoc]

theorem recordAt_extent (xs : List Record) (r : Record) (ys : List Record) :
    recordAt (xs ++ r :: ys) (extent xs) = some r := by
  induction xs with
  | nil => simp [recordAt, extent]
  | cons x xs ih =>
    have hx := x.header_le
    have h0 : ¬ extent (x :: xs) = 0 := by
      simp only [extent]
      omega
    have hlt : ¬ extent (x :: xs) < x.size := by
      simp only [extent]
      omega
    rw [List.cons_append, recordAt, if_neg h0, if_neg hlt]
    rw [show extent (x :: xs) - x.size = extent xs by simp only [extent]; omega]
    exact ih

theorem offsets_bounds {base : Nat} {xs : List Record} {q : Nat} {r : Record}
    (h : (q, r) ∈ offsets base xs) : base ≤ q ∧ q + r.size ≤ base + extent xs := by
  induction xs generalizing base with
  | nil => simp [offsets] at h
  | cons x xs ih =>
    simp only [offsets, List.mem_cons] at h
    cases h with
    | inl h =>
      obtain ⟨rfl, rfl⟩ : q = base ∧ r = x := by simpa using h
      simp only [extent]
      omega
    | inr h =>
      have := ih h
      simp only [extent]
      omega

theorem offsets_unique {base : Nat} {xs : List Record} {q : Nat} {r r' : Record}
    (h : (q, r) ∈ offsets base xs) (h' : (q, r') ∈ offsets base xs) : r = r' := by
  induction xs generalizing base with
  | nil => simp [offsets] at h
  | cons x xs ih =>
    have hx := x.header_le
    simp only [offsets, List.mem_cons, Prod.mk.injEq] at h h'
    rcases h with ⟨rfl, rfl⟩ | h
    · rcases h' with ⟨-, rfl⟩ | h'
      · rfl
      · have := (offsets_bounds h').1
        omega
    · rcases h' with ⟨rfl, rfl⟩ | h'
      · have := (offsets_bounds h).1
        omega
      · exact ih h h'

theorem offsets_sorted (base : Nat) (xs : List Record) :
    ((offsets base xs).map Prod.fst).Pairwise (· < ·) := by
  induction xs generalizing base with
  | nil => exact List.Pairwise.nil
  | cons x xs ih =>
    simp only [offsets, List.map_cons, List.pairwise_cons]
    refine ⟨?_, ih _⟩
    intro q hq
    obtain ⟨⟨q', r⟩, hm, rfl⟩ := List.mem_map.mp hq
    have := (offsets_bounds hm).1
    have := x.header_le
    simp only
    omega

/-- `start`, `end_` and `prev` are the reader's cursors, `tail` is what it has written back
for the kernel to see, `size` is `mask + 1`. -/
structure PerfMmap where
  written : List Record
  tail : Nat
  prev : Nat
  start : Nat
  end_ : Nat
  size : Nat
  flush : Nat
  refcnt : Nat

namespace PerfMmap

def readHead (m : PerfMmap) : Nat := extent m.written

/-- The kernel leaves a record out when it does not fit before the tail. -/
def output (m : PerfMmap) (r : Record) : PerfMmap :=
  if m.readHead + r.size < m.tail + m.size then { m with written := m.written ++ [r] } else m

def empty (m : PerfMmap) : Bool := m.readHead = m.prev

def writeTail (m : PerfMmap) : PerfMmap := { m with tail := m.prev }

/-- The second half of `perf_mmap__consume`: an empty map nobody else refers to is unmapped. -/
def putEmpty (m : PerfMmap) : PerfMmap :=
  if m.refcnt = 1 ∧ m.empty then { m with refcnt := 0 } else m

def readInit (m : PerfMmap) : PerfMmap × Bool :=
  if m.refcnt = 0 then (m, false)
  else
    let m := { m with start := m.prev, end_ := m.readHead }
    if m.end_ - m.start < m.flush then (m, false)
    else if m.size < m.end_ - m.start then
      (({ m with prev := m.readHead } : PerfMmap).writeTail.putEmpty, false)
    else (m, true)

/-- `perf_mmap__read`. Below the tail the ring belongs to the kernel, and nothing is said
about what would be read there. -/
def read (m : PerfMmap) : Option Record :=
  if m.tail ≤ m.start ∧ 8 ≤ m.end_ - m.start then
    match recordAt m.written m.start with
    | none => none
    | some r => if r.size < 8 ∨ m.end_ - m.start < r.size then none else some r
  else none

/-- The record straddles the end of the ring and was put together in `event_copy`. -/
def straddles (m : PerfMmap) (r : Record) : Bool :=
  m.start % m.size + r.size ≠ (m.start + r.size) % m.size

def readEvent (m : PerfMmap) : PerfMmap × Option (Record × Bool) :=
  if m.refcnt = 0 then (m, none)
  else
    let m := { m with end_ := m.readHead }
    match m.read with
    | none => ({ m with prev := m.start }, none)
    | some r => ({ m with start := m.start + r.size, prev := m.start + r.size },
        some (r, m.straddles r))

def readDone (m : PerfMmap) : PerfMmap :=
  if m.refcnt = 0 then m
  else if m.prev ≠ m.end_ then { m with prev := m.end_ } else m

def unreadEvent (m : PerfMmap) (r : Record) : PerfMmap :=
  if m.refcnt = 0 then m
  else { m with start := m.start - r.size, prev := m.start - r.size }

/-- `CIRC_SPACE(map->end, map->start, map->mask+1) >= size`. -/
def hasSpace (m : PerfMmap) (size : Nat) : Bool :=
  size ≤ (m.start + 2 * m.size - (m.end_ + 1)) % m.size

end PerfMmap

end PerfProf.Ring
