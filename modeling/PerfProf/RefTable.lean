import Mathlib.Data.List.Nodup
import Mathlib.Logic.Function.Basic
import Mathlib.Order.Nat
import PerfProf.Rblist

/-! A table whose entries may point to other keys, and how many entries point to a key. -/
namespace PerfProf.RefTable
open Rblist

/-- The keys in order, each with its entry. -/
structure Table (α : Type) where
  keys : List Nat
  val : Nat → Option α
  sorted : Sorted id keys
  mem : ∀ p, p ∈ keys ↔ (val p).isSome = true

namespace Table
variable {α : Type} {t : Table α} {p q : Nat} {a : α}

def empty : Table α := ⟨[], fun _ => none, List.Pairwise.nil, by simp⟩

theorem mem_addNode_id {l : List Nat} : q ∈ addNode id p l ↔ q = p ∨ q ∈ l := by
  constructor
  · exact mem_of_mem_addNode
  · rintro (rfl | h)
    · obtain ⟨b, hb, hkey⟩ := exists_mem_addNode id q l
      exact (show b = q from hkey) ▸ hb
    · exact mem_addNode_of_mem h

/-- The entry of a key is added or replaced. -/
def put (t : Table α) (p : Nat) (a : α) : Table α where
  keys := addNode id p t.keys
  val := Function.update t.val p (some a)
  sorted := t.sorted.addNode p
  mem q := by
    rw [mem_addNode_id]
    by_cases h : q = p
    · simp [h]
    · rw [Function.update_of_ne h, ← t.mem]
      simp [h]

def erase (t : Table α) (p : Nat) : Table α where
  keys := t.keys.erase p
  val := Function.update t.val p none
  sorted := List.Pairwise.sublist List.erase_sublist t.sorted
  mem q := by
    rw [t.sorted.nodup.mem_erase_iff]
    by_cases h : q = p
    · simp [h]
    · rw [Function.update_of_ne h, ← t.mem]
      simp [h]

@[simp]
theorem val_put_self (t : Table α) (p : Nat) (a : α) : (t.put p a).val p = some a :=
  Function.update_self ..

theorem val_put_of_ne (t : Table α) (a : α) (h : q ≠ p) : (t.put p a).val q = t.val q :=
  Function.update_of_ne h ..

@[simp]
theorem put_put (t : Table α) (p : Nat) (a b : α) : (t.put p a).put p b = t.put p b := by
  simp [put]

@[simp]
theorem val_erase_self (t : Table α) (p : Nat) : (t.erase p).val p = none :=
  Function.update_self ..

theorem val_erase_of_ne (t : Table α) (h : q ≠ p) : (t.erase p).val q = t.val q :=
  Function.update_of_ne h ..

theorem mem_of_val (h : t.val p = some a) : p ∈ t.keys := by
  rw [t.mem, h]
  rfl

theorem put_self (h : t.val p = some a) : t.put p a = t := by
  have hkeys : addNode id p t.keys = t.keys := addNode_of_mem t.sorted (mem_of_val h)
  have hval : Function.update t.val p (some a) = t.val := by
    rw [← h, Function.update_eq_self]
  cases t
  simp only [put, hkeys, hval]

theorem keys_eq_nil (h : ∀ p, t.val p = none) : t.keys = [] := by
  rw [List.eq_nil_iff_forall_not_mem]
  intro p hp
  rw [t.mem, h p] at hp
  cases hp

/-- Where the entry of a key points to. -/
def target (ptr : α → Option Nat) (t : Table α) (p : Nat) : Option Nat := (t.val p).bind ptr

/-- How many entries point to a key. -/
def refs (ptr : α → Option Nat) (t : Table α) (p : Nat) : Nat :=
  t.keys.countP fun q => t.target ptr q = some p

variable {ptr : α → Option Nat}

theorem refs_pos_iff : 0 < t.refs ptr p ↔ ∃ q a, t.val q = some a ∧ ptr a = some p := by
  rw [refs, List.countP_pos_iff]
  constructor
  · rintro ⟨q, -, h⟩
    obtain ⟨a, ha, hptr⟩ := Option.bind_eq_some_iff.mp (of_decide_eq_true h)
    exact ⟨q, a, ha, hptr⟩
  · rintro ⟨q, a, ha, hptr⟩
    exact ⟨q, mem_of_val ha, decide_eq_true (Option.bind_eq_some_iff.mpr ⟨a, ha, hptr⟩)⟩

/-- The keys other than `p`. -/
def others (ptr : α → Option Nat) (t : Table α) (p q : Nat) : Nat :=
  (t.keys.erase p).countP fun r => t.target ptr r = some q

theorem refs_eq (t : Table α) (p q : Nat) :
    t.refs ptr q = t.others ptr p q + if t.target ptr p = some q then 1 else 0 := by
  rw [refs, others]
  by_cases hp : p ∈ t.keys
  · rw [(List.perm_cons_erase hp).countP_eq, List.countP_cons]
    simp
  · have hnone : t.val p = none := by
      rw [t.mem] at hp
      simpa using hp
    rw [List.erase_of_not_mem hp, target, hnone]
    simp

theorem refs_erase (t : Table α) (p q : Nat) : (t.erase p).refs ptr q = t.others ptr p q := by
  refine List.countP_congr fun r hr => ?_
  rw [target, target, val_erase_of_ne]
  exact (t.sorted.nodup.mem_erase_iff.mp hr).1

theorem addNode_perm {l : List Nat} (hl : Sorted id l) :
    (addNode id p l).Perm (p :: l.erase p) := by
  induction l with
  | nil => exact List.Perm.refl _
  | cons b l ih =>
    obtain ⟨hb, hs⟩ := List.pairwise_cons.mp hl
    unfold addNode
    split
    · rename_i hlt
      rw [List.erase_cons_tail (by simpa using (ne_of_lt hlt : b ≠ p))]
      exact (List.Perm.cons b (ih hs)).trans (List.Perm.swap p b _)
    · rename_i hge
      split
      · rename_i hlt
        have hnot : p ∉ b :: l := by
          intro hmem
          rcases List.mem_cons.mp hmem with rfl | hmem
          · exact lt_irrefl _ hlt
          · exact lt_asymm hlt (hb p hmem)
        rw [List.erase_of_not_mem hnot]
      · rename_i hle
        have heq : b = p := le_antisymm (not_lt.mp hle) (not_lt.mp hge)
        rw [heq, List.erase_cons_head]

theorem refs_put (t : Table α) (p q : Nat) (a : α) :
    (t.put p a).refs ptr q = t.others ptr p q + if ptr a = some q then 1 else 0 := by
  have hperm : (t.put p a).keys.Perm (p :: t.keys.erase p) := addNode_perm t.sorted
  rw [refs, hperm.countP_eq, List.countP_cons, others]
  congr 1
  · refine List.countP_congr fun r hr => ?_
    rw [target, target, val_put_of_ne]
    exact (t.sorted.nodup.mem_erase_iff.mp hr).1
  · simp [target]

end Table

end PerfProf.RefTable
