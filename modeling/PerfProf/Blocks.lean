import Mathlib.Algebra.BigOperators.Group.List.Basic
import Mathlib.Algebra.Order.Ring.Int
import Mathlib.Data.List.TakeWhile

/-! The blocks of equal keys of a list. In a list that is sorted by the key there is one for each key;
the values of the keys add up to those of the list. -/
namespace PerfProf.Blocks

section Model
variable {α κ : Type} [DecidableEq κ]

/-- The first entry of each block, with the others. -/
def blocks (key : α → κ) : List α → List (α × List α)
  | [] => []
  | a :: l => (a, l.takeWhile (key · = key a)) :: blocks key (l.dropWhile (key · = key a))
termination_by l => l.length
decreasing_by exact Nat.lt_succ_of_le (List.dropWhile_suffix _).length_le

end Model

section Sums
variable {α κ : Type} [DecidableEq κ] {key : α → κ} {v : α → Nat} {ks : List κ} {xs : List α}

/-- The values of a key. -/
def total (key : α → κ) (v : α → Nat) (k : κ) (xs : List α) : Nat := ((xs.filter (key · = k)).map v).sum

theorem total_cons (key : α → κ) (v : α → Nat) (k : κ) (x : α) (xs : List α) :
    total key v k (x :: xs) = (if key x = k then v x else 0) + total key v k xs := by
  unfold total
  by_cases hk : key x = k
  · rw [List.filter_cons_of_pos (by simpa using hk), List.map_cons, List.sum_cons, if_pos hk]
  · rw [List.filter_cons_of_neg (by simpa using hk), if_neg hk, Nat.zero_add]

theorem sum_ite (h : ks.Nodup) (k : κ) (n : Nat) :
    (ks.map fun k' => if k = k' then n else 0).sum = if k ∈ ks then n else 0 := by
  induction ks with
  | nil => rfl
  | cons k' ks ih =>
    obtain ⟨hnot, hks⟩ := List.nodup_cons.mp h
    rw [List.map_cons, List.sum_cons, ih hks]
    by_cases hk : k = k'
    · subst hk
      rw [if_pos rfl, if_neg hnot, if_pos List.mem_cons_self, Nat.add_zero]
    · have hiff : k ∈ k' :: ks ↔ k ∈ ks := List.mem_cons.trans (or_iff_right hk)
      rw [if_neg hk, Nat.zero_add]
      simp only [hiff]

/-- The values of all keys are those of the list. -/
theorem sum_total (h : ks.Nodup) (hall : ∀ x ∈ xs, key x ∈ ks) :
    (ks.map fun k => total key v k xs).sum = (xs.map v).sum := by
  induction xs with
  | nil =>
    refine List.sum_eq_zero fun n hn => ?_
    obtain ⟨k, -, rfl⟩ := List.mem_map.mp hn
    rfl
  | cons x xs ih =>
    obtain ⟨hx, hxs⟩ := List.forall_mem_cons.mp hall
    simp only [total_cons]
    rw [List.sum_map_add, sum_ite h, if_pos hx, ih hxs, List.map_cons, List.sum_cons]

end Sums

section Sorted
variable {α κ : Type} [LinearOrder κ] {key : α → κ} {l : List α} {a : α}

theorem takeWhile_eq_filter (h : (a :: l).Pairwise fun a b => key a ≤ key b) :
    l.takeWhile (key · = key a) = l.filter (key · = key a) := by
  induction l with
  | nil => rfl
  | cons b l ih =>
    obtain ⟨ha, hl⟩ := List.pairwise_cons.mp h
    obtain ⟨hb, hl'⟩ := List.pairwise_cons.mp hl
    by_cases hab : key b = key a
    · have hrest : (a :: l).Pairwise fun a b => key a ≤ key b :=
        List.pairwise_cons.mpr ⟨fun c hc => ha c (List.mem_cons_of_mem _ hc), hl'⟩
      rw [List.takeWhile_cons_of_pos (by simpa using hab), List.filter_cons_of_pos (by simpa using hab), ih hrest]
    · have hlt : key a < key b := lt_of_le_of_ne (ha b List.mem_cons_self) (Ne.symm hab)
      rw [List.takeWhile_cons_of_neg (by simpa using hab), List.filter_cons_of_neg (by simpa using hab)]
      refine (List.filter_eq_nil_iff.mpr fun c hc => ?_).symm
      simpa using (ne_of_gt (lt_of_lt_of_le hlt (hb c hc)))

theorem dropWhile_above (h : (a :: l).Pairwise fun a b => key a ≤ key b) :
    ∀ b ∈ l.dropWhile (key · = key a), key a < key b := by
  induction l with
  | nil => exact nofun
  | cons b l ih =>
    obtain ⟨ha, hl⟩ := List.pairwise_cons.mp h
    obtain ⟨hb, hl'⟩ := List.pairwise_cons.mp hl
    by_cases hab : key b = key a
    · rw [List.dropWhile_cons_of_pos (by simpa using hab)]
      exact ih (List.pairwise_cons.mpr ⟨fun c hc => ha c (List.mem_cons_of_mem _ hc), hl'⟩)
    · rw [List.dropWhile_cons_of_neg (by simpa using hab)]
      have hlt : key a < key b := lt_of_le_of_ne (ha b List.mem_cons_self) (Ne.symm hab)
      exact List.forall_mem_cons.mpr ⟨hlt, fun c hc => lt_of_lt_of_le hlt (hb c hc)⟩

theorem blocks_cons (key : α → κ) (a : α) (l : List α) : blocks key (a :: l) =
    (a, l.takeWhile (key · = key a)) :: blocks key (l.dropWhile (key · = key a)) := by
  rw [blocks]

/-- Nothing is left out. -/
theorem flatten_blocks (key : α → κ) (l : List α) :
    ((blocks key l).flatMap fun b => b.1 :: b.2) = l := by
  induction l using blocks.induct key with
  | case1 => simp only [blocks, List.flatMap_nil]
  | case2 a l ih =>
    rw [blocks_cons, List.flatMap_cons, ih, List.cons_append, List.takeWhile_append_dropWhile]

/-- A block has all entries of its key. -/
theorem block_eq (h : l.Pairwise fun a b => key a ≤ key b) :
    ∀ b ∈ blocks key l, b.1 :: b.2 = l.filter (key · = key b.1) := by
  induction l using blocks.induct key with
  | case1 => simp only [blocks, List.not_mem_nil, false_imp_iff, implies_true]
  | case2 a l ih =>
    have hrest := (List.pairwise_cons.mp h).2.sublist (List.dropWhile_sublist (key · = key a))
    have hself : (a :: l).filter (key · = key a) = a :: l.takeWhile (key · = key a) := by
      rw [List.filter_cons_of_pos (by simp), takeWhile_eq_filter h]
    rw [blocks_cons]
    refine List.forall_mem_cons.mpr ⟨hself.symm, fun b hb => ?_⟩
    have hmem : b.1 ∈ l.dropWhile (key · = key a) := by
      rw [← flatten_blocks key (l.dropWhile (key · = key a))]
      exact List.mem_flatMap.mpr ⟨b, hb, List.mem_cons_self⟩
    have hlt := dropWhile_above h b.1 hmem
    have hne : key a ≠ key b.1 := ne_of_lt hlt
    have hnone : (l.takeWhile (key · = key a)).filter (key · = key b.1) = [] := by
      refine List.filter_eq_nil_iff.mpr fun c hc => ?_
      have hca : key c = key a := by simpa using List.mem_takeWhile_imp hc
      rw [hca]
      simpa using hne
    have hsplit : l.filter (key · = key b.1) = (l.dropWhile (key · = key a)).filter (key · = key b.1) := by
      have happend := List.filter_append (p := fun c => decide (key c = key b.1))
        (l.takeWhile (key · = key a)) (l.dropWhile (key · = key a))
      rw [List.takeWhile_append_dropWhile, hnone, List.nil_append] at happend
      exact happend
    rw [ih hrest b hb, List.filter_cons_of_neg (by simpa using hne), hsplit]

/-- Each key has one block. -/
theorem blocks_keys (h : l.Pairwise fun a b => key a ≤ key b) :
    (blocks key l).Pairwise fun b c => key b.1 < key c.1 := by
  induction l using blocks.induct key with
  | case1 => simp only [blocks, List.Pairwise.nil]
  | case2 a l ih =>
    have hrest := (List.pairwise_cons.mp h).2.sublist (List.dropWhile_sublist (key · = key a))
    rw [blocks_cons]
    refine List.pairwise_cons.mpr ⟨fun b hb => dropWhile_above h b.1 ?_, ih hrest⟩
    rw [← flatten_blocks key (l.dropWhile (key · = key a))]
    exact List.mem_flatMap.mpr ⟨b, hb, List.mem_cons_self⟩

end Sorted

end PerfProf.Blocks
