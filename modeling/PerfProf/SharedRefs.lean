import Mathlib.Data.List.Nodup
import Mathlib.Data.List.Count

/-! A table of shared entries. Each entry has an address and counts the pointers to it: those of a list,
and one more that is being handed over. An entry without pointers is dropped. -/
namespace PerfProf.SharedRefs
variable {α : Type*} {addr : α → Nat} {refs : α → Int} {ms xs ys : List α} {m : α} {ps qs : List Nat} {p q : Nat}

/-- The entries count the pointers `ps` and the pointer `p`; a pointer of 0 points to none. -/
structure Books (addr : α → Nat) (refs : α → Int) (ms : List α) (ps : List Nat) (p : Nat) : Prop where
  nodup : (ms.map addr).Nodup
  nonzero : ∀ m ∈ ms, addr m ≠ 0
  count : ∀ m ∈ ms, refs m = ps.count (addr m) + (if addr m = p then 1 else 0) ∧ 0 < refs m
  known : ∀ q ∈ p :: ps, q ≠ 0 → ∃ m ∈ ms, addr m = q

theorem books_nil (addr : α → Nat) (refs : α → Int) : Books addr refs [] [] 0 :=
  ⟨List.nodup_nil, nofun, nofun, fun _ hq hne => absurd (List.mem_singleton.mp hq) hne⟩

/-- The pointer that is handed over is kept in the list. -/
theorem books_cons : Books addr refs ms (p :: ps) 0 ↔ Books addr refs ms ps p := by
  have hcount (m : α) (hm : addr m ≠ 0) : ((p :: ps).count (addr m) : Int) + (if addr m = 0 then 1 else 0) =
      ps.count (addr m) + if addr m = p then 1 else 0 := by
    rw [List.count_cons, if_neg hm]
    by_cases hp : p = addr m
    · simp [hp]
    · simp [hp, Ne.symm hp]
  constructor
  · intro h
    refine ⟨h.nodup, h.nonzero, fun m hm => ?_, fun q hq => h.known q (List.mem_cons_of_mem 0 hq)⟩
    rw [← hcount m (h.nonzero m hm)]
    exact h.count m hm
  · intro h
    refine ⟨h.nodup, h.nonzero, fun m hm => ?_, fun q hq hne => ?_⟩
    · rw [hcount m (h.nonzero m hm)]
      exact h.count m hm
    · exact h.known q ((List.mem_cons.mp hq).resolve_left hne) hne

theorem Books.perm (h : Books addr refs ms ps p) (hperm : ps.Perm qs) : Books addr refs ms qs p := by
  refine ⟨h.nodup, h.nonzero, fun m hm => ?_, fun q hq => h.known q ((hperm.cons p).mem_iff.mpr hq)⟩
  rw [← hperm.count_eq]
  exact h.count m hm

/-- An entry that is split off has an address of its own. -/
theorem Books.others (h : Books addr refs (xs ++ m :: ys) ps p) : ∀ n ∈ xs ++ ys, addr n ≠ addr m := by
  have hnodup := h.nodup
  rw [List.map_append, List.map_cons, List.nodup_middle, List.nodup_cons, ← List.map_append] at hnodup
  intro n hn heq
  exact hnodup.1 (heq ▸ List.mem_map_of_mem hn)

theorem mem_middle {n : α} : n ∈ xs ++ m :: ys ↔ n = m ∨ n ∈ xs ++ ys := by
  rw [List.mem_append, List.mem_cons, List.mem_append]
  exact or_left_comm

/-- An entry is replaced by one of its address that counts the pointer to it which is handed over now. -/
theorem Books.replace {m' : α} (h : Books addr refs (xs ++ m :: ys) ps p) (haddr : addr m' = addr m)
    (hp : p = 0 ∨ p = addr m) (hq : q = 0 ∨ q = addr m)
    (hrefs : refs m' = ps.count (addr m) + (if addr m = q then 1 else 0) ∧ 0 < refs m') :
    Books addr refs (xs ++ m' :: ys) ps q := by
  have hm : m ∈ xs ++ m :: ys := mem_middle.mpr (.inl rfl)
  have hm' : m' ∈ xs ++ m' :: ys := mem_middle.mpr (.inl rfl)
  have hother {n : α} (hn : n ∈ xs ++ ys) : n ∈ xs ++ m :: ys := mem_middle.mpr (.inr hn)
  refine ⟨?_, fun n hn => ?_, fun n hn => ?_, fun r hr hne => ?_⟩
  · have hnodup := h.nodup
    rw [List.map_append, List.map_cons] at hnodup ⊢
    rw [haddr]
    exact hnodup
  · rcases mem_middle.mp hn with rfl | hn
    · rw [haddr]
      exact h.nonzero m hm
    · exact h.nonzero n (hother hn)
  · rcases mem_middle.mp hn with rfl | hn
    · rw [haddr]
      exact hrefs
    · have hno {r : Nat} (hr : r = 0 ∨ r = addr m) : addr n ≠ r := by
        rcases hr with rfl | rfl
        · exact h.nonzero n (hother hn)
        · exact h.others n hn
      have hcount := h.count n (hother hn)
      rw [if_neg (hno hp)] at hcount
      rw [if_neg (hno hq)]
      exact hcount
  · rcases List.mem_cons.mp hr with rfl | hr
    · exact ⟨m', hm', haddr.trans (hq.resolve_left hne).symm⟩
    · obtain ⟨n, hn, rfl⟩ := h.known r (List.mem_cons_of_mem p hr) hne
      rcases mem_middle.mp hn with rfl | hn
      · exact ⟨m', hm', haddr⟩
      · exact ⟨n, mem_middle.mpr (.inr hn), rfl⟩

/-- A pointer more. -/
theorem Books.use {m' : α} (h : Books addr refs (xs ++ m :: ys) ps 0) (haddr : addr m' = addr m)
    (hrefs : refs m' = refs m + 1) : Books addr refs (xs ++ m' :: ys) ps (addr m) := by
  have hm : m ∈ xs ++ m :: ys := mem_middle.mpr (.inl rfl)
  obtain ⟨hcount, hpos⟩ := h.count m hm
  rw [if_neg (h.nonzero m hm)] at hcount
  apply h.replace haddr (.inl rfl) (.inr rfl)
  rw [if_pos rfl]
  omega

/-- A new entry counts the pointer that is handed over. -/
theorem Books.new (h : Books addr refs ms ps 0) (hzero : addr m ≠ 0) (hnew : ∀ n ∈ ms, addr n ≠ addr m)
    (hrefs : refs m = 1) : Books addr refs (m :: ms) ps (addr m) := by
  refine ⟨?_, ?_, fun n hn => ?_, fun q hq hne => ?_⟩
  · rw [List.map_cons, List.nodup_cons]
    refine ⟨fun hmem => ?_, h.nodup⟩
    obtain ⟨n, hn, heq⟩ := List.mem_map.mp hmem
    exact hnew n hn heq
  · exact List.forall_mem_cons.mpr ⟨hzero, h.nonzero⟩
  · rcases List.mem_cons.mp hn with rfl | hn
    · have hnot : addr n ∉ ps := by
        intro hmem
        obtain ⟨k, hk, heq⟩ := h.known _ (List.mem_cons_of_mem 0 hmem) hzero
        exact hnew k hk heq
      rw [hrefs, List.count_eq_zero.mpr hnot, if_pos rfl]
      decide
    · have hcount := h.count n hn
      rw [if_neg (h.nonzero n hn)] at hcount
      rw [if_neg (hnew n hn)]
      exact hcount
  · rcases List.mem_cons.mp hq with rfl | hq
    · exact ⟨m, List.mem_cons_self, rfl⟩
    · obtain ⟨n, hn, heq⟩ := h.known q (List.mem_cons_of_mem 0 hq) hne
      exact ⟨n, List.mem_cons_of_mem m hn, heq⟩

/-- The pointer is given back. -/
theorem Books.put {m' : α} (h : Books addr refs (xs ++ m :: ys) ps (addr m)) (haddr : addr m' = addr m)
    (hrefs : refs m' = refs m - 1) (hne : refs m' ≠ 0) : Books addr refs (xs ++ m' :: ys) ps 0 := by
  have hm : m ∈ xs ++ m :: ys := mem_middle.mpr (.inl rfl)
  obtain ⟨hcount, hpos⟩ := h.count m hm
  rw [if_pos rfl] at hcount
  apply h.replace haddr (.inr rfl) (.inl rfl)
  rw [if_neg (h.nonzero m hm)]
  omega

/-- The last pointer is given back: the entry is dropped. -/
theorem Books.drop (h : Books addr refs (xs ++ m :: ys) ps (addr m)) (hone : refs m - 1 = 0) :
    Books addr refs (xs ++ ys) ps 0 := by
  have hm : m ∈ xs ++ m :: ys := mem_middle.mpr (.inl rfl)
  have hother {n : α} (hn : n ∈ xs ++ ys) : n ∈ xs ++ m :: ys := mem_middle.mpr (.inr hn)
  obtain ⟨hcount, -⟩ := h.count m hm
  rw [if_pos rfl] at hcount
  have hnot : addr m ∉ ps := List.count_eq_zero.mp (by omega)
  refine ⟨?_, fun n hn => h.nonzero n (hother hn), fun n hn => ?_, fun q hq hne => ?_⟩
  · have hnodup := h.nodup
    rw [List.map_append, List.map_cons, List.nodup_middle, List.nodup_cons, ← List.map_append] at hnodup
    exact hnodup.2
  · have hcount := h.count n (hother hn)
    rw [if_neg (h.others n hn)] at hcount
    rw [if_neg (h.nonzero n (hother hn))]
    exact hcount
  · have hq := (List.mem_cons.mp hq).resolve_left hne
    obtain ⟨n, hn, heq⟩ := h.known q (List.mem_cons_of_mem _ hq) hne
    rcases mem_middle.mp hn with rfl | hn
    · exact absurd (heq ▸ hq) hnot
    · exact ⟨n, hn, heq⟩

end PerfProf.SharedRefs
