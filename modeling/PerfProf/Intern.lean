import Mathlib.Data.List.Basic
import Mathlib.Data.List.Induction

/-! Keys entered in the order in which they first occur, each found again by a search from the
front. The test of the search may accept a key for another one, the two then `clash`. -/
namespace PerfProf.Intern
variable {κ β : Type*} [BEq κ] [LawfulBEq κ]

def enter (keys : List κ) (a : κ) : List κ := if a ∈ keys then keys else keys ++ [a]

/-- The different keys of a list, in the order of their first occurrences. -/
def firsts (as : List κ) : List κ := as.foldl enter []

theorem firsts_snoc (as : List κ) (a : κ) : firsts (as ++ [a]) = enter (firsts as) a :=
  List.foldl_append

theorem enter_extends (keys : List κ) (a : κ) : keys <+: enter keys a := by
  rw [enter]
  split_ifs
  · exact List.prefix_rfl
  · exact List.prefix_append _ _

theorem mem_enter (keys : List κ) (a : κ) : a ∈ enter keys a := by
  rw [enter]
  split_ifs with h
  · exact h
  · exact List.mem_append_right _ (List.mem_singleton_self a)

theorem firsts_prefix (as bs : List κ) : firsts as <+: firsts (as ++ bs) := by
  induction bs using List.reverseRecOn with
  | nil => simp
  | append_singleton bs b ih =>
    rw [← List.append_assoc, firsts_snoc]
    exact ih.trans (enter_extends _ b)

theorem mem_firsts {as : List κ} {a : κ} (h : a ∈ as) : a ∈ firsts as := by
  obtain ⟨pre, post, rfl⟩ := List.append_of_mem h
  have hfirst : a ∈ firsts (pre ++ [a]) := by
    rw [firsts_snoc]
    exact mem_enter _ a
  have hprefix := firsts_prefix (pre ++ [a]) post
  rw [List.append_assoc, List.singleton_append] at hprefix
  exact hprefix.subset hfirst

theorem firsts_subset (as : List κ) : ∀ a ∈ firsts as, a ∈ as := by
  induction as using List.reverseRecOn with
  | nil => exact fun a h => h
  | append_singleton as b ih =>
    intro a h
    rw [firsts_snoc, enter] at h
    split_ifs at h
    · exact List.mem_append_left _ (ih a h)
    · obtain h | h := List.mem_append.mp h
      · exact List.mem_append_left _ (ih a h)
      · exact List.mem_append_right _ h

theorem firsts_nodup (as : List κ) : (firsts as).Nodup := by
  induction as using List.reverseRecOn with
  | nil => exact List.nodup_nil
  | append_singleton as b ih =>
    rw [firsts_snoc, enter]
    split_ifs with h
    · exact ih
    · rw [List.nodup_append]
      refine ⟨ih, by simp, fun x hx y hy hxy => ?_⟩
      rw [List.mem_singleton.mp hy] at hxy
      exact h (hxy ▸ hx)

/-- New keys are entered in their order. -/
theorem firsts_append_new {as bs : List κ} (hnodup : bs.Nodup) (hnew : ∀ b ∈ bs, b ∉ firsts as) :
    firsts (as ++ bs) = firsts as ++ bs := by
  induction bs using List.reverseRecOn with
  | nil => rw [List.append_nil, List.append_nil]
  | append_singleton bs b ih =>
    rw [List.nodup_append] at hnodup
    have hb : b ∉ firsts as ++ bs := by
      rw [List.mem_append, not_or]
      exact ⟨hnew b (List.mem_append_right _ List.mem_cons_self),
        fun hmem => hnodup.2.2 b hmem b List.mem_cons_self rfl⟩
    rw [← List.append_assoc, firsts_snoc,
      ih hnodup.1 fun x hx => hnew x (List.mem_append_left _ hx), enter, if_neg hb,
      List.append_assoc]

/-- A key keeps its place when more are entered. -/
theorem idxOf_prefix {keys keys' : List κ} {a : κ} (h : keys <+: keys') (ha : a ∈ keys) :
    keys'.idxOf a = keys.idxOf a := by
  obtain ⟨more, rfl⟩ := h
  exact List.idxOf_append_of_mem ha

omit [BEq κ] [LawfulBEq κ] in
theorem modify_append_left {xs : List β} {i : Nat} (h : i < xs.length) (ys : List β) (g : β → β) :
    (xs ++ ys).modify i g = xs.modify i g ++ ys := by
  induction xs generalizing i with
  | nil => exact absurd h (Nat.not_lt_zero i)
  | cons x xs ih =>
    cases i with
    | zero => rfl
    | succ i =>
      rw [List.cons_append, List.modify_succ_cons, List.modify_succ_cons,
        ih (Nat.lt_of_succ_lt_succ h), List.cons_append]

omit [BEq κ] [LawfulBEq κ] in
theorem modify_append_length (xs : List β) (y : β) (ys : List β) (g : β → β) :
    (xs ++ y :: ys).modify xs.length g = xs ++ g y :: ys := by
  induction xs with
  | nil => rfl
  | cons x xs ih => rw [List.cons_append, List.length_cons, List.modify_succ_cons, ih,
      List.cons_append]

/-- A change at the place of a key, of a list that has one cell for each key. -/
theorem modify_idxOf {keys : List κ} {a : κ} (hnodup : keys.Nodup) (ha : a ∈ keys) (f : κ → β)
    (g : β → β) :
    (keys.map f).modify (keys.idxOf a) g = keys.map fun k => if k == a then g (f k) else f k := by
  induction keys with
  | nil => cases ha
  | cons k keys ih =>
    rw [List.nodup_cons] at hnodup
    by_cases hk : k = a
    · subst hk
      have hrest : keys.map (fun x => if x == k then g (f x) else f x) = keys.map f := by
        refine List.map_congr_left fun x hx => if_neg fun h => ?_
        exact hnodup.1 (eq_of_beq h ▸ hx)
      rw [List.idxOf_cons_self, List.map_cons, List.map_cons, List.modify_zero_cons, hrest,
        if_pos BEq.rfl]
    · have hmem : a ∈ keys := (List.mem_cons.mp ha).resolve_left fun h => hk h.symm
      rw [List.idxOf_cons_ne _ hk, List.map_cons, List.map_cons, List.modify_succ_cons,
        ih hnodup.2 hmem, if_neg fun h => hk (eq_of_beq h)]

section Search
variable {keys : List κ} {a : κ} {clash : κ → κ → Prop} {p : κ → Bool}

/-- A search stops at the key itself if no key in front of it clashes with it. -/
theorem findIdx_eq_idxOf (hp : ∀ k ∈ keys, p k = true ↔ k = a ∨ clash k a)
    (hclash : keys.Pairwise fun x y => ¬ clash x y) (ha : a ∈ keys) :
    keys.findIdx p = keys.idxOf a := by
  induction keys with
  | nil => cases ha
  | cons k keys ih =>
    rw [List.pairwise_cons] at hclash
    by_cases hk : k = a
    · have hpk : p k = true := (hp k List.mem_cons_self).mpr (.inl hk)
      rw [List.findIdx_cons, hpk, hk, List.idxOf_cons_self]
      rfl
    · have hmem : a ∈ keys := (List.mem_cons.mp ha).resolve_left fun h => hk h.symm
      have hpk : p k = false := by
        rw [← Bool.not_eq_true, hp k List.mem_cons_self, not_or]
        exact ⟨hk, hclash.1 a hmem⟩
      rw [List.findIdx_cons, hpk, List.idxOf_cons_ne _ hk,
        ih (fun x hx => hp x (List.mem_cons_of_mem k hx)) hclash.2 hmem]
      rfl

omit [BEq κ] [LawfulBEq κ] in
/-- A search for a new key passes all of them if it clashes with none. -/
theorem findIdx_eq_length (hp : ∀ k ∈ keys, p k = true ↔ k = a ∨ clash k a)
    (hclash : ∀ k ∈ keys, ¬ clash k a) (ha : a ∉ keys) : keys.findIdx p = keys.length := by
  refine List.findIdx_eq_length_of_false fun k hk => ?_
  rw [← Bool.not_eq_true, hp k hk, not_or]
  exact ⟨fun h => ha (h ▸ hk), hclash k hk⟩

end Search

end PerfProf.Intern
