import Mathlib.Algebra.Order.BigOperators.Group.Finset

/-! Owners that take items which are not younger than their own. -/
namespace PerfProf.Owners

variable {α β : Type} [DecidableEq α] [DecidableEq β] {own : β → α} {time : α → Nat} {owners : Finset β}
  {taken : Finset (α × β)}

/-- If every item that is owned is taken, each owner that takes an item takes one of the time of its own. -/
theorem time_eq (hfst : Set.InjOn Prod.fst (taken : Set (α × β))) (hsnd : Set.InjOn Prod.snd (taken : Set (α × β)))
    (hown : Set.InjOn own (owners : Set β)) (hmem : ∀ p ∈ taken, p.2 ∈ owners)
    (hle : ∀ p ∈ taken, time p.1 ≤ time (own p.2)) (hall : owners.image own ⊆ taken.image Prod.fst) :
    ∀ p ∈ taken, time p.1 = time (own p.2) := by
  have hsub : taken.image Prod.snd ⊆ owners := Finset.image_subset_iff.mpr hmem
  have hmore : ∑ p ∈ taken, time (own p.2) ≤ ∑ p ∈ taken, time p.1 :=
    calc ∑ p ∈ taken, time (own p.2)
      _ = ∑ b ∈ taken.image Prod.snd, time (own b) := (Finset.sum_image (f := fun b => time (own b)) hsnd).symm
      _ ≤ ∑ b ∈ owners, time (own b) := Finset.sum_le_sum_of_subset hsub
      _ = ∑ a ∈ owners.image own, time a := (Finset.sum_image hown).symm
      _ ≤ ∑ a ∈ taken.image Prod.fst, time a := Finset.sum_le_sum_of_subset hall
      _ = ∑ p ∈ taken, time p.1 := Finset.sum_image hfst
  exact (Finset.sum_eq_sum_iff_of_le hle).mp (le_antisymm (Finset.sum_le_sum hle) hmore)

end PerfProf.Owners
