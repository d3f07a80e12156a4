import Mathlib.Algebra.Order.Ring.Int
import Mathlib.Data.List.Basic

/-! A red-black list as the list of its entries in order. Each entry has a key; an entry whose key
is there already is not added. -/
namespace PerfProf.Rblist

variable {α κ : Type} [LinearOrder κ] {key : α → κ} {e x : α} {l : List α}

/-- `rblist__add_node`. -/
def addNode (key : α → κ) (e : α) : List α → List α
  | [] => [e]
  | b :: l =>
    if key b < key e then b :: addNode key e l
    else if key e < key b then e :: b :: l
    else b :: l

def Sorted (key : α → κ) (l : List α) : Prop := l.Pairwise fun a b => key a < key b

theorem mem_of_mem_addNode (h : x ∈ addNode key e l) : x = e ∨ x ∈ l := by
  induction l with
  | nil => exact Or.inl (List.mem_singleton.mp h)
  | cons b l ih =>
    unfold addNode at h
    split at h
    · rcases List.mem_cons.mp h with rfl | h
      · exact Or.inr (List.mem_cons_self ..)
      · exact (ih h).imp_right (List.mem_cons_of_mem b)
    · split at h
      · exact List.mem_cons.mp h
      · exact Or.inr h

theorem mem_addNode_of_mem (h : x ∈ l) : x ∈ addNode key e l := by
  induction l with
  | nil => cases h
  | cons b l ih =>
    unfold addNode
    split
    · rcases List.mem_cons.mp h with rfl | h
      · exact List.mem_cons_self ..
      · exact List.mem_cons_of_mem _ (ih h)
    · split
      · exact List.mem_cons_of_mem _ h
      · exact h

/-- The entry is added, or one of the same key is there. -/
theorem exists_mem_addNode (key : α → κ) (e : α) (l : List α) :
    ∃ b ∈ addNode key e l, key b = key e := by
  induction l with
  | nil => exact ⟨e, List.mem_singleton.mpr rfl, rfl⟩
  | cons b l ih =>
    unfold addNode
    split
    · obtain ⟨c, hc, hkey⟩ := ih
      exact ⟨c, List.mem_cons_of_mem _ hc, hkey⟩
    · rename_i hb
      split
      · exact ⟨e, List.mem_cons_self .., rfl⟩
      · rename_i he
        exact ⟨b, List.mem_cons_self .., le_antisymm (not_lt.mp he) (not_lt.mp hb)⟩

theorem addNode_of_mem (hs : Sorted key l) (h : e ∈ l) : addNode key e l = l := by
  induction l with
  | nil => cases h
  | cons b l ih =>
    obtain ⟨hb, hl⟩ := List.pairwise_cons.mp hs
    unfold addNode
    rcases List.mem_cons.mp h with rfl | h
    · rw [if_neg (lt_irrefl _), if_neg (lt_irrefl _)]
    · rw [if_pos (hb e h), ih hl h]

@[simp]
theorem addNode_addNode (key : α → κ) (e : α) (l : List α) :
    addNode key e (addNode key e l) = addNode key e l := by
  induction l with
  | nil => simp [addNode]
  | cons b l ih =>
    by_cases hb : key b < key e
    · simp [addNode, hb, ih]
    · by_cases he : key e < key b
      · simp [addNode, hb, he]
      · simp [addNode, hb, he]

theorem Sorted.addNode (h : Sorted key l) (e : α) : Sorted key (addNode key e l) := by
  induction l with
  | nil => exact List.pairwise_singleton _ _
  | cons b l ih =>
    obtain ⟨hb, hl⟩ := List.pairwise_cons.mp h
    unfold Rblist.addNode
    split
    · rename_i hlt
      refine List.pairwise_cons.mpr ⟨fun c hc => ?_, ih hl⟩
      rcases mem_of_mem_addNode hc with rfl | hc
      · exact hlt
      · exact hb c hc
    · split
      · rename_i hlt
        refine List.pairwise_cons.mpr ⟨fun c hc => ?_, h⟩
        rcases List.mem_cons.mp hc with rfl | hc
        · exact hlt
        · exact lt_trans hlt (hb c hc)
      · exact h

theorem Sorted.congr {key' : α → κ} (h : Sorted key l) (hkey : ∀ x ∈ l, key' x = key x) :
    Sorted key' l := by
  refine List.Pairwise.imp_of_mem (fun {a b} ha hb hlt => ?_) h
  rw [hkey a ha, hkey b hb]
  exact hlt

theorem Sorted.nodup (h : Sorted key l) : l.Nodup := by
  refine List.Pairwise.imp (fun {a b} hlt => ?_) h
  rintro rfl
  exact lt_irrefl _ hlt

end PerfProf.Rblist
