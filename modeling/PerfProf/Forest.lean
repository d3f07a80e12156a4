import Mathlib.Data.List.Basic
import Mathlib.Logic.Relation

/-! Forests given by parent pointers. A level for every node, one more than its parent's, is what
makes the pointers acyclic; it also bounds walks up and down. -/
namespace PerfProf.Forest
variable {α : Type*}

section Levels
variable {parent : α → Option α} {D : α → Nat} {r x p : α}

/-- The level of a node: 0 for a root, one more than its parent's otherwise. -/
def above (parent : α → Option α) (D : α → Nat) (x : α) : Nat :=
  match parent x with
  | none => 0
  | some p => D p + 1

def Levels (parent : α → Option α) (D : α → Nat) : Prop := ∀ x, D x = above parent D x

/-- `x` is `r` or below it. -/
inductive Under (parent : α → Option α) (r : α) : α → Prop where
  | self : Under parent r r
  | child {x p : α} (hp : parent x = some p) (h : Under parent r p) : Under parent r x

theorem above_some (hp : parent x = some p) : above parent D x = D p + 1 := by
  simp [above, hp]

theorem Levels.child (h : Levels parent D) (hp : parent x = some p) : D x = D p + 1 := by
  rw [h x, above_some hp]

theorem Levels.root (h : Levels parent D) (hp : parent x = none) : D x = 0 := by
  rw [h x, above, hp]

theorem Under.le (h : Under parent r x) (hD : Levels parent D) : D r ≤ D x := by
  induction h with
  | self => exact Nat.le_refl _
  | child hp _ ih =>
    rw [hD.child hp]
    omega

theorem Under.parent_of_ne (h : Under parent r x) (hne : x ≠ r) (hp : parent x = some p) :
    Under parent r p := by
  cases h with
  | self => exact absurd rfl hne
  | child hp' h =>
    rw [hp] at hp'
    cases hp'
    exact h

theorem Under.of_root (h : Under parent r x) (hp : parent x = none) : x = r := by
  cases h with
  | self => rfl
  | child hp' _ =>
    rw [hp] at hp'
    cases hp'

/-- Two nodes of one level have nothing below them in common. -/
theorem Under.same_level {r' : α} (h : Under parent r x) (h' : Under parent r' x)
    (hD : Levels parent D) (heq : D r = D r') : r = r' := by
  induction h with
  | self =>
    cases h' with
    | self => rfl
    | child hp h' =>
      have hle := h'.le hD
      have hup := hD.child hp
      omega
  | child hp h ih =>
    cases h' with
    | self =>
      have hle := h.le hD
      have hup := hD.child hp
      omega
    | child hp' h' =>
      rw [hp] at hp'
      cases hp'
      exact ih h'

/-- No node is its own ancestor. -/
theorem Levels.acyclic (hD : Levels parent D) (x : α) :
    ¬ Relation.TransGen (fun y p => parent y = some p) x x := by
  have hlt : ∀ y z, Relation.TransGen (fun y p => parent y = some p) y z → D z < D y := by
    intro y z h
    induction h with
    | single hp =>
      rw [hD.child hp]
      omega
    | tail _ hp ih =>
      rw [hD.child hp] at ih
      omega
  intro h
  exact Nat.lt_irrefl _ (hlt x x h)

/-- Every node is below the root that its parent pointers lead to. -/
theorem Levels.exists_root (hD : Levels parent D) (x : α) :
    ∃ r, parent r = none ∧ Under parent r x := by
  induction hk : D x generalizing x with
  | zero =>
    cases hp : parent x with
    | none => exact ⟨x, hp, .self⟩
    | some p =>
      rw [hD.child hp] at hk
      omega
  | succ k ih =>
    cases hp : parent x with
    | none => exact ⟨x, hp, .self⟩
    | some p =>
      rw [hD.child hp] at hk
      obtain ⟨r, hr, hu⟩ := ih p (by omega)
      exact ⟨r, hr, .child hp hu⟩

end Levels

section Move
variable [DecidableEq α] {parent : α → Option α} {D : α → Nat} {b x : α} {q : Option α}

/-- What is below `b` does not depend on the parent of `b`. -/
theorem under_update (parent : α → Option α) (b : α) (q : Option α) (x : α) :
    Under (Function.update parent b q) b x ↔ Under parent b x := by
  constructor
  · intro h
    induction h with
    | self => exact .self
    | @child y p hp _ ih =>
      by_cases hy : y = b
      · rw [hy]
        exact .self
      · rw [Function.update_of_ne hy] at hp
        exact .child hp ih
  · intro h
    induction h with
    | self => exact .self
    | @child y p hp _ ih =>
      by_cases hy : y = b
      · rw [hy]
        exact .self
      · refine .child ?_ ih
        rw [Function.update_of_ne hy]
        exact hp

/-- A node with everything below it gets a parent that is not below it. -/
theorem Levels.move (hD : Levels parent D) (hq : ∀ a, q = some a → ¬ Under parent b a) :
    ∃ D', Levels (Function.update parent b q) D' ∧ (∀ x, ¬ Under parent b x → D' x = D x) ∧
      ∀ M, (∀ x, D x ≤ M) → ∃ M', ∀ x, D' x ≤ M' := by
  classical
  obtain ⟨k, hk⟩ : ∃ k, k = match q with
    | none => 0
    | some a => D a + 1 := ⟨_, rfl⟩
  refine ⟨fun x => if Under parent b x then k + (D x - D b) else D x, ?_, ?_, ?_⟩
  · intro x
    by_cases hx : x = b
    · rw [hx, above, Function.update_self]
      dsimp only
      rw [if_pos .self, Nat.sub_self, Nat.add_zero, hk]
      cases hqa : q with
      | none => rfl
      | some a =>
        dsimp only
        rw [if_neg (hq a hqa)]
    · rw [above, Function.update_of_ne hx]
      cases hp : parent x with
      | none =>
        have hnot : ¬ Under parent b x := fun h => hx (h.of_root hp)
        dsimp only
        rw [if_neg hnot, hD.root hp]
      | some p =>
        dsimp only
        by_cases hu : Under parent b p
        · have hle := hu.le hD
          have hchild := hD.child hp
          rw [if_pos hu, if_pos (.child hp hu)]
          omega
        · have hnot : ¬ Under parent b x := fun h => hu (h.parent_of_ne hx hp)
          rw [if_neg hu, if_neg hnot, hD.child hp]
  · intro x hx
    exact if_neg hx
  · intro M hM
    refine ⟨k + M, fun x => ?_⟩
    have hx := hM x
    dsimp only
    split
    · omega
    · omega

end Move

section Preorder
variable {kids : α → List α} {parent : α → Option α} {D : α → Nat} {M : Nat}

/-- A node, then everything below it; the fuel bounds the depth. -/
def preorder (kids : α → List α) : Nat → α → Option (List α)
  | 0, _ => none
  | n+1, x => ((kids x).mapM (preorder kids n)).map fun ls => x :: ls.flatten

/-- The lists `kids` of the children agree with the parent pointers. -/
structure Consistent (parent : α → Option α) (kids : α → List α) : Prop where
  mem : ∀ x p, x ∈ kids p ↔ parent x = some p
  nodup : ∀ p, (kids p).Nodup

theorem mapM_some {β γ : Type*} {f : β → Option γ} {g : β → γ} {xs : List β}
    (h : ∀ x ∈ xs, f x = some (g x)) : xs.mapM f = some (xs.map g) := by
  induction xs with
  | nil => rfl
  | cons x xs ih =>
    rw [List.forall_mem_cons] at h
    rw [List.mapM_cons, h.1, ih h.2]
    rfl

/-- Nodes of one level, each with what is below it. -/
theorem nodup_flatten {xs : List α} {g : α → List α} {k : Nat} (hD : Levels parent D)
    (hxs : xs.Nodup) (hk : ∀ x ∈ xs, D x = k)
    (hg : ∀ x ∈ xs, (g x).Nodup ∧ ∀ y, y ∈ g x ↔ Under parent x y) :
    (xs.map g).flatten.Nodup := by
  induction xs with
  | nil => exact List.nodup_nil
  | cons x xs ih =>
    rw [List.nodup_cons] at hxs
    rw [List.forall_mem_cons] at hk hg
    rw [List.map_cons, List.flatten_cons, List.nodup_append]
    refine ⟨hg.1.1, ih hxs.2 hk.2 hg.2, ?_⟩
    intro a ha b hb hab
    rw [List.mem_flatten] at hb
    obtain ⟨l, hl, hbl⟩ := hb
    obtain ⟨x', hx', rfl⟩ := List.mem_map.mp hl
    have hu := (hg.1.2 a).mp ha
    have hu' := ((hg.2 x' hx').2 b).mp hbl
    rw [← hab] at hu'
    have heq := hu.same_level hu' hD (by rw [hk.1, hk.2 x' hx'])
    exact hxs.1 (heq ▸ hx')

/-- With enough fuel the walk ends, and meets everything below its start once. -/
theorem preorder_spec (hc : Consistent parent kids) (hD : Levels parent D) (hM : ∀ x, D x ≤ M)
    (x : α) : ∃ l, (∀ n, M - D x < n → preorder kids n x = some l) ∧ l.Nodup ∧
      ∀ y, y ∈ l ↔ Under parent x y := by
  induction hk : M - D x using Nat.strongRecOn generalizing x with
  | _ k ih =>
    have hkid : ∀ c ∈ kids x, D c = D x + 1 := fun c hcx => hD.child ((hc.mem c x).mp hcx)
    have hlt : ∀ c ∈ kids x, M - D c < k := by
      intro c hcx
      have h1 := hkid c hcx
      have h2 := hM c
      omega
    have hspec : ∀ c, ∃ l, c ∈ kids x → (∀ n, M - D c < n → preorder kids n c = some l) ∧
        l.Nodup ∧ ∀ y, y ∈ l ↔ Under parent c y := by
      intro c
      by_cases hcx : c ∈ kids x
      · obtain ⟨l, hl⟩ := ih _ (hlt c hcx) c rfl
        exact ⟨l, fun _ => hl⟩
      · exact ⟨[], fun h => absurd h hcx⟩
    obtain ⟨g, hg⟩ := Classical.axiomOfChoice hspec
    refine ⟨x :: ((kids x).map g).flatten, ?_, ?_, ?_⟩
    · intro n hn
      obtain ⟨n, rfl⟩ : ∃ n', n = n' + 1 := ⟨n - 1, by omega⟩
      have hmap : (kids x).mapM (preorder kids n) = some ((kids x).map g) := by
        refine mapM_some fun c hcx => (hg c hcx).1 n ?_
        have := hlt c hcx
        omega
      rw [preorder, hmap]
      rfl
    · rw [List.nodup_cons]
      refine ⟨?_, nodup_flatten hD (hc.nodup x) hkid fun c hcx => (hg c hcx).2⟩
      intro hmem
      rw [List.mem_flatten] at hmem
      obtain ⟨l, hl, hxl⟩ := hmem
      obtain ⟨c, hcx, rfl⟩ := List.mem_map.mp hl
      have hle := (((hg c hcx).2.2 x).mp hxl).le hD
      have := hkid c hcx
      omega
    · intro y
      rw [List.mem_cons, List.mem_flatten]
      constructor
      · rintro (rfl | ⟨l, hl, hyl⟩)
        · exact .self
        · obtain ⟨c, hcx, rfl⟩ := List.mem_map.mp hl
          have hu := ((hg c hcx).2.2 y).mp hyl
          have hpc := (hc.mem c x).mp hcx
          clear hyl hl
          induction hu with
          | self => exact .child hpc .self
          | child hp _ ih => exact .child hp ih
      · intro hu
        induction hu with
        | self => exact Or.inl rfl
        | @child z p hp hpu ih =>
          right
          rcases ih with rfl | ⟨l, hl, hpl⟩
          · have hz := (hc.mem z p).mpr hp
            exact ⟨g z, List.mem_map_of_mem hz, ((hg z hz).2.2 z).mpr .self⟩
          · obtain ⟨c, hcx, rfl⟩ := List.mem_map.mp hl
            exact ⟨g c, hl, ((hg c hcx).2.2 z).mpr (.child hp (((hg c hcx).2.2 p).mp hpl))⟩

end Preorder

end PerfProf.Forest
