import Mathlib.Algebra.Order.BigOperators.Group.List
import Mathlib.Algebra.BigOperators.Group.List.Basic
import Mathlib.Algebra.GroupWithZero.Nat

/-! What the frames of a stack still owe, and stacks in which whatever a frame names is held by it
or by a frame below. `owe` is one kind of debt, `held` the kind that keeps what is named. -/
namespace PerfProf.Obligations

section Owed
variable {F D : Type} (owe : F → D → Nat)

/-- What the frames of a stack owe in sum. -/
def owed (k : List F) (d : D) : Nat := (k.map fun f => owe f d).sum

@[simp]
theorem owed_nil (d : D) : owed owe [] d = 0 := rfl

@[simp]
theorem owed_cons (f : F) (k : List F) (d : D) : owed owe (f :: k) d = owe f d + owed owe k d := by
  simp [owed]

@[simp]
theorem owed_append (fs k : List F) (d : D) : owed owe (fs ++ k) d = owed owe fs d + owed owe k d := by
  simp [owed]

theorem owed_pos_of_mem {f : F} {k : List F} {d : D} (hf : f ∈ k) (h : 0 < owe f d) : 0 < owed owe k d := by
  induction k with
  | nil => cases hf
  | cons g k ih =>
    rw [owed_cons]
    rcases List.mem_cons.mp hf with rfl | hf
    · omega
    · have := ih hf
      omega

theorem exists_of_owed_pos {k : List F} {d : D} (h : 0 < owed owe k d) : ∃ f ∈ k, 0 < owe f d := by
  induction k with
  | nil => simp at h
  | cons g k ih =>
    rw [owed_cons] at h
    by_cases hg : 0 < owe g d
    · exact ⟨g, List.mem_cons_self, hg⟩
    · obtain ⟨f, hf, hpos⟩ := ih (by omega)
      exact ⟨f, List.mem_cons_of_mem g hf, hpos⟩

end Owed

section Guarded
variable {F D : Type} (names : F → List D) (held : F → D → Nat)

/-- Each frame of the stack holds what it names, or a frame below it does. -/
def Guarded : List F → Prop
  | [] => True
  | f :: k => (∀ d ∈ names f, 0 < owed held (f :: k) d) ∧ Guarded k

@[simp]
theorem guarded_nil : Guarded names held [] := trivial

@[simp]
theorem guarded_cons (f : F) (k : List F) :
    Guarded names held (f :: k) ↔ (∀ d ∈ names f, 0 < owed held (f :: k) d) ∧ Guarded names held k :=
  Iff.rfl

variable {names held}

/-- What a frame of a guarded stack names is held in the stack. -/
theorem Guarded.held_of_mem {k : List F} (h : Guarded names held k) {f : F} (hf : f ∈ k) {d : D} (hd : d ∈ names f) :
    0 < owed held k d := by
  induction k with
  | nil => cases hf
  | cons g k ih =>
    rcases List.mem_cons.mp hf with rfl | hf
    · exact h.1 d hd
    · have := ih h.2 hf
      rw [owed_cons]
      omega

/-- A debt that is only owed on what is named is owed on nothing that is not held. -/
theorem Guarded.owed_eq_zero {k : List F} (h : Guarded names held k) {owe : F → D → Nat}
    (hn : ∀ f d, 0 < owe f d → d ∈ names f) {d : D} (hd : owed held k d = 0) : owed owe k d = 0 := by
  rcases Nat.eq_zero_or_pos (owed owe k d) with hz | hpos
  · exact hz
  · obtain ⟨f, hf, hfd⟩ := exists_of_owed_pos owe hpos
    have := h.held_of_mem hf (hn f d hfd)
    omega

end Guarded

end PerfProf.Obligations
