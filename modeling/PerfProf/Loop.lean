import Mathlib.Data.List.Basic

/-! Unbounded loops as a body that either goes round again or leaves with a
result. Running out of fuel is the only way `iterate` has no answer, so halting
is a statement about the body and the start state alone. -/
namespace PerfProf.Loop
variable {σ ρ : Type*}

inductive Pass (σ ρ : Type*) where
  | again (s : σ)
  | done (s : σ) (r : ρ)

def iterate (body : σ → Pass σ ρ) : Nat → σ → Option (σ × ρ)
  | 0, _ => none
  | n+1, s => match body s with
    | .again t => iterate body n t
    | .done t r => some (t, r)

def Halts (body : σ → Pass σ ρ) (s : σ) : Prop :=
  ∃ n out, iterate body n s = some out

/-- `Visits body s t`: some number of passes leads from `s` to the loop head at `t`. -/
inductive Visits (body : σ → Pass σ ρ) (s : σ) : σ → Prop where
  | here : Visits body s s
  | next {t u : σ} (h : Visits body s t) (hb : body t = .again u) : Visits body s u

theorem iterate_again {body : σ → Pass σ ρ} {s t : σ} (h : body s = .again t) (n : Nat) :
    iterate body (n+1) s = iterate body n t := by
  simp only [iterate, h]

theorem iterate_done {body : σ → Pass σ ρ} {s t : σ} {r : ρ} (h : body s = .done t r)
    (n : Nat) : iterate body (n+1) s = some (t, r) := by
  simp only [iterate, h]

theorem iterate_mono {body : σ → Pass σ ρ} {n m : Nat} {s : σ} {out : σ × ρ}
    (h : iterate body n s = some out) (hnm : n ≤ m) : iterate body m s = some out := by
  induction n generalizing m s with
  | zero => simp [iterate] at h
  | succ n ih =>
    obtain ⟨k, rfl⟩ : ∃ k, m = k+1 := ⟨m-1, by omega⟩
    cases hb : body s with
    | again t =>
      rw [iterate_again hb] at h ⊢
      exact ih h (by omega)
    | done t r =>
      rw [iterate_done hb] at h ⊢
      exact h

theorem halts_again {body : σ → Pass σ ρ} {s t : σ} (h : body s = .again t) :
    Halts body s ↔ Halts body t := by
  constructor
  · rintro ⟨n, out, hn⟩
    cases n with
    | zero => simp [iterate] at hn
    | succ n => exact ⟨n, out, by rwa [iterate_again h] at hn⟩
  · rintro ⟨n, out, hn⟩
    exact ⟨n+1, out, by rwa [iterate_again h]⟩

theorem halts_done {body : σ → Pass σ ρ} {s t : σ} {r : ρ} (h : body s = .done t r) :
    Halts body s :=
  ⟨1, (t, r), iterate_done h 0⟩

/-- The loop ends, and the state it ends in satisfies `P`. -/
def EndsIn (body : σ → Pass σ ρ) (P : σ → Prop) (s : σ) : Prop :=
  Halts body s ∧ ∀ n out, iterate body n s = some out → P out.1

theorem endsIn_done {body : σ → Pass σ ρ} {P : σ → Prop} {s t : σ} {r : ρ}
    (h : body s = .done t r) : EndsIn body P s ↔ P t := by
  constructor
  · intro hs
    exact hs.2 1 (t, r) (iterate_done h 0)
  · intro ht
    refine ⟨halts_done h, ?_⟩
    intro n out hn
    cases n with
    | zero => simp [iterate] at hn
    | succ n =>
      rw [iterate_done h] at hn
      rw [← Option.some.inj hn]
      exact ht

theorem endsIn_again {body : σ → Pass σ ρ} {P : σ → Prop} {s t : σ} (h : body s = .again t) :
    EndsIn body P s ↔ EndsIn body P t := by
  refine and_congr (halts_again h) ⟨?_, ?_⟩
  · intro hs n out hn
    exact hs (n+1) out (by rwa [iterate_again h])
  · intro hs n out hn
    cases n with
    | zero => simp [iterate] at hn
    | succ n => exact hs n out (by rwa [iterate_again h] at hn)

/-- A loop that keeps to states of one kind and leaves none of them into a state without `P`. -/
theorem endsIn_of_invariant {body : σ → Pass σ ρ} {I P : σ → Prop}
    (hstep : ∀ s t, I s → body s = .again t → I t)
    (hdone : ∀ s t r, I s → body s = .done t r → P t) {s : σ} (hs : I s) :
    EndsIn body P s ↔ Halts body s := by
  refine ⟨And.left, fun h => ⟨h, ?_⟩⟩
  intro n out hn
  induction n generalizing s with
  | zero => simp [iterate] at hn
  | succ n ih =>
    cases hb : body s with
    | again t =>
      rw [iterate_again hb] at hn
      exact ih (hstep s t hs hb) ((halts_again hb).mp h) hn
    | done t r =>
      rw [iterate_done hb] at hn
      rw [← Option.some.inj hn]
      exact hdone s t r hs hb

/-- States that always lead round to another of their kind are never left. -/
theorem not_halts_of_progress {body : σ → Pass σ ρ} {I : σ → Prop}
    (hstep : ∀ s, I s → ∃ t, body s = .again t ∧ I t) {s : σ} (hs : I s) : ¬ Halts body s := by
  intro ⟨n, out, hn⟩
  induction n generalizing s with
  | zero => simp [iterate] at hn
  | succ n ih =>
    obtain ⟨t, hb, ht⟩ := hstep s hs
    rw [iterate_again hb] at hn
    exact ih ht hn

theorem Visits.iterate {body : σ → Pass σ ρ} {s t : σ} {out : σ × ρ} {n : Nat}
    (h : Visits body s t) (hn : iterate body n t = some out) :
    ∃ k, Loop.iterate body k s = some out := by
  induction h generalizing n with
  | here => exact ⟨n, hn⟩
  | next _ hb ih => exact ih (n := n+1) (by rw [iterate_again hb]; exact hn)

theorem Visits.after {body : σ → Pass σ ρ} {s t u : σ} (hb : body s = .again t)
    (h : Visits body t u) : Visits body s u := by
  induction h with
  | here => exact .next .here hb
  | next _ hb' ih => exact .next ih hb'

theorem Visits.invariant {body : σ → Pass σ ρ} {I : σ → Prop} {s t : σ}
    (hstep : ∀ u v, I u → body u = .again v → I v) (h : Visits body s t) (hs : I s) : I t := by
  induction h with
  | here => exact hs
  | next _ hb ih => exact hstep _ _ ih hb

/-- `n` passes, if the loop goes on for that long. -/
def passes (body : σ → Pass σ ρ) : Nat → σ → Option σ
  | 0, s => some s
  | n+1, s => match body s with
    | .again t => passes body n t
    | .done _ _ => none

theorem exists_visits {β : Type*} (body : σ → Pass σ ρ) {s : σ} {f : σ → Option β} {x : β} (n : Nat)
    (h : (passes body n s).bind f = some x) : ∃ t, Visits body s t ∧ f t = some x := by
  induction n generalizing s with
  | zero => exact ⟨s, .here, h⟩
  | succ n ih =>
    rw [passes] at h
    cases hb : body s with
    | again t =>
      rw [hb] at h
      obtain ⟨u, hu, hx⟩ := ih h
      exact ⟨u, hu.after hb, hx⟩
    | done t r =>
      rw [hb] at h
      cases h

section Endless
variable {α : Type*}

/-- `k` applications of a step that may refuse. -/
def retry (f : α → Option α) : Nat → α → Option α
  | 0, m => some m
  | k+1, m => (f m).bind (retry f k)

def Endless (f : α → Option α) (m : α) : Prop := ∀ k, ∃ m', retry f k m = some m'

theorem endless_step {f : α → Option α} {m m' : α} (hf : f m = some m') :
    Endless f m ↔ Endless f m' := by
  have hk (k : Nat) : retry f (k+1) m = retry f k m' := by rw [retry, hf, Option.bind_some]
  constructor
  · intro h k
    rw [← hk]
    exact h (k+1)
  · intro h k
    cases k with
    | zero => exact ⟨m, rfl⟩
    | succ k =>
      rw [hk]
      exact h k

theorem not_endless_of_none {f : α → Option α} {m : α} (hf : f m = none) : ¬ Endless f m := by
  intro h
  obtain ⟨m', h1⟩ := h 1
  simp [retry, hf] at h1

/-- A loop whose passes only retry one step ends exactly when the step refuses some day. -/
theorem halts_iff_not_endless {body : σ → Pass σ ρ} {I : σ → Prop} {f : α → Option α}
    (mem : σ → α)
    (hagain : ∀ s m, I s → f (mem s) = some m → ∃ t, body s = .again t ∧ I t ∧ mem t = m)
    (hdone : ∀ s, I s → f (mem s) = none → ∃ t r, body s = .done t r) {s : σ} (hs : I s) :
    Halts body s ↔ ¬ Endless f (mem s) := by
  constructor
  · intro hh he
    refine not_halts_of_progress (I := fun s => I s ∧ Endless f (mem s)) ?_ ⟨hs, he⟩ hh
    intro u ⟨hu, hue⟩
    cases hf : f (mem u) with
    | none => exact absurd hue (not_endless_of_none hf)
    | some m =>
      obtain ⟨t, hb, ht, hm⟩ := hagain u m hu hf
      exact ⟨t, hb, ht, by rw [hm]; exact (endless_step hf).mp hue⟩
  · intro hne
    obtain ⟨k, hk⟩ : ∃ k, retry f k (mem s) = none := by
      by_contra hall
      apply hne
      intro k
      cases h : retry f k (mem s) with
      | none => exact absurd ⟨k, h⟩ hall
      | some m => exact ⟨m, rfl⟩
    clear hne
    induction k generalizing s with
    | zero => simp [retry] at hk
    | succ k ih =>
      cases hf : f (mem s) with
      | none =>
        obtain ⟨t, r, hb⟩ := hdone s hs hf
        exact halts_done hb
      | some m =>
        obtain ⟨t, hb, ht, hm⟩ := hagain s m hs hf
        rw [retry, hf, Option.bind_some] at hk
        exact (halts_again hb).mpr (ih ht (by rwa [hm]))

end Endless

section Runs
variable {ι : Type*} {step : σ → ι → Option σ} {good : σ → ι → Prop}

/-- Operations one after the other, until one of them has no outcome. -/
def runs (step : σ → ι → Option σ) : List ι → σ → Option σ
  | [], s => some s
  | op :: ops, s => (step s op).bind (runs step ops)

/-- Every operation that a run gets through meets a condition on the state before it. -/
def Meets (step : σ → ι → Option σ) (good : σ → ι → Prop) : List ι → σ → Prop
  | [], _ => True
  | op :: ops, s => ∀ t, step s op = some t → good s op ∧ Meets step good ops t

/-- A property that one operation keeps exactly under the condition holds all along a run
exactly when every operation meets the condition. -/
theorem meets_iff {I P : σ → Prop}
    (hstep : ∀ s op t, I s → P s → step s op = some t → I t ∧ (P t ↔ good s op))
    {s : σ} (hI : I s) (hP : P s) (ops : List ι) :
    Meets step good ops s ↔ ∀ p t, p <+: ops → runs step p s = some t → P t := by
  induction ops generalizing s with
  | nil =>
    simp only [Meets, List.prefix_nil, true_iff]
    rintro p t rfl hrun
    cases hrun
    exact hP
  | cons op ops ih =>
    constructor
    · intro hmeets p t hp hrun
      cases p with
      | nil =>
        cases hrun
        exact hP
      | cons op' p =>
        obtain ⟨rfl, hp'⟩ := List.cons_prefix_cons.mp hp
        obtain ⟨u, hu, hrest⟩ := Option.bind_eq_some_iff.mp hrun
        obtain ⟨hIu, hPu⟩ := hstep s op' u hI hP hu
        obtain ⟨hgood, hmeets⟩ := hmeets u hu
        exact (ih hIu (hPu.mpr hgood)).mp hmeets p t hp' hrest
    · intro hall u hu
      obtain ⟨hIu, hPu⟩ := hstep s op u hI hP hu
      have hone : P u := hall [op] u (by simp) (by rw [runs, hu]; rfl)
      refine ⟨hPu.mp hone, (ih hIu hone).mpr fun p t hp hrest => ?_⟩
      exact hall (op :: p) t (List.cons_prefix_cons.mpr ⟨rfl, hp⟩) (by rw [runs, hu]; exact hrest)

end Runs

end PerfProf.Loop
