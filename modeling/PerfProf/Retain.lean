import Mathlib.Data.List.Basic

/-! What a line of dated items keeps for windows that reach back from the items still waiting.
`line` is what is still there, `wait` what a window may start from, `seen` everything that
ever arrived. -/
namespace PerfProf.Retain

structure Place where
  time : Nat
  key : Nat
  seq : Nat
deriving DecidableEq

/-- The order of the line. -/
def Before (x y : Place) : Prop :=
  x.time < y.time ∨ x.time = y.time ∧ (x.key < y.key ∨ x.key = y.key ∧ x.seq < y.seq)

instance (x y : Place) : Decidable (Before x y) := by
  unfold Before
  infer_instance

theorem Before.trans {x y z : Place} (h : Before x y) (h' : Before y z) : Before x z := by
  unfold Before at *
  omega

/-- `x` is out of the window that reaches back from `y` by `b`; one that does not reach back
also misses what stands at its own time before it in the line or came before it. -/
def Out (b : Nat) (x y : Place) : Prop :=
  x.time + b < y.time ∨ b = 0 ∧ x.time = y.time ∧ (x.seq < y.seq ∨ x.key < y.key)

structure Scene (b : Nat) (line wait seen : List Place) (now : Nat) : Prop where
  sorted : line.Pairwise Before
  waits : ∀ y ∈ wait, y ∈ line
  kept : ∀ x ∈ seen, x ∈ line ∨ (∀ y ∈ wait, Out b x y) ∧ (b = 0 ∨ x.time + b < now)
  known : ∀ x ∈ line, x ∈ seen
  past : ∀ x ∈ seen, x.time ≤ now

section Steps
variable {b now : Nat} {line line' wait wait' seen : List Place} {p : Place}

theorem Scene.empty (b : Nat) : Scene b [] [] [] 0 :=
  ⟨List.Pairwise.nil, nofun, nofun, nofun, nofun⟩

theorem Scene.settle (h : Scene b line wait seen now) (hw : ∀ y ∈ wait', y ∈ wait) :
    Scene b line wait' seen now := by
  refine ⟨h.sorted, fun y hy => h.waits y (hw y hy), ?_, h.known, h.past⟩
  intro x hx
  exact (h.kept x hx).imp_right fun hout => ⟨fun y hy => hout.1 y (hw y hy), hout.2⟩

theorem Scene.later (h : Scene b line wait seen now) {now' : Nat} (ht : now ≤ now') :
    Scene b line wait seen now' := by
  refine ⟨h.sorted, h.waits, ?_, h.known, fun x hx => Nat.le_trans (h.past x hx) ht⟩
  intro x hx
  refine (h.kept x hx).imp_right fun hout => ⟨hout.1, hout.2.imp_right fun hlt => ?_⟩
  exact Nat.lt_of_lt_of_le hlt ht

/-- An item that has gone is out of the window of one that arrives now. -/
theorem Scene.out_new (h : Scene b line wait seen now) (ht : now ≤ p.time)
    (hseq : ∀ x ∈ seen, x.seq < p.seq) {x : Place} (hx : x ∈ seen)
    (hgone : b = 0 ∨ x.time + b < now) : Out b x p := by
  have hpast := h.past x hx
  have hnew := hseq x hx
  unfold Out
  omega

/-- A new item goes on the line. -/
theorem Scene.arrive (h : Scene b line wait seen now) (ht : now ≤ p.time)
    (hseq : ∀ x ∈ seen, x.seq < p.seq) (hs : line'.Pairwise Before)
    (hmem : ∀ x, x ∈ line' ↔ x = p ∨ x ∈ line) (hw : ∀ y ∈ wait', y = p ∨ y ∈ wait) :
    Scene b line' wait' (seen ++ [p]) p.time := by
  refine ⟨hs, ?_, ?_, ?_, ?_⟩
  · intro y hy
    exact (hmem y).mpr ((hw y hy).imp_right (h.waits y))
  · intro x hx
    cases List.mem_append.mp hx with
    | inr hx => exact Or.inl ((hmem x).mpr (Or.inl (List.mem_singleton.mp hx)))
    | inl hx =>
      cases h.kept x hx with
      | inl hline => exact Or.inl ((hmem x).mpr (Or.inr hline))
      | inr hout =>
        refine Or.inr ⟨?_, hout.2.imp_right fun hlt => Nat.lt_of_lt_of_le hlt ht⟩
        intro y hy
        cases hw y hy with
        | inl hyp => exact hyp ▸ h.out_new ht hseq hx hout.2
        | inr hyw => exact hout.1 y hyw
  · intro x hx
    cases (hmem x).mp hx with
    | inl hxp => exact List.mem_append_right _ (List.mem_singleton.mpr hxp)
    | inr hline => exact List.mem_append_left _ (h.known x hline)
  · intro x hx
    cases List.mem_append.mp hx with
    | inl hx => exact Nat.le_trans (h.past x hx) ht
    | inr hx => exact Nat.le_of_eq (congrArg Place.time (List.mem_singleton.mp hx))

/-- While nothing waits and windows do not reach back, an item may be left out. -/
theorem Scene.skip (h : Scene 0 line [] seen now) (ht : now ≤ p.time) :
    Scene 0 line [] (seen ++ [p]) p.time := by
  refine ⟨h.sorted, nofun, fun x hx => Or.inr ⟨nofun, Or.inl rfl⟩, ?_, ?_⟩
  · intro x hx
    exact List.mem_append_left _ (h.known x hx)
  · intro x hx
    cases List.mem_append.mp hx with
    | inl hx => exact Nat.le_trans (h.past x hx) ht
    | inr hx => exact Nat.le_of_eq (congrArg Place.time (List.mem_singleton.mp hx))

/-- Items go from the front, up to the first that waits; if windows reach back, only those that
none of them reaches. -/
theorem Scene.free {gone : List Place} (h : Scene b (gone ++ line) wait seen now)
    (hw : ∀ y ∈ wait, y ∈ line)
    (hg : b = 0 ∨ ∀ x ∈ gone, (∀ y ∈ wait, x.time + b < y.time) ∧ x.time + b < now) :
    Scene b line wait seen now := by
  obtain ⟨-, hs, hcross⟩ := List.pairwise_append.mp h.sorted
  refine ⟨hs, hw, ?_, fun x hx => h.known x (List.mem_append_right _ hx), h.past⟩
  intro x hx
  cases h.kept x hx with
  | inr hout => exact Or.inr hout
  | inl hline =>
    cases List.mem_append.mp hline with
    | inr hline => exact Or.inl hline
    | inl hgone =>
      right
      cases hg with
      | inl hb =>
        refine ⟨fun y hy => ?_, Or.inl hb⟩
        have hbefore := hcross x hgone y (hw y hy)
        unfold Before at hbefore
        unfold Out
        omega
      | inr hg => exact ⟨fun y hy => Or.inl ((hg x hgone).1 y hy), Or.inr (hg x hgone).2⟩

end Steps

section Windows
variable {b now : Nat} {line wait seen : List Place} {a x : Place}

/-- What a window that starts at `a` and reaches back by `b` can be asked for: at its first
instant only what stands in the line after its start. -/
def Asked (b : Nat) (a x : Place) : Prop :=
  a.time ≤ x.time + b ∧ (x.time + b = a.time →
    if b = 0 then x = a ∨ a.seq < x.seq ∧ a.key ≤ x.key else a.key ≤ x.key)

theorem Scene.still_there (h : Scene b line wait seen now) (ha : a ∈ wait) (hx : x ∈ seen)
    (hask : Asked b a x) : x ∈ line := by
  cases h.kept x hx with
  | inl hline => exact hline
  | inr hout =>
    obtain ⟨hle, htie⟩ := hask
    cases hout.1 a ha with
    | inl hlt => omega
    | inr hsame =>
      obtain ⟨hb, htime, hor⟩ := hsame
      have htie := htie (by omega)
      rw [if_pos hb] at htie
      cases htie with
      | inl hxa => exact hxa ▸ h.waits a ha
      | inr hafter => omega

/-- The part of the line from the place `a` on. -/
theorem mem_from (hs : line.Pairwise Before) (ha : a ∈ line) (hx : x ∈ line)
    (hnot : ¬ Before x a) : x ∈ line.dropWhile (fun y => decide (y ≠ a)) := by
  induction line with
  | nil => cases hx
  | cons y rest ih =>
    obtain ⟨hy, hs⟩ := List.pairwise_cons.mp hs
    by_cases hya : y = a
    · rw [List.dropWhile_cons_of_neg (by simp [hya])]
      exact hx
    · rw [List.dropWhile_cons_of_pos (by simp [hya])]
      have ha' : a ∈ rest := (List.mem_cons.mp ha).resolve_left fun h => hya h.symm
      have hx' : x ∈ rest := by
        cases List.mem_cons.mp hx with
        | inl hxy => exact absurd (hxy ▸ hy a ha') hnot
        | inr hx' => exact hx'
      exact ih hs ha' hx'

theorem mem_dropWhile {p : Place → Bool} (hx : x ∈ line) (hp : p x = false) :
    x ∈ line.dropWhile p := by
  induction line with
  | nil => cases hx
  | cons y rest ih =>
    by_cases hy : p y = true
    · rw [List.dropWhile_cons_of_pos hy]
      cases List.mem_cons.mp hx with
      | inl hxy =>
        rw [← hxy, hp] at hy
        cases hy
      | inr hx => exact ih hx
    · rw [List.dropWhile_cons_of_neg hy]
      exact hx

/-- A window that reaches back is read from the first place at its start time with its key. -/
theorem Scene.reached_back (h : Scene b line wait seen now) (hb : b ≠ 0) (hba : b ≤ a.time)
    (ha : a ∈ wait) (hx : x ∈ seen) (hask : Asked b a x) :
    x ∈ line.dropWhile (fun y => decide (Before y ⟨a.time - b, a.key, 0⟩)) := by
  refine mem_dropWhile (h.still_there ha hx hask) (decide_eq_false ?_)
  obtain ⟨hle, htie⟩ := hask
  rw [if_neg hb] at htie
  unfold Before
  dsimp only
  intro hbefore
  rcases hbefore with hlt | ⟨heq, hkey⟩
  · omega
  · have := htie (by omega)
    omega

/-- One that does not is read from `a` itself. -/
theorem Scene.reached (h : Scene 0 line wait seen now) (ha : a ∈ wait) (hx : x ∈ seen)
    (hask : Asked 0 a x) : x ∈ line.dropWhile (fun y => decide (y ≠ a)) := by
  refine mem_from h.sorted (h.waits a ha) (h.still_there ha hx hask) ?_
  obtain ⟨hle, htie⟩ := hask
  intro hbefore
  unfold Before at hbefore
  rcases hbefore with hlt | ⟨heq, hkey⟩
  · omega
  · have htie := htie heq
    rw [if_pos rfl] at htie
    cases htie with
    | inl hxa =>
      rw [hxa] at hkey
      omega
    | inr hafter => omega

end Windows

end PerfProf.Retain
