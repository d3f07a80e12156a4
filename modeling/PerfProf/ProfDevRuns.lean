import PerfProf.ProfDevLife

/-! Whole runs: the books of the devices at every point of a run, and what it takes to free one. -/
namespace PerfProf.Device
open Obligations

/-- One step of a run that keeps to what it has to. -/
def LawfulStep (c c' : Config) : Prop := Lawful c.world c.stack ∧ Step c c'

def Reachable (c : Config) : Prop := Relation.ReflTransGen LawfulStep init c

section Books
variable {w w' : World} {f : Frame} {k fs : List Frame} {c c' : Config} {d : DevId} {p : ProfDev}

theorem Inv.init : Inv init.world init.stack where
  links :=
    { bound := fun _ _ hp => by cases hp
      child := fun _ _ hp => by cases hp
      childNodup := fun _ _ hp => by cases hp
      parent := fun _ _ _ hp => by cases hp
      source := fun _ _ hp => by cases hp
      sourceNodup := fun _ _ hp => by cases hp
      target := fun _ _ _ hp => by cases hp }
  fits := fun _ _ hp => by cases hp
  gone := fun d _ => ⟨fun m => by cases m <;> rfl, rfl⟩
  linked := by simp [Device.init, Frame.Linked]
  ready := by simp [Device.init, Ready, Frame.names]

theorem Inv.guarded_cons (h : Inv w (f :: k)) (hf : ¬ f.IsCall) : Guarded Frame.names (Frame.owe .held) (f :: k) :=
  ⟨fun _ hd => h.held hd hf, h.guarded⟩

/-- What the open holds of the device, the call that frees it holds. -/
theorem Inv.outFree (h : Inv w (.openList d :: f :: k)) (hf : f.Returns d) : Inv w (.outFree d :: k) := by
  have howe : ∀ m x, Frame.owe m (.openList d) x + f.owe m x = Frame.owe m (.outFree d) x := by
    intro m x
    cases f with
    | put e | cloned e i fails =>
      cases hf
      cases m <;> simp [Frame.owe]
    | _ => cases hf
  refine h.stack (fun x m => ?_) (fun g hg => ?_) (Ready.of_guarded ⟨?_, h.guarded.2⟩)
  · rw [marks_cons, marks_cons, marks_cons, ← howe]
    omega
  · rcases List.mem_cons.mp hg with rfl | hg
    · trivial
    · exact h.linked g (List.mem_cons_of_mem _ (List.mem_cons_of_mem _ hg))
  · simp [Frame.names, Frame.owe]

/-- A frame that owes nothing goes before others that hold what it names. -/
theorem Inv.before (h : Inv w k) (hg : Guarded Frame.names (Frame.owe .held) k) (hf : ∀ x m, f.owe m x = 0)
    (hlinked : f.Linked w) (hn : ∀ x ∈ f.names, 0 < Held k x) :
    Inv w (f :: k) ∧ Guarded Frame.names (Frame.owe .held) (f :: k) := by
  have hheld : ∀ x ∈ f.names, 0 < Held (f :: k) x := by
    intro x hx
    rw [Held, owed_cons, hf, Nat.zero_add]
    exact hn x hx
  exact ⟨h.push hg hf hlinked fun x hx => Or.inl (hheld x hx), hheld, hg⟩

theorem Step.inv (hs : Step c c') (hi : Inv c.world c.stack) (hl : Lawful c.world c.stack) :
    Inv c'.world c'.stack := by
  cases hs with
  | @run w w' f fs k h =>
    have hd : ¬ Dangling w f := by
      intro hd
      rw [exec_eq_none hi hd] at h
      cases h
    obtain ⟨w₁, fs₁, heq, hinv⟩ := runs_exec hi hl hd
    rw [h] at heq
    cases heq
    exact hinv
  | perform ha h =>
    obtain ⟨w₁, fs₁, heq, hinv⟩ := performs hi _ ha
    rw [h] at heq
    cases heq
    exact hinv
  | pollFails => exact hi.pop fun x m => by cases m <;> rfl
  | initFails hf => exact hi.outFree hf
  | @openFails w d f k hf =>
    have hopen := hi.outFree hf
    obtain ⟨hdeinit, gdeinit⟩ := hopen.before (f := .callback) (hopen.guarded_cons (by simp [Frame.IsCall]))
      (fun x m => by cases m <;> rfl) trivial (by simp [Frame.names])
    obtain ⟨hdetach, gdetach⟩ := hdeinit.before (f := .detach d) gdeinit (fun x m => by cases m <;> rfl) trivial
      (by simp [Frame.names, Frame.owe])
    exact (hdetach.before (f := .start .closeOpened d) gdetach (fun x m => by cases m <;> rfl) trivial
      (by simp [Frame.names, Frame.owe])).1
  | @reinit w d k =>
    have hheld : 0 < Held (.openList d :: k) d := hi.held (by simp [Frame.names]) (by simp [Frame.IsCall])
    obtain ⟨hinit, ginit⟩ := hi.before (f := .callback) (hi.guarded_cons (by simp [Frame.IsCall]))
      (fun x m => by cases m <;> rfl) trivial (by simp [Frame.names])
    obtain ⟨hdeinit, gdeinit⟩ := hinit.before (f := .callback) ginit (fun x m => by cases m <;> rfl) trivial
      (by simp [Frame.names])
    exact (hdeinit.before (f := .start .closeOpened d) gdeinit (fun x m => by cases m <;> rfl) trivial
      (by simpa [Frame.names, Frame.owe] using hheld)).1
  | noEntry h =>
    refine hi.same (l := [.main]) rfl rfl rfl (fun x m => ?_) (by simp [Frame.Linked])
      (Ready.of_guarded ⟨by simp [Frame.names], hi.guarded⟩)
    cases m <;> simp [marks, Frame.owe]

theorem Reachable.inv (h : Reachable c) : Inv c.world c.stack := by
  induction h with
  | refl => exact Inv.init
  | tail _ hstep ih => exact hstep.2.inv ih hstep.1

theorem Frame.held_of_exits (h : 0 < f.owe .exits d) : d ∈ f.names ∧ ¬ f.IsCall := by
  cases f <;> simp_all [Frame.owe, Frame.names, Frame.IsCall, Nat.pos_iff_ne_zero]

/-- A device without a reference has been closed and taken off the list. -/
theorem Inv.closed_of_dying (h : Inv w k) (hd : w.devs d = some p) (hp : p.refcount = 0) :
    p.inclose = true ∧ p.state = .exit ∧ w.list.count d = 0 := by
  have hfit := h.fits d p hd
  have hheld := h.alive_of_held (d := d)
  have hnot : ¬ 0 < Held k d := by
    intro hpos
    obtain ⟨q, hq, hpos'⟩ := hheld hpos
    rw [hd] at hq
    cases hq
    omega
  have hboth : p.inclose = true ∧ p.state = .exit := by
    cases k with
    | nil =>
      have hrefs := hfit.refs
      have hexits := hfit.exits
      simp only [marks, owed_nil] at hrefs hexits
      have hclose : p.inclose = true := by
        by_contra hne
        simp [ProfDev.own, hne, hp] at hrefs
        omega
      refine ⟨hclose, ?_⟩
      by_contra hne
      simp [hclose, hne] at hexits
    | cons f k =>
      refine ⟨(h.held_of_dying hd hp).2, h.exit_of_dying ?_ hd hp⟩
      rcases Nat.eq_zero_or_pos (f.owe .exits d) with hz | hpos
      · exact hz
      · obtain ⟨hmem, hcall⟩ := Frame.held_of_exits hpos
        exact absurd (h.held hmem hcall) hnot
  refine ⟨hboth.1, hboth.2, ?_⟩
  rcases Nat.eq_zero_or_pos (w.list.count d) with hz | hpos
  · exact hz
  · exact absurd hboth.2 ((hfit.listed hpos).2 hboth.1)

theorem Inv.alive_of_listed (h : Inv w k) (hd : d ∈ w.list) : Alive w d := by
  have hcount : 0 < w.list.count d := List.count_pos_iff.mpr hd
  cases hp : w.devs d with
  | none => exact absurd (h.gone d hp).2 hcount.ne'
  | some p =>
    have hne : p.refcount ≠ 0 := fun hz => hcount.ne' (h.closed_of_dying hp hz).2.2
    have := (h.fits d p hp).refcount_nonneg
    exact ⟨p, hp, by omega⟩

theorem Inv.alive_of_named (h : Inv w k) (hf : f ∈ k) (hd : d ∈ f.names) : Alive w d := by
  cases k with
  | nil => cases hf
  | cons g k =>
    rcases List.mem_cons.mp hf with rfl | hf
    · exact h.alive hd
    · have hpos := h.guarded.held_of_mem hf hd
      refine h.alive_of_held ?_
      simp only [Held, owed_cons]
      omega

theorem Inv.dying_iff (h : Inv w k) (hd : w.devs d = some p) : p.refcount = 0 ↔ ∃ r, Frame.free d r ∈ k := by
  have hdying := (h.fits d p hd).dying
  simp only [marks] at hdying
  constructor
  · intro hp
    rw [if_pos hp] at hdying
    obtain ⟨f, hf, hpos⟩ := exists_of_owed_pos (Frame.owe .freed) (k := k) (d := d) (by omega)
    cases f <;> simp_all [Frame.owe, Nat.pos_iff_ne_zero]
    exact ⟨_, hf⟩
  · rintro ⟨r, hr⟩
    by_contra hne
    rw [if_neg hne] at hdying
    have := owed_pos_of_mem (Frame.owe .freed) hr (d := d) (by simp [Frame.owe])
    omega

theorem Reachable.run (h : Reachable ⟨w, f :: k⟩) (hl : Lawful w (f :: k)) (he : exec w f = some (w', fs)) :
    Reachable ⟨w', fs ++ k⟩ := h.tail ⟨hl, Step.run he⟩

theorem Reachable.perform (h : Reachable ⟨w, .callback :: k⟩) (op : Op) (ha : op.Allowed w)
    (he : Device.perform w op = some (w', fs)) : Reachable ⟨w', fs ++ .callback :: k⟩ :=
  h.tail ⟨trivial, Step.perform ha he⟩

theorem Reachable.initFails (h : Reachable ⟨w, .openList d :: f :: k⟩) (hl : Lawful w (.openList d :: f :: k))
    (hf : f.Returns d) : Reachable ⟨w, .outFree d :: k⟩ := h.tail ⟨hl, Step.initFails hf⟩

end Books

end PerfProf.Device
