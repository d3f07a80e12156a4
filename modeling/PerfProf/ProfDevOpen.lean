import PerfProf.ProfDevFree

/-! A device is opened as the child of another, and forwarded to another. -/
namespace PerfProf.Device
open Obligations

section Open
variable {w w' : World} {k l : List Frame} {n c d o : DevId} {p q : ProfDev} {b : Walk}

/-- What the open of `n` leaves of another device. -/
def grown (n : DevId) (p : ProfDev) (x : DevId) (r : ProfDev) : ProfDev :=
  if p.parent = some x then { r with childList := r.childList ++ [n] } else r

/-- `w'` is `w` after the open of `n`. -/
structure Opened (w : World) (n : DevId) (p : ProfDev) (w' : World) : Prop where
  links : Links w
  fresh : n = w.next
  parent : ∀ i, p.parent = some i → ∃ r, w.devs i = some r
  childList : p.childList = []
  sourceList : p.sourceList = []
  target : p.target = none
  devs : ∀ x, w'.devs x = if x = n then some p else (w.devs x).map (grown n p x)
  next : w'.next = n + 1
  list : w'.list = w.list
  running : w'.running = w.running
  events : w'.events = w.events
  leaked : w'.leaked = w.leaked

namespace Opened
variable (h : Opened w n p w')
include h

theorem lacks : w.devs n = none := by
  cases hn : w.devs n with
  | none => rfl
  | some r => exact absurd h.fresh (Nat.ne_of_lt (h.links.bound n r hn))

theorem ne {x : DevId} {r : ProfDev} (hr : w.devs x = some r) : x ≠ n := by
  intro hx
  rw [hx, h.lacks] at hr
  cases hr

theorem kept {x : DevId} {r : ProfDev} (hr : w.devs x = some r) : w'.devs x = some (grown n p x r) := by
  rw [h.devs, if_neg (h.ne hr), hr]
  rfl

theorem back {x : DevId} {r : ProfDev} (hx : x ≠ n) (hr : w'.devs x = some r) :
    ∃ r₀, w.devs x = some r₀ ∧ r = grown n p x r₀ := by
  rw [h.devs, if_neg hx, Option.map_eq_some_iff] at hr
  obtain ⟨r₀, hr₀, he⟩ := hr
  exact ⟨r₀, hr₀, he.symm⟩

theorem new {r : ProfDev} (hr : w'.devs n = some r) : r = p := by
  rw [h.devs, if_pos rfl] at hr
  exact (Option.some.inj hr).symm

theorem parent_iff {x o : DevId} :
    (∃ r, w'.devs x = some r ∧ r.parent = some o) ↔
      (x = n ∧ p.parent = some o) ∨ ∃ r, w.devs x = some r ∧ r.parent = some o := by
  constructor
  · rintro ⟨r, hr, hp⟩
    by_cases hx : x = n
    · subst hx
      exact Or.inl ⟨rfl, h.new hr ▸ hp⟩
    · obtain ⟨r₀, hr₀, rfl⟩ := h.back hx hr
      exact Or.inr ⟨r₀, hr₀, by unfold grown at hp; split at hp <;> exact hp⟩
  · rintro (⟨rfl, hp⟩ | ⟨r, hr, hp⟩)
    · exact ⟨p, by rw [h.devs, if_pos rfl], hp⟩
    · exact ⟨_, h.kept hr, by unfold grown; split <;> exact hp⟩

theorem target_iff {x o : DevId} :
    (∃ r, w'.devs x = some r ∧ r.target = some o) ↔ ∃ r, w.devs x = some r ∧ r.target = some o := by
  constructor
  · rintro ⟨r, hr, hp⟩
    by_cases hx : x = n
    · subst hx
      rw [h.new hr, h.target] at hp
      cases hp
    · obtain ⟨r₀, hr₀, rfl⟩ := h.back hx hr
      exact ⟨r₀, hr₀, by unfold grown at hp; split at hp <;> exact hp⟩
  · rintro ⟨r, hr, hp⟩
    exact ⟨_, h.kept hr, by unfold grown; split <;> exact hp⟩

theorem linked (hc : Linked w b c o) : Linked w' b c o := by
  unfold Linked at hc ⊢
  cases b <;> simp only [Walk.link] at hc ⊢ <;>
    first
      | exact h.parent_iff.mpr (Or.inr hc)
      | exact h.target_iff.mpr hc

theorem no_child {x : DevId} {r : ProfDev} (hr : w.devs x = some r) : r.parent ≠ some n := by
  intro hp
  obtain ⟨-, s, hs⟩ := h.links.parent x r n hr hp
  rw [h.lacks] at hs
  cases hs

theorem no_source {x : DevId} {r : ProfDev} (hr : w.devs x = some r) : r.target ≠ some n := by
  intro hp
  exact Nat.ne_of_lt (h.links.target x r n hr hp).2 h.fresh

theorem parent_ne {i : DevId} (hi : p.parent = some i) : i ≠ n := by
  obtain ⟨r, hr⟩ := h.parent i hi
  exact h.ne hr

theorem links' : Links w' where
  bound x r hr := by
    rw [h.next]
    by_cases hx : x = n
    · exact hx ▸ Nat.lt_succ_self x
    · obtain ⟨r₀, hr₀, -⟩ := h.back hx hr
      rw [h.fresh]
      exact Nat.lt_succ_of_lt (h.links.bound x r₀ hr₀)
  child x r hr c := by
    rw [h.parent_iff]
    by_cases hx : x = n
    · subst hx
      rw [h.new hr, h.childList]
      simp only [List.not_mem_nil, false_iff, not_or, not_and, not_exists]
      exact ⟨fun _ hp => h.parent_ne hp rfl, fun s hs => h.no_child hs⟩
    · obtain ⟨r₀, hr₀, rfl⟩ := h.back hx hr
      have hold := h.links.child x r₀ hr₀ c
      unfold grown
      split
      · rename_i hp
        rw [List.mem_append, List.mem_singleton, hold]
        simp [hp, or_comm]
      · rename_i hp
        simp [hold, hp]
  childNodup x r hr := by
    by_cases hx : x = n
    · subst hx
      rw [h.new hr, h.childList]
      exact List.nodup_nil
    · obtain ⟨r₀, hr₀, rfl⟩ := h.back hx hr
      unfold grown
      split
      · refine List.nodup_append'.mpr ⟨h.links.childNodup x r₀ hr₀, List.nodup_singleton n, ?_⟩
        rw [List.disjoint_singleton]
        intro hmem
        obtain ⟨s, hs, -⟩ := (h.links.child x r₀ hr₀ n).mp hmem
        exact h.ne hs rfl
      · exact h.links.childNodup x r₀ hr₀
  parent x r i hr hi := by
    by_cases hx : x = n
    · subst hx
      rw [h.new hr] at hi
      obtain ⟨s, hs⟩ := h.parent i hi
      exact ⟨h.fresh ▸ h.links.bound i s hs, _, h.kept hs⟩
    · obtain ⟨r₀, hr₀, rfl⟩ := h.back hx hr
      have hi₀ : r₀.parent = some i := by
        unfold grown at hi
        split at hi <;> exact hi
      obtain ⟨hlt, s, hs⟩ := h.links.parent x r₀ i hr₀ hi₀
      exact ⟨hlt, _, h.kept hs⟩
  source x r hr c := by
    rw [h.target_iff]
    by_cases hx : x = n
    · subst hx
      rw [h.new hr, h.sourceList]
      simp only [List.not_mem_nil, false_iff, not_exists, not_and]
      exact fun s hs => h.no_source hs
    · obtain ⟨r₀, hr₀, rfl⟩ := h.back hx hr
      have hold := h.links.source x r₀ hr₀ c
      unfold grown
      split <;> exact hold
  sourceNodup x r hr := by
    by_cases hx : x = n
    · subst hx
      rw [h.new hr, h.sourceList]
      exact List.nodup_nil
    · obtain ⟨r₀, hr₀, rfl⟩ := h.back hx hr
      unfold grown
      split <;> exact h.links.sourceNodup x r₀ hr₀
  target x r t hr ht := by
    by_cases hx : x = n
    · subst hx
      rw [h.new hr, h.target] at ht
      cases ht
    · obtain ⟨r₀, hr₀, rfl⟩ := h.back hx hr
      have ht₀ : r₀.target = some t := by
        unfold grown at ht
        split at ht <;> exact ht
      obtain ⟨hne, hlt⟩ := h.links.target x r₀ t hr₀ ht₀
      refine ⟨hne, ?_⟩
      rw [h.next, h.fresh]
      exact Nat.lt_succ_of_lt hlt

end Opened

theorem Fits.grown {n x : DevId} {r : ProfDev} {y : Mark → Nat} {m : Nat} (h : Fits r y m) :
    Fits (grown n p x r) y m := by
  unfold Device.grown
  split
  · exact ⟨h.refs, h.dying, h.exits, h.opened, h.flushes, h.once, h.listed, h.kept⟩
  · exact h

theorem Inv.opened (h : Inv w k) (hw : Opened w n p w') (hoff : ∀ x, x ≠ n → ∀ m, owed (Frame.owe m) l x = 0)
    (hfit : Fits p (fun m => owed (Frame.owe m) l n) 0) (hlinked : ∀ g ∈ l, g.Linked w')
    (hg : Guarded Frame.names (Frame.owe .held) (l ++ k)) : Inv w' (l ++ k) := by
  have hmarks : ∀ x m, marks w' (l ++ k) x m = marks w k x m + owed (Frame.owe m) l x := by
    intro x m
    rw [marks_append, marks_congr hw.events hw.leaked]
  refine ⟨hw.links', fun x r hr => ?_, fun x hx => ?_, fun g hg' => ?_, Ready.of_guarded hg⟩
  · by_cases hxn : x = n
    · subst hxn
      obtain ⟨hzero, hcount⟩ := h.gone x hw.lacks
      rw [hw.new hr, hw.list, hcount]
      refine hfit.congr fun m => ?_
      rw [hmarks, hzero, Nat.zero_add]
    · obtain ⟨r₀, hr₀, rfl⟩ := hw.back hxn hr
      rw [hw.list]
      refine ((h.fits x r₀ hr₀).congr fun m => ?_).grown
      rw [hmarks, hoff x hxn, Nat.add_zero]
  · have hxn : x ≠ n := by
      intro he
      rw [hw.devs, if_pos he] at hx
      cases hx
    rw [hw.devs, if_neg hxn, Option.map_eq_none_iff] at hx
    obtain ⟨hzero, hcount⟩ := h.gone x hx
    refine ⟨fun m => ?_, by rw [hw.list, hcount]⟩
    rw [hmarks, hoff x hxn, hzero]
  · rcases List.mem_append.mp hg' with hg' | hg'
    · exact hlinked g hg'
    · have hold := h.linked g hg'
      unfold Frame.Linked at *
      split at hold
      · exact hw.linked hold
      · exact ⟨hw.linked hold.1, hold.2⟩
      · trivial

end Open

section Forward
variable {w w' : World} {k : List Frame} {d t c o : DevId} {p : ProfDev} {b : Walk}

/-- What a forward of `d` to `t` leaves of a device. -/
def routed (d t x : DevId) (r : ProfDev) : ProfDev :=
  { r with
    target := if x = d then some t else r.target
    sourceList := if x = t then r.sourceList ++ [d] else r.sourceList }

/-- `w'` is `w` after the forward of `d` to `t`. -/
structure Forwarded (w : World) (d t : DevId) (p : ProfDev) (w' : World) : Prop where
  links : Links w
  here : w.devs d = some p
  target : p.target = none
  ne : t ≠ d
  there : t < w.next
  devs : ∀ x, w'.devs x = (w.devs x).map (routed d t x)
  next : w'.next = w.next
  list : w'.list = w.list
  running : w'.running = w.running
  events : w'.events = w.events
  leaked : w'.leaked = w.leaked

theorem profDevForward_eq (hd : w.devs d = some p) (hne : t ≠ d) (ht : ∃ r, w.devs t = some r) :
    profDevForward w d t = some { w with devs := fun x => (w.devs x).map (routed d t x) } := by
  obtain ⟨s, hs⟩ := ht
  simp only [profDevForward, hd, World.set_devs, Function.update_of_ne hne, hs, Option.bind_eq_bind, Option.bind_some]
  refine congrArg some ?_
  simp only [World.set]
  congr 1
  funext x
  by_cases hxt : x = t
  · subst hxt
    simp [routed, hs, hne]
  · rw [Function.update_of_ne hxt]
    by_cases hxd : x = d
    · subst hxd
      simp [routed, hd, hxt]
    · rw [Function.update_of_ne hxd]
      cases w.devs x <;> simp [routed, hxt, hxd]

namespace Forwarded
variable (h : Forwarded w d t p w')
include h

theorem kept {x : DevId} {r : ProfDev} (hr : w.devs x = some r) : w'.devs x = some (routed d t x r) := by
  rw [h.devs, hr]
  rfl

theorem back {x : DevId} {r : ProfDev} (hr : w'.devs x = some r) :
    ∃ r₀, w.devs x = some r₀ ∧ r = routed d t x r₀ := by
  rw [h.devs, Option.map_eq_some_iff] at hr
  obtain ⟨r₀, hr₀, he⟩ := hr
  exact ⟨r₀, hr₀, he.symm⟩

theorem parent_iff {x o : DevId} :
    (∃ r, w'.devs x = some r ∧ r.parent = some o) ↔ ∃ r, w.devs x = some r ∧ r.parent = some o := by
  constructor
  · rintro ⟨r, hr, hp⟩
    obtain ⟨r₀, hr₀, rfl⟩ := h.back hr
    exact ⟨r₀, hr₀, hp⟩
  · rintro ⟨r, hr, hp⟩
    exact ⟨_, h.kept hr, hp⟩

theorem target_iff {x o : DevId} :
    (∃ r, w'.devs x = some r ∧ r.target = some o) ↔
      (x = d ∧ o = t) ∨ ∃ r, w.devs x = some r ∧ r.target = some o := by
  by_cases hx : x = d
  · subst hx
    simp [h.kept h.here, routed, h.here, h.target, eq_comm]
  · constructor
    · rintro ⟨r, hr, hp⟩
      obtain ⟨r₀, hr₀, rfl⟩ := h.back hr
      simp only [routed, if_neg hx] at hp
      exact Or.inr ⟨r₀, hr₀, hp⟩
    · rintro (⟨he, -⟩ | ⟨r, hr, hp⟩)
      · exact absurd he hx
      · exact ⟨_, h.kept hr, by simp only [routed, if_neg hx, hp]⟩

theorem linked (hc : Linked w b c o) : Linked w' b c o := by
  unfold Linked at hc ⊢
  cases b <;> simp only [Walk.link] at hc ⊢ <;>
    first
      | exact h.parent_iff.mpr hc
      | exact h.target_iff.mpr (Or.inr hc)

theorem links' : Links w' where
  bound x r hr := by
    obtain ⟨r₀, hr₀, -⟩ := h.back hr
    rw [h.next]
    exact h.links.bound x r₀ hr₀
  child x r hr c := by
    obtain ⟨r₀, hr₀, rfl⟩ := h.back hr
    rw [h.parent_iff]
    exact h.links.child x r₀ hr₀ c
  childNodup x r hr := by
    obtain ⟨r₀, hr₀, rfl⟩ := h.back hr
    exact h.links.childNodup x r₀ hr₀
  parent x r i hr hi := by
    obtain ⟨r₀, hr₀, rfl⟩ := h.back hr
    obtain ⟨hlt, s, hs⟩ := h.links.parent x r₀ i hr₀ hi
    exact ⟨hlt, _, h.kept hs⟩
  source x r hr c := by
    obtain ⟨r₀, hr₀, rfl⟩ := h.back hr
    rw [h.target_iff]
    have hold := h.links.source x r₀ hr₀ c
    by_cases hx : x = t
    · simp [routed, hx, hx ▸ hold, or_comm]
    · simp [routed, hx, hold]
  sourceNodup x r hr := by
    obtain ⟨r₀, hr₀, rfl⟩ := h.back hr
    have hold := h.links.sourceNodup x r₀ hr₀
    by_cases hx : x = t
    · simp only [routed, if_pos hx]
      refine List.nodup_append'.mpr ⟨hold, List.nodup_singleton d, ?_⟩
      rw [List.disjoint_singleton]
      intro hmem
      obtain ⟨s, hs, ht⟩ := (h.links.source x r₀ hr₀ d).mp hmem
      rw [h.here] at hs
      cases hs
      rw [h.target] at ht
      cases ht
    · simpa only [routed, if_neg hx] using hold
  target x r o hr ho := by
    obtain ⟨r₀, hr₀, rfl⟩ := h.back hr
    rw [h.next]
    by_cases hx : x = d
    · simp only [routed, if_pos hx, Option.some.injEq] at ho
      rw [← ho, hx]
      exact ⟨h.ne, h.there⟩
    · simp only [routed, if_neg hx] at ho
      exact h.links.target x r₀ o hr₀ ho

end Forwarded

theorem Inv.forwarded (h : Inv w k) (hg : Guarded Frame.names (Frame.owe .held) k) (hw : Forwarded w d t p w') :
    Inv w' k := by
  have hmarks : ∀ x, marks w' k x = marks w k x := fun x => funext fun m => marks_congr hw.events hw.leaked k x m
  refine ⟨hw.links', fun x r hr => ?_, fun x hx => ?_, fun g hg' => ?_, Ready.of_guarded hg⟩
  · obtain ⟨r₀, hr₀, rfl⟩ := hw.back hr
    rw [hmarks, hw.list]
    have hfit := h.fits x r₀ hr₀
    exact ⟨hfit.refs, hfit.dying, hfit.exits, hfit.opened, hfit.flushes, hfit.once, hfit.listed, hfit.kept⟩
  · rw [hw.devs, Option.map_eq_none_iff] at hx
    rw [hmarks, hw.list]
    exact h.gone x hx
  · have hold := h.linked g hg'
    unfold Frame.Linked at *
    split at hold
    · exact hw.linked hold
    · exact ⟨hw.linked hold.1, hold.2⟩
    · trivial

end Forward

end PerfProf.Device
