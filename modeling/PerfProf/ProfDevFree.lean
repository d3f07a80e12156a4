import PerfProf.ProfDevExec

/-! A device is freed: its children go to its parent, and it goes out of the lists that it is in. -/
namespace PerfProf.Device
open Obligations

section Adopt
variable {w : World} {d x : DevId} {p r : ProfDev}

/-- What the loop over the children `cs` leaves of a device. -/
def adopted (p : ProfDev) (cs : List DevId) (x : DevId) (r : ProfDev) : ProfDev :=
  { r with
    parent := if x ∈ cs then p.parent else r.parent
    clone := if x ∈ cs then p.parent.isSome && p.clone else r.clone
    childList := if p.parent = some x then r.childList ++ cs else r.childList }

/-- The loop can go on over the children `cs`. -/
structure Adoptable (w : World) (p : ProfDev) (cs : List DevId) : Prop where
  nodup : cs.Nodup
  present : ∀ c ∈ cs, ∃ r, w.devs c = some r
  parent : ∀ q, p.parent = some q → q ∉ cs ∧ ∃ r, w.devs q = some r

theorem Adoptable.tail {w' : World} {c : DevId} {cs : List DevId} (h : Adoptable w p (c :: cs))
    (hw : ∀ x r, w.devs x = some r → ∃ r', w'.devs x = some r') : Adoptable w' p cs where
  nodup := (List.nodup_cons.mp h.nodup).2
  present x hx := by
    obtain ⟨r, hr⟩ := h.present x (List.mem_cons_of_mem c hx)
    exact hw x r hr
  parent q hq := by
    obtain ⟨hmem, r, hr⟩ := h.parent q hq
    exact ⟨fun hx => hmem (List.mem_cons_of_mem c hx), hw q r hr⟩

theorem adopt_eq (p : ProfDev) (cs : List DevId) (w : World) (h : Adoptable w p cs) :
    adopt p cs w = some { w with devs := fun x => (w.devs x).map (adopted p cs x) } := by
  induction cs generalizing w with
  | nil =>
    have hid : ∀ x, (w.devs x).map (adopted p [] x) = w.devs x := by
      intro x
      cases w.devs x <;> simp [adopted]
    simp [adopt, hid]
  | cons c cs ih =>
    obtain ⟨r, hr⟩ := h.present c List.mem_cons_self
    have hc : c ∉ cs := (List.nodup_cons.mp h.nodup).1
    cases hq : p.parent with
    | none =>
      simp only [adopt, hr, hq, Option.bind_eq_bind, Option.bind_some]
      rw [ih _ (h.tail fun x r' hx => ?_)]
      · congr 2
        funext x
        by_cases hx : x = c
        · subst hx
          simp [adopted, hr, hc, hq]
        · rw [World.set_devs, Function.update_of_ne hx]
          cases w.devs x <;> simp [adopted, hx, hq]
      · rw [World.set_devs]
        by_cases hxc : x = c
        · exact ⟨_, by rw [hxc, Function.update_self]⟩
        · exact ⟨r', by rw [Function.update_of_ne hxc, hx]⟩
    | some q =>
      obtain ⟨hqmem, s, hs⟩ := h.parent q hq
      have hqc : q ≠ c := fun he => hqmem (he ▸ List.mem_cons_self)
      have hqcs : q ∉ cs := fun hx => hqmem (List.mem_cons_of_mem c hx)
      simp only [adopt, hr, hq, Option.bind_eq_bind, Option.bind_some, World.set_devs, Function.update_of_ne hqc, hs]
      rw [ih _ (h.tail fun x r' hx => ?_)]
      · congr 2
        funext x
        by_cases hxq : x = q
        · subst hxq
          simp [adopted, hs, hqc, hqcs, hq]
        · rw [World.set_devs, Function.update_of_ne hxq, World.set_devs]
          by_cases hxc : x = c
          · subst hxc
            simp [adopted, hr, hc, hq, Ne.symm hxq]
          · rw [Function.update_of_ne hxc]
            cases w.devs x <;> simp [adopted, hxc, hq, Ne.symm hxq]
      · rw [World.set_devs, World.set_devs]
        by_cases hxq : x = q
        · exact ⟨_, by rw [hxq, Function.update_self]⟩
        · rw [Function.update_of_ne hxq]
          by_cases hxc : x = c
          · exact ⟨_, by rw [hxc, Function.update_self]⟩
          · exact ⟨r', by rw [Function.update_of_ne hxc, hx]⟩

/-- What the free of `d` leaves of another device. -/
def unlinked (d : DevId) (p : ProfDev) (x : DevId) (r : ProfDev) : ProfDev :=
  { r with
    parent := if x ∈ p.childList then p.parent else r.parent
    clone := if x ∈ p.childList then p.parent.isSome && p.clone else r.clone
    childList := if p.parent = some x then (r.childList ++ p.childList).erase d else r.childList
    sourceList := if p.target = some x then r.sourceList.erase d else r.sourceList }

def dropChild (d : DevId) (p : ProfDev) (x : DevId) (r : ProfDev) : ProfDev :=
  if p.parent = some x then { r with childList := r.childList.erase d } else r

def dropSource (d : DevId) (p : ProfDev) (x : DevId) (r : ProfDev) : ProfDev :=
  if p.target = some x then { r with sourceList := r.sourceList.erase d } else r

theorem World.set_eq {g : DevId → ProfDev → ProfDev}
    (h : ∀ x, Function.update w.devs d (some p) x = (w.devs x).map (g x)) :
    w.set d p = { w with devs := fun x => (w.devs x).map (g x) } := by
  rw [World.set, funext h]

theorem unlinkParent_eq (d : DevId) (h : ∀ q, p.parent = some q → ∃ r, w.devs q = some r) :
    unlinkParent d p w = some { w with devs := fun x => (w.devs x).map (dropChild d p x) } := by
  cases hq : p.parent with
  | none =>
    have hid : ∀ x, (w.devs x).map (dropChild d p x) = w.devs x := by
      intro x
      cases w.devs x <;> simp [dropChild, hq]
    simp [unlinkParent, hq, hid]
  | some q =>
    obtain ⟨s, hs⟩ := h q hq
    simp only [unlinkParent, hq, hs, Option.bind_eq_bind, Option.bind_some]
    refine congrArg some (World.set_eq fun x => ?_)
    by_cases hx : x = q
    · simp [hx, hs, dropChild, hq]
    · rw [Function.update_of_ne hx]
      cases w.devs x <;> simp [dropChild, hq, Ne.symm hx]

theorem unlinkTarget_eq (d : DevId) (h : ∀ t, p.target = some t → ∃ r, w.devs t = some r) :
    unlinkTarget d p w = some { w with devs := fun x => (w.devs x).map (dropSource d p x) } := by
  cases ht : p.target with
  | none =>
    have hid : ∀ x, (w.devs x).map (dropSource d p x) = w.devs x := by
      intro x
      cases w.devs x <;> simp [dropSource, ht]
    simp [unlinkTarget, ht, hid]
  | some t =>
    obtain ⟨s, hs⟩ := h t ht
    simp only [unlinkTarget, ht, hs, Option.bind_eq_bind, Option.bind_some]
    refine congrArg some (World.set_eq fun x => ?_)
    by_cases hx : x = t
    · simp [hx, hs, dropSource, ht]
    · rw [Function.update_of_ne hx]
      cases w.devs x <;> simp [dropSource, ht, Ne.symm hx]

theorem Links.adoptable (hl : Links w) (hd : w.devs d = some p) : Adoptable w p p.childList := by
  refine ⟨hl.childNodup d p hd, fun c hc => ?_, fun q hq => ?_⟩
  · obtain ⟨r, hr, -⟩ := (hl.child d p hd c).mp hc
    exact ⟨r, hr⟩
  · obtain ⟨hlt, hlive⟩ := hl.parent d p q hd hq
    refine ⟨fun hmem => ?_, hlive⟩
    obtain ⟨r, hr, hp⟩ := (hl.child d p hd q).mp hmem
    exact absurd (hl.parent q r d hr hp).1 (Nat.lt_asymm hlt)

theorem profDevFree_eq (hl : Links w) (hd : w.devs d = some p) (ht : ∀ t, p.target = some t → ∃ r, w.devs t = some r) :
    profDevFree w d =
      some { w with devs := fun x => if x = d then none else (w.devs x).map (unlinked d p x) } := by
  have hadopt : Adoptable w p p.childList := hl.adoptable hd
  simp only [profDevFree, hd, Option.bind_eq_bind, Option.bind_some, adopt_eq p _ w hadopt]
  rw [unlinkParent_eq d fun q hq => ?_]
  · simp only [Option.bind_some]
    rw [unlinkTarget_eq d fun t ht' => ?_]
    · simp only [Option.bind_some, World.delete]
      congr 2
      funext x
      by_cases hx : x = d
      · simp [hx]
      · rw [Function.update_of_ne hx, if_neg hx, Option.map_map, Option.map_map]
        congr 1
        funext r
        by_cases hp : p.parent = some x <;> by_cases ht' : p.target = some x <;>
          simp [unlinked, adopted, dropChild, dropSource, hp, ht']
    · obtain ⟨r, hr⟩ := ht t ht'
      exact ⟨dropChild d p t (adopted p p.childList t r), by simp [hr]⟩
  · obtain ⟨r, hr⟩ := (hl.parent d p q hd hq).2
    exact ⟨adopted p p.childList q r, by simp [hr]⟩

end Adopt

section Free
variable {w w' : World} {f : Frame} {k : List Frame} {d c o : DevId} {p : ProfDev} {b : Walk}
  {r : Option (Walk × DevId × Option DevId)}

/-- `w'` is `w` after the free of `d`. -/
structure Freed (w : World) (d : DevId) (p : ProfDev) (w' : World) : Prop where
  links : Links w
  here : w.devs d = some p
  devs : ∀ x, w'.devs x = if x = d then none else (w.devs x).map (unlinked d p x)
  next : w'.next = w.next
  list : w'.list = w.list
  running : w'.running = w.running
  events : w'.events = w.events
  leaked : w'.leaked = w.leaked

namespace Freed
variable (h : Freed w d p w')
include h

theorem ne {x : DevId} {r : ProfDev} (hr : w'.devs x = some r) : x ≠ d := by
  intro hx
  rw [h.devs, if_pos hx] at hr
  cases hr

theorem back {x : DevId} {r : ProfDev} (hr : w'.devs x = some r) :
    ∃ r₀, w.devs x = some r₀ ∧ r = unlinked d p x r₀ := by
  have hx := h.ne hr
  rw [h.devs, if_neg hx, Option.map_eq_some_iff] at hr
  obtain ⟨r₀, hr₀, he⟩ := hr
  exact ⟨r₀, hr₀, he.symm⟩

theorem kept {x : DevId} {r : ProfDev} (hx : x ≠ d) (hr : w.devs x = some r) : w'.devs x = some (unlinked d p x r) := by
  rw [h.devs, if_neg hx, hr]
  rfl

theorem mem_child {x : DevId} {r : ProfDev} (hr : w.devs x = some r) : x ∈ p.childList ↔ r.parent = some d := by
  rw [h.links.child d p h.here x]
  exact ⟨fun ⟨s, hs, hp⟩ => by rw [hr] at hs; cases hs; exact hp, fun hp => ⟨r, hr, hp⟩⟩

theorem linked (hc : Linked w b c o) (hcd : c ≠ d) (hod : o ≠ d) : Linked w' b c o := by
  obtain ⟨r, hr, hlink⟩ := hc
  refine ⟨unlinked d p c r, h.kept hcd hr, ?_⟩
  have hmem : r.parent = some o → c ∉ p.childList := by
    intro hpar hmem
    rw [(h.mem_child hr).mp hmem] at hpar
    exact hod (Option.some.inj hpar).symm
  cases b <;> simp only [Walk.link, unlinked] at hlink ⊢ <;>
    first
      | exact hlink
      | rw [if_neg (hmem hlink), hlink]

theorem parent_iff {x q : DevId} :
    (∃ r, w'.devs x = some r ∧ r.parent = some q) ↔
      x ≠ d ∧ ∃ r, w.devs x = some r ∧ (if x ∈ p.childList then p.parent else r.parent) = some q := by
  constructor
  · rintro ⟨r, hr, hp⟩
    obtain ⟨r₀, hr₀, rfl⟩ := h.back hr
    exact ⟨h.ne hr, r₀, hr₀, hp⟩
  · rintro ⟨hx, r, hr, hp⟩
    exact ⟨_, h.kept hx hr, hp⟩

theorem target_iff {x t : DevId} :
    (∃ r, w'.devs x = some r ∧ r.target = some t) ↔ x ≠ d ∧ ∃ r, w.devs x = some r ∧ r.target = some t := by
  constructor
  · rintro ⟨r, hr, hp⟩
    obtain ⟨r₀, hr₀, rfl⟩ := h.back hr
    exact ⟨h.ne hr, r₀, hr₀, hp⟩
  · rintro ⟨hx, r, hr, hp⟩
    exact ⟨_, h.kept hx hr, hp⟩

/-- The lists of a parent and of its child are apart. -/
theorem childs_nodup {q : DevId} {r : ProfDev} (hr : w.devs q = some r) (hq : q ≠ d) :
    (r.childList ++ p.childList).Nodup := by
  refine List.nodup_append'.mpr ⟨h.links.childNodup q r hr, h.links.childNodup d p h.here, fun x hx hx' => ?_⟩
  obtain ⟨s, hs, hps⟩ := (h.links.child q r hr x).mp hx
  rw [(h.mem_child hs).mp hx'] at hps
  exact hq (Option.some.inj hps).symm

theorem child {q : DevId} {r : ProfDev} (hr : w'.devs q = some r) (x : DevId) :
    x ∈ r.childList ↔ ∃ s, w'.devs x = some s ∧ s.parent = some q := by
  have hq := h.ne hr
  obtain ⟨r₀, hr₀, rfl⟩ := h.back hr
  rw [h.parent_iff]
  have hold := h.links.child q r₀ hr₀ x
  by_cases hpar : p.parent = some q
  · simp only [unlinked, hpar, if_true, (h.childs_nodup hr₀ hq).mem_erase_iff, List.mem_append]
    refine and_congr_right fun hx => ?_
    by_cases hmem : x ∈ p.childList
    · obtain ⟨s, hs, -⟩ := (h.links.child d p h.here x).mp hmem
      simp [hmem, hs]
    · simp [hmem, hold]
  · simp only [unlinked, hpar, if_false, hold]
    constructor
    · rintro ⟨s, hs, hps⟩
      have hxd : x ≠ d := by
        intro he
        rw [he, h.here] at hs
        cases hs
        exact hpar hps
      have hmem : x ∉ p.childList := by
        rw [h.mem_child hs, hps]
        exact fun he => hq (Option.some.inj he)
      exact ⟨hxd, s, hs, by rw [if_neg hmem, hps]⟩
    · rintro ⟨-, s, hs, hps⟩
      by_cases hmem : x ∈ p.childList
      · rw [if_pos hmem] at hps
        exact absurd hps hpar
      · rw [if_neg hmem] at hps
        exact ⟨s, hs, hps⟩

theorem source {t : DevId} {r : ProfDev} (hr : w'.devs t = some r) (x : DevId) :
    x ∈ r.sourceList ↔ ∃ s, w'.devs x = some s ∧ s.target = some t := by
  obtain ⟨r₀, hr₀, rfl⟩ := h.back hr
  rw [h.target_iff]
  have hold := h.links.source t r₀ hr₀ x
  by_cases htar : p.target = some t
  · simp only [unlinked, htar, if_true, (h.links.sourceNodup t r₀ hr₀).mem_erase_iff, hold]
  · simp only [unlinked, htar, if_false, hold]
    refine ⟨fun ⟨s, hs, hts⟩ => ⟨fun he => ?_, s, hs, hts⟩, And.right⟩
    rw [he, h.here] at hs
    cases hs
    exact htar hts

theorem links' : Links w' where
  bound x r hr := by
    obtain ⟨r₀, hr₀, -⟩ := h.back hr
    rw [h.next]
    exact h.links.bound x r₀ hr₀
  child _ _ hr x := h.child hr x
  childNodup q r hr := by
    have hq := h.ne hr
    obtain ⟨r₀, hr₀, rfl⟩ := h.back hr
    simp only [unlinked]
    split
    · exact (h.childs_nodup hr₀ hq).erase d
    · exact h.links.childNodup q r₀ hr₀
  parent x r q hr hq := by
    have hx := h.ne hr
    obtain ⟨r₀, hr₀, rfl⟩ := h.back hr
    have hold : q ≠ d ∧ q < x ∧ ∃ s, w.devs q = some s := by
      by_cases hmem : x ∈ p.childList
      · simp only [unlinked, if_pos hmem] at hq
        obtain ⟨hqd, hlive⟩ := h.links.parent d p q h.here hq
        have hdx := (h.links.parent x r₀ d hr₀ ((h.mem_child hr₀).mp hmem)).1
        exact ⟨hqd.ne, hqd.trans hdx, hlive⟩
      · simp only [unlinked, if_neg hmem] at hq
        obtain ⟨hqx, hlive⟩ := h.links.parent x r₀ q hr₀ hq
        exact ⟨fun he => hmem ((h.mem_child hr₀).mpr (he ▸ hq)), hqx, hlive⟩
    obtain ⟨hqd, hqx, s, hs⟩ := hold
    exact ⟨hqx, _, h.kept hqd hs⟩
  source _ _ hr x := h.source hr x
  sourceNodup t r hr := by
    obtain ⟨r₀, hr₀, rfl⟩ := h.back hr
    simp only [unlinked]
    split
    · exact (h.links.sourceNodup t r₀ hr₀).erase d
    · exact h.links.sourceNodup t r₀ hr₀
  target x r t hr ht := by
    obtain ⟨r₀, hr₀, rfl⟩ := h.back hr
    rw [h.next]
    exact h.links.target x r₀ t hr₀ ht

end Freed

theorem Frame.mem_names_of_owe {m : Mark} (hm : m ≠ .freed) {f : Frame} {x : DevId} (h : 0 < f.owe m x) :
    x ∈ f.names := by
  cases m <;> cases f <;> simp_all [Frame.owe, Frame.names, Nat.pos_iff_ne_zero]

theorem freed_of_dangling (h : Inv w (.free d r :: k)) : ∃ p, w.devs d = some p ∧ p.refcount = 0 := by
  cases hd : w.devs d with
  | none =>
    have := (h.gone d hd).1 .freed
    simp [marks, Frame.owe] at this
  | some p =>
    refine ⟨p, rfl, ?_⟩
    by_contra hne
    have := (h.fits d p hd).dying
    simp [marks, Frame.owe, hne] at this

theorem Inv.held_of_dying {f : Frame} (h : Inv w (f :: k)) (hd : w.devs d = some p) (hp : p.refcount = 0) :
    marks w k d .held = 0 ∧ p.inclose = true := by
  have hrefs := (h.fits d p hd).refs
  rw [hp, marks_cons] at hrefs
  refine ⟨by omega, ?_⟩
  by_contra hne
  simp [ProfDev.own, hne] at hrefs
  omega

theorem Inv.owed_of_dying {f : Frame} (h : Inv w (f :: k)) (hd : w.devs d = some p) (hp : p.refcount = 0) {m : Mark}
    (hm : m ≠ .freed) : owed (Frame.owe m) k d = 0 := by
  have hheld := (h.held_of_dying hd hp).1
  refine h.guarded.owed_eq_zero (fun _ _ => Frame.mem_names_of_owe hm) ?_
  simp only [marks] at hheld
  show Held k d = 0
  omega

/-- A device whose last reference is gone has been closed. -/
theorem Inv.exit_of_dying {f : Frame} (h : Inv w (f :: k)) (hf : f.owe .exits d = 0) (hd : w.devs d = some p)
    (hp : p.refcount = 0) : p.state = .exit := by
  have hexits := (h.fits d p hd).exits
  rw [marks_cons, hf] at hexits
  simp only [marks, h.owed_of_dying hd hp (m := .exits) (by simp), (h.held_of_dying hd hp).2, true_and] at hexits
  by_contra hne
  simp [hne] at hexits

/-- The device is owed nothing any more. -/
structure Spent (w : World) (d : DevId) (k : List Frame) : Prop where
  marks : ∀ m, marks w k d m = 0
  list : w.list.count d = 0

theorem Inv.spent (h : Inv w (.free d r :: k)) (hd : w.devs d = some p) (hp : p.refcount = 0) : Spent w d k := by
  have hfit := h.fits d p hd
  obtain ⟨hheld, hclose⟩ := h.held_of_dying hd hp
  have hexit := h.exit_of_dying rfl hd hp
  refine ⟨fun m => ?_, ?_⟩
  · have hfreed := hfit.dying
    rw [marks_cons] at hfreed
    cases m with
    | held => exact hheld
    | freed =>
      simp [Frame.owe, hp] at hfreed
      exact hfreed
    | exits => exact h.owed_of_dying hd hp (by simp)
    | flushes => exact h.owed_of_dying hd hp (by simp)
    | opens => exact h.owed_of_dying hd hp (by simp)
  · by_contra hne
    exact (hfit.listed (Nat.pos_of_ne_zero hne)).2 hclose hexit

/-- The deinit of a device frees no other that is in a list. -/
def Quiet (w : World) (d : DevId) (k : List Frame) : Prop :=
  (∃ e r, Frame.free e r ∈ k) → ∀ p, w.devs d = some p → p.parent = none ∧ p.target = none

/-- A device goes to which the frames below owe nothing. -/
theorem Inv.removed (h : Inv w (f :: k)) (hf : ∀ x, x ≠ d → ∀ m, f.owe m x = 0) (hspent : Spent w d k)
    (hq : Quiet w d k) (hw : Freed w d p w') : Inv w' k := by
  have hmarks : ∀ x m, marks w' k x m = marks w k x m := fun x m => marks_congr hw.events hw.leaked k x m
  have hoff : ∀ x, x ≠ d → marks w' k x = marks w (f :: k) x := by
    intro x hx
    funext m
    rw [hmarks, marks_cons, hf x hx, Nat.add_zero]
  have hHeld : Held k d = 0 := by
    have := hspent.marks .held
    simp only [marks] at this
    omega
  have hne : ∀ x, 0 < Held k x → x ≠ d := by
    intro x hx he
    rw [he] at hx
    omega
  refine ⟨hw.links', fun x s hs => ?_, fun x hx => ?_, fun g hg => ?_, Ready.of_guarded h.guarded⟩
  · have hxd := hw.ne hs
    obtain ⟨s₀, hs₀, rfl⟩ := hw.back hs
    rw [hoff x hxd, hw.list]
    have hfit := h.fits x s₀ hs₀
    exact ⟨hfit.refs, hfit.dying, hfit.exits, hfit.opened, hfit.flushes, hfit.once, hfit.listed, hfit.kept⟩
  · by_cases hxd : x = d
    · subst hxd
      refine ⟨fun m => ?_, ?_⟩
      · rw [hmarks]
        exact hspent.marks m
      · rw [hw.list]
        exact hspent.list
    · rw [hw.devs, if_neg hxd, Option.map_eq_none_iff] at hx
      rw [hoff x hxd, hw.list]
      exact h.gone x hx
  · have hlinked := h.linked g (List.mem_cons_of_mem _ hg)
    have hnames : ∀ x ∈ g.names, x ≠ d := fun x hx => hne x (h.guarded.held_of_mem hg hx)
    unfold Frame.Linked at *
    split at hlinked
    · refine hw.linked hlinked (hnames _ ?_) (hnames _ ?_)
      · simp [Frame.names]
      · simp [Frame.names]
    · rename_i e b o t
      refine ⟨hw.linked hlinked.1 ?_ (hnames o (by simp [Frame.names])), hlinked.2⟩
      intro he
      obtain ⟨s, hs, hlink⟩ := hlinked.1
      obtain ⟨hpar, htar⟩ := hq ⟨e, _, hg⟩ s (he ▸ hs)
      cases b <;> simp [Walk.link, hpar, htar] at hlink
    · trivial

theorem Inv.free (h : Inv w (.free d r :: k)) (hq : Quiet w d k) (hd : w.devs d = some p) (hp : p.refcount = 0)
    (hw : Freed w d p w') : Inv w' k := by
  refine h.removed (fun x hx m => ?_) (h.spent hd hp) hq hw
  cases m <;> simp [Frame.owe, hx]

theorem runs_free (h : Inv w (.free d r :: k)) (hq : Quiet w d k)
    (ht : ∀ p t, w.devs d = some p → p.target = some t → ∃ s, w.devs t = some s) : Runs (exec w (.free d r)) k := by
  obtain ⟨p, hd, hp⟩ := freed_of_dangling h
  have heq := profDevFree_eq h.links hd fun t => ht p t hd
  have hw : Freed w d p { w with devs := fun x => if x = d then none else (w.devs x).map (unlinked d p x) } :=
    ⟨h.links, hd, fun _ => rfl, rfl, rfl, rfl, rfl, rfl⟩
  have hinv := h.free hq hd hp hw
  simp only [exec, heq, Option.bind_eq_bind, Option.bind_some]
  cases r with
  | none => exact ⟨_, [], rfl, hinv⟩
  | some r =>
    obtain ⟨b, o, tmp⟩ := r
    have hheld : 0 < Held k o := by
      simpa [Frame.owe] using h.held (d := o) (by simp [Frame.names]) (by simp [Frame.IsCall])
    have hod : o ≠ d := by
      intro he
      have := (h.spent hd hp).marks .held
      simp only [marks, ← he] at this
      omega
    refine runs_visit hinv h.guarded hheld fun t htmp => ?_
    subst htmp
    have hlinked := h.linked _ List.mem_cons_self
    exact hw.linked hlinked.1 hlinked.2 hod

/-- Nothing refers to a device but its own call, and nothing keeps it in a list but its parent. -/
structure ProfDev.Unused (p : ProfDev) : Prop where
  refcount : p.refcount = if p.inclose then 1 else 2
  devUsers : p.devUsers = 0
  childList : p.childList = []
  target : p.target = none

theorem Inv.spent_outFree (h : Inv w (.outFree d :: k)) (hd : w.devs d = some p) (hp : p.Unused) : Spent w d k := by
  have hfit := h.fits d p hd
  have hrefs := hfit.refs
  rw [hp.refcount, ProfDev.own, hp.devUsers, marks_cons] at hrefs
  have hheld : marks w k d .held = 0 := by
    simp only [Frame.owe, if_true, lt_irrefl, if_false] at hrefs
    split at hrefs <;> omega
  have howed : ∀ m, m ≠ .freed → owed (Frame.owe m) k d = 0 := by
    intro m hm
    refine h.guarded.owed_eq_zero (fun _ _ => Frame.mem_names_of_owe hm) ?_
    simp only [marks] at hheld
    show Held k d = 0
    omega
  refine ⟨fun m => ?_, ?_⟩
  · cases m with
    | held => exact hheld
    | freed =>
      have hdying := hfit.dying
      have hpos : p.refcount ≠ 0 := by
        rw [hp.refcount]
        split <;> omega
      rwa [marks_cons, if_neg hpos] at hdying
    | exits => exact howed _ (by simp)
    | flushes => exact howed _ (by simp)
    | opens => exact howed _ (by simp)
  · have honce := hfit.once
    rw [marks_cons] at honce
    simp only [Frame.owe, if_true] at honce
    omega

theorem runs_outFree (h : Inv w (.outFree d :: k)) (hq : Quiet w d k) (hu : ∀ p, w.devs d = some p → p.Unused) :
    Runs (exec w (.outFree d)) k := by
  obtain ⟨p, hd, -⟩ := h.alive (d := d) (by simp [Frame.names])
  have hp := hu p hd
  have hunlink : ∀ x r, unlinked d p x r = dropChild d p x r := by
    intro x r
    by_cases hpar : p.parent = some x <;> simp [unlinked, dropChild, hp.childList, hp.target, hpar]
  have hparent : ∀ q, p.parent = some q → ∃ r, w.devs q = some r := fun q hq => (h.links.parent d p q hd hq).2
  simp only [exec, hd, Option.bind_eq_bind, Option.bind_some, unlinkParent_eq d hparent]
  refine ⟨_, [], rfl, h.removed (fun x hx m => ?_) (h.spent_outFree hd hp) hq
    ⟨h.links, hd, fun x => ?_, rfl, rfl, rfl, rfl, rfl⟩⟩
  · cases m <;> simp [Frame.owe, hx]
  · by_cases hx : x = d
    · simp [World.delete, hx]
    · simp [World.delete, hx, funext (hunlink x)]

end Free

end PerfProf.Device
