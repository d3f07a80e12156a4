import Mathlib.Algebra.Order.Ring.Nat
import Mathlib.Data.List.Nodup
import PerfProf.Obligations
import PerfProf.ProfDev

/-! References to devices. A device has one of its open, one for all its users, and one for each
event and each frame that holds it; what a frame names is held below it, so that no call comes
back to a device that has been freed. -/
namespace PerfProf.Device
open Obligations

/-- What a frame owes to a device. -/
inductive Mark where
  | held | freed | exits | flushes | opens
deriving DecidableEq

def Frame.owe : Mark → Frame → DevId → Nat
  | .held, .put d, x | .held, .next _ _ d, x | .held, .cloned d _ _, x | .held, .outFree d, x =>
    if x = d then 1 else 0
  | .freed, .free d _, x => if x = d then 1 else 0
  | .exits, .exit d, x => if x = d then 1 else 0
  | .flushes, .flushEnd d, x => if x = d then 1 else 0
  | .opens, .openList d, x | .opens, .outFree d, x => if x = d then 1 else 0
  | _, _, _ => 0

/-- The devices that a frame goes on with. -/
def Frame.names : Frame → List DevId
  | .enable d | .disable d | .flush d _ | .flushEnd d | .close d | .exit d | .detach d | .detachLoop d | .unuse d
  | .put d | .interval d | .openList d | .outFree d => [d]
  | .cloned d i _ => [d, i]
  | .start _ o | .free _ (some (_, o, _)) => [o]
  | .next _ o c => [o, c]
  | .callback | .main | .listClose | .free _ none => []

abbrev Held (k : List Frame) (d : DevId) : Nat := owed (Frame.owe .held) k d

/-- The references to a device and the marks on it. -/
def marks (w : World) (k : List Frame) (d : DevId) : Mark → Nat
  | .held => w.events d + w.leaked d + Held k d
  | m => owed (Frame.owe m) k d

/-- The references of a device that it has by itself. -/
def ProfDev.own (p : ProfDev) : Nat := (if p.inclose then 0 else 1) + if 0 < p.devUsers then 1 else 0

/-- A device, the marks on it and how often `prof_dev_list` has it agree. -/
structure Fits (p : ProfDev) (x : Mark → Nat) (n : Nat) : Prop where
  refs : p.refcount = p.own + x .held
  dying : x .freed = if p.refcount = 0 then 1 else 0
  exits : x .exits = if p.inclose = true ∧ p.state ≠ .exit then 1 else 0
  opened : p.inclose = false → p.state ≠ .exit
  flushes : x .flushes = if p.inflush then 1 else 0
  once : n + x .opens ≤ 1
  listed : 0 < n → p.type = .normal ∧ (p.inclose = true → p.state ≠ .exit)
  kept : p.inclose = false → p.type = .normal → n + x .opens = 1

/-- The lists and the pointers of the devices agree. -/
structure Links (w : World) : Prop where
  bound : ∀ d p, w.devs d = some p → d < w.next
  child : ∀ d p, w.devs d = some p → ∀ c, c ∈ p.childList ↔ ∃ r, w.devs c = some r ∧ r.parent = some d
  childNodup : ∀ d p, w.devs d = some p → p.childList.Nodup
  parent : ∀ d p q, w.devs d = some p → p.parent = some q → q < d ∧ ∃ r, w.devs q = some r
  source : ∀ d p, w.devs d = some p → ∀ s, s ∈ p.sourceList ↔ ∃ r, w.devs s = some r ∧ r.target = some d
  sourceNodup : ∀ d p, w.devs d = some p → p.sourceList.Nodup
  target : ∀ d p t, w.devs d = some p → p.target = some t → t ≠ d ∧ t < w.next

/-- `c` is in the list of `o` that a walk goes over. -/
def Linked (w : World) (k : Walk) (c o : DevId) : Prop := ∃ r, w.devs c = some r ∧ k.link r = some o

/-- Where a walk stands and where it goes on is in its list. -/
def Frame.Linked (w : World) : Frame → Prop
  | .next k o c => Device.Linked w k c o
  | .free d (some (k, o, some t)) => Device.Linked w k t o ∧ t ≠ d
  | _ => True

/-- The calls of a function with a device as its argument. -/
def Frame.IsCall : Frame → Prop
  | .enable _ | .disable _ | .flush _ _ | .close _ | .detach _ | .unuse _ | .interval _ => True
  | _ => False

/-- What frames name is held, but for the arguments of the call on top, which may be alive only. -/
def Ready (w : World) : List Frame → Prop
  | [] => True
  | f :: k => (∀ d ∈ f.names, 0 < Held (f :: k) d ∨ f.IsCall ∧ Alive w d) ∧ Guarded Frame.names (Frame.owe .held) k

structure Inv (w : World) (k : List Frame) : Prop where
  links : Links w
  fits : ∀ d p, w.devs d = some p → Fits p (marks w k d) (w.list.count d)
  gone : ∀ d, w.devs d = none → (∀ m, marks w k d m = 0) ∧ w.list.count d = 0
  linked : ∀ f ∈ k, f.Linked w
  ready : Ready w k

section Basics
variable {w v : World} {k k' l : List Frame} {f : Frame} {d x : DevId} {p q : ProfDev}

theorem Inv.alive_of_held (h : Inv w k) (hd : 0 < Held k d) : Alive w d := by
  cases hp : w.devs d with
  | none =>
    have := (h.gone d hp).1 .held
    simp only [marks] at this
    omega
  | some p =>
    have hrefs := (h.fits d p hp).refs
    simp only [marks] at hrefs
    exact ⟨p, hp, by omega⟩

theorem Inv.alive (h : Inv w (f :: k)) (hd : d ∈ f.names) : Alive w d :=
  (h.ready.1 d hd).elim h.alive_of_held And.right

theorem Inv.held (h : Inv w (f :: k)) (hd : d ∈ f.names) (hf : ¬ f.IsCall) : 0 < Held (f :: k) d :=
  (h.ready.1 d hd).resolve_right fun hcall => hf hcall.1

/-- A device keeps its place among the others. -/
structure SameLinks (p q : ProfDev) : Prop where
  type : q.type = p.type
  parent : q.parent = p.parent
  childList : q.childList = p.childList
  target : q.target = p.target
  sourceList : q.sourceList = p.sourceList

theorem SameLinks.refl (p : ProfDev) : SameLinks p p := ⟨rfl, rfl, rfl, rfl, rfl⟩

theorem SameLinks.link (h : SameLinks p q) (k : Walk) : k.link q = k.link p := by
  cases k <;> simp only [Walk.link, h.parent, h.target]

/-- The devices of two worlds have the same places. -/
structure SamePlaces (w v : World) : Prop where
  next : v.next = w.next
  kept : ∀ d p, w.devs d = some p → ∃ q, v.devs d = some q ∧ SameLinks p q
  lacks : ∀ d, w.devs d = none → v.devs d = none

theorem SamePlaces.back (h : SamePlaces w v) (hp : v.devs d = some q) : ∃ p, w.devs d = some p ∧ SameLinks p q := by
  cases hd : w.devs d with
  | none =>
    rw [h.lacks d hd] at hp
    cases hp
  | some p =>
    obtain ⟨r, hr, hs⟩ := h.kept d p hd
    rw [hp] at hr
    cases hr
    exact ⟨p, rfl, hs⟩

theorem SamePlaces.iff (h : SamePlaces w v) {g : ProfDev → Option DevId} (hg : ∀ p q, SameLinks p q → g q = g p)
    (c d : DevId) : (∃ r, v.devs c = some r ∧ g r = some d) ↔ ∃ r, w.devs c = some r ∧ g r = some d := by
  constructor
  · rintro ⟨r, hr, ht⟩
    obtain ⟨p, hp, hs⟩ := h.back hr
    exact ⟨p, hp, (hg p r hs).symm.trans ht⟩
  · rintro ⟨r, hr, ht⟩
    obtain ⟨p, hp, hs⟩ := h.kept c r hr
    exact ⟨p, hp, (hg r p hs).trans ht⟩

theorem SamePlaces.links (h : SamePlaces w v) (hl : Links w) : Links v where
  bound d p hp := by
    obtain ⟨r, hr, hs⟩ := h.back hp
    rw [h.next]
    exact hl.bound d r hr
  child d p hp c := by
    obtain ⟨r, hr, hs⟩ := h.back hp
    rw [hs.childList, hl.child d r hr c, h.iff fun _ _ hs => hs.parent]
  childNodup d p hp := by
    obtain ⟨r, hr, hs⟩ := h.back hp
    rw [hs.childList]
    exact hl.childNodup d r hr
  parent d p q hp hq := by
    obtain ⟨r, hr, hs⟩ := h.back hp
    obtain ⟨hlt, s, hs'⟩ := hl.parent d r q hr (hs.parent ▸ hq)
    obtain ⟨s', hs'', -⟩ := h.kept q s hs'
    exact ⟨hlt, s', hs''⟩
  source d p hp c := by
    obtain ⟨r, hr, hs⟩ := h.back hp
    rw [hs.sourceList, hl.source d r hr c, h.iff fun _ _ hs => hs.target]
  sourceNodup d p hp := by
    obtain ⟨r, hr, hs⟩ := h.back hp
    rw [hs.sourceList]
    exact hl.sourceNodup d r hr
  target d p t hp ht := by
    obtain ⟨r, hr, hs⟩ := h.back hp
    rw [h.next]
    exact hl.target d r t hr (hs.target ▸ ht)

theorem SamePlaces.linked (h : SamePlaces w v) (k : Walk) (c o : DevId) : Linked v k c o ↔ Linked w k c o :=
  h.iff (fun _ _ hs => hs.link k) c o

theorem SamePlaces.frame (h : SamePlaces w v) (hf : f.Linked w) : f.Linked v := by
  unfold Frame.Linked at *
  split at hf
  · exact (h.linked _ _ _).mpr hf
  · exact ⟨(h.linked _ _ _).mpr hf.1, hf.2⟩
  · trivial

theorem samePlaces_update (hd : w.devs d = some p) (hs : SameLinks p q)
    (hdevs : v.devs = Function.update w.devs d (some q)) (hnext : v.next = w.next) : SamePlaces w v where
  next := hnext
  kept x r hr := by
    rw [hdevs]
    by_cases hx : x = d
    · subst hx
      rw [hd] at hr
      cases hr
      exact ⟨q, Function.update_self .., hs⟩
    · rw [Function.update_of_ne hx]
      exact ⟨r, hr, SameLinks.refl r⟩
  lacks x hx := by
    rw [hdevs, Function.update_of_ne (fun he => by rw [he, hd] at hx; cases hx)]
    exact hx

/-- A step that changes one device, in its own place, and the marks on it. -/
theorem Inv.update (h : Inv w (f :: k)) (hd : w.devs d = some p) (hs : SameLinks p q)
    (hdevs : v.devs = Function.update w.devs d (some q)) (hnext : v.next = w.next)
    (hoff : ∀ x, x ≠ d → ∀ m, marks v (l ++ k) x m = marks w (f :: k) x m)
    (hlist : ∀ x, x ≠ d → v.list.count x = w.list.count x)
    (hfit : Fits q (marks v (l ++ k) d) (v.list.count d)) (hlinked : ∀ g ∈ l, g.Linked v)
    (hready : Ready v (l ++ k)) : Inv v (l ++ k) := by
  have hplaces := samePlaces_update hd hs hdevs hnext
  refine ⟨hplaces.links h.links, fun x r hr => ?_, fun x hx => ?_, fun g hg => ?_, hready⟩
  · rw [hdevs] at hr
    by_cases hxd : x = d
    · subst hxd
      rw [Function.update_self] at hr
      cases hr
      exact hfit
    · rw [Function.update_of_ne hxd] at hr
      have hmarks : marks v (l ++ k) x = marks w (f :: k) x := funext (hoff x hxd)
      rw [hmarks, hlist x hxd]
      exact h.fits x r hr
  · have hxd : x ≠ d := by
      intro he
      rw [hdevs, he, Function.update_self] at hx
      cases hx
    rw [hdevs, Function.update_of_ne hxd] at hx
    obtain ⟨hm, hn⟩ := h.gone x hx
    exact ⟨fun m => (hoff x hxd m).trans (hm m), (hlist x hxd).trans hn⟩
  · rcases List.mem_append.mp hg with hg | hg
    · exact hlinked g hg
    · exact hplaces.frame (h.linked g (List.mem_cons_of_mem f hg))

/-- A step that changes no device and no mark. -/
theorem Inv.same (h : Inv w (f :: k)) (hdevs : v.devs = w.devs) (hnext : v.next = w.next) (hlist : v.list = w.list)
    (hmarks : ∀ x m, marks v (l ++ k) x m = marks w (f :: k) x m) (hlinked : ∀ g ∈ l, g.Linked v)
    (hready : Ready v (l ++ k)) : Inv v (l ++ k) := by
  have hplaces : SamePlaces w v :=
    ⟨hnext, fun d p hp => ⟨p, hdevs ▸ hp, SameLinks.refl p⟩, fun d hd => hdevs ▸ hd⟩
  have hall : ∀ x, marks v (l ++ k) x = marks w (f :: k) x := fun x => funext (hmarks x)
  refine ⟨hplaces.links h.links, fun x r hr => ?_, fun x hx => ?_, fun g hg => ?_, hready⟩
  · rw [hall, hlist]
    exact h.fits x r (hdevs ▸ hr)
  · rw [hall, hlist]
    exact h.gone x (hdevs ▸ hx)
  · rcases List.mem_append.mp hg with hg | hg
    · exact hlinked g hg
    · exact hplaces.frame (h.linked g (List.mem_cons_of_mem f hg))

theorem Ready.of_guarded (h : Guarded Frame.names (Frame.owe .held) k) : Ready w k := by
  cases k with
  | nil => trivial
  | cons f k => exact ⟨fun d hd => Or.inl (h.1 d hd), h.2⟩

theorem marks_append (w : World) (l k : List Frame) (x : DevId) (m : Mark) :
    marks w (l ++ k) x m = marks w k x m + owed (Frame.owe m) l x := by
  cases m <;> simp only [marks, Held, owed_append] <;> omega

theorem marks_cons (w : World) (f : Frame) (k : List Frame) (x : DevId) (m : Mark) :
    marks w (f :: k) x m = marks w k x m + f.owe m x := by
  cases m <;> simp only [marks, Held, owed_cons] <;> omega

theorem marks_congr (he : v.events = w.events) (hl : v.leaked = w.leaked) (k : List Frame) (x : DevId) (m : Mark) :
    marks v k x m = marks w k x m := by
  cases m <;> simp only [marks, he, hl]

/-- A step that changes one device in its own place, and what the stack owes to it. -/
theorem Inv.local (h : Inv w (f :: k)) (hd : w.devs d = some p) (hs : SameLinks p q)
    (hdevs : v.devs = Function.update w.devs d (some q)) (hnext : v.next = w.next) (he : v.events = w.events)
    (hl : v.leaked = w.leaked) (hlist : ∀ x, x ≠ d → v.list.count x = w.list.count x)
    (hoff : ∀ x, x ≠ d → ∀ m, owed (Frame.owe m) l x = f.owe m x)
    (hfit : ∀ b : Mark → Nat, Fits p (fun m => b m + f.owe m d) (w.list.count d) →
      Fits q (fun m => b m + owed (Frame.owe m) l d) (v.list.count d))
    (hlinked : ∀ g ∈ l, g.Linked v) (hready : Ready v (l ++ k)) : Inv v (l ++ k) := by
  refine h.update hd hs hdevs hnext (fun x hx m => ?_) hlist ?_ hlinked hready
  · rw [marks_append, marks_cons, marks_congr he hl, hoff x hx]
  · have hfits := h.fits d p hd
    have hold : marks w (f :: k) d = fun m => marks w k d m + f.owe m d := funext fun m => marks_cons w f k d m
    have hnew : marks v (l ++ k) d = fun m => marks w k d m + owed (Frame.owe m) l d := by
      funext m
      rw [marks_append, marks_congr he hl]
    rw [hold] at hfits
    rw [hnew]
    exact hfit _ hfits

theorem Inv.pop (h : Inv w (f :: k)) (hf : ∀ x m, f.owe m x = 0) : Inv w k :=
  h.same (l := []) rfl rfl rfl (fun x m => by rw [List.nil_append, marks_cons, hf, Nat.add_zero])
    (fun _ hg => by cases hg) (Ready.of_guarded h.ready.2)

/-- A frame on top is replaced by others that owe the same. -/
theorem Inv.turn (h : Inv w (f :: k)) (hf : ∀ x m, owed (Frame.owe m) l x = f.owe m x) (hlinked : ∀ g ∈ l, g.Linked w)
    (hready : Ready w (l ++ k)) : Inv w (l ++ k) :=
  h.same rfl rfl rfl (fun x m => by rw [marks_append, marks_cons, hf]) hlinked hready

/-- The calls in progress change, but not what they owe. -/
theorem Inv.stack (h : Inv w k) (hmarks : ∀ x m, marks w k' x m = marks w k x m) (hlinked : ∀ g ∈ k', g.Linked w)
    (hready : Ready w k') : Inv w k' := by
  have hall : ∀ x, marks w k' x = marks w k x := fun x => funext (hmarks x)
  refine ⟨h.links, fun x r hr => ?_, fun x hx => ?_, hlinked, hready⟩
  · rw [hall]
    exact h.fits x r hr
  · rw [hall]
    exact h.gone x hx

theorem Inv.guarded (h : Inv w (f :: k)) : Guarded Frame.names (Frame.owe .held) k := h.ready.2

theorem Inv.push (h : Inv w k) (hg : Guarded Frame.names (Frame.owe .held) k) (hf : ∀ x m, f.owe m x = 0)
    (hlinked : f.Linked w) (hn : ∀ x ∈ f.names, 0 < Held (f :: k) x ∨ f.IsCall ∧ Alive w x) : Inv w (f :: k) := by
  refine ⟨h.links, fun d p hp => ?_, fun d hd => ?_, fun g hg => ?_, hn, hg⟩
  · have hmarks : marks w (f :: k) d = marks w k d := funext fun m => by rw [marks_cons, hf, Nat.add_zero]
    rw [hmarks]
    exact h.fits d p hp
  · refine ⟨fun m => ?_, (h.gone d hd).2⟩
    rw [marks_cons, hf, Nat.add_zero]
    exact (h.gone d hd).1 m
  · rcases List.mem_cons.mp hg with rfl | hg
    · exact hlinked
    · exact h.linked g hg

end Basics

section Fits
variable {p : ProfDev} {x y : Mark → Nat} {n : Nat}

/-- One more mark of a kind. -/
def one (m m' : Mark) : Nat := if m' = m then 1 else 0

theorem Fits.refcount_nonneg (h : Fits p x n) : 0 ≤ p.refcount := by
  rw [h.refs]
  omega

theorem Fits.congr (h : Fits p x n) (hy : ∀ m, y m = x m) : Fits p y n := by
  have : y = x := funext hy
  rwa [this]

theorem ProfDev.get_of_pos (h : 0 < p.refcount) : p.get = { p with refcount := p.refcount + 1 } := if_pos h

theorem Fits.get (h : Fits p x n) (hp : 0 < p.refcount) (hy : ∀ m, y m = x m + one .held m) : Fits p.get y n := by
  rw [ProfDev.get_of_pos hp]
  refine ⟨?_, ?_, ?_, h.opened, ?_, ?_, h.listed, ?_⟩
  · have := h.refs
    simp only [hy, one, ProfDev.own, if_true] at this ⊢
    omega
  · have hpos : p.refcount ≠ 0 := by omega
    have hpos' : p.refcount + 1 ≠ 0 := by omega
    simpa [hy, one, hpos, hpos'] using h.dying
  · simpa [hy, one] using h.exits
  · simpa [hy, one] using h.flushes
  · simpa [hy, one] using h.once
  · simpa [hy, one] using h.kept

/-- A reference is put that is not the last. -/
theorem Fits.put (h : Fits p x n) (hp : p.refcount ≠ 1) (hy : ∀ m, x m = y m + one .held m) :
    Fits { p with refcount := p.refcount - 1 } y n := by
  have hrefs := h.refs
  simp only [hy, one, if_true] at hrefs
  have hpos : p.refcount ≠ 0 := by omega
  have hpos' : p.refcount - 1 ≠ 0 := by omega
  refine ⟨?_, ?_, ?_, h.opened, ?_, ?_, h.listed, ?_⟩
  · simp only [ProfDev.own] at hrefs ⊢
    omega
  · simpa [hy, one, hpos, hpos'] using h.dying
  · simpa [hy, one] using h.exits
  · simpa [hy, one] using h.flushes
  · simpa [hy, one] using h.once
  · simpa [hy, one] using h.kept

/-- The last reference is put: the device is to be freed. -/
theorem Fits.last (h : Fits p x n) (hp : p.refcount = 1) (hy : ∀ m, y m + one .held m = x m + one .freed m) :
    Fits { p with refcount := p.refcount - 1 } y n := by
  have hrefs := h.refs
  have hheld := hy .held
  have hfreed := hy .freed
  have hexits := hy .exits
  have hflushes := hy .flushes
  have hopens := hy .opens
  simp [one] at hheld hfreed hexits hflushes hopens
  refine ⟨?_, ?_, ?_, h.opened, ?_, ?_, h.listed, ?_⟩
  · simp only [ProfDev.own] at hrefs ⊢
    omega
  · have := h.dying
    simp [hp] at this ⊢
    omega
  · simpa [hexits] using h.exits
  · simpa [hflushes] using h.flushes
  · simpa [hopens] using h.once
  · simpa [hopens] using h.kept

theorem Fits.state (h : Fits p x n) (hp : p.state ≠ .exit) {s : DevState} (hs : s ≠ .exit) :
    Fits { p with state := s } x n := by
  refine ⟨h.refs, h.dying, ?_, fun _ => hs, h.flushes, h.once, ?_, h.kept⟩
  · simpa [hp, hs] using h.exits
  · exact fun hn => ⟨(h.listed hn).1, fun _ => hs⟩

theorem Fits.flushOn (h : Fits p x n) (hp : p.inflush = false) (hy : ∀ m, y m = x m + one .flushes m) :
    Fits { p with inflush := true } y n := by
  refine ⟨?_, ?_, ?_, h.opened, ?_, ?_, h.listed, ?_⟩
  · simpa [hy, one, ProfDev.own] using h.refs
  · simpa [hy, one] using h.dying
  · simpa [hy, one] using h.exits
  · have := h.flushes
    simp [hp] at this
    simp [hy, one, this]
  · simpa [hy, one] using h.once
  · simpa [hy, one] using h.kept

theorem Fits.flushOff (h : Fits p x n) (hy : ∀ m, x m = y m + one .flushes m) :
    Fits { p with inflush := false } y n := by
  refine ⟨?_, ?_, ?_, h.opened, ?_, ?_, h.listed, ?_⟩
  · simpa [hy, one, ProfDev.own] using h.refs
  · simpa [hy, one] using h.dying
  · simpa [hy, one] using h.exits
  · have := h.flushes
    simp only [hy, one, if_true] at this
    simp only [Bool.false_eq_true, if_false]
    split at this <;> omega
  · simpa [hy, one] using h.once
  · simpa [hy, one] using h.kept

/-- A close begins: the reference of the open goes to the call. -/
theorem Fits.close (h : Fits p x n) (hp : p.inclose = false) (hy : ∀ m, y m = x m + one .held m + one .exits m) :
    Fits { p with inclose := true } y n := by
  have hstate := h.opened hp
  have hrefs := h.refs
  have hexits := h.exits
  simp [hp] at hexits
  refine ⟨?_, ?_, ?_, by simp, ?_, ?_, fun hn => ⟨(h.listed hn).1, fun _ => hstate⟩, by simp⟩
  · simp [hy, one, ProfDev.own, hp] at hrefs ⊢
    omega
  · simpa [hy, one] using h.dying
  · simp [hy, one, hexits, hstate]
  · simpa [hy, one] using h.flushes
  · simpa [hy, one] using h.once

/-- The device is closed and taken off the list. -/
theorem Fits.exit (h : Fits p x n) (hy : ∀ m, x m = y m + one .exits m) :
    Fits { p with state := .exit } y (n - 1) := by
  have hexits := h.exits
  have honce := h.once
  simp only [hy, one, if_true] at hexits honce
  have hclose : p.inclose = true := by
    by_contra hne
    simp [hne] at hexits
  refine ⟨?_, ?_, ?_, by simp [hclose], ?_, ?_, fun hn => ?_, by simp [hclose]⟩
  · simpa [hy, one, ProfDev.own] using h.refs
  · simpa [hy, one] using h.dying
  · split at hexits
    · simp
      omega
    · omega
  · simpa [hy, one] using h.flushes
  · simp at honce
    omega
  · omega

/-- A call goes on that has not closed the device: it is put on the list. -/
theorem Fits.onList (h : Fits p x n) (hp : p.inclose = false) (hy : ∀ m, x m = y m + one .opens m) :
    Fits p y (n + if p.type = .normal then 1 else 0) := by
  have honce := h.once
  have hkept := h.kept hp
  simp only [hy, one, if_true] at honce hkept
  refine ⟨?_, ?_, ?_, h.opened, ?_, ?_, fun hn => ?_, fun _ ht => ?_⟩
  · simpa [hy, one] using h.refs
  · simpa [hy, one] using h.dying
  · simpa [hy, one] using h.exits
  · simpa [hy, one] using h.flushes
  · split <;> omega
  · by_cases ht : p.type = .normal
    · exact ⟨ht, by simp [hp]⟩
    · have hpos : 0 < n := by simpa [ht] using hn
      exact absurd (h.listed hpos).1 ht
  · have := hkept ht
    simp only [ht, if_true]
    omega

/-- One user less; after the last one their reference is left to put. -/
theorem Fits.unuse (h : Fits p x n) (hu : 0 < p.devUsers)
    (hy : ∀ m, y m = x m + if p.devUsers = 1 then one .held m else 0) :
    Fits { p with devUsers := p.devUsers - 1 } y n := by
  have hrefs := h.refs
  have hother : ∀ m, m ≠ .held → y m = x m := by
    intro m hm
    simp [hy, one, hm]
  refine ⟨?_, ?_, ?_, h.opened, ?_, ?_, h.listed, ?_⟩
  · have hheld := hy .held
    simp only [ProfDev.own, one, if_true] at hrefs hheld ⊢
    simp only [hu, if_true] at hrefs
    by_cases h1 : p.devUsers = 1
    · have hnone : ¬ 0 < p.devUsers - 1 := by omega
      simp only [h1, if_true] at hheld
      simp only [hnone, if_false]
      omega
    · have hpos' : 0 < p.devUsers - 1 := by omega
      simp only [h1, if_false] at hheld
      simp only [hpos', if_true]
      omega
  · simpa [hother] using h.dying
  · simpa [hother] using h.exits
  · simpa [hother] using h.flushes
  · simpa [hother] using h.once
  · simpa [hother] using h.kept

theorem Fits.ptrace (h : Fits p x n) (l : Nat) : Fits { p with ptraceList := l } x n :=
  ⟨h.refs, h.dying, h.exits, h.opened, h.flushes, h.once, h.listed, h.kept⟩

theorem Fits.use (h : Fits p x n) (hp : 0 < p.refcount) : Fits p.use x n := by
  have hrefs := h.refs
  unfold ProfDev.use
  by_cases hu : p.devUsers = 0
  · rw [if_pos hu, if_pos hp]
    have hne : p.refcount ≠ 0 := by omega
    have hne' : p.refcount + 1 ≠ 0 := by omega
    refine ⟨?_, ?_, h.exits, h.opened, h.flushes, h.once, h.listed, h.kept⟩
    · simp [ProfDev.own, hu] at hrefs ⊢
      omega
    · simpa [hne, hne'] using h.dying
  · rw [if_neg hu]
    have hpos : 0 < p.devUsers := Nat.pos_of_ne_zero hu
    refine ⟨?_, h.dying, h.exits, h.opened, h.flushes, h.once, h.listed, h.kept⟩
    simpa [ProfDev.own, hpos] using hrefs

end Fits

end PerfProf.Device
