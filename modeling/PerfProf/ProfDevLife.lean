import PerfProf.ProfDevOpen

/-! The devices over a whole run. -/
namespace PerfProf.Device
open Obligations

section Exec
variable {w w' : World} {f : Frame} {k fs : List Frame} {d i : DevId} {p q : ProfDev} {fails : Bool}

theorem runs_openList (h : Inv w (.openList d :: k)) (hl : ∀ p, w.devs d = some p → p.inclose = false) :
    Runs (exec w (.openList d)) k := by
  obtain ⟨p, hd, hp⟩ := h.alive (d := d) (by simp [Frame.names])
  have hclose := hl p hd
  have hheld := h.held (d := d) (by simp [Frame.names]) (by simp [Frame.IsCall])
  simp only [exec, hd, Option.bind_eq_bind, Option.bind_some]
  generalize hlist : (if p.type = .service then w.list else if p.childList ≠ [] then d :: w.list else w.list ++ [d]) = l
  have hcount : ∀ x, l.count x = w.list.count x + if x = d ∧ p.type = .normal then 1 else 0 := by
    intro x
    rw [← hlist]
    cases hty : p.type with
    | service => simp
    | normal =>
      by_cases hx : x = d
      · subst hx
        by_cases hchild : p.childList = [] <;> simp [hchild]
      · by_cases hchild : p.childList = [] <;> simp [hchild, hx, Ne.symm hx]
  have hinv : Inv { w with list := l } (.enable d :: k) := by
    refine h.local (l := [.enable d]) hd (SameLinks.refl p) ?_ rfl rfl rfl (fun x hx => ?_) (fun x hx m => ?_)
      (fun b hb => ?_) (by simp [Frame.Linked]) (Ready.of_guarded ⟨fun x hx => ?_, h.guarded⟩)
    · rw [← hd, Function.update_eq_self]
    · simp [hcount, hx]
    · cases m <;> simp [Frame.owe, hx]
    · have hfit := hb.onList (y := fun m => b m + owed (Frame.owe m) [.enable d] d) hclose fun m => by
        cases m <;> simp [Frame.owe, one]
      simpa [hcount] using hfit
    · rw [List.mem_singleton.mp hx]
      simpa [Frame.owe] using hheld
  by_cases hstate : p.state = .inactive
  · rw [if_pos hstate]
    exact ⟨_, _, rfl, hinv.polled hd hp (by simp [hstate])⟩
  · rw [if_neg hstate]
    exact ⟨_, [], rfl, hinv.pop fun x m => by cases m <;> rfl⟩

theorem runs_cloned (h : Inv w (.cloned d i fails :: k))
    (hl : fails = false → ∀ p q t, w.devs d = some p → w.devs i = some q → q.target = some t → p.target = none ∧ t ≠ d)
    (ht : fails = false → ∀ q t, w.devs i = some q → q.target = some t → ∃ s, w.devs t = some s) :
    Runs (exec w (.cloned d i fails)) k := by
  obtain ⟨p, hd, hp⟩ := h.alive (d := d) (by simp [Frame.names])
  obtain ⟨q, hi, hq⟩ := h.alive (d := i) (by simp [Frame.names])
  have hput : Inv w (.put d :: k) := by
    refine h.turn (l := [.put d]) (fun x m => ?_) (by simp [Frame.Linked]) (Ready.of_guarded ⟨?_, h.guarded⟩)
    · cases m <;> simp [Frame.owe]
    · simp [Frame.names, Frame.owe]
  have hguard : Guarded Frame.names (Frame.owe .held) (.put d :: k) := by
    refine ⟨?_, h.guarded⟩
    simp [Frame.names, Frame.owe]
  cases htarget : q.target with
  | none =>
    simp only [exec, hi, htarget, Option.bind_eq_bind, Option.bind_some]
    exact ⟨w, [.put d], rfl, hput⟩
  | some t =>
    simp only [exec, hi, htarget, Option.bind_eq_bind, Option.bind_some]
    cases fails with
    | true =>
      rw [if_pos rfl]
      refine ⟨_, [.close d], rfl, h.same rfl rfl rfl (fun x m => ?_) (by simp [Frame.Linked])
        ⟨fun x hx => ?_, h.guarded⟩⟩
      · cases m with
        | held =>
          by_cases hx : x = d
          · subst hx
            simp [marks, Frame.owe]
            omega
          · simp [marks, Frame.owe, hx]
        | freed | exits | flushes | opens => simp [marks, Frame.owe]
      · rw [List.mem_singleton.mp hx]
        exact Or.inr ⟨trivial, p, hd, hp⟩
    | false =>
      obtain ⟨hnone, hne⟩ := hl rfl p q t hd hi htarget
      obtain ⟨s, hs⟩ := ht rfl q t hi htarget
      have hw : Forwarded w d t p { w with devs := fun x => (w.devs x).map (routed d t x) } :=
        ⟨h.links, hd, hnone, hne, h.links.bound t s hs, fun _ => rfl, rfl, rfl, rfl, rfl, rfl⟩
      rw [if_neg (by simp), profDevForward_eq hd hne ⟨s, hs⟩]
      exact ⟨_, [.put d], rfl, hput.forwarded hguard hw⟩

theorem runs_listClose (h : Inv w (.listClose :: k)) : Runs (exec w .listClose) k := by
  have hpop : Inv w k := h.pop fun x m => by cases m <;> rfl
  cases hlist : w.list with
  | nil =>
    simp only [exec, hlist]
    by_cases hrun : w.running < 0
    · rw [if_pos hrun]
      exact ⟨w, [.callback], rfl, hpop.push h.guarded (fun x m => by cases m <;> rfl) trivial (by simp [Frame.names])⟩
    · rw [if_neg hrun]
      exact ⟨w, [], rfl, hpop⟩
  | cons d l =>
    simp only [exec, hlist]
    have hlive : Alive w d := by
      have hcount : 0 < w.list.count d := by simp [hlist]
      cases hd : w.devs d with
      | none => exact absurd (h.gone d hd).2 hcount.ne'
      | some p =>
        have hfit := h.fits d p hd
        have hne : p.refcount ≠ 0 := fun hp =>
          (hfit.listed hcount).2 (h.held_of_dying hd hp).2 (h.exit_of_dying rfl hd hp)
        have := hfit.refcount_nonneg
        exact ⟨p, hd, by omega⟩
    refine ⟨w, [.close d, .listClose], rfl, h.push ⟨by simp [Frame.names], h.guarded⟩
      (fun x m => by cases m <;> rfl) trivial fun x hx => ?_⟩
    rw [List.mem_singleton.mp hx]
    exact Or.inr ⟨trivial, hlive⟩

/-- What a run has to keep to, where a callback could see to it: a device is not closed before its open
has put it on the list, a clone is not forwarded by its init, no deinit frees a device of a list, and
when an open fails nothing else refers to its device. -/
def Lawful (w : World) : List Frame → Prop
  | .openList d :: _ => ∀ p, w.devs d = some p → p.inclose = false
  | .cloned d i false :: _ =>
    ∀ p q t, w.devs d = some p → w.devs i = some q → q.target = some t → p.target = none ∧ t ≠ d
  | .free d _ :: k => Quiet w d k
  | .outFree d :: k => Quiet w d k ∧ ∀ p, w.devs d = some p → p.Unused
  | _ => True

/-- The call goes to a forwarding target that has been freed. -/
def Dangling (w : World) : Frame → Prop
  | .free d _ => ∃ p t, w.devs d = some p ∧ p.target = some t ∧ w.devs t = none
  | .cloned _ i false => ∃ q t, w.devs i = some q ∧ q.target = some t ∧ w.devs t = none
  | _ => False

theorem exists_of_not_dangling {t : DevId} (h : ¬ (w.devs t = none)) : ∃ s, w.devs t = some s :=
  Option.ne_none_iff_exists'.mp h

theorem runs_exec (h : Inv w (f :: k)) (hl : Lawful w (f :: k)) (hd : ¬ Dangling w f) : Runs (exec w f) k := by
  cases f with
  | callback => exact ⟨w, [], rfl, h.pop fun x m => by cases m <;> rfl⟩
  | main =>
    simp only [exec]
    by_cases hrun : 0 < w.running
    · rw [if_pos hrun]
      exact ⟨w, [.callback, .main], rfl, h.push ⟨by simp [Frame.names], h.guarded⟩ (fun x m => by cases m <;> rfl)
        trivial (by simp [Frame.names])⟩
    · rw [if_neg hrun]
      exact ⟨w, [.listClose], rfl, h.turn (fun x m => by cases m <;> rfl) (by simp [Frame.Linked])
        (Ready.of_guarded ⟨by simp [Frame.names], h.guarded⟩)⟩
  | listClose => exact runs_listClose h
  | enable d => exact runs_enable h
  | disable d => exact runs_disable h
  | flush d how => exact runs_flush h
  | flushEnd d => exact runs_flushEnd h
  | close d => exact runs_close h
  | exit d => exact runs_exit h
  | detach d => exact runs_detach h
  | detachLoop d => exact runs_detachLoop h
  | unuse d => exact runs_unuse h
  | put d => exact runs_putFrame h
  | interval d => exact runs_interval h
  | openList d => exact runs_openList h hl
  | cloned d i fails =>
    refine runs_cloned h (fun hf => ?_) fun hf q t hi ht => ?_
    · subst hf
      exact hl
    · subst hf
      exact exists_of_not_dangling fun hs => hd ⟨q, t, hi, ht, hs⟩
  | start b o => exact runs_start h
  | next b o c => exact runs_next h
  | outFree d => exact runs_outFree h hl.1 hl.2
  | free d r => exact runs_free h hl fun p t hp ht => exists_of_not_dangling fun hs => hd ⟨p, t, hp, ht, hs⟩

theorem profDevFree_eq_none {t : DevId} (hl : Links w) (hd : w.devs d = some p) (ht : p.target = some t)
    (hs : w.devs t = none) : profDevFree w d = none := by
  have hadopt : Adoptable w p p.childList := hl.adoptable hd
  have hparent : ∀ q, p.parent = some q → ∃ r, (w.devs q).map (adopted p p.childList q) = some r := by
    intro q hq
    obtain ⟨r, hr⟩ := (hl.parent d p q hd hq).2
    exact ⟨adopted p p.childList q r, by simp [hr]⟩
  simp only [profDevFree, hd, Option.bind_eq_bind, Option.bind_some, adopt_eq p _ w hadopt]
  rw [unlinkParent_eq d hparent]
  simp [unlinkTarget, ht, hs]

theorem exec_eq_none (h : Inv w (f :: k)) (hd : Dangling w f) : exec w f = none := by
  cases f with
  | free d r =>
    obtain ⟨p, t, hp, ht, hs⟩ := hd
    simp [exec, profDevFree_eq_none h.links hp ht hs]
  | cloned d i fails =>
    cases fails with
    | true => cases hd
    | false =>
      obtain ⟨q, t, hi, ht, hs⟩ := hd
      obtain ⟨p, hp, -⟩ := h.alive (d := d) (by simp [Frame.names])
      have hne : t ≠ d := by
        intro he
        rw [he, hp] at hs
        cases hs
      simp [exec, hi, ht, profDevForward, hp, Function.update_of_ne hne, hs]
  | callback | main | listClose | enable | disable | flush | flushEnd | close | exit | detach | detachLoop | unuse
    | put | interval | openList | start | next | outFree => cases hd

end Exec

section Perform
variable {w : World} {k : List Frame} {d i t : DevId} {p q : ProfDev}

theorem sameLinks_use (p : ProfDev) : SameLinks p p.use := by
  unfold ProfDev.use
  split
  · split
    · exact ⟨rfl, rfl, rfl, rfl, rfl⟩
    · exact SameLinks.refl p
  · exact ⟨rfl, rfl, rfl, rfl, rfl⟩

theorem sameLinks_ptraceLink (p : ProfDev) : SameLinks p p.ptraceLink := by
  unfold ProfDev.ptraceLink
  split
  · exact SameLinks.refl p
  · have hs := sameLinks_use p
    exact ⟨hs.type, hs.parent, hs.childList, hs.target, hs.sourceList⟩

/-- The callback does its part and goes on. -/
def Performs (o : Outcome) (k : List Frame) : Prop := ∃ w' fs, o = some (w', fs) ∧ Inv w' (fs ++ .callback :: k)

theorem opened_none (hl : Links w) {type : DevType} {off pages : Bool} :
    Opened w w.next (newDev none false type off pages) (openInternal w none (newDev none false type off pages)) where
  links := hl
  fresh := rfl
  parent i hi := by cases hi
  childList := rfl
  sourceList := rfl
  target := rfl
  devs x := by
    by_cases hx : x = w.next
    · subst hx
      simp [openInternal]
    · rw [openInternal, World.set_devs, Function.update_of_ne hx, if_neg hx]
      cases w.devs x <;> simp [grown, newDev]
  next := rfl
  list := rfl
  running := rfl
  events := rfl
  leaked := rfl

theorem opened_some (hl : Links w) (hi : w.devs i = some q) {clone : Bool} {type : DevType} {off pages : Bool} :
    Opened w w.next (newDev (some (i, q)) clone type off pages)
      (openInternal w (some (i, q)) (newDev (some (i, q)) clone type off pages)) where
  links := hl
  fresh := rfl
  parent j hj := by
    cases hj
    exact ⟨q, hi⟩
  childList := rfl
  sourceList := rfl
  target := rfl
  devs x := by
    by_cases hx : x = w.next
    · subst hx
      simp [openInternal]
    · rw [openInternal, World.set_devs, Function.update_of_ne hx, if_neg hx, World.set_devs]
      by_cases hxi : x = i
      · subst hxi
        simp [hi, grown, newDev]
      · rw [Function.update_of_ne hxi]
        cases w.devs x <;> simp [grown, newDev, Ne.symm hxi]
  next := rfl
  list := rfl
  running := rfl
  events := rfl
  leaked := rfl

theorem fits_newDev (parent : Option (DevId × ProfDev)) (clone : Bool) (type : DevType) (off pages : Bool)
    {x : Mark → Nat} (hx : ∀ m, x m = one .held m + one .opens m) : Fits (newDev parent clone type off pages) x 0 := by
  have hstate : (newDev parent clone type off pages).state ≠ .exit := by
    unfold newDev
    cases off
    · cases parent with
      | none => simp
      | some i =>
        simp only [Bool.false_eq_true, if_false]
        split <;> simp
    · simp
  refine ⟨?_, ?_, ?_, fun _ => hstate, ?_, ?_, by simp, fun _ _ => ?_⟩
  · simp [hx, one, newDev, ProfDev.own]
  · simp [hx, one, newDev]
  · simp [hx, one, newDev]
  · simp [hx, one, newDev]
  · simp [hx, one]
  · simp [hx, one]

variable (h : Inv w (.callback :: k))
include h

theorem Inv.cont : Guarded Frame.names (Frame.owe .held) (.callback :: k) :=
  ⟨by simp [Frame.names], h.guarded⟩

theorem Inv.again : Inv w (.callback :: .callback :: k) :=
  h.push h.cont (fun x m => by cases m <;> rfl) trivial (by simp [Frame.names])

theorem performs_call {f : Frame} (ha : Alive w d) (hf : ∀ x m, f.owe m x = 0) (hl : f.Linked w) (hc : f.IsCall)
    (hn : f.names = [d]) : Performs (some (w, [f])) k := by
  refine ⟨w, [f], rfl, h.push h.cont hf hl fun x hx => ?_⟩
  rw [hn] at hx
  rw [List.mem_singleton.mp hx]
  exact Or.inr ⟨hc, ha⟩

theorem performs_open {parent : Option DevId} {type : DevType} {off pages : Bool}
    (ha : (Op.open parent type off pages).Allowed w) : Performs (perform w (.open parent type off pages)) k := by
  have key : ∀ {p : ProfDev} {w' : World}, Opened w w.next p w' →
      (∀ {x : Mark → Nat}, (∀ m, x m = one .held m + one .opens m) → Fits p x 0) →
      Performs (some (w', [.callback, .openList w.next, .put w.next])) k := by
    intro p w' hw hfit
    refine ⟨w', _, rfl, h.opened hw (fun x hx m => ?_) (hfit fun m => ?_) (by simp [Frame.Linked])
      ⟨by simp [Frame.names], ?_⟩⟩
    · cases m <;> simp [Frame.owe, hx]
    · cases m <;> simp [Frame.owe, one]
    · simp [Frame.names, Frame.owe, h.guarded]
  cases parent with
  | none => exact key (opened_none h.links) (fits_newDev _ _ _ _ _)
  | some i =>
    obtain ⟨q, hi, -⟩ := ha
    simp only [perform, hi, Option.bind_eq_bind, Option.bind_some]
    exact key (opened_some h.links hi) (fits_newDev _ _ _ _ _)

theorem performs_clone {type : DevType} {off pages fails : Bool} (ha : Alive w i) :
    Performs (perform w (.clone i type off pages fails)) k := by
  obtain ⟨q, hi, hq⟩ := ha
  have hget : Inv (w.set i q.get) (.put i :: .callback :: k) := by
    refine h.again.local (l := [.put i]) hi (sameLinks_get q) rfl rfl rfl rfl (fun _ _ => rfl) (fun x hx m => ?_)
      (fun b hb => hb.get hq fun m => ?_) (by simp [Frame.Linked]) (Ready.of_guarded ⟨?_, h.cont⟩)
    · cases m <;> simp [Frame.owe, hx]
    · cases m <;> simp [Frame.owe, one]
    · simp [Frame.names, Frame.owe]
  simp only [perform, hi, Option.bind_eq_bind, Option.bind_some]
  by_cases hstate : q.state = .exit
  · rw [if_pos hstate]
    exact ⟨_, [.put i], rfl, hget⟩
  · rw [if_neg hstate]
    have hw : Opened (w.set i q.get) w.next (newDev (some (i, q.get)) true type off pages) (openInternal (w.set i q.get)
        (some (i, q.get)) (newDev (some (i, q.get)) true type off pages)) := opened_some hget.links (by simp)
    refine ⟨_, _, rfl, hget.opened (l := [.callback, .openList w.next, .cloned w.next i fails]) hw (fun x hx m => ?_)
      (fits_newDev _ _ _ _ _ fun m => ?_) (by simp [Frame.Linked]) ⟨by simp [Frame.names], ?_⟩⟩
    · cases m <;> simp [Frame.owe, show x ≠ w.next from hx]
    · cases m <;> simp [Frame.owe, one]
    · simp [Frame.names, Frame.owe, h.guarded]

theorem performs_forward (ha : (Op.forward d t).Allowed w) : Performs (perform w (.forward d t)) k := by
  obtain ⟨hne, ⟨s, hs, -⟩, p, hd, -, hnone⟩ := ha
  have hw : Forwarded w d t p { w with devs := fun x => (w.devs x).map (routed d t x) } :=
    ⟨h.links, hd, hnone, Ne.symm hne, h.links.bound t s hs, fun _ => rfl, rfl, rfl, rfl, rfl, rfl⟩
  rw [perform, profDevForward_eq hd (Ne.symm hne) ⟨s, hs⟩]
  exact ⟨_, [], rfl, h.forwarded h.cont hw⟩

theorem performs_handle {hup : Bool} (ha : Alive w d) : Performs (perform w (.handle d hup)) k := by
  obtain ⟨p, hd, hp⟩ := ha
  simp only [perform, hd, Option.bind_eq_bind, Option.bind_some]
  refine ⟨_, _, rfl, h.again.local hd (sameLinks_get p) rfl rfl rfl rfl (fun _ _ => rfl) (fun x hx m => ?_)
    (fun b hb => hb.get hp fun m => ?_) ?_ (Ready.of_guarded ?_)⟩
  · cases m <;> cases hup <;> simp [Frame.owe, hx]
  · cases m <;> cases hup <;> simp [Frame.owe, one]
  · cases hup <;> simp [Frame.Linked]
  · cases hup
    · simp [Frame.names, Frame.owe, h.guarded]
    · simp [Frame.names, Frame.owe, h.guarded]

/-- One device changes in its own place, and nothing is owed to it. -/
theorem performs_set {p' : ProfDev} (hd : w.devs d = some p) (hs : SameLinks p p')
    (hfit : ∀ (x : Mark → Nat) n, Fits p x n → Fits p' x n) : Performs (some (w.set d p', [])) k := by
  refine ⟨_, [], rfl, h.again.local hd hs rfl rfl rfl rfl (fun _ _ => rfl) (fun x hx m => ?_)
    (fun b hb => (hfit _ _ hb).congr fun m => ?_) (by simp) (Ready.of_guarded h.cont)⟩
  · cases m <;> rfl
  · cases m <;> rfl

theorem performs_get (ha : Alive w d) : Performs (perform w (.get d)) k := by
  obtain ⟨p, hd, hp⟩ := ha
  simp only [perform, hd, Option.bind_eq_bind, Option.bind_some]
  refine ⟨_, [], rfl, h.again.update hd (sameLinks_get p) rfl rfl (fun x hx m => ?_) (fun _ _ => rfl)
    ((h.again.fits d p hd).get hp fun m => ?_) (by simp) (Ready.of_guarded h.cont)⟩
  · cases m <;> simp [marks, Frame.owe, Function.update_of_ne hx]
  · cases m with
    | held =>
      simp [marks, Frame.owe, one]
      omega
    | freed | exits | flushes | opens => simp [marks, Frame.owe, one]

theorem performs_put (ha : 0 < w.events d) : Performs (perform w (.put d)) k := by
  refine ⟨_, [.put d], rfl, h.again.same rfl rfl rfl (fun x m => ?_) (by simp [Frame.Linked])
    (Ready.of_guarded ⟨?_, h.cont⟩)⟩
  · cases m with
    | held =>
      by_cases hx : x = d
      · subst hx
        simp [marks, Frame.owe]
        omega
      · simp [marks, Frame.owe, hx]
    | freed | exits | flushes | opens => simp [marks, Frame.owe]
  · simp [Frame.names, Frame.owe]

theorem performs_unlink (ha : Alive w d) : Performs (perform w (.unlink d)) k := by
  obtain ⟨p, hd, hp⟩ := ha
  simp only [perform, hd, Option.bind_eq_bind, Option.bind_some]
  have hs : SameLinks p { p with ptraceList := p.ptraceList - 1 } := ⟨rfl, rfl, rfl, rfl, rfl⟩
  have hset : Inv (w.set d { p with ptraceList := p.ptraceList - 1 }) ([] ++ .callback :: k) := h.again.local hd hs
    rfl rfl rfl rfl (fun _ _ => rfl) (fun x hx m => by cases m <;> rfl)
    (fun b hb => (hb.congr fun m => by cases m <;> rfl).ptrace _) (by simp) (Ready.of_guarded h.cont)
  exact performs_call hset ⟨_, Function.update_self .., hp⟩ (fun x m => by cases m <;> rfl) trivial trivial rfl

theorem performs (op : Op) (ha : op.Allowed w) : Performs (perform w op) k := by
  cases op with
  | «open» parent type off pages => exact performs_open h ha
  | clone i type off pages fails => exact performs_clone h ha
  | forward d t => exact performs_forward h ha
  | enable d => exact performs_call h ha (fun x m => by cases m <;> rfl) trivial trivial rfl
  | disable d => exact performs_call h ha (fun x m => by cases m <;> rfl) trivial trivial rfl
  | flush d how => exact performs_call h ha (fun x m => by cases m <;> rfl) trivial trivial rfl
  | close d => exact performs_call h ha (fun x m => by cases m <;> rfl) trivial trivial rfl
  | interval d => exact performs_call h ha (fun x m => by cases m <;> rfl) trivial trivial rfl
  | handle d hup => exact performs_handle h ha
  | get d => exact performs_get h ha
  | put d => exact performs_put h ha
  | use d =>
    obtain ⟨p, hd, hp⟩ := ha
    simp only [perform, hd, Option.bind_eq_bind, Option.bind_some]
    exact performs_set h hd (sameLinks_use p) fun x n hx => hx.use hp
  | unuse d => exact performs_call h ha.1 (fun x m => by cases m <;> rfl) trivial trivial rfl
  | link d =>
    obtain ⟨p, hd, hp⟩ := ha
    simp only [perform, hd, Option.bind_eq_bind, Option.bind_some]
    refine performs_set h hd (sameLinks_ptraceLink p) fun x n hx => ?_
    unfold ProfDev.ptraceLink
    split
    · exact hx
    · exact (hx.use hp).ptrace _
  | unlink d => exact performs_unlink h ha.1
  | sigint =>
    refine ⟨_, [], rfl, h.again.same rfl rfl rfl (fun x m => ?_) (by simp) (Ready.of_guarded h.cont)⟩
    cases m <;> simp [marks, Frame.owe]

end Perform

end PerfProf.Device
