import PerfProf.ProfDevRefs

/-! Each call of a device keeps the books, whatever runs inside it. -/
namespace PerfProf.Device
open Obligations

/-- The step touches no device that is not there, and keeps the books. -/
def Runs (o : Outcome) (k : List Frame) : Prop := ∃ w' fs, o = some (w', fs) ∧ Inv w' (fs ++ k)

section Local

attribute [local simp] exec Frame.owe Frame.names Frame.Linked

variable {w w' : World} {f : Frame} {k fs : List Frame} {d : DevId} {p p' : ProfDev}

theorem sameLinks_get (p : ProfDev) : SameLinks p p.get := by
  unfold ProfDev.get
  split
  · exact ⟨rfl, rfl, rfl, rfl, rfl⟩
  · exact SameLinks.refl p

theorem Inv.polled (h : Inv w (.enable d :: k)) (hd : w.devs d = some p) (hp : 0 < p.refcount)
    (hstate : p.state ≠ .exit) : Inv (enablePolled w d p).1 ((enablePolled w d p).2 ++ k) := by
  have hs := sameLinks_get p
  refine h.local hd (q := { p.get with state := .active }) ⟨hs.type, hs.parent, hs.childList, hs.target, hs.sourceList⟩
    rfl rfl rfl rfl (fun _ _ => rfl) (fun x hx m => ?_) (fun b hb => ?_) ?_ ?_
  · cases m <;> simp [enablePolled, Frame.owe, hx]
  · refine (hb.get hp fun m => ?_).state ?_ (by simp)
    · cases m <;> simp [enablePolled, Frame.owe, one]
    · rwa [ProfDev.get_of_pos hp]
  · simp [enablePolled, Frame.Linked]
  · refine Ready.of_guarded ?_
    simp [enablePolled, Frame.names, Frame.owe, h.guarded]

theorem runs_enable (h : Inv w (.enable d :: k)) : Runs (exec w (.enable d)) k := by
  obtain ⟨p, hd, hp⟩ := h.alive (d := d) (by simp [Frame.names])
  by_cases hstate : p.state = .active ∨ p.state = .exit
  · exact ⟨w, [], by simp [exec, hd, hstate], h.pop fun x m => by cases m <;> rfl⟩
  · simp only [exec, hd, Option.bind_eq_bind, Option.bind_some]
    rw [if_neg hstate]
    exact ⟨_, _, rfl, h.polled hd hp fun he => hstate (Or.inr he)⟩

theorem runs_disable (h : Inv w (.disable d :: k)) : Runs (exec w (.disable d)) k := by
  obtain ⟨p, hd, hp⟩ := h.alive (d := d) (by simp [Frame.names])
  have hs := sameLinks_get p
  by_cases hstate : p.state.val < DevState.active.val
  · exact ⟨w, [], by simp [exec, hd, hstate], h.pop fun x m => by cases m <;> rfl⟩
  · simp only [exec, hd, Option.bind_eq_bind, Option.bind_some]
    rw [if_neg hstate]
    refine ⟨_, _, rfl, ?_⟩
    have hne : p.state ≠ .exit := by
      intro he
      simp [he, DevState.val] at hstate
    refine h.local hd (q := { p.get with state := .inactive })
      ⟨hs.type, hs.parent, hs.childList, hs.target, hs.sourceList⟩ rfl rfl rfl rfl (fun _ _ => rfl) (fun x hx m => ?_)
      (fun b hb => ?_) ?_ ?_
    · cases m <;> cases p.pages <;> simp [Frame.owe, hx]
    · refine (hb.get hp fun m => ?_).state ?_ (by simp)
      · cases m <;> cases p.pages <;> simp [Frame.owe, one]
      · rwa [ProfDev.get_of_pos hp]
    · cases p.pages <;> simp [Frame.Linked]
    · refine Ready.of_guarded ?_
      cases p.pages
      · simp [Frame.names, Frame.owe, h.guarded]
      · simp [Frame.names, Frame.owe, h.guarded]

theorem runs_flush {how : FlushHow} (h : Inv w (.flush d how :: k)) : Runs (exec w (.flush d how)) k := by
  obtain ⟨p, hd, hp⟩ := h.alive (d := d) (by simp [Frame.names])
  have hs := sameLinks_get p
  by_cases hin : p.inflush = true
  · exact ⟨w, [], by simp [exec, hd, hin], h.pop fun x m => by cases m <;> rfl⟩
  · simp only [exec, hd, Option.bind_eq_bind, Option.bind_some]
    rw [if_neg hin]
    refine ⟨_, _, rfl, ?_⟩
    refine h.local hd (q := { p.get with inflush := true })
      ⟨hs.type, hs.parent, hs.childList, hs.target, hs.sourceList⟩ rfl rfl rfl rfl (fun _ _ => rfl) (fun x hx m => ?_)
      (fun b hb => ?_) ?_ ?_
    · cases m <;> cases p.pages <;> cases how <;> simp [Frame.owe, hx]
    · refine (hb.get hp (y := fun m => b m + one .held m) fun m => ?_).flushOn ?_ fun m => ?_
      · cases m <;> simp [Frame.owe, one]
      · rw [ProfDev.get_of_pos hp]
        simpa using hin
      · cases m <;> cases p.pages <;> cases how <;> simp [Frame.owe, one]
    · cases p.pages <;> cases how <;> simp [Frame.Linked]
    · refine Ready.of_guarded ?_
      cases p.pages <;> cases how <;>
      · simp [Frame.names, Frame.owe, h.guarded]

theorem runs_flushEnd (h : Inv w (.flushEnd d :: k)) : Runs (exec w (.flushEnd d)) k := by
  obtain ⟨p, hd, hp⟩ := h.alive (d := d) (by simp [Frame.names])
  simp only [exec, hd, Option.bind_eq_bind, Option.bind_some]
  refine ⟨_, [], rfl, ?_⟩
  refine h.local hd (q := { p with inflush := false }) ⟨rfl, rfl, rfl, rfl, rfl⟩ rfl rfl rfl rfl (fun _ _ => rfl)
    (fun x hx m => ?_) (fun b hb => hb.flushOff fun m => ?_) (by simp) (Ready.of_guarded h.guarded)
  · cases m <;> simp [Frame.owe, hx]
  · cases m <;> simp [Frame.owe, one]

theorem runs_close (h : Inv w (.close d :: k)) : Runs (exec w (.close d)) k := by
  obtain ⟨p, hd, hp⟩ := h.alive (d := d) (by simp [Frame.names])
  by_cases hin : p.inclose = true
  · exact ⟨w, [], by simp [exec, hd, hin], h.pop fun x m => by cases m <;> rfl⟩
  · simp only [exec, hd, Option.bind_eq_bind, Option.bind_some]
    rw [if_neg hin]
    refine ⟨_, _, rfl, ?_⟩
    refine h.local hd (q := { p with inclose := true }) ⟨rfl, rfl, rfl, rfl, rfl⟩ rfl rfl rfl rfl (fun _ _ => rfl)
      (fun x hx m => ?_) (fun b hb => hb.close (by simpa using hin) fun m => ?_) (by simp [Frame.Linked])
      (Ready.of_guarded ?_)
    · cases m <;> simp [Frame.owe, hx]
    · cases m <;> simp [Frame.owe, one]
    · simp [Frame.names, Frame.owe, h.guarded]

theorem runs_exit (h : Inv w (.exit d :: k)) : Runs (exec w (.exit d)) k := by
  obtain ⟨p, hd, hp⟩ := h.alive (d := d) (by simp [Frame.names])
  simp only [exec, hd, Option.bind_eq_bind, Option.bind_some]
  refine ⟨_, [], rfl, ?_⟩
  refine h.local hd (q := { p with state := .exit }) ⟨rfl, rfl, rfl, rfl, rfl⟩ rfl rfl rfl rfl (fun x hx => ?_)
    (fun x hx m => ?_) (fun b hb => ?_) (by simp) (Ready.of_guarded h.guarded)
  · exact List.count_erase_of_ne hx
  · cases m <;> simp [Frame.owe, hx]
  · rw [show (w.list.erase d).count d = w.list.count d - 1 from List.count_erase_self]
    refine hb.exit fun m => ?_
    cases m <;> simp [Frame.owe, one]

theorem runs_detach (h : Inv w (.detach d :: k)) : Runs (exec w (.detach d)) k := by
  obtain ⟨p, hd, hp⟩ := h.alive (d := d) (by simp [Frame.names])
  by_cases hin : p.ptraceList = 0
  · exact ⟨w, [], by simp [exec, hd, hin], h.pop fun x m => by cases m <;> rfl⟩
  · simp only [exec, hd, Option.bind_eq_bind, Option.bind_some]
    rw [if_neg hin]
    refine ⟨_, _, rfl, ?_⟩
    refine h.local hd (sameLinks_get p) rfl rfl rfl rfl (fun _ _ => rfl)
      (fun x hx m => ?_) (fun b hb => hb.get hp fun m => ?_) (by simp [Frame.Linked]) (Ready.of_guarded ?_)
    · cases m <;> simp [Frame.owe, hx]
    · cases m <;> simp [Frame.owe, one]
    · simp [Frame.names, Frame.owe, h.guarded]

theorem runs_interval (h : Inv w (.interval d :: k)) : Runs (exec w (.interval d)) k := by
  obtain ⟨p, hd, hp⟩ := h.alive (d := d) (by simp [Frame.names])
  simp only [exec, hd, Option.bind_eq_bind, Option.bind_some]
  refine ⟨_, _, rfl, ?_⟩
  refine h.local hd (sameLinks_get p) rfl rfl rfl rfl (fun _ _ => rfl)
    (fun x hx m => ?_) (fun b hb => hb.get hp fun m => ?_) (by simp [Frame.Linked]) (Ready.of_guarded ?_)
  · cases m <;> simp [Frame.owe, hx]
  · cases m <;> simp [Frame.owe, one]
  · simp [Frame.names, Frame.owe, h.guarded]

end Local

section Puts
variable {w w' : World} {f : Frame} {k fs : List Frame} {d o : DevId} {p p' : ProfDev}

theorem runs_put {r : Option (Walk × DevId × Option DevId)} {go : World → Outcome} (h : Inv w (.put d :: k))
    (hlinked : (Frame.free d r).Linked w) (hn : ∀ x ∈ (Frame.free d r).names, 0 < Held k x)
    (hgo : ∀ w', Inv w' k → SamePlaces w w' → Alive w' d → Runs (go w') k) : Runs (put w d r go) k := by
  obtain ⟨p, hd, hp⟩ := h.alive (d := d) (by simp [Frame.names])
  have hs : SameLinks p { p with refcount := p.refcount - 1 } := ⟨rfl, rfl, rfl, rfl, rfl⟩
  have hplaces := samePlaces_update (v := w.set d { p with refcount := p.refcount - 1 }) hd hs rfl rfl
  simp only [put, hd, Option.bind_eq_bind, Option.bind_some]
  by_cases hlast : p.refcount = 1
  · rw [if_pos (by omega)]
    refine ⟨_, _, rfl, h.local hd hs rfl rfl rfl rfl (fun _ _ => rfl) (fun x hx m => ?_)
      (fun b hb => hb.last hlast fun m => ?_) ?_ (Ready.of_guarded ?_)⟩
    · cases m <;> simp [Frame.owe, hx]
    · cases m <;> simp [Frame.owe, one]
    · intro g hg
      simp only [List.mem_cons, List.not_mem_nil, or_false] at hg
      rcases hg with rfl | rfl
      · trivial
      · exact hplaces.frame hlinked
    · refine ⟨by simp [Frame.names], fun x hx => ?_, h.guarded⟩
      have hheld : 0 < owed (Frame.owe .held) k x := hn x hx
      show 0 < Frame.owe .held (.free d r) x + owed (Frame.owe .held) k x
      omega
  · rw [if_neg (by omega)]
    refine hgo _ ?_ hplaces ⟨_, Function.update_self .., by simp; omega⟩
    refine h.local (l := []) hd hs rfl rfl rfl rfl (fun _ _ => rfl) (fun x hx m => ?_)
      (fun b hb => hb.put hlast fun m => ?_) (by simp) (Ready.of_guarded h.guarded)
    · cases m <;> simp [Frame.owe, hx]
    · cases m <;> simp [Frame.owe, one]

theorem runs_putFrame (h : Inv w (.put d :: k)) : Runs (exec w (.put d)) k :=
  runs_put (r := none) h trivial (by simp [Frame.names]) fun w' h' _ _ => ⟨w', [], rfl, h'⟩

theorem runs_unuse (h : Inv w (.unuse d :: k)) : Runs (exec w (.unuse d)) k := by
  obtain ⟨p, hd, hp⟩ := h.alive (d := d) (by simp [Frame.names])
  simp only [exec, hd, Option.bind_eq_bind, Option.bind_some]
  by_cases hu : p.devUsers = 0
  · rw [if_pos hu]
    exact ⟨w, [], rfl, h.pop fun x m => by cases m <;> rfl⟩
  · rw [if_neg hu]
    have hs : SameLinks p { p with devUsers := p.devUsers - 1 } := ⟨rfl, rfl, rfl, rfl, rfl⟩
    have hpos : 0 < p.devUsers := Nat.pos_of_ne_zero hu
    by_cases h1 : p.devUsers = 1
    · rw [if_pos (by omega)]
      have hinv : Inv (w.set d { p with devUsers := p.devUsers - 1 }) (.put d :: k) := by
        refine h.local (l := [.put d]) hd hs rfl rfl rfl rfl (fun _ _ => rfl) (fun x hx m => ?_)
          (fun b hb => hb.unuse hpos fun m => ?_) (by simp [Frame.Linked]) (Ready.of_guarded ?_)
        · cases m <;> simp [Frame.owe, hx]
        · cases m <;> simp [Frame.owe, one, h1]
        · simp [Frame.names, Frame.owe, h.guarded]
      refine runs_put (r := none) hinv trivial (by simp [Frame.names]) fun w' h' _ halive => ⟨w', [.close d], rfl, ?_⟩
      refine h'.push h.guarded (fun x m => by cases m <;> rfl) trivial fun x hx => ?_
      rw [List.mem_singleton.mp hx]
      exact Or.inr ⟨trivial, halive⟩
    · rw [if_neg (by omega)]
      refine ⟨_, [], rfl, h.local hd hs rfl rfl rfl rfl (fun _ _ => rfl) (fun x hx m => ?_)
        (fun b hb => hb.unuse hpos fun m => ?_) (by simp) (Ready.of_guarded h.guarded)⟩
      · cases m <;> simp [Frame.owe]
      · cases m <;> simp [Frame.owe, h1]

theorem runs_detachLoop (h : Inv w (.detachLoop d :: k)) : Runs (exec w (.detachLoop d)) k := by
  obtain ⟨p, hd, hp⟩ := h.alive (d := d) (by simp [Frame.names])
  have hheld : 0 < Held k d := by
    simpa [Frame.owe] using h.held (d := d) (by simp [Frame.names]) (by simp [Frame.IsCall])
  simp only [exec, hd, Option.bind_eq_bind, Option.bind_some]
  by_cases hin : p.ptraceList = 0
  · rw [if_pos hin]
    exact ⟨w, [], rfl, h.pop fun x m => by cases m <;> rfl⟩
  · rw [if_neg hin]
    refine ⟨_, _, rfl, h.local hd (q := { p with ptraceList := p.ptraceList - 1 }) ⟨rfl, rfl, rfl, rfl, rfl⟩
      rfl rfl rfl rfl (fun _ _ => rfl) (fun x hx m => ?_) (fun b hb => (hb.congr fun m => ?_).ptrace _)
      (by simp [Frame.Linked]) (Ready.of_guarded ?_)⟩
    · cases m <;> simp [Frame.owe]
    · cases m <;> simp [Frame.owe]
    · simp [Frame.names, Frame.owe, h.guarded]
      exact hheld

end Puts

section Walks
variable {w w' : World} {f : Frame} {k fs : List Frame} {b : Walk} {c d o : DevId} {p p' : ProfDev}

theorem Walk.body_cases (b : Walk) (o c : DevId) (p : ProfDev) :
    b.body o c p = [] ∨
      ∃ f, b.body o c p = [f] ∧ f.IsCall ∧ f.names = [c] ∧ (∀ m x, f.owe m x = 0) ∧ ∀ w, f.Linked w := by
  cases b <;> simp only [Walk.body] <;> (try split) <;>
    first
      | exact Or.inl rfl
      | exact Or.inr ⟨_, rfl, trivial, rfl, fun m _ => by cases m <;> rfl, fun _ => trivial⟩

theorem Links.linked_of_mem (h : Links w) (ho : w.devs o = some p) (hc : c ∈ b.list p) : Linked w b c o := by
  cases b <;>
    first
      | exact (h.child o p ho c).mp hc
      | exact (h.source o p ho c).mp hc

theorem Links.mem_of_linked (h : Links w) (ho : w.devs o = some p) (hc : Linked w b c o) : c ∈ b.list p := by
  cases b <;>
    first
      | exact (h.child o p ho c).mpr hc
      | exact (h.source o p ho c).mpr hc

theorem Links.nodup (h : Links w) (ho : w.devs o = some p) : (b.list p).Nodup := by
  cases b <;>
    first
      | exact h.childNodup o p ho
      | exact h.sourceNodup o p ho

theorem exists_nextEntry {l : List DevId} (hc : c ∈ l) (hl : l.Nodup) :
    ∃ tmp, nextEntry c l = some tmp ∧ ∀ t, tmp = some t → t ∈ l ∧ t ≠ c := by
  induction l with
  | nil => cases hc
  | cons x l ih =>
    obtain ⟨hx, hl⟩ := List.nodup_cons.mp hl
    by_cases hxc : x = c
    · refine ⟨l.head?, by simp [nextEntry, hxc], fun t ht => ?_⟩
      have hmem := List.mem_of_mem_head? ht
      exact ⟨List.mem_cons_of_mem x hmem, fun he => hx (hxc ▸ he ▸ hmem)⟩
    · obtain ⟨tmp, hnext, htmp⟩ := ih ((List.mem_cons.mp hc).resolve_left (Ne.symm hxc)) hl
      exact ⟨tmp, by simp [nextEntry, hxc, hnext], fun t ht => ⟨List.mem_cons_of_mem x (htmp t ht).1, (htmp t ht).2⟩⟩

theorem runs_visit {tmp : Option DevId} (h : Inv w k) (hg : Guarded Frame.names (Frame.owe .held) k) (ho : 0 < Held k o)
    (ht : ∀ t, tmp = some t → Linked w b t o) : Runs (visit w b o tmp) k := by
  cases tmp with
  | none => exact ⟨w, [], rfl, h⟩
  | some t =>
    have hlinked := ht t rfl
    obtain ⟨p, hd, -⟩ := id hlinked
    simp only [visit, hd, Option.bind_eq_bind, Option.bind_some]
    by_cases hp : 0 < p.refcount
    · rw [if_pos hp]
      have hcall : Inv w (.callback :: k) := h.push hg (fun x m => by cases m <;> rfl) trivial (by simp [Frame.names])
      have hplaces := samePlaces_update (v := w.set t p.get) hd (sameLinks_get p) rfl rfl
      have hnext : (Frame.next b o t).Linked (w.set t p.get) := (hplaces.linked b t o).mpr hlinked
      have hlast : Guarded Frame.names (Frame.owe .held) (.next b o t :: k) := by
        have hheld : 0 < owed (Frame.owe .held) k o := ho
        refine ⟨?_, hg⟩
        simp [Frame.names, Frame.owe]
        omega
      rcases b.body_cases o t p with hnil | ⟨g, hone, hIs, hnames, howe, hglinked⟩
      · rw [hnil]
        refine ⟨_, _, rfl, hcall.local hd (sameLinks_get p) rfl rfl rfl rfl (fun _ _ => rfl) (fun x hx m => ?_)
          (fun y hy => hy.get hp fun m => ?_) ?_ (Ready.of_guarded hlast)⟩
        · cases m <;> simp [Frame.owe, hx]
        · cases m <;> simp [Frame.owe, one]
        · intro g hg
          rw [List.mem_singleton.mp hg]
          exact hnext
      · rw [hone]
        show Runs (some (w.set t p.get, [g, .next b o t])) k
        refine ⟨_, _, rfl, hcall.local hd (sameLinks_get p) rfl rfl rfl rfl (fun _ _ => rfl) (fun x hx m => ?_)
          (fun y hy => hy.get hp fun m => ?_) ?_ (Ready.of_guarded ⟨?_, hlast⟩)⟩
        · rw [owed_cons, howe]
          cases m <;> simp [Frame.owe, hx]
        · rw [owed_cons, howe]
          cases m <;> simp [Frame.owe, one]
        · intro g' hg'
          rcases List.mem_cons.mp hg' with rfl | hg'
          · exact hglinked _
          · rw [List.mem_singleton.mp hg']
            exact hnext
        · intro x hx
          rw [hnames, List.mem_singleton] at hx
          show 0 < Frame.owe .held g x + owed (Frame.owe .held) (.next b o t :: k) x
          rw [hx, owed_cons]
          simp [Frame.owe]
    · rw [if_neg hp]
      exact ⟨w, [], rfl, h⟩

theorem runs_start (h : Inv w (.start b o :: k)) : Runs (exec w (.start b o)) k := by
  obtain ⟨p, ho, hp⟩ := h.alive (d := o) (by simp [Frame.names])
  have hheld : 0 < Held k o := by
    simpa [Frame.owe] using h.held (d := o) (by simp [Frame.names]) (by simp [Frame.IsCall])
  simp only [exec, ho, Option.bind_eq_bind, Option.bind_some]
  refine runs_visit (h.pop fun x m => by cases m <;> rfl) h.guarded hheld fun t ht => ?_
  exact h.links.linked_of_mem ho (List.mem_of_mem_head? ht)

theorem Links.ne_of_linked (h : Links w) (hc : Linked w b c o) : o ≠ c := by
  obtain ⟨r, hr, hlink⟩ := hc
  cases b <;>
    first
      | exact (h.parent c r o hr hlink).1.ne
      | exact (h.target c r o hr hlink).1

theorem runs_next (h : Inv w (.next b o c :: k)) : Runs (exec w (.next b o c)) k := by
  obtain ⟨p, ho, hp⟩ := h.alive (d := o) (by simp [Frame.names])
  have hoc := h.links.ne_of_linked (h.linked _ List.mem_cons_self)
  have hheld : 0 < Held k o := by
    simpa [Frame.owe, hoc] using h.held (d := o) (by simp [Frame.names]) (by simp [Frame.IsCall])
  have hlinked : Linked w b c o := h.linked _ List.mem_cons_self
  obtain ⟨tmp, hnext, htmp⟩ := exists_nextEntry (h.links.mem_of_linked ho hlinked) (h.links.nodup ho)
  simp only [exec, ho, hnext, Option.bind_eq_bind, Option.bind_some]
  have hput : Inv w (.put c :: k) := by
    refine h.turn (l := [.put c]) (fun x m => ?_) (by simp [Frame.Linked]) (Ready.of_guarded ⟨?_, h.guarded⟩)
    · cases m <;> simp [Frame.owe]
    · simp [Frame.names, Frame.owe]
  refine runs_put hput ?_ (fun x hx => ?_) fun w' h' hplaces _ => ?_
  · cases tmp with
    | none => trivial
    | some t => exact ⟨h.links.linked_of_mem ho (htmp t rfl).1, (htmp t rfl).2⟩
  · rw [List.mem_singleton.mp hx]
    exact hheld
  · exact runs_visit h' h.guarded hheld fun t ht =>
      (hplaces.linked b t o).mpr (h.links.linked_of_mem ho (htmp t ht).1)

end Walks

end PerfProf.Device
