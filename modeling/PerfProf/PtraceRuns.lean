import PerfProf.PtraceFork

/-! Every event handled by ptrace.c keeps the counts and the two reports of a fork together, as
long as no fork is reported of a child that is gone. -/
namespace PerfProf.Ptrace
open RefTable

section Requests
variable {s s' : State} {p q c : Nat} {n m : PidNode}

/-- The counts are right, and every node is known for what it waits for. -/
structure Sound (s : State) : Prop where
  books : Books s.traced s
  settled : Settled (fun _ => True) s

@[simp]
theorem proc_setNode (s : State) (p : Nat) (n : PidNode) : (s.setNode p n).proc = s.proc := rfl

theorem Sound.call (h : Sound s) (l : Call) : Sound (s.call l) :=
  ⟨h.books.of_pidList rfl, h.settled.call l⟩

theorem traced_kill (s : State) (p q : Nat) :
    (s.setProc p (s.proc p).kill).traced q = s.traced q := by
  by_cases hq : q = p
  · unfold State.traced
    rw [hq, proc_setProc_self]
    cases s.proc p <;> simp [Proc.kill]
  · exact traced_congr (proc_setProc_of_ne s _ hq)

theorem Sound.kill (h : Sound s) (p : Nat) : Sound (s.setProc p (s.proc p).kill) := by
  refine ⟨Books.of_pidList (h.books.congr fun q _ _ => ?_) rfl, h.settled.kill p⟩
  exact (traced_kill s p q).symm

/-- Flags and devices of a node change. -/
theorem Sound.retouch (h : Sound s) (hp : s.node p = some n) (hi : m.initial = n.initial)
    (hpar : m.parent = n.parent) (hlink : m.initialLink = n.initialLink)
    (hcount : m.refcount = n.refcount)
    (hkilled : m.detach = true → m.workload = true → s.proc p = .dying ∨ s.proc p = .untraced) :
    Sound (s.setNode p m) :=
  ⟨h.books.setNode_same hp hpar hcount, h.settled.retouch hp hi hpar hlink hkilled⟩

/-- A node that is detached, and killed if it is a workload. -/
theorem Sound.flag (h : Sound s) (hp : s.node p = some n) (hi : m.initial = n.initial)
    (hpar : m.parent = n.parent) (hlink : m.initialLink = n.initialLink)
    (hcount : m.refcount = n.refcount) : Sound ((s.setNode p m).sigkill p) := by
  have hk : Sound ((s.setProc p (s.proc p).kill).setNode p m) := by
    refine (h.kill p).retouch hp hi hpar hlink hcount fun _ _ => ?_
    rw [proc_setProc_self]
    cases s.proc p <;> simp [Proc.kill]
  exact hk.call _

theorem detachInitial_sound (h : Sound s) (p : Nat) : Sound (s.detachInitial p) := by
  unfold State.detachInitial
  split
  · exact h
  · rename_i n hp
    dsimp only
    split
    · exact h.flag hp rfl rfl rfl rfl
    · rename_i hw
      exact h.retouch hp rfl rfl rfl rfl fun _ hw' => absurd hw' hw

theorem foldl_sound {α : Type} {f : State → α → State} (hf : ∀ s a, Sound s → Sound (f s a))
    (l : List α) (h : Sound s) : Sound (l.foldl f s) := by
  induction l generalizing s with
  | nil => exact h
  | cons a l ih => exact ih (hf s a h)

theorem detachLink_sound (dev : Nat) (h : Sound s) (p : Nat) : Sound (State.detachLink dev s p) := by
  unfold State.detachLink
  split
  · exact h
  · rename_i n hp
    dsimp only
    split
    · refine foldl_sound (fun _ q h => detachInitial_sound h q) _ ?_
      split
      · exact h.flag hp rfl rfl rfl rfl
      · rename_i hw
        refine Sound.call ?_ _
        exact h.retouch hp rfl rfl rfl rfl fun _ hw' => absurd hw' hw
    · exact h.retouch hp rfl rfl rfl rfl (h.settled.killed p n hp)

theorem detachDevs_sound (h : Sound s) (devs : List Nat) : Sound (s.detachDevs devs) :=
  foldl_sound (fun _ dev h => foldl_sound (fun _ p h => detachLink_sound dev h p) _ h) devs h

/-- A node is added for a process that is traced. -/
theorem Books.insert {x : Nat → Int} (h : Books x s) (hp : s.node p = none) (hm : m.parent = none)
    (hcount : m.refcount = 1) (hx : x p = 1) : Books x (s.setNode p m) := by
  have hzero : s.refs p = 0 := h.refs_eq_zero hp
  have htarget : s.pidList.target PidNode.parent p = none := by
    show (s.node p).bind PidNode.parent = none
    rw [hp]
    rfl
  have hrefs : ∀ r, (s.setNode p m).refs r = s.refs r := by
    intro r
    have hr := refs_setNode s p m r
    rw [htarget, hm] at hr
    simpa using hr
  refine ⟨fun q k hk => ?_, fun q k hk => ?_, fun q k r hk hr => ?_⟩
  · rw [hrefs]
    by_cases hq : q = p
    · rw [hq, node_setNode_self] at hk
      cases hk
      rw [hq, hzero, hcount, hx]
      rfl
    · exact h.count q k ((node_setNode_of_ne s m hq).symm.trans hk)
  · by_cases hq : q = p
    · rw [hq, node_setNode_self] at hk
      cases hk
      omega
    · exact h.pos q k ((node_setNode_of_ne s m hq).symm.trans hk)
  · by_cases hq : q = p
    · rw [hq, node_setNode_self] at hk
      cases hk
      rw [hm] at hr
      cases hr
    · obtain ⟨j, hj⟩ := h.points q k r ((node_setNode_of_ne s m hq).symm.trans hk) hr
      have hrp : r ≠ p := by
        rintro rfl
        rw [hp] at hj
        cases hj
      exact ⟨j, (node_setNode_of_ne s m hrp).trans hj⟩

theorem Settled.not_awaited {idle : Nat → Prop} (h : Settled idle s) (hf : s.proc p ≠ .fresh)
    (hs : s.proc p ≠ .stopped) (hd : s.proc p ≠ .dying) : ¬ Awaited s p := by
  rintro ⟨q, hq⟩
  rcases (h.forks q p hq).proc with h' | h' | h'
  · exact hf h'
  · exact hs h'
  · exact hd h'

/-- PTRACE_SEIZE succeeds. -/
theorem seize_sound (h : Sound s) (hp : s.node p = none) (hu : s.proc p = .untraced)
    (workload : Bool) : Sound ((s.setProc p .running).setNode p (State.nodeNew 2 workload)) := by
  have hself : (s.setProc p .running).proc p = .running := proc_setProc_self s p _
  have hfree : ¬ Awaited s p := by
    refine h.settled.not_awaited ?_ ?_ ?_ <;> rw [hu] <;> nofun
  have hrun : Settled (· ≠ p) (s.setProc p .running) := by
    refine h.settled.setProc (fun _ _ _ => trivial) (fun _ hne => absurd rfl hne)
      (fun hne => absurd rfl hne) (fun n hn => ?_) nofun (fun ha => absurd ha hfree)
    rw [hp] at hn
    cases hn
  constructor
  · refine Books.insert (Books.of_pidList (h.books.congr fun q n hn => ?_) rfl) hp rfl rfl ?_
    · have hq : q ≠ p := by
        rintro rfl
        rw [hp] at hn
        cases hn
      exact (traced_congr (proc_setProc_of_ne s _ hq)).symm
    · exact traced_eq_one (by rw [proc_setNode, hself]; nofun)
  · refine hrun.setNode (fun q _ hq => hq) (fun _ _ _ => rfl) (fun _ => .inl ?_) nofun fun ha => ?_
    · refine ⟨rfl, rfl, rfl, ?_, ?_⟩
      · rw [proc_setNode, hself]
        nofun
      · rw [proc_setNode, hself]
        nofun
    · refine absurd ha (hrun.not_awaited ?_ ?_ ?_) <;> rw [hself] <;> nofun

theorem attachThread_sound (dev : Nat) (workload : Bool) (seized : Nat → Bool) (h : Sound s)
    (p : Nat) : Sound (State.attachThread dev workload seized s p) := by
  unfold State.attachThread
  extract_lets t
  have ht : Sound t := by
    unfold t
    split
    · exact h
    · rename_i hp
      split
      · rename_i hu
        exact seize_sound h hp hu.1 workload
      · exact h
  split
  · exact ht
  · rename_i n hn
    exact ht.retouch hn rfl rfl rfl rfl (by simp)

theorem ptraceAttach_sound (h : Sound s) (dev : Nat) (workload : Bool) (seized : Nat → Bool)
    (threads : List Nat) : Sound (s.ptraceAttach dev workload seized threads) :=
  foldl_sound (fun _ p h => attachThread_sound dev workload seized h p) threads h

end Requests

section Kernel
variable {s s' : State} {idle : Nat → Prop} {p q c : Nat} {n m : PidNode}

theorem Proc.reap_eq {proc proc' : Proc} (p : Nat) (h : ∀ c r, proc' ≠ .forking c r) :
    proc.reap p = proc' ↔ proc = proc' := by
  cases proc with
  | forking c r =>
    constructor
    · intro he
      exact absurd he.symm (h c _)
    · intro he
      exact absurd he.symm (h c r)
  | _ => rfl

theorem Proc.reap_forking {proc : Proc} (h : proc.reap p = .forking c false) :
    proc = .forking c false ∧ c ≠ p := by
  cases proc with
  | forking d r =>
    simp only [Proc.reap, Proc.forking.injEq, Bool.or_eq_false_iff, beq_eq_false_iff_ne] at h
    obtain ⟨rfl, rfl, hne⟩ := h
    exact ⟨rfl, hne⟩
  | _ => cases h

/-- A parent whose report is still to come learns nothing of the exit. -/
theorem Settled.reap (h : Settled idle s) (p : Nat) :
    Settled idle { s with proc := fun q => (s.proc q).reap p } := by
  have huntraced : ∀ q, (s.proc q).reap p = .untraced ↔ s.proc q = .untraced := fun q =>
    Proc.reap_eq p nofun
  have hfresh : ∀ q, (s.proc q).reap p = .fresh ↔ s.proc q = .fresh := fun q =>
    Proc.reap_eq p nofun
  have hstopped : ∀ q, (s.proc q).reap p = .stopped ↔ s.proc q = .stopped := fun q =>
    Proc.reap_eq p nofun
  have hdying : ∀ q, (s.proc q).reap p = .dying ↔ s.proc q = .dying := fun q =>
    Proc.reap_eq p nofun
  refine ⟨fun q n hq hn => ?_, fun q hq hn => ?_, fun q n hn hd hw => ?_, fun q c hf => ?_,
    fun q r c hq hr => ?_⟩
  · rcases h.known q n hq hn with h' | h' | h'
    · refine .inl ⟨h'.initial, h'.parent, h'.link, ?_, ?_⟩
      · exact fun he => h'.fresh ((hfresh q).mp he)
      · exact fun he => h'.stopped ((hstopped q).mp he)
    · refine .inr (.inl ⟨h'.initial, ?_, h'.parent⟩)
      exact h'.proc.imp (hfresh q).mpr (hdying q).mpr
    · refine .inr (.inr ⟨h'.initial, h'.parent, h'.link, ?_⟩)
      exact h'.proc.imp (hstopped q).mpr (hdying q).mpr
  · exact (h.silent q hq hn).imp (huntraced q).mpr (Or.imp (hfresh q).mpr (hdying q).mpr)
  · exact (h.killed q n hn hd hw).imp (hdying q).mpr (huntraced q).mpr
  · have hw := h.forks q c (Proc.reap_forking hf).1
    refine ⟨?_, hw.node⟩
    exact hw.proc.imp (hfresh c).mpr (Or.imp (hstopped c).mpr (hdying c).mpr)
  · exact h.once q r c (Proc.reap_forking hq).1 (Proc.reap_forking hr).1

/-- A node is on its way to its first run: it is nobody's parent. -/
theorem Settled.refs_zero (h : Settled (fun _ => True) s) (hp : s.node p = some n)
    (hi : n.initial ≠ 2) : s.refs p = 0 := by
  by_contra hne
  obtain ⟨q, k, hk, hpar⟩ := Table.refs_pos_iff.mp (Nat.pos_of_ne_zero hne)
  rcases h.known q k trivial hk with h' | ⟨-, -, r, m, hr, -, hm, hm₂⟩ | h'
  · rw [h'.parent] at hpar
    cases hpar
  · rw [hr] at hpar
    cases hpar
    rw [hp] at hm
    cases hm
    exact hi hm₂
  · rw [h'.parent] at hpar
    cases hpar

theorem putPid_none (hp : s.node p = none) : s.putPid p = s := by
  unfold State.putPid
  cases s.pidList.keys.length with
  | zero => rfl
  | succ fuel =>
    unfold State.putPidFuel
    rw [hp]

/-- The exit of a process is reported. -/
theorem exited_sound (h : Sound s) (hp : s.proc p ≠ .untraced)
    (hs : s' = State.setProc { s with proc := fun q => (s.proc q).reap p } p .untraced) :
    Sound (s'.exited p) := by
  have hself : s'.proc p = .untraced := by
    rw [hs]
    exact proc_setProc_self ..
  have hlist : s'.pidList = s.pidList := by
    rw [hs]
    rfl
  have htraced : ∀ q, q ≠ p → s'.traced q = s.traced q := by
    intro q hq
    have hproc : s'.proc q = (s.proc q).reap p := by
      rw [hs]
      exact proc_setProc_of_ne _ _ hq
    unfold State.traced
    rw [hproc]
    have hiff : (s.proc q).reap p = .untraced ↔ s.proc q = .untraced := Proc.reap_eq p (by simp)
    simp only [hiff]
  have hsettled : Settled (· ≠ p) s' := by
    rw [hs]
    refine (h.settled.reap p).setProc (fun _ _ _ => trivial) (fun _ hne => absurd rfl hne)
      (fun hne => absurd rfl hne) (fun _ _ _ _ => .inr rfl) (by simp) ?_
    rintro ⟨q, hq⟩
    exact absurd rfl (Proc.reap_forking hq).2
  cases hnode : s.node p with
  | none =>
    have hnode' : s'.node p = none := by
      unfold State.node
      rw [hlist]
      exact hnode
    rw [State.exited, putPid_none hnode']
    constructor
    · refine Books.of_pidList (h.books.congr fun q k hk => ?_) hlist
      refine (htraced q ?_).symm
      rintro rfl
      rw [hnode] at hk
      cases hk
    · refine (hsettled.rest (fun k hk => ?_) fun _ => .inl hself).all
      rw [hnode'] at hk
      cases hk
  | some n =>
    have hnode' : s'.node p = some n := by
      unfold State.node
      rw [hlist]
      exact hnode
    have hb : Books (oneMore s'.traced p) s' := by
      refine Books.of_pidList (h.books.congr fun q k hk => ?_) hlist
      by_cases hq : q = p
      · rw [hq, oneMore, if_pos rfl, traced_eq_one hp, State.traced, if_pos hself]
        rfl
      · rw [oneMore, if_neg hq, htraced q hq, Int.add_zero]
    obtain ⟨hbooks, hshrinks⟩ := hb.putPid (traced_nonneg s') hnode'
    rw [State.exited]
    have hproc' : ∀ q, (s'.putPid p).proc q = s'.proc q := congrFun hshrinks.proc
    constructor
    · exact hbooks.congr fun q _ _ => (traced_congr (hproc' q)).symm
    · have hrest := hsettled.shrinks hshrinks hbooks fun q k _ hk hgone =>
        .inl (untraced_of_traced (hshrinks.gone q k hk hgone))
      refine (hrest.rest (fun k hk => ?_) fun _ => .inl ((hproc' p).trans hself)).all
      obtain ⟨k₀, hk₀, he⟩ := hshrinks.kept p k hk
      rw [hnode'] at hk₀
      cases hk₀
      by_cases hi : n.initial = 2
      · rcases h.settled.known p n trivial hnode with h' | h' | h'
        · rw [he]
          refine .inl ⟨h'.initial, h'.parent, h'.link, ?_, ?_⟩
          · rw [hproc', hself]
            simp
          · rw [hproc', hself]
            simp
        · rw [h'.initial] at hi
          cases hi
        · rw [h'.initial] at hi
          cases hi
      -- a child that dies early is nobody's parent: it cannot be left
      · have hzero : s'.refs p = 0 := by
          unfold State.refs
          rw [hlist]
          exact h.settled.refs_zero hnode hi
        have hcount := hbooks.count p k hk
        have hpos := hbooks.pos p k hk
        rw [hshrinks.refs_zero hzero, State.traced, if_pos hself] at hcount
        omega

/-- A process that runs comes to the stop of a fork. -/
theorem Settled.forking (h : Settled idle s) (hp : s.proc p = .running) (hc : s.proc c = .fresh)
    (hnode : s.node c = none) (hfree : ¬ Awaited s c) :
    Settled idle (s.setProc p (.forking c false)) := by
  have hpc : c ≠ p := by
    rintro rfl
    rw [hp] at hc
    cases hc
  have hself : (s.setProc p (.forking c false)).proc p = .forking c false := proc_setProc_self ..
  have hfork : ∀ q d, (s.setProc p (.forking c false)).proc q = .forking d false →
      (q = p ∧ d = c) ∨ (q ≠ p ∧ s.proc q = .forking d false) := by
    intro q d hq
    by_cases hqp : q = p
    · rw [hqp, hself] at hq
      cases hq
      exact .inl ⟨hqp, rfl⟩
    · exact .inr ⟨hqp, (proc_setProc_of_ne s _ hqp).symm.trans hq⟩
  refine ⟨fun q n hq hn => ?_, fun q hq hn => ?_, fun q n hn hd hw => ?_, fun q d hf => ?_,
    fun q r d hq hr => ?_⟩
  · by_cases hqp : q = p
    · subst hqp
      rcases h.known q n hq hn with h' | h' | h'
      · exact .inl ⟨h'.initial, h'.parent, h'.link, by rw [hself]; nofun, by rw [hself]; nofun⟩
      · have hno := h'.proc
        rw [hp] at hno
        simp at hno
      · have hno := h'.proc
        rw [hp] at hno
        simp at hno
    · exact (h.known q n hq hn).congr (proc_setProc_of_ne s _ hqp) (fun r j _ hj => ⟨j, hj, id⟩)
        rfl rfl rfl
  · by_cases hqp : q = p
    · have hno := h.silent q hq hn
      rw [hqp, hp] at hno
      simp [Proc.Silent] at hno
    · rw [proc_setProc_of_ne s _ hqp]
      exact h.silent q hq hn
  · by_cases hqp : q = p
    · have hno := h.killed q n hn hd hw
      rw [hqp, hp] at hno
      simp at hno
    · rw [proc_setProc_of_ne s _ hqp]
      exact h.killed q n hn hd hw
  · rcases hfork q d hf with ⟨-, rfl⟩ | ⟨-, hold⟩
    · refine ⟨.inl ((proc_setProc_of_ne s _ hpc).trans hc), fun n hn => ?_⟩
      have hn' : s.node d = some n := hn
      rw [hnode] at hn'
      cases hn'
    · obtain ⟨hd, hn⟩ := h.forks q d hold
      have hdp : d ≠ p := by
        rintro rfl
        rw [hp] at hd
        simp at hd
      exact ⟨by rw [proc_setProc_of_ne s _ hdp]; exact hd, hn⟩
  · rcases hfork q d hq with ⟨rfl, rfl⟩ | ⟨-, hold⟩
    · rcases hfork r d hr with ⟨rfl, -⟩ | ⟨-, hold'⟩
      · rfl
      · exact absurd ⟨r, hold'⟩ hfree
    · rcases hfork r d hr with ⟨-, rfl⟩ | ⟨-, hold'⟩
      · exact absurd ⟨q, hold⟩ hfree
      · exact h.once q r d hold hold'

/-- A process forks; the pid of the child is no node's. -/
theorem fork_sound (h : Sound s) (hp : s.proc p = .running) (hc : s.proc c = .untraced)
    (hnode : s.node c = none) :
    Sound ((s.setProc p (.forking c false)).setProc c .fresh) := by
  have hpc : p ≠ c := by
    rintro rfl
    rw [hp] at hc
    cases hc
  have hfree : ¬ Awaited s c := by
    refine h.settled.not_awaited ?_ ?_ ?_ <;> rw [hc] <;> nofun
  -- the child first: it is expected only when its parent has come to the stop
  have hchild : Settled (fun _ => True) (s.setProc c .fresh) := by
    refine h.settled.setProc (fun _ _ _ => trivial) (fun n _ hn => ?_) (fun _ _ => .inr (.inl rfl))
      (fun n hn => ?_) nofun (fun _ => .inl rfl)
    · rw [hnode] at hn
      cases hn
    · rw [hnode] at hn
      cases hn
  have hcp : c ≠ p := hpc.symm
  have hprocp : (s.setProc c .fresh).proc p = .running := by
    rw [proc_setProc_of_ne s _ hpc]
    exact hp
  have hprocc : (s.setProc c .fresh).proc c = .fresh := proc_setProc_self s c _
  have hcomm : (s.setProc p (.forking c false)).setProc c .fresh =
      (s.setProc c .fresh).setProc p (.forking c false) := by
    unfold State.setProc
    rw [Function.update_comm hpc]
  have hfree' : ¬ Awaited (s.setProc c .fresh) c := by
    rintro ⟨q, hq⟩
    by_cases hqc : q = c
    · rw [hqc, hprocc] at hq
      cases hq
    · exact hfree ⟨q, (proc_setProc_of_ne s _ hqc).symm.trans hq⟩
  rw [hcomm]
  constructor
  · refine Books.of_pidList (h.books.congr fun q k hk => ?_) rfl
    have hqc : q ≠ c := by
      rintro rfl
      rw [hnode] at hk
      cases hk
    by_cases hqp : q = p
    · rw [hqp, traced_eq_one (by rw [hp]; nofun), traced_eq_one]
      rw [proc_setProc_self]
      nofun
    · refine (traced_congr ?_).symm
      rw [proc_setProc_of_ne _ _ hqp, proc_setProc_of_ne _ _ hqc]
  · exact hchild.forking hprocp hprocc hnode hfree'

end Kernel

section Reports
variable {s s' : State} {p q c : Nat} {n m : PidNode} {killed : Bool} {clone : Nat → Option Nat}

theorem reported_eq (killed : Bool) : reported killed = .stopped ∨ reported killed = .dying := by
  cases killed
  · exact .inl rfl
  · exact .inr rfl

/-- waitpid has returned the stop of a process. -/
theorem reported_sound (h : Sound s) (hu : s.proc p ≠ .untraced) (hd : s.proc p ≠ .dying)
    (killed : Bool) :
    Books (s.setProc p (reported killed)).traced (s.setProc p (reported killed)) ∧
      Settled (· ≠ p) (s.setProc p (reported killed)) := by
  constructor
  · refine Books.of_pidList (h.books.congr fun q _ _ => ?_) rfl
    by_cases hq : q = p
    · rw [hq, traced_eq_one hu, traced_eq_one]
      rw [proc_setProc_self]
      rcases reported_eq killed with h' | h' <;> rw [h'] <;> nofun
    · exact (traced_congr (proc_setProc_of_ne s _ hq)).symm
  · refine h.settled.setProc (fun _ _ _ => trivial) (fun _ hne => absurd rfl hne)
      (fun hne => absurd rfl hne) (fun n hn hdet hw => ?_) (fun c hc => ?_) fun _ => .inr ?_
    · exact absurd (h.settled.killed p n hn hdet hw) (not_or.mpr ⟨hd, hu⟩)
    · rcases reported_eq killed with h' | h' <;> rw [h'] at hc <;> cases hc
    · exact reported_eq killed

/-- Nobody waits for a process whose stop is being handled unless somebody did before. -/
theorem not_awaited_reported (hfree : ¬ Awaited s p) :
    ¬ Awaited (s.setProc q (reported killed)) p := by
  rintro ⟨r, hr⟩
  by_cases hrq : r = q
  · rw [hrq, proc_setProc_self] at hr
    rcases reported_eq killed with h' | h' <;> rw [h'] at hr <;> cases hr
  · exact hfree ⟨r, (proc_setProc_of_ne s _ hrq).symm.trans hr⟩

theorem setNode_setNode (s : State) (p : Nat) (n m : PidNode) :
    (s.setNode p n).setNode p m = s.setNode p m := by
  unfold State.setNode
  rw [Table.put_put]

theorem newOrInterrupt_none (hp : s.node p = none) :
    s.newOrInterrupt p clone =
      s.setNode p { State.nodeNew 0 false with initial := 1 } := by
  unfold State.newOrInterrupt State.newFindPid
  rw [hp]
  exact setNode_setNode ..

theorem newOrInterrupt_started (hp : s.node p = some n) (hi : n.initial = 2)
    (hpar : n.parent = none) :
    s.newOrInterrupt p clone = if n.detach then s.detach p n.workload else s.cont p := by
  unfold State.newOrInterrupt State.newFindPid
  simp only [hp, hpar, hi, if_true]

theorem newOrInterrupt_announced (hp : s.node p = some n) (hi : n.initial = 1)
    (hpar : n.parent = some q) :
    s.newOrInterrupt p clone =
      ((if (s.node q).map PidNode.detach = some n.detach then s
        else s.bug .detachNotEqual).setNode p { n with initial := 2 }).forkNew p
          { n with initial := 2 } clone := by
  unfold State.newOrInterrupt State.newFindPid
  simp [hp, hpar, hi]

/-- The first stop of a process, before its parent reports the fork. -/
theorem arrived_sound (hb : Books s.traced s) (h : Settled (· ≠ p) s)
    (hproc : s.proc p = .stopped ∨ s.proc p = .dying) (hp : s.node p = none) :
    Sound (s.setNode p { State.nodeNew 0 false with initial := 1 }) := by
  have hlive : s.traced p = 1 := by
    refine traced_eq_one ?_
    rcases hproc with h' | h' <;> rw [h'] <;> nofun
  refine ⟨hb.insert hp rfl rfl hlive, ?_⟩
  refine h.setNode (fun _ _ hq => hq) (fun n hn => ?_) (fun _ => ?_) nofun fun _ => ⟨rfl, rfl⟩
  · rw [hp] at hn
    cases hn
  · exact .inr (.inr ⟨rfl, rfl, rfl, hproc⟩)

/-- A process that was attached stops; it is let go of if it has been detached. -/
theorem interrupt_sound (hb : Books s.traced s) (h : Settled (· ≠ p) s)
    (hproc : s.proc p = reported killed) (hp : s.node p = some n) (hi : n.initial = 2)
    (hpar : n.parent = none) (hlink : n.initialLink = none) (hfree : ¬ Awaited s p)
    (hkilled : n.detach = true → n.workload = false)
    (hlast : n.detach = true → killed = true → s.refs p = 0) :
    Sound (if n.detach then s.detach p n.workload else s.cont p) := by
  have hstop : s.proc p = .stopped ∨ s.proc p = .dying := hproc ▸ reported_eq killed
  have hb₀ : Books (fun q => s.traced q + 0) s := by simpa using hb
  cases hd : n.detach with
  | false =>
    obtain ⟨hb', h'⟩ := cont_started hb₀ h (fun hne => hne rfl) hp hi hpar hlink hstop hfree
    exact ⟨by simpa using hb', h'.all⟩
  | true =>
    rw [hkilled hd]
    cases hk : killed with
    | true =>
      obtain ⟨hb', h'⟩ := detach_last hb h hp (hlast hd hk) hstop hfree
      exact ⟨hb', h'⟩
    | false =>
      obtain ⟨hb', h', -⟩ := detach_stopped hb₀ (fun _ => Int.le_refl 0) h (fun hne => hne rfl) hp hi
        hpar hlink (by rw [hproc, hk]; rfl) hfree
      exact ⟨by simpa using hb', h'.all⟩

/-- The second report of a child. -/
theorem announced_sound (hb : Books s.traced s) (h : Settled (· ≠ p) s) (hp : s.node p = some n)
    (hpar : n.parent = some q) (hproc : s.proc p = .stopped ∨ s.proc p = .dying)
    (hfree : ¬ Awaited s p) (hrefs : s.refs p = 0)
    (hkilled : n.detach = true → n.workload = false)
    (hdevs : ∀ m, n.workload = true → n.detach = false → s.node q = some m →
      State.cloned clone m.devList ++ n.devList ≠ []) {k : PidNode}
    (hk : k = { n with initial := 2 }) : Sound ((s.setNode p k).forkNew p k clone) := by
  have hqp : q ≠ p := fun he => refs_zero hrefs hp (he ▸ hpar)
  have hb₁ : Books s.traced (s.setNode p k) := hb.setNode_same hp (by rw [hk]) (by rw [hk])
  have h₁ : Settled (· ≠ p) (s.setNode p k) := by
    refine h.setNode (fun _ _ hq => hq) (fun _ _ _ => by rw [hk]) (fun hne => absurd rfl hne)
      (fun hd hw => ?_) (fun ha => absurd ha hfree)
    rw [hk] at hd hw
    exact h.killed p n hp hd hw
  have hrefs₁ : (s.setNode p k).refs p = 0 := by
    rw [refs_setNode_same hp (by rw [hk])]
    exact hrefs
  obtain ⟨hb', h'⟩ := forkNew_sound hb₁ h₁ (node_setNode_self s p k) (by rw [hk])
    hproc hfree hrefs₁ (by rw [hk]; exact hpar) (by rw [hk]; exact hkilled) (fun m hw hd hm => by
      rw [hk] at hw hd ⊢
      rw [node_setNode_of_ne s k hqp] at hm
      exact hdevs m hw hd hm)
  exact ⟨hb', h'⟩

theorem stopEvent_sound (h : Sound s) (hp : s.proc p = .fresh ∨ s.proc p = .running)
    (hlast : ∀ n, s.node p = some n → n.initial = 2 → n.detach = true → killed = true →
      s.refs p = 0)
    (hdevs : ∀ n q m, s.node p = some n → n.parent = some q → n.workload = true →
      n.detach = false → s.node q = some m → State.cloned clone m.devList ++ n.devList ≠ []) :
    Sound ((s.setProc p (reported killed)).newOrInterrupt p clone) := by
  have hu : s.proc p ≠ .untraced := by rcases hp with h' | h' <;> rw [h'] <;> nofun
  have hd : s.proc p ≠ .dying := by rcases hp with h' | h' <;> rw [h'] <;> nofun
  obtain ⟨hb₀, h₀⟩ := reported_sound h hu hd killed
  have hself := proc_setProc_self s p (reported killed)
  have hstop : (s.setProc p (reported killed)).proc p = .stopped ∨
      (s.setProc p (reported killed)).proc p = .dying := by
    rw [hself]
    exact reported_eq killed
  cases hn : s.node p with
  | none =>
    have hn₀ : (s.setProc p (reported killed)).node p = none := hn
    rw [newOrInterrupt_none hn₀]
    exact arrived_sound hb₀ h₀ hstop hn
  | some n =>
    have hn₀ : (s.setProc p (reported killed)).node p = some n := hn
    have hkilled : n.detach = true → n.workload = false := by
      intro hdet
      refine Bool.eq_false_iff.mpr fun hw => ?_
      rcases h.settled.killed p n hn hdet hw with h' | h'
      · exact hd h'
      · exact hu h'
    rcases h.settled.known p n trivial hn with h' | h' | h'
    · rw [newOrInterrupt_started hn₀ h'.initial h'.parent]
      have hrun : s.proc p = .running := hp.resolve_left h'.fresh
      have hfree : ¬ Awaited s p := by
        refine h.settled.not_awaited ?_ ?_ ?_ <;> rw [hrun] <;> nofun
      exact interrupt_sound hb₀ h₀ hself hn₀ h'.initial h'.parent h'.link
        (not_awaited_reported hfree) hkilled (hlast n hn h'.initial)
    · obtain ⟨hi, -, q, m, hpar, -, hm, -⟩ := h'
      rw [newOrInterrupt_announced hn₀ hi hpar]
      have hfree : ¬ Awaited s p := by
        rintro ⟨r, hr⟩
        rw [((h.settled.forks r p hr).node n hn).2] at hpar
        cases hpar
      have hrefs : s.refs p = 0 := h.settled.refs_zero hn (by rw [hi]; nofun)
      have hfree₀ : ¬ Awaited (s.setProc p (reported killed)) p := not_awaited_reported hfree
      split
      · exact announced_sound hb₀ h₀ hn₀ hpar hstop hfree₀ hrefs hkilled
          (fun m hw hdet hm => hdevs n q m hn hpar hw hdet hm) rfl
      · have h₁ : Settled (· ≠ p) ((s.setProc p (reported killed)).bug .detachNotEqual) :=
          h₀.call _
        have hb₁ : Books ((s.setProc p (reported killed)).bug .detachNotEqual).traced
            ((s.setProc p (reported killed)).bug .detachNotEqual) := hb₀.of_pidList rfl
        exact announced_sound hb₁ h₁ hn₀ hpar hstop hfree₀ hrefs hkilled
          (fun m hw hdet hm => hdevs n q m hn hpar hw hdet hm) rfl
    · have hno := h'.proc
      rcases hp with hp | hp <;> rw [hp] at hno <;> simp at hno

/-- What `__fork` does with the parent. -/
theorem forkParent_spec {e : Nat → Int} {idle : Nat → Prop}
    (hb : Books (fun q => s.traced q + e q) s) (he : ∀ q, 0 ≤ e q) (h : Settled idle s)
    (hidle : ¬ idle p) (hp : s.node p = some m) (hi : m.initial = 2) (hpar : m.parent = none)
    (hlink : m.initialLink = none) (hproc : s.proc p = reported killed) (hfree : ¬ Awaited s p)
    (hdetach : n.detach = true → killed = false ∧ n.workload = false) :
    Books (fun q => (s.forkParent p (some n)).traced q + e q) (s.forkParent p (some n)) ∧
      Settled (fun q => q = p ∨ idle q) (s.forkParent p (some n)) ∧
      ∃ t, t.pidList = s.pidList ∧ (∀ r, r ≠ p → t.proc r = s.proc r) ∧
        (∀ c, t.proc p ≠ .forking c false) ∧
        Shrinks (fun q => (s.forkParent p (some n)).traced q + e q) t (s.forkParent p (some n)) := by
  have hstop : s.proc p = .stopped ∨ s.proc p = .dying := hproc ▸ reported_eq killed
  cases hd : n.detach with
  | true =>
    obtain ⟨hk, hw⟩ := hdetach hd
    have heq : s.forkParent p (some n) = s.detach p false := by
      simp [State.forkParent, hd, hw]
    have hproc' : s.proc p = .stopped := by rw [hproc, hk]; rfl
    obtain ⟨hb', h', hs⟩ := detach_stopped hb he h hidle hp hi hpar hlink hproc' hfree
    rw [heq]
    refine ⟨hb', h', s.ptraceDetach p, rfl, fun r hr => ptraceDetach_of_ne s hr, fun c => ?_, hs⟩
    show (s.setProc p _).proc p ≠ _
    rw [proc_setProc_self, hproc']
    nofun
  | false =>
    have heq : s.forkParent p (some n) = s.cont p := by
      simp [State.forkParent, hd]
    obtain ⟨hb', h'⟩ := cont_started hb h hidle hp hi hpar hlink hstop hfree
    rw [heq]
    refine ⟨hb', h', s.cont p, rfl, fun r hr => proc_setProc_of_ne s _ hr, fun c => ?_,
      Shrinks.refl _ _⟩
    show (s.setProc p _).proc p ≠ _
    rw [proc_setProc_self]
    rcases Proc.cont_dying_or_running hstop with h' | h' <;> rw [h'] <;> nofun

/-- The node of the child when its fork is reported. -/
structure Found (s : State) (c : Nat) (k : PidNode) : Prop where
  node : s.node c = some k
  parent : k.parent = none
  waits : (k.initial = 0 ∧ (s.proc c = .fresh ∨ s.proc c = .dying)) ∨
    (k.initial = 1 ∧ (s.proc c = .stopped ∨ s.proc c = .dying))
  refs : s.refs c = 0

theorem Found.traced {k : PidNode} (h : Found s c k) : s.proc c ≠ .untraced := by
  rcases h.waits with ⟨-, h' | h'⟩ | ⟨-, h' | h'⟩ <;> rw [h'] <;> nofun

/-- `new_find_pid` for the child of a fork that is reported. -/
theorem newFindPid_spec {x : Nat → Int} (hb : Books x s) (h : Settled (· ≠ p) s) (hcp : c ≠ p)
    (hx : x c = 1) (hfree : ¬ Awaited s c)
    (hproc : s.proc c = .fresh ∨ s.proc c = .stopped ∨ s.proc c = .dying)
    (hnode : ∀ k, s.node c = some k → k.initial = 1 ∧ k.parent = none)
    (hrefs : ∀ k, s.node c = some k → s.refs c = 0) :
    ∃ k, Found (s.newFindPid c).1 c k ∧ (k.initial = 1 → s.node c = some k) ∧
      Books x (s.newFindPid c).1 ∧ Settled (fun q => q ≠ p ∧ q ≠ c) (s.newFindPid c).1 ∧
      (s.newFindPid c).1.proc = s.proc ∧
      ∀ q, q ≠ c → (s.newFindPid c).1.node q = s.node q := by
  unfold State.newFindPid
  cases hc : s.node c with
  | some k =>
    obtain ⟨hi, hpar⟩ := hnode k hc
    have harrived : s.proc c = .stopped ∨ s.proc c = .dying := by
      rcases h.known c k hcp hc with h' | ⟨-, -, q, m, hq, -⟩ | h'
      · rw [h'.initial] at hi
        cases hi
      · rw [hpar] at hq
        cases hq
      · exact h'.proc
    exact ⟨k, ⟨hc, hpar, .inr ⟨hi, harrived⟩, hrefs k hc⟩, fun _ => rfl, hb,
      h.weaken fun q hq => hq.1, rfl, fun _ _ => rfl⟩
  | none =>
    have hsilent : s.proc c = .fresh ∨ s.proc c = .dying := by
      rcases h.silent c hcp hc with h' | h' | h'
      · rw [h'] at hproc
        simp at hproc
      · exact .inl h'
      · exact .inr h'
    have hb₁ : Books x (s.setNode c (State.nodeNew 0 false)) := hb.insert hc rfl rfl hx
    have hzero : (s.setNode c (State.nodeNew 0 false)).refs c = 0 := by
      have hcount := hb₁.count c _ (node_setNode_self s c _)
      rw [hx] at hcount
      have hone : (State.nodeNew 0 false).refcount = 1 := rfl
      omega
    refine ⟨State.nodeNew 0 false, ⟨node_setNode_self s c _, rfl, .inl ⟨rfl, hsilent⟩, hzero⟩, nofun,
      hb₁, ?_, rfl, fun q hq => node_setNode_of_ne s _ hq⟩
    refine h.setNode (fun q hq _ => hq.1) (fun k hk => ?_) (fun hne => absurd rfl hne.2) nofun
      (fun ha => absurd ha hfree)
    rw [hc] at hk
    cases hk

/-- The node of the child once the fork is reported. -/
def forked (k n : PidNode) (p : Nat) : PidNode :=
  { k with
    detach := n.detach
    workload := n.workload
    parent := some p
    initialLink := some p
    initial := k.initial + 1 }

theorem fork_eq (hp : s.node p = some n) {s₁ s₂ s₃ : State}
    (h₁ : s₁ = s.setNode p { n with refcount := n.refcount + 1 })
    (h₂ : s₂ = (s₁.newFindPid c).1) (h₃ : s₃ = s₂.forkParent p (some n)) :
    s.fork p c clone = match s₃.node c with
      | none => s₃
      | some k => if (forked k n p).initial = 2 then
          (s₃.setNode c (forked k n p)).forkNew c (forked k n p) clone
        else s₃.setNode c (forked k n p) := by
  subst h₁ h₂ h₃
  unfold State.fork
  simp only [hp]
  rfl

/-- What `__fork` does with the child. -/
theorem forked_sound {k : PidNode} (hb : Books (oneMore s.traced p) s) (h : Settled (· ≠ c) s)
    (hpc : p ≠ c) (hp : s.node p = some m) (hi : m.initial = 2) (hc : Found s c k)
    (hfree : ¬ Awaited s c) (hkilled : n.detach = true → n.workload = false)
    (hdevs : k.initial = 1 → n.workload = true → n.detach = false →
      State.cloned clone m.devList ++ k.devList ≠ []) :
    Sound (if (forked k n p).initial = 2 then
      (s.setNode c (forked k n p)).forkNew c (forked k n p) clone
      else s.setNode c (forked k n p)) := by
  have hb₁ : Books s.traced (s.setNode c (forked k n p)) := by
    have hcount : (forked k n p).refcount = k.refcount := rfl
    refine (hb.relink hc.node hcount fun q hq => ?_).congr fun q _ _ => ?_
    · cases hq
      exact ⟨m, hp⟩
    · have hpar : (forked k n p).parent = some p := rfl
      simp [oneMore, hc.parent, hpar, eq_comm]
  have hp₁ : (s.setNode c (forked k n p)).node p = some m :=
    (node_setNode_of_ne s _ hpc).trans hp
  have hc₁ := node_setNode_self s c (forked k n p)
  have hrefs₁ : (s.setNode c (forked k n p)).refs c = 0 := by
    have hr := refs_setNode s c (forked k n p) c
    have hpar : (forked k n p).parent ≠ some c := fun he => hpc (Option.some.inj he)
    rw [if_neg hpar, hc.refs] at hr
    omega
  have h₁ : Settled (· ≠ c) (s.setNode c (forked k n p)) := by
    refine h.setNode (fun q _ hq => hq) (fun j hj hj₂ => ?_) (fun hne => absurd rfl hne)
      (fun hd hw => ?_) (fun ha => absurd ha hfree)
    · rw [hc.node] at hj
      cases hj
      rcases hc.waits with ⟨h', -⟩ | ⟨h', -⟩ <;> omega
    · have hw' : n.workload = true := hw
      rw [hkilled hd] at hw'
      cases hw'
  rcases hc.waits with ⟨h', hproc⟩ | ⟨h', hproc⟩
  · have hinitial : (forked k n p).initial = 1 := congrArg (· + 1) h'
    rw [if_neg (by rw [hinitial]; simp)]
    refine ⟨hb₁, (h₁.rest (fun j hj => ?_) fun hj => ?_).all⟩
    · rw [hc₁] at hj
      cases hj
      exact .inr (.inl ⟨hinitial, hproc, p, m, rfl, rfl, hp₁, hi⟩)
    · rw [hc₁] at hj
      cases hj
  · have hinitial : (forked k n p).initial = 2 := congrArg (· + 1) h'
    rw [if_pos hinitial]
    obtain ⟨hb', h''⟩ := forkNew_sound hb₁ h₁ hc₁ hinitial hproc hfree hrefs₁ rfl
      hkilled (fun j hw hd hj => by
        rw [hp₁] at hj
        cases hj
        exact hdevs h' hw hd)
    exact ⟨hb', h''⟩

theorem Shrinks.found {x : Nat → Int} {t : State} {k : PidNode} (h : Shrinks x t s')
    (hlist : t.pidList = s.pidList) (hproc : t.proc c = s.proc c) (hc : Found s c k)
    (hx : x c ≠ 0) : ∃ k', Found s' c k' ∧ k' = { k with refcount := k'.refcount } := by
  have hnode : t.node c = some k := by
    unfold State.node
    rw [hlist]
    exact hc.node
  have hrefs : t.refs c = 0 := by
    unfold State.refs
    rw [hlist]
    exact hc.refs
  cases hk' : s'.node c with
  | none => exact absurd (h.gone c k hnode hk') hx
  | some k' =>
    obtain ⟨k₀, hk₀, he⟩ := h.kept c k' hk'
    rw [hnode] at hk₀
    cases hk₀
    refine ⟨k', ⟨hk', ?_, ?_, h.refs_zero hrefs⟩, he⟩
    · rw [he]
      exact hc.parent
    · rw [he, h.proc, hproc]
      exact hc.waits

/-- `__fork`, when the parent has an attached node and the child is there. -/
theorem fork_handled (hb : Books s.traced s) (h : Settled (· ≠ p) s) (hn : s.node p = some n)
    (hi : n.initial = 2) (hpar : n.parent = none) (hlink : n.initialLink = none)
    (hself : s.proc p = reported killed) (hfree : ¬ Awaited s p) (hcp : c ≠ p)
    (hwaits : Waits s c) (hfreec : ¬ Awaited s c) (hrefs : ∀ k, s.node c = some k → s.refs c = 0)
    (hdetach : n.detach = true → killed = false ∧ n.workload = false)
    (hdevs : ∀ k, s.node c = some k → n.workload = true → n.detach = false →
      State.cloned clone n.devList ++ k.devList ≠ []) : Sound (s.fork p c clone) := by
  -- one more reference to the parent
  obtain ⟨n₁, hn₁⟩ : ∃ n₁, n₁ = { n with refcount := n.refcount + 1 } := ⟨_, rfl⟩
  obtain ⟨s₁, hs₁⟩ : ∃ s₁, s₁ = s.setNode p n₁ := ⟨_, rfl⟩
  have hproc₁ : s₁.proc = s.proc := by rw [hs₁]; rfl
  have hb₁ : Books (oneMore s.traced p) s₁ := by
    have hcount := hb.count p n hn
    have hpos := hb.pos p n hn
    rw [hs₁]
    refine hb.setNode hn (by rw [hn₁]) ?_ ?_ fun q hq => ?_
    · rw [hn₁]
      show 1 ≤ n.refcount + 1
      omega
    · rw [hn₁, oneMore, if_pos rfl]
      show n.refcount + 1 = _
      omega
    · rw [oneMore, if_neg hq, Int.add_zero]
  have h₁ : Settled (· ≠ p) s₁ := by
    rw [hs₁]
    refine h.retouch hn (by rw [hn₁]) (by rw [hn₁]) (by rw [hn₁]) ?_
    rw [hn₁]
    exact h.killed p n hn
  have hnode₁ : s₁.node c = s.node c := by
    rw [hs₁]
    exact node_setNode_of_ne s n₁ hcp
  have hrefs₁ : s₁.refs c = s.refs c := by
    rw [hs₁]
    exact refs_setNode_same hn (by rw [hn₁]) c
  -- the node of the child
  have hlive : oneMore s.traced p c = 1 := by
    rw [oneMore, if_neg hcp, traced_eq_one, Int.add_zero]
    rcases hwaits.proc with h' | h' | h' <;> rw [h'] <;> simp
  obtain ⟨k, hfound, hk, hb₂, h₂, hproc₂, hnode₂⟩ := newFindPid_spec (p := p) (c := c) hb₁ h₁ hcp
    hlive (by rintro ⟨q, hq⟩; exact hfreec ⟨q, hproc₁ ▸ hq⟩) (by rw [hproc₁]; exact hwaits.proc)
    (fun k hk => hwaits.node k (hnode₁.symm.trans hk))
    (fun k hk => hrefs₁.trans (hrefs k (hnode₁.symm.trans hk)))
  obtain ⟨s₂, hs₂⟩ : ∃ s₂, s₂ = (s₁.newFindPid c).1 := ⟨_, rfl⟩
  rw [← hs₂] at hfound hb₂ h₂ hproc₂ hnode₂
  have hproc₂' : s₂.proc = s.proc := hproc₂.trans hproc₁
  have hp₂ : s₂.node p = some n₁ := by
    rw [hnode₂ p hcp.symm, hs₁]
    exact node_setNode_self s p n₁
  -- the parent goes on or is let go of
  obtain ⟨hb₃, h₃, t, hlist, hother, hnot, hshrinks⟩ := forkParent_spec (n := n)
    (e := fun q => if q = p then 1 else 0)
    (hb₂.congr fun q _ _ => by rw [oneMore, traced_congr (congrFun hproc₂' q)])
    (fun q => by split <;> omega) h₂ (fun hne => hne.1 rfl) hp₂ (by rw [hn₁]; exact hi)
    (by rw [hn₁]; exact hpar) (by rw [hn₁]; exact hlink) (by rw [hproc₂']; exact hself)
    (by rintro ⟨q, hq⟩; exact hfree ⟨q, hproc₂' ▸ hq⟩) hdetach
  obtain ⟨s₃, hs₃⟩ : ∃ s₃, s₃ = s₂.forkParent p (some n) := ⟨_, rfl⟩
  rw [← hs₃] at hb₃ h₃ hshrinks
  have hproc₃ : ∀ q, q ≠ p → s₃.proc q = s₂.proc q := fun q hq =>
    (congrFun hshrinks.proc q).trans (hother q hq)
  obtain ⟨k', hfound', he⟩ := hshrinks.found hlist (hother c hcp) hfound (by
    rw [if_neg hcp, traced_eq_one (by rw [hproc₃ c hcp]; exact hfound.traced)]
    simp)
  obtain ⟨m, hm, hm'⟩ : ∃ m, s₃.node p = some m ∧ m = { n₁ with refcount := m.refcount } := by
    have hpt : t.node p = some n₁ := by
      unfold State.node
      rw [hlist]
      exact hp₂
    cases hm : s₃.node p with
    | none =>
      have hzero := hshrinks.gone p n₁ hpt hm
      have hnonneg := traced_nonneg s₃ p
      simp only [if_true] at hzero
      omega
    | some m =>
      obtain ⟨m₀, hm₀, he'⟩ := hshrinks.kept p m hm
      rw [hpt] at hm₀
      cases hm₀
      exact ⟨m, rfl, he'⟩
  have hfree₃ : ¬ Awaited s₃ c := by
    rintro ⟨q, hq⟩
    by_cases hqp : q = p
    · rw [hqp, hshrinks.proc] at hq
      exact hnot c hq
    · rw [hproc₃ q hqp, hproc₂'] at hq
      exact hfreec ⟨q, hq⟩
  have h₃' : Settled (· ≠ c) s₃ := h₃.weaken fun q hq => by
    by_cases hqp : q = p
    · exact .inl hqp
    · exact .inr ⟨hqp, hq⟩
  rw [fork_eq hn (by rw [hs₁, hn₁]) hs₂ hs₃, hfound'.node]
  refine forked_sound hb₃ h₃' hcp.symm hm (by rw [hm', hn₁]; exact hi) hfound' hfree₃
    (fun hd => (hdetach hd).2) fun hk₁ hw hd => ?_
  rw [he] at hk₁
  have hold := hdevs k (hnode₁.symm.trans (hk hk₁)) hw hd
  rw [hm', he, hn₁]
  exact hold

/-- A process that forks has been attached, or both of its own reports have come. -/
theorem Sound.forking_node {reaped : Bool} (h : Sound s) (hp : s.proc p = .forking c reaped) :
    ∃ n, s.node p = some n ∧ Started s p n := by
  cases hn : s.node p with
  | none =>
    have hno := h.settled.silent p trivial hn
    simp [Proc.Silent, hp] at hno
  | some n =>
    rcases h.settled.known p n trivial hn with h' | h' | h'
    · exact ⟨n, rfl, h'⟩
    · have hno := h'.proc
      simp [hp] at hno
    · have hno := h'.proc
      simp [hp] at hno

theorem forkEvent_sound (h : Sound s) (hp : s.proc p = .forking c false)
    (hdetach : ∀ n, s.node p = some n → n.detach = true → killed = false)
    (hdevs : ∀ n k, s.node p = some n → s.node c = some k → n.workload = true →
      n.detach = false → State.cloned clone n.devList ++ k.devList ≠ []) :
    Sound ((s.setProc p (reported killed)).fork p c clone) := by
  obtain ⟨hproc, hnode⟩ := h.settled.forks p c hp
  have hcp : c ≠ p := by
    rintro rfl
    rw [hp] at hproc
    simp at hproc
  obtain ⟨n, hn, hstarted⟩ := h.forking_node hp
  have hkilled : n.detach = true → killed = false ∧ n.workload = false := by
    intro hd
    refine ⟨hdetach n hn hd, Bool.eq_false_iff.mpr fun hw => ?_⟩
    have hno := h.settled.killed p n hn hd hw
    simp [hp] at hno
  obtain ⟨hb₀, h₀⟩ := reported_sound h (by rw [hp]; nofun) (by rw [hp]; nofun) killed
  have hother : ∀ q, q ≠ p → (s.setProc p (reported killed)).proc q = s.proc q := fun q hq =>
    proc_setProc_of_ne s _ hq
  have hself := proc_setProc_self s p (reported killed)
  refine fork_handled hb₀ h₀ hn hstarted.initial hstarted.parent hstarted.link hself ?_ hcp
    ⟨?_, hnode⟩ ?_ (fun k hk => ?_) hkilled (fun k hk => hdevs n k hn hk)
  · refine not_awaited_reported (h.settled.not_awaited ?_ ?_ ?_) <;> rw [hp] <;> nofun
  · rw [hother c hcp]
    exact hproc
  -- nobody but the parent has announced the child
  · rintro ⟨q, hq⟩
    by_cases hqp : q = p
    · rw [hqp, hself] at hq
      rcases reported_eq killed with h' | h' <;> rw [h'] at hq <;> cases hq
    · exact hqp (h.settled.once q p c ((hother q hqp).symm.trans hq) hp)
  · exact h.settled.refs_zero hk (by rw [(hnode k hk).1]; nofun)

end Reports

section Runs
variable {s s' : State} {a : Act}

theorem Reaches.run {ok : State → Act → Prop} (h : Reaches ok s) (hok : ∀ s a, ok s a)
    (acts : List Act) (hs : run acts s = some s') : Reaches ok s' := by
  induction acts generalizing s with
  | nil =>
    cases hs
    exact h
  | cons a acts ih =>
    obtain ⟨t, ht, hrun⟩ := Option.bind_eq_some_iff.mp hs
    exact ih (h.step (hok s a) ht) hrun

/-- The steps that go well. A pid is given again only when no node of it is left; no fork is
reported of a child whose exit has been; a process that is killed in the stop where it would be
detached is no node's parent; and a child of the workload gets a device. -/
def Orderly (s : State) : Act → Prop
  | .fork _ c => s.node c = none
  | .forkEvent p killed clone => ∀ c reaped, s.proc p = .forking c reaped →
    reaped = false ∧
    (∀ n, s.node p = some n → n.detach = true → killed = false) ∧
    ∀ n k, s.node p = some n → s.node c = some k → n.workload = true → n.detach = false →
      State.cloned clone n.devList ++ k.devList ≠ []
  | .stopEvent p killed clone =>
    (∀ n, s.node p = some n → n.initial = 2 → n.detach = true → killed = true → s.refs p = 0) ∧
    ∀ n q m, s.node p = some n → n.parent = some q → n.workload = true → n.detach = false →
      s.node q = some m → State.cloned clone m.devList ++ n.devList ≠ []
  | _ => True

/-- What is expected of `pid_list`. A node has one reference while its pid is traced and one from
each node whose parent it is; no node points to one that is gone; who stays in a stop waits for
the other report of its fork; and the list is empty when nothing is traced. -/
structure Balanced (s : State) : Prop where
  count : ∀ p n, s.node p = some n → n.refcount = s.traced p + s.refs p
  held : ∀ p n q, s.node p = some n → n.parent = some q → ∃ m, s.node q = some m
  handled : ∀ p, s.proc p = .stopped → ∃ n, s.node p = some n ∧ n.initial = 1
  done : (∀ p, s.proc p = .untraced) → s.detachDone = true

theorem Sound.init : Sound init := by
  have hnode : ∀ p, Ptrace.init.node p = none := fun _ => rfl
  constructor
  · refine ⟨fun p n hn => ?_, fun p n hn => ?_, fun p n q hn => ?_⟩ <;> rw [hnode] at hn <;> cases hn
  · refine ⟨fun p n _ hn => ?_, fun p _ _ => .inl rfl, fun p n hn => ?_, nofun, nofun⟩
    · rw [hnode] at hn
      cases hn
    · rw [hnode] at hn
      cases hn

theorem Sound.step (h : Sound s) (hok : Orderly s a) (hs : step s a = some s') : Sound s' := by
  cases a with
  | attach dev workload seized threads =>
    cases hs
    exact ptraceAttach_sound h dev workload seized threads
  | detach devs =>
    cases hs
    exact detachDevs_sound h devs
  | fork p c =>
    simp only [Ptrace.step] at hs
    split at hs
    · rename_i hp
      cases hs
      exact fork_sound h hp.1 hp.2 hok
    · cases hs
  | kill p =>
    cases hs
    exact h.kill p
  | forkEvent p killed clone =>
    simp only [Ptrace.step] at hs
    split at hs
    · rename_i c reaped hp
      cases hs
      obtain ⟨rfl, hdetach, hdevs⟩ := hok c reaped hp
      exact forkEvent_sound h hp hdetach hdevs
    · cases hs
  | stopEvent p killed clone =>
    simp only [Ptrace.step] at hs
    split at hs
    · rename_i hp
      cases hs
      exact stopEvent_sound h hp hok.1 hok.2
    · cases hs
  | exit p =>
    simp only [Ptrace.step] at hs
    split at hs
    · rename_i hp
      cases hs
      refine exited_sound h ?_ rfl
      rcases hp with h' | h' <;> rw [h'] <;> nofun
    · cases hs

theorem Reaches.sound (h : Reaches Orderly s) : Sound s := by
  induction h with
  | init => exact Sound.init
  | step _ hok hs ih => exact ih.step hok hs

theorem Sound.balanced (h : Sound s) : Balanced s := by
  refine ⟨fun p n hn => ?_, h.books.points, fun p hp => ?_, fun hall => ?_⟩
  · rw [h.books.count p n hn]
    omega
  · cases hn : s.node p with
    | none =>
      have hno := h.settled.silent p trivial hn
      simp [Proc.Silent, hp] at hno
    | some n =>
      rcases h.settled.known p n trivial hn with h' | h' | h'
      · exact absurd hp h'.stopped
      · exact ⟨n, rfl, h'.initial⟩
      · exact ⟨n, rfl, h'.initial⟩
  -- a node that is left is the parent of a child that is still traced
  · have hnone : ∀ p, s.pidList.val p = none := by
      intro p
      cases hn : s.node p with
      | none => exact hn
      | some n =>
        have hcount := h.books.count p n hn
        have hpos := h.books.pos p n hn
        rw [State.traced, if_pos (hall p)] at hcount
        have hrefs : 0 < s.refs p := by omega
        obtain ⟨q, k, hk, hpar⟩ := Table.refs_pos_iff.mp hrefs
        rcases h.settled.known q k trivial hk with h' | h' | h'
        · rw [h'.parent] at hpar
          cases hpar
        · have hno := h'.proc
          simp [hall q] at hno
        · rw [h'.parent] at hpar
          cases hpar
    rw [State.detachDone, Table.keys_eq_nil hnone]
    rfl

/-- In every run of such steps the counts of `pid_list` are right. -/
theorem counts_right (h : Reaches Orderly s) : Balanced s :=
  h.sound.balanced

/-- A child stops before its parent reports the fork, and the child exits. -/
theorem counts_right_forked : ∃ s, Reaches Orderly s ∧ Balanced s ∧ s.pidList.keys = [1] := by
  have hattach := (Reaches.init : Reaches Orderly init).step
    (a := .attach 9 false (fun _ => true) [1]) trivial rfl
  have hfork := hattach.step (a := .fork 1 2) rfl rfl
  have hstop := hfork.step (a := .stopEvent 2 false fun _ => some 10) ⟨nofun, nofun⟩ rfl
  have hevent := hstop.step (a := .forkEvent 1 false fun _ => some 10) (fun c reaped hp => by
    cases hp
    refine ⟨rfl, fun _ _ _ => rfl, fun n k hn _ hw => ?_⟩
    cases hn
    cases hw) rfl
  have hexit := hevent.step (a := .exit 2) trivial rfl
  exact ⟨_, hexit, counts_right hexit, rfl⟩

/-- A child is killed and its exit reported before its parent reports the fork: a node is made for
it that nothing removes. -/
theorem exited_child_left : ∃ s, Reaches (fun _ _ => True) s ∧ (∀ p, s.proc p = .untraced) ∧
    s.detachDone = false := by
  let acts : List Act := [.attach 9 false (fun _ => true) [1], .fork 1 2, .kill 2, .exit 2,
    .forkEvent 1 false fun _ => some 10, .exit 1]
  obtain ⟨s, hs⟩ : ∃ s, run acts init = some s := ⟨_, rfl⟩
  refine ⟨s, Reaches.init.run (fun _ _ => trivial) acts hs, fun p => ?_, ?_⟩
  · cases hs
    match p with
    | 0 | 1 | 2 => rfl
    | _+3 => rfl
  · cases hs
    rfl

end Runs

end PerfProf.Ptrace
