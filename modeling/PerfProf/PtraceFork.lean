import PerfProf.PtraceRefs

/-! The nodes of `pid_list` between two events: which report of a fork each of them waits for, and
that the handlers keep it so. -/
namespace PerfProf.Ptrace
open RefTable

section Settled
variable {s s' : State} {x y : Nat → Int} {idle idle' : Nat → Prop} {p q c : Nat} {n m : PidNode}

/-- Nothing is expected of a process whose node is gone but its first stop or its exit. -/
def Proc.Silent (proc : Proc) : Prop := proc = .untraced ∨ proc = .fresh ∨ proc = .dying

/-- Attached, or both reports have come. -/
structure Started (s : State) (p : Nat) (n : PidNode) : Prop where
  initial : n.initial = 2
  parent : n.parent = none
  link : n.initialLink = none
  fresh : s.proc p ≠ .fresh
  stopped : s.proc p ≠ .stopped

/-- The fork has been reported by the parent. -/
structure Announced (s : State) (p : Nat) (n : PidNode) : Prop where
  initial : n.initial = 1
  proc : s.proc p = .fresh ∨ s.proc p = .dying
  parent : ∃ q m, n.parent = some q ∧ n.initialLink = some q ∧ s.node q = some m ∧ m.initial = 2

/-- The child has stopped. -/
structure Arrived (s : State) (p : Nat) (n : PidNode) : Prop where
  initial : n.initial = 1
  parent : n.parent = none
  link : n.initialLink = none
  proc : s.proc p = .stopped ∨ s.proc p = .dying

def Known (s : State) (p : Nat) (n : PidNode) : Prop :=
  Started s p n ∨ Announced s p n ∨ Arrived s p n

/-- The parent stands in the stop that announces the child. -/
structure Waits (s : State) (c : Nat) : Prop where
  proc : s.proc c = .fresh ∨ s.proc c = .stopped ∨ s.proc c = .dying
  node : ∀ n, s.node c = some n → n.initial = 1 ∧ n.parent = none

def Awaited (s : State) (c : Nat) : Prop := ∃ p, s.proc p = .forking c false

/-- What the nodes and the processes have to do with each other; a node whose event is being
handled is not idle. -/
structure Settled (idle : Nat → Prop) (s : State) : Prop where
  known : ∀ p n, idle p → s.node p = some n → Known s p n
  silent : ∀ p, idle p → s.node p = none → (s.proc p).Silent
  killed : ∀ p n, s.node p = some n → n.detach = true → n.workload = true →
    s.proc p = .dying ∨ s.proc p = .untraced
  forks : ∀ p c, s.proc p = .forking c false → Waits s c
  once : ∀ p q c, s.proc p = .forking c false → s.proc q = .forking c false → p = q

theorem Known.congr (h : Known s p n) (hproc : s'.proc p = s.proc p)
    (hnode : ∀ q k, n.parent = some q → s.node q = some k →
      ∃ k', s'.node q = some k' ∧ (k.initial = 2 → k'.initial = 2))
    (hi : m.initial = n.initial) (hpar : m.parent = n.parent)
    (hlink : m.initialLink = n.initialLink) : Known s' p m := by
  rcases h with ⟨h₁, h₂, h₃, h₄, h₅⟩ | ⟨h₁, h₂, q, k, hq, hl, hk, hk₂⟩ | ⟨h₁, h₂, h₃, h₄⟩
  · exact .inl ⟨hi.trans h₁, hpar.trans h₂, hlink.trans h₃, hproc ▸ h₄, hproc ▸ h₅⟩
  · obtain ⟨k', hk', hi'⟩ := hnode q k hq hk
    exact .inr (.inl ⟨hi.trans h₁, hproc ▸ h₂, q, k', hpar.trans hq, hlink.trans hl, hk',
      hi' hk₂⟩)
  · exact .inr (.inr ⟨hi.trans h₁, hpar.trans h₂, hlink.trans h₃, hproc ▸ h₄⟩)

theorem Settled.weaken (h : Settled idle s) (hi : ∀ p, idle' p → idle p) : Settled idle' s :=
  ⟨fun p n hp => h.known p n (hi p hp), fun p hp => h.silent p (hi p hp), h.killed, h.forks, h.once⟩

/-- Only what is sent and printed has changed. -/
theorem Settled.call (h : Settled idle s) (l : Call) : Settled idle (s.call l) := by
  refine ⟨fun p n hp hn => ?_, h.silent, h.killed, fun p c hf => ?_, h.once⟩
  · exact (h.known p n hp hn).congr rfl (fun q k _ hk => ⟨k, hk, id⟩) rfl rfl rfl
  · exact ⟨(h.forks p c hf).proc, (h.forks p c hf).node⟩

/-- After `put_pid`. -/
theorem Settled.shrinks (h : Settled idle s) (hs : Shrinks x s s') (hb : Books y s')
    (hgone : ∀ p n, idle p → s.node p = some n → s'.node p = none → (s.proc p).Silent) :
    Settled idle s' := by
  have hproc : ∀ p, s'.proc p = s.proc p := fun p => congrFun hs.proc p
  refine ⟨fun p n' hp hn' => ?_, fun p hp hn' => ?_, fun p n' hn' hd hw => ?_, fun p c hf => ?_,
    fun p q c hpf hqf => ?_⟩
  · obtain ⟨n, hn, he⟩ := hs.kept p n' hn'
    refine (h.known p n hp hn).congr (hproc p) (fun q k hq hk => ?_) (by rw [he]) (by rw [he])
      (by rw [he])
    obtain ⟨k', hk'⟩ := hb.points p n' q hn' (by rw [he]; exact hq)
    obtain ⟨k₀, hk₀, he'⟩ := hs.kept q k' hk'
    rw [hk] at hk₀
    cases hk₀
    exact ⟨k', hk', fun hk₂ => by rw [he']; exact hk₂⟩
  · rw [hproc]
    cases hn : s.node p with
    | none => exact h.silent p hp hn
    | some n => exact hgone p n hp hn hn'
  · obtain ⟨n, hn, he⟩ := hs.kept p n' hn'
    rw [he] at hd hw
    rw [hproc]
    exact h.killed p n hn hd hw
  · rw [hproc] at hf
    obtain ⟨hc, hnode⟩ := h.forks p c hf
    refine ⟨by rw [hproc]; exact hc, fun n' hn' => ?_⟩
    obtain ⟨n, hn, he⟩ := hs.kept c n' hn'
    rw [he]
    exact hnode n hn
  · rw [hproc] at hpf hqf
    exact h.once p q c hpf hqf

/-- The node of a process that is handled is added or replaced. -/
theorem Settled.setNode (h : Settled idle s) (hidle : ∀ q, idle' q → q ≠ p → idle q)
    (hold : ∀ n, s.node p = some n → n.initial = 2 → m.initial = 2)
    (hknown : idle' p → Known (s.setNode p m) p m)
    (hkilled : m.detach = true → m.workload = true → s.proc p = .dying ∨ s.proc p = .untraced)
    (hwaits : Awaited s p → m.initial = 1 ∧ m.parent = none) :
    Settled idle' (s.setNode p m) := by
  refine ⟨fun q k hq hk => ?_, fun q hq hk => ?_, fun q k hk hd hw => ?_, fun q c hf => ?_, h.once⟩
  · by_cases hqp : q = p
    · subst hqp
      rw [node_setNode_self] at hk
      cases hk
      exact hknown hq
    · rw [node_setNode_of_ne s m hqp] at hk
      refine (h.known q k (hidle q hq hqp) hk).congr rfl (fun r j _ hj => ?_) rfl rfl rfl
      by_cases hr : r = p
      · exact ⟨m, hr ▸ node_setNode_self s p m, hold j (hr ▸ hj)⟩
      · exact ⟨j, (node_setNode_of_ne s m hr).trans hj, id⟩
  · by_cases hqp : q = p
    · rw [hqp, node_setNode_self] at hk
      cases hk
    · rw [node_setNode_of_ne s m hqp] at hk
      exact h.silent q (hidle q hq hqp) hk
  · by_cases hqp : q = p
    · rw [hqp, node_setNode_self] at hk
      cases hk
      exact hqp ▸ hkilled hd hw
    · rw [node_setNode_of_ne s m hqp] at hk
      exact h.killed q k hk hd hw
  · obtain ⟨hc, hnode⟩ := h.forks q c hf
    refine ⟨hc, fun k hk => ?_⟩
    by_cases hcp : c = p
    · subst hcp
      rw [node_setNode_self] at hk
      cases hk
      exact hwaits ⟨q, hf⟩
    · exact hnode k ((node_setNode_of_ne s m hcp).symm.trans hk)

theorem proc_setProc_self (s : State) (p : Nat) (proc : Proc) : (s.setProc p proc).proc p = proc :=
  Function.update_self ..

theorem proc_setProc_of_ne (s : State) (proc : Proc) (h : q ≠ p) :
    (s.setProc p proc).proc q = s.proc q :=
  Function.update_of_ne h ..

/-- A process leaves its state for one other than that of a fork. -/
theorem Settled.setProc {proc : Proc} (h : Settled idle s) (hidle : ∀ q, idle' q → q ≠ p → idle q)
    (hknown : ∀ n, idle' p → s.node p = some n → Known (s.setProc p proc) p n)
    (hsilent : idle' p → s.node p = none → proc.Silent)
    (hkilled : ∀ n, s.node p = some n → n.detach = true → n.workload = true →
      proc = .dying ∨ proc = .untraced)
    (hnot : ∀ c, proc ≠ .forking c false)
    (hwaits : Awaited s p → proc = .fresh ∨ proc = .stopped ∨ proc = .dying) :
    Settled idle' (s.setProc p proc) := by
  have hfork : ∀ q c, (s.setProc p proc).proc q = .forking c false →
      s.proc q = .forking c false := by
    intro q c hf
    by_cases hqp : q = p
    · rw [hqp, proc_setProc_self] at hf
      exact absurd hf (hnot c)
    · rwa [proc_setProc_of_ne s proc hqp] at hf
  refine ⟨fun q k hq hk => ?_, fun q hq hk => ?_, fun q k hk hd hw => ?_, fun q c hf => ?_,
    fun q r c hq hr => h.once q r c (hfork q c hq) (hfork r c hr)⟩
  · by_cases hqp : q = p
    · subst hqp
      exact hknown k hq hk
    · exact (h.known q k (hidle q hq hqp) hk).congr (proc_setProc_of_ne s proc hqp)
        (fun r j _ hj => ⟨j, hj, id⟩) rfl rfl rfl
  · by_cases hqp : q = p
    · subst hqp
      rw [proc_setProc_self]
      exact hsilent hq hk
    · rw [proc_setProc_of_ne s proc hqp]
      exact h.silent q (hidle q hq hqp) hk
  · by_cases hqp : q = p
    · subst hqp
      rw [proc_setProc_self]
      exact hkilled k hk hd hw
    · rw [proc_setProc_of_ne s proc hqp]
      exact h.killed q k hk hd hw
  · obtain ⟨hc, hnode⟩ := h.forks q c (hfork q c hf)
    refine ⟨?_, hnode⟩
    by_cases hcp : c = p
    · subst hcp
      rw [proc_setProc_self]
      exact hwaits ⟨q, hfork q c hf⟩
    · rw [proc_setProc_of_ne s proc hcp]
      exact hc

/-- SIGKILL comes at any time. -/
theorem Settled.kill (h : Settled idle s) (p : Nat) :
    Settled idle (s.setProc p (s.proc p).kill) := by
  by_cases hu : s.proc p = .untraced
  · have hsame : s.setProc p (s.proc p).kill = s := by
      rw [hu]
      show { s with proc := Function.update s.proc p .untraced } = s
      rw [← hu, Function.update_eq_self]
    rw [hsame]
    exact h
  · have hk : (s.proc p).kill = .dying := by
      cases hproc : s.proc p with
      | untraced => exact absurd hproc hu
      | _ => rfl
    rw [hk]
    refine h.setProc (fun q hq _ => hq) (fun n hp hn => ?_) (fun _ _ => .inr (.inr rfl))
      (fun _ _ _ _ => .inl rfl) nofun (fun _ => .inr (.inr rfl))
    have hd : (s.setProc p .dying).proc p = .dying := proc_setProc_self s p .dying
    rcases h.known p n hp hn with h' | h' | h'
    · exact .inl ⟨h'.initial, h'.parent, h'.link, by rw [hd]; nofun, by rw [hd]; nofun⟩
    · exact .inr (.inl ⟨h'.initial, .inr hd, h'.parent⟩)
    · exact .inr (.inr ⟨h'.initial, h'.parent, h'.link, .inr hd⟩)

/-- Flags and devices of a node change, under the condition for a workload that is detached. -/
theorem Settled.retouch (h : Settled idle s) (hp : s.node p = some n)
    (hi : m.initial = n.initial) (hpar : m.parent = n.parent)
    (hlink : m.initialLink = n.initialLink)
    (hkilled : m.detach = true → m.workload = true → s.proc p = .dying ∨ s.proc p = .untraced) :
    Settled idle (s.setNode p m) := by
  refine h.setNode (fun q hq _ => hq) (fun k hk hk₂ => ?_) (fun hidle => ?_) hkilled ?_
  · rw [hp] at hk
    cases hk
    exact hi.trans hk₂
  · refine (h.known p n hidle hp).congr rfl (fun q k _ hk => ?_) hi hpar hlink
    by_cases hq : q = p
    · rw [hq, hp] at hk
      cases hk
      exact ⟨m, hq ▸ node_setNode_self s p m, fun hk₂ => hi.trans hk₂⟩
    · exact ⟨k, (node_setNode_of_ne s m hq).trans hk, id⟩
  · rintro ⟨q, hq⟩
    obtain ⟨h₁, h₂⟩ := (h.forks q p hq).node n hp
    exact ⟨hi.trans h₁, hpar.trans h₂⟩

/-- The node that was handled joins the others. -/
theorem Settled.rest (h : Settled idle s) (hknown : ∀ n, s.node p = some n → Known s p n)
    (hsilent : s.node p = none → (s.proc p).Silent) : Settled (fun q => q = p ∨ idle q) s := by
  refine ⟨fun q n hq hn => ?_, fun q hq hn => ?_, h.killed, h.forks, h.once⟩
  · rcases hq with rfl | hq
    · exact hknown n hn
    · exact h.known q n hq hn
  · rcases hq with rfl | hq
    · exact hsilent hn
    · exact h.silent q hq hn

theorem Settled.all (h : Settled (fun q => q = p ∨ q ≠ p) s) : Settled (fun _ => True) s :=
  h.weaken fun q _ => Decidable.em (q = p)

end Settled

section Detach
variable {s s' : State} {x e : Nat → Int} {idle : Nat → Prop} {p q c : Nat} {n m : PidNode}

theorem traced_congr (h : s'.proc q = s.proc q) : s'.traced q = s.traced q := by
  unfold State.traced
  rw [h]

theorem traced_nonneg (s : State) (p : Nat) : 0 ≤ s.traced p := by
  unfold State.traced
  split <;> omega

theorem traced_eq_one (h : s.proc p ≠ .untraced) : s.traced p = 1 := if_neg h

theorem untraced_of_traced (h : s.traced p = 0) : s.proc p = .untraced := by
  by_contra hne
  rw [traced_eq_one hne] at h
  cases h

theorem ptraceDetach_of_ne (s : State) (h : q ≠ p) : (s.ptraceDetach p).proc q = s.proc q :=
  proc_setProc_of_ne s _ h

theorem Shrinks.refs_zero (h : Shrinks x s s') (hrefs : s.refs p = 0) : s'.refs p = 0 := by
  by_contra hne
  obtain ⟨q, k', hk', hpar⟩ := Table.refs_pos_iff.mp (Nat.pos_of_ne_zero hne)
  obtain ⟨k, hk, he⟩ := h.kept q k' hk'
  rw [he] at hpar
  have hno : k.parent ≠ some p := Ptrace.refs_zero hrefs hk
  exact hno hpar

theorem detach_eq (s : State) (p : Nat) : s.detach p false = (s.ptraceDetach p).putPid p := rfl

theorem Settled.ptraceDetach (h : Settled idle s) (hidle : ¬ idle p)
    (hproc : s.proc p = .stopped ∨ s.proc p = .dying) (hfree : ¬ Awaited s p) :
    Settled idle (s.ptraceDetach p) := by
  refine Settled.call (h.setProc (fun q hq _ => hq) (fun n hp => absurd hp hidle)
    (fun hp => absurd hp hidle) (fun n _ _ _ => ?_) ?_ (fun ha => absurd ha hfree)) _
  · rcases hproc with hp | hp <;> simp [hp, Proc.detach]
  · rcases hproc with hp | hp <;> simp [hp, Proc.detach]

/-- No node has the detached one as its parent: it goes, whether the request reaches it or not. -/
theorem detach_last (hb : Books s.traced s) (h : Settled (· ≠ p) s) (hp : s.node p = some n)
    (hrefs : s.refs p = 0) (hproc : s.proc p = .stopped ∨ s.proc p = .dying)
    (hfree : ¬ Awaited s p) :
    Books (s.detach p false).traced (s.detach p false) ∧
      Settled (fun _ => True) (s.detach p false) := by
  rw [detach_eq]
  have htraced : s.traced p = 1 := by
    refine traced_eq_one ?_
    rcases hproc with h' | h' <;> rw [h'] <;> nofun
  let x : Nat → Int := fun q => if q = p then 0 else s.traced q
  have hx : ∀ q, 0 ≤ x q := by
    intro q
    by_cases hq : q = p
    · simp [x, hq]
    · simpa [x, hq] using traced_nonneg s q
  have hbx : Books (oneMore x p) (s.ptraceDetach p) := by
    refine Books.of_pidList (hb.congr fun q _ _ => ?_) rfl
    by_cases hq : q = p
    · simp [oneMore, x, hq, htraced]
    · simp [oneMore, x, hq]
  obtain ⟨hbooks, hshrinks⟩ := hbx.putPid hx hp
  have hgone : ((s.ptraceDetach p).putPid p).node p = none := by
    cases hn' : ((s.ptraceDetach p).putPid p).node p with
    | none => rfl
    | some n' =>
      have hcount := hbooks.count p n' hn'
      have hpos := hbooks.pos p n' hn'
      have hxp : x p = 0 := if_pos rfl
      have hrefs' : ((s.ptraceDetach p).putPid p).refs p = 0 := hshrinks.refs_zero hrefs
      omega
  have hother : ∀ q, q ≠ p → ((s.ptraceDetach p).putPid p).proc q = s.proc q := fun q hq =>
    (congrFun hshrinks.proc q).trans (ptraceDetach_of_ne s hq)
  constructor
  · refine hbooks.congr fun q k hk => ?_
    have hq : q ≠ p := by
      rintro rfl
      rw [hgone] at hk
      cases hk
    rw [show x q = s.traced q from if_neg hq]
    exact (traced_congr (hother q hq)).symm
  · have hrest := (h.ptraceDetach (fun hne => hne rfl) hproc hfree).shrinks hshrinks hbooks
      fun q k hq hk hk' => ?_
    · refine (hrest.rest (fun n' hn' => ?_) fun _ => ?_).all
      · rw [hgone] at hn'
        cases hn'
      · rw [hshrinks.proc]
        show ((s.setProc p _).proc p).Silent
        rw [proc_setProc_self]
        rcases hproc with h' | h' <;> rw [h']
        · exact .inl rfl
        · exact .inr (.inr rfl)
    · have hxq := hshrinks.gone q k hk hk'
      rw [show x q = s.traced q from if_neg hq] at hxq
      rw [ptraceDetach_of_ne s hq]
      exact .inl (untraced_of_traced hxq)

/-- A process that stands still is detached; `e` are the references that handlers hold. -/
theorem detach_stopped (hb : Books (fun q => s.traced q + e q) s) (he : ∀ q, 0 ≤ e q)
    (h : Settled idle s) (hidle : ¬ idle p) (hp : s.node p = some n) (hinitial : n.initial = 2)
    (hpar : n.parent = none) (hlink : n.initialLink = none) (hproc : s.proc p = .stopped)
    (hfree : ¬ Awaited s p) :
    Books (fun q => (s.detach p false).traced q + e q) (s.detach p false) ∧
      Settled (fun q => q = p ∨ idle q) (s.detach p false) ∧
      Shrinks (fun q => (s.detach p false).traced q + e q) (s.ptraceDetach p)
        (s.detach p false) := by
  rw [detach_eq]
  have hself : (s.ptraceDetach p).proc p = .untraced := by
    show (s.setProc p _).proc p = _
    rw [proc_setProc_self, hproc]
    rfl
  have hbx : Books (oneMore (fun q => (s.ptraceDetach p).traced q + e q) p)
      (s.ptraceDetach p) := by
    refine Books.of_pidList (hb.congr fun q _ _ => ?_) rfl
    by_cases hq : q = p
    · rw [hq, oneMore, if_pos rfl, traced_eq_one (by rw [hproc]; simp)]
      simp only [State.traced, hself, if_true]
      omega
    · rw [oneMore, if_neg hq, traced_congr (ptraceDetach_of_ne s hq), Int.add_zero]
  obtain ⟨hbooks, hshrinks⟩ := hbx.putPid (fun q => Int.add_nonneg (traced_nonneg _ q) (he q)) hp
  have htraced : ((s.ptraceDetach p).putPid p).traced = (s.ptraceDetach p).traced :=
    funext fun q => traced_congr (congrFun hshrinks.proc q)
  refine ⟨?_, ?_, ?_⟩
  · rw [htraced]
    exact hbooks
  · have hrest := (h.ptraceDetach hidle (.inl hproc) hfree).shrinks hshrinks hbooks
      fun q k hq hk hk' => ?_
    · have hproc' : ((s.ptraceDetach p).putPid p).proc p = .untraced :=
        (congrFun hshrinks.proc p).trans hself
      refine hrest.rest (fun n' hn' => ?_) fun _ => .inl hproc'
      obtain ⟨n₀, hn₀, he'⟩ := hshrinks.kept p n' hn'
      rw [show (s.ptraceDetach p).node p = some n from hp] at hn₀
      cases hn₀
      rw [he']
      exact .inl ⟨hinitial, hpar, hlink, by rw [hproc']; simp, by rw [hproc']; simp⟩
    · have hzero := hshrinks.gone q k hk hk'
      have h₁ := traced_nonneg (s.ptraceDetach p) q
      have h₂ := he q
      exact .inl (untraced_of_traced (by omega))
  · rw [htraced]
    exact hshrinks

theorem Proc.cont_dying_or_running {proc : Proc} (h : proc = .stopped ∨ proc = .dying) :
    proc.cont = .running ∨ proc.cont = .dying := by
  rcases h with rfl | rfl
  · exact .inl rfl
  · exact .inr rfl

/-- A process that has been handled goes on. -/
theorem cont_started (hb : Books (fun q => s.traced q + e q) s) (h : Settled idle s)
    (hidle : ¬ idle p) (hp : s.node p = some n) (hinitial : n.initial = 2) (hpar : n.parent = none)
    (hlink : n.initialLink = none) (hproc : s.proc p = .stopped ∨ s.proc p = .dying)
    (hfree : ¬ Awaited s p) :
    Books (fun q => (s.cont p).traced q + e q) (s.cont p) ∧
      Settled (fun q => q = p ∨ idle q) (s.cont p) := by
  have hself : (s.cont p).proc p = (s.proc p).cont := proc_setProc_self s p _
  have hcont := Proc.cont_dying_or_running hproc
  have hrest : Settled idle (s.cont p) := by
    refine Settled.call (h.setProc (fun q hq _ => hq) (fun n hp => absurd hp hidle)
      (fun hp => absurd hp hidle) (fun k hk hd hw => ?_) (fun c hc => ?_)
      (fun ha => absurd ha hfree)) _
    · have hdead := h.killed p k hk hd hw
      rcases hproc with h' | h'
      · rw [h'] at hdead
        simp at hdead
      · exact .inl (by rw [h']; rfl)
    · rw [hc] at hcont
      simp at hcont
  constructor
  · refine Books.of_pidList (hb.congr fun q _ _ => ?_) rfl
    by_cases hq : q = p
    · rw [hq, traced_eq_one (s := s) (by rcases hproc with h' | h' <;> rw [h'] <;> nofun),
        traced_eq_one (s := s.cont p) (by
          rw [hself]
          rcases hcont with h' | h' <;> rw [h'] <;> nofun)]
    · have hother : (s.cont p).traced q = s.traced q := traced_congr (proc_setProc_of_ne s _ hq)
      rw [hother]
  · refine hrest.rest (fun k hk => ?_) fun hk => ?_
    · have hkn : k = n := Option.some.inj (hk.symm.trans hp)
      rw [hkn]
      refine .inl ⟨hinitial, hpar, hlink, ?_, ?_⟩
      · rw [hself]
        rcases hcont with h' | h' <;> rw [h'] <;> nofun
      · rw [hself]
        rcases hcont with h' | h' <;> rw [h'] <;> nofun
    · have hk' : s.node p = none := hk
      rw [hp] at hk'
      cases hk'

end Detach

section ForkNew
variable {s s' : State} {x : Nat → Int} {p q c : Nat} {n m : PidNode} {clone : Nat → Option Nat}

/-- A node takes another parent. -/
theorem Books.relink (h : Books x s) (hp : s.node p = some n) (hcount : m.refcount = n.refcount)
    (hpoints : ∀ q, m.parent = some q → ∃ k, s.node q = some k) :
    Books (fun r => x r + (if n.parent = some r then 1 else 0) - if m.parent = some r then 1 else 0)
      (s.setNode p m) := by
  have hrefs : ∀ r, ((s.setNode p m).refs r : Int) + (if n.parent = some r then 1 else 0) =
      s.refs r + if m.parent = some r then 1 else 0 := by
    intro r
    have hr := refs_setNode s p m r
    rw [parent_of_node hp] at hr
    split at hr <;> split at hr <;> simp_all
    omega
  have hold : ∀ r k, (s.setNode p m).node r = some k →
      ∃ k', s.node r = some k' ∧ k'.refcount = k.refcount := by
    intro r k hk
    by_cases hr : r = p
    · rw [hr, node_setNode_self] at hk
      cases hk
      exact ⟨n, hr ▸ hp, hcount.symm⟩
    · exact ⟨k, (node_setNode_of_ne s m hr).symm.trans hk, rfl⟩
  have hnew : ∀ r k, s.node r = some k → ∃ k', (s.setNode p m).node r = some k' := by
    intro r k hk
    by_cases hr : r = p
    · exact ⟨m, hr ▸ node_setNode_self s p m⟩
    · exact ⟨k, (node_setNode_of_ne s m hr).trans hk⟩
  refine ⟨fun r k hk => ?_, fun r k hk => ?_, fun r k t hk ht => ?_⟩
  · obtain ⟨k', hk', he⟩ := hold r k hk
    have hc := h.count r k' hk'
    have hr := hrefs r
    omega
  · obtain ⟨k', hk', he⟩ := hold r k hk
    exact he ▸ h.pos r k' hk'
  · by_cases hr : r = p
    · rw [hr, node_setNode_self] at hk
      cases hk
      obtain ⟨k', hk'⟩ := hpoints t ht
      exact hnew t k' hk'
    · obtain ⟨k', hk'⟩ := h.points r k t ((node_setNode_of_ne s m hr).symm.trans hk) ht
      exact hnew t k' hk'

/-- The child gets devices of its own, and the reference to its parent is given back. -/
theorem adopt_sound (hb : Books s.traced s) (h : Settled (· ≠ c) s) (hc : s.node c = some n)
    (hinitial : n.initial = 2) (hproc : s.proc c = .stopped ∨ s.proc c = .dying)
    (hfree : ¬ Awaited s c) (hrefs : s.refs c = 0) (hpar : n.parent = some q)
    (hlink : n.initialLink = none) (hm : s.node q = some m) {devs : List Nat}
    (hdevs : n.workload = true → devs ≠ []) {k : PidNode}
    (hk : k = { n with devList := devs, parent := none }) :
    Books (((s.setNode c k).putPid q).contOrDetach c k).traced
        (((s.setNode c k).putPid q).contOrDetach c k) ∧
      Settled (fun _ => True) (((s.setNode c k).putPid q).contOrDetach c k) := by
  have hqc : q ≠ c := fun he => refs_zero hrefs hc (he ▸ hpar)
  have hb₁ : Books (oneMore s.traced q) (s.setNode c k) := by
    refine (hb.relink hc (by rw [hk]) (fun r hr => ?_)).congr fun r _ _ => ?_
    · rw [hk] at hr
      cases hr
    · simp [oneMore, hpar, hk, eq_comm]
  have h₁ : Settled (· ≠ c) (s.setNode c k) := by
    refine h.setNode (fun q hq _ => hq) (fun _ _ _ => ?_) (fun hc => absurd rfl hc) ?_
      (fun ha => absurd ha hfree)
    · rw [hk]
      exact hinitial
    · rw [hk]
      exact h.killed c n hc
  have hrefs₁ : (s.setNode c k).refs c = 0 := by
    have hr := refs_setNode s c k c
    rw [hk] at hr ⊢
    simp at hr
    omega
  obtain ⟨hbooks, hshrinks⟩ := hb₁.putPid (traced_nonneg s)
    ((node_setNode_of_ne s k hqc).trans hm)
  have hproc' : ∀ r, ((s.setNode c k).putPid q).proc r = s.proc r := congrFun hshrinks.proc
  have htraced : ((s.setNode c k).putPid q).traced = s.traced :=
    funext fun r => traced_congr (hproc' r)
  have hfree' : ¬ Awaited ((s.setNode c k).putPid q) c := by
    rintro ⟨r, hr⟩
    exact hfree ⟨r, (hproc' r).symm.trans hr⟩
  have hlive : s.traced c = 1 := by
    refine traced_eq_one ?_
    rcases hproc with h' | h' <;> rw [h'] <;> simp
  have h₂ := h₁.shrinks hshrinks hbooks fun r j _ hj hgone =>
    .inl (untraced_of_traced (hshrinks.gone r j hj hgone))
  -- the child itself is still on the list
  obtain ⟨k', hk'⟩ : ∃ k', ((s.setNode c k).putPid q).node c = some k' := by
    cases hgone : ((s.setNode c k).putPid q).node c with
    | some k' => exact ⟨k', rfl⟩
    | none =>
      rw [hshrinks.gone c k (node_setNode_self s c k) hgone] at hlive
      cases hlive
  obtain ⟨k₀, hk₀, he⟩ := hshrinks.kept c k' hk'
  rw [node_setNode_self] at hk₀
  cases hk₀
  unfold State.contOrDetach
  split
  · rename_i hnil
    have hw : k.workload = false := by
      rw [hk] at hnil ⊢
      exact Bool.eq_false_iff.mpr fun hw => hdevs hw hnil
    rw [hw]
    exact detach_last (htraced ▸ hbooks) h₂ hk' (hshrinks.refs_zero hrefs₁)
      (by rw [hproc']; exact hproc) hfree'
  · have hcont := cont_started (e := fun _ => 0) (p := c) (by simpa [htraced] using hbooks) h₂
      (fun hne => hne rfl) hk'
      (by rw [he, hk]; exact hinitial) (by rw [he, hk]) (by rw [he, hk]; exact hlink)
      (by rw [hproc']; exact hproc) hfree'
    exact ⟨by simpa using hcont.1, hcont.2.all⟩

theorem forkNew_detach {k : PidNode} (hd : n.detach = true)
    (hk : k = { n with initialLink := none }) :
    s.forkNew c n clone = (s.setNode c k).detach c n.workload := by
  unfold State.forkNew
  rw [hk]
  exact if_pos hd

theorem forkNew_adopt {k : PidNode} (hd : n.detach = false) (hpar : n.parent = some q)
    (hk : k = { n with initialLink := none }) (hm : (s.setNode c k).node q = some m) :
    s.forkNew c n clone =
      (((s.setNode c k).setNode c
        { k with devList := State.cloned clone m.devList ++ k.devList, parent := none }).putPid
          q).contOrDetach c
            { k with devList := State.cloned clone m.devList ++ k.devList, parent := none } := by
  unfold State.forkNew
  rw [← hk]
  have hdk : k.detach = false := by rw [hk]; exact hd
  have hpk : k.parent = some q := by rw [hk]; exact hpar
  simp only [hdk, hpk, hm]
  rfl

/-- `__fork__new` goes on or lets go of the child, and of the reference to its parent. -/
theorem forkNew_sound (hb : Books s.traced s) (h : Settled (· ≠ c) s) (hc : s.node c = some n)
    (hinitial : n.initial = 2) (hproc : s.proc c = .stopped ∨ s.proc c = .dying)
    (hfree : ¬ Awaited s c) (hrefs : s.refs c = 0) (hpar : n.parent = some q)
    (hkilled : n.detach = true → n.workload = false)
    (hdevs : ∀ m, n.workload = true → n.detach = false → s.node q = some m →
      State.cloned clone m.devList ++ n.devList ≠ []) :
    Books (s.forkNew c n clone).traced (s.forkNew c n clone) ∧
      Settled (fun _ => True) (s.forkNew c n clone) := by
  have hqc : q ≠ c := fun he => refs_zero hrefs hc (he ▸ hpar)
  obtain ⟨m, hm⟩ := hb.points c n q hc hpar
  -- the node leaves the list of its parent
  obtain ⟨k, hk⟩ : ∃ k : PidNode, k = { n with initialLink := none } := ⟨_, rfl⟩
  have hb₁ : Books s.traced (s.setNode c k) := hb.setNode_same hc (by rw [hk]) (by rw [hk])
  have h₁ : Settled (· ≠ c) (s.setNode c k) := by
    refine h.setNode (fun q hq _ => hq) (fun _ _ _ => ?_) (fun hc => absurd rfl hc) (fun hd hw => ?_)
      (fun ha => absurd ha hfree)
    · rw [hk]
      exact hinitial
    · rw [hk] at hd hw
      exact h.killed c n hc hd hw
  have hc₁ : (s.setNode c k).node c = some k := node_setNode_self s c k
  have hm₁ : (s.setNode c k).node q = some m := (node_setNode_of_ne s k hqc).trans hm
  have hrefs₁ : (s.setNode c k).refs c = 0 := by
    rw [refs_setNode_same hc (by rw [hk]) c]
    exact hrefs
  cases hd : n.detach with
  | true =>
    rw [forkNew_detach hd hk, hkilled hd]
    exact detach_last hb₁ h₁ hc₁ hrefs₁ hproc hfree
  | false =>
    rw [forkNew_adopt hd hpar hk hm₁]
    refine adopt_sound hb₁ h₁ hc₁ (by rw [hk]; exact hinitial) hproc hfree hrefs₁
      (by rw [hk]; exact hpar) (by rw [hk]) hm₁ (fun hw => ?_) rfl
    rw [hk] at hw ⊢
    exact hdevs m hw hd hm

end ForkNew

end PerfProf.Ptrace
