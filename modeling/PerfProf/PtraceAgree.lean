import PerfProf.PtraceRuns

/-! A child that waits for one of its reports and its parent: they are detached together, or the
parent goes on and so does the child. -/
namespace PerfProf.Ptrace
open RefTable

section Handles
variable {s s' s'' : State} {D : Nat → Prop} {p q c : Nat} {n m : PidNode}
  {clone : Nat → Option Nat}

/-- A handler may send anything but PTRACE_DETACH to processes outside `D`. -/
def Allowed (D : Nat → Prop) : Call → Prop
  | .bug .detachNotEqual => False
  | .detach p => D p
  | _ => True

def Sends (D : Nat → Prop) (s s' : State) : Prop :=
  ∃ l, s'.calls = s.calls ++ l ∧ ∀ x ∈ l, Allowed D x

theorem Sends.of_eq (h : s'.calls = s.calls) : Sends D s s' :=
  ⟨[], h.trans (List.append_nil _).symm, nofun⟩

theorem Sends.trans (h : Sends D s s') (h' : Sends D s' s'') : Sends D s s'' := by
  obtain ⟨l, hl, hall⟩ := h
  obtain ⟨l', hl', hall'⟩ := h'
  refine ⟨l ++ l', by rw [hl', hl, List.append_assoc], fun x hx => ?_⟩
  exact (List.mem_append.mp hx).elim (hall x) (hall' x)

theorem Sends.call (s : State) {x : Call} (hx : Allowed D x) : Sends D s (s.call x) := by
  refine ⟨[x], rfl, fun y hy => ?_⟩
  rw [List.mem_singleton.mp hy]
  exact hx

/-- A handler keeps the flags of the nodes; a parent is at most forgotten. -/
structure Handles (D : Nat → Prop) (s s' : State) : Prop where
  kept : ∀ q n', s'.node q = some n' → ∃ n, s.node q = some n ∧ n'.detach = n.detach ∧
    n'.workload = n.workload ∧ (n'.parent = n.parent ∨ n'.parent = none)
  calls : Sends D s s'

theorem Handles.of_node (hnode : ∀ q, s'.node q = s.node q) (hcalls : Sends D s s') :
    Handles D s s' :=
  ⟨fun q n' hn' => ⟨n', hnode q ▸ hn', rfl, rfl, .inl rfl⟩, hcalls⟩

theorem Handles.refl (D : Nat → Prop) (s : State) : Handles D s s :=
  Handles.of_node (fun _ => rfl) (Sends.of_eq rfl)

theorem Handles.trans (h : Handles D s s') (h' : Handles D s' s'') : Handles D s s'' := by
  constructor
  · intro q n'' hn''
    obtain ⟨n', hn', hd', hw', hp'⟩ := h'.kept q n'' hn''
    obtain ⟨n, hn, hd, hw, hp⟩ := h.kept q n' hn'
    refine ⟨n, hn, hd'.trans hd, hw'.trans hw, ?_⟩
    rcases hp' with hp' | hp'
    · exact hp.imp hp'.trans hp'.trans
    · exact .inr hp'
  · exact h.calls.trans h'.calls

theorem Handles.call (s : State) {x : Call} (hx : Allowed D x) : Handles D s (s.call x) :=
  Handles.of_node (fun _ => rfl) (Sends.call s hx)

theorem Handles.setProc (s : State) (p : Nat) (proc : Proc) : Handles D s (s.setProc p proc) :=
  Handles.of_node (fun _ => rfl) (Sends.of_eq rfl)

theorem Handles.setNode (hp : s.node p = some n) (hd : m.detach = n.detach)
    (hw : m.workload = n.workload) (hpar : m.parent = n.parent ∨ m.parent = none) :
    Handles D s (s.setNode p m) := by
  refine ⟨fun q k hk => ?_, Sends.of_eq rfl⟩
  by_cases hq : q = p
  · rw [hq, node_setNode_self] at hk
    cases hk
    exact ⟨n, hq ▸ hp, hd, hw, hpar⟩
  · exact ⟨k, (node_setNode_of_ne s m hq).symm.trans hk, rfl, rfl, .inl rfl⟩

theorem Handles.removeNode (s : State) (p : Nat) : Handles D s (s.removeNode p) := by
  refine ⟨fun q k hk => ?_, Sends.of_eq rfl⟩
  by_cases hq : q = p
  · rw [hq, node_removeNode_self] at hk
    cases hk
  · exact ⟨k, (node_removeNode_of_ne s hq).symm.trans hk, rfl, rfl, .inl rfl⟩

theorem Handles.nodeDeleted (s : State) (p : Nat) : Handles D s (s.nodeDeleted p) := by
  unfold State.nodeDeleted
  split
  · exact Handles.refl D s
  · exact Handles.call s trivial

theorem Handles.putPidFuel (fuel : Nat) (s : State) (p : Nat) :
    Handles D s (State.putPidFuel fuel p s) := by
  induction fuel generalizing s p with
  | zero => exact Handles.refl D s
  | succ fuel ih =>
    unfold State.putPidFuel
    split
    · exact Handles.refl D s
    · rename_i n hp
      split
      · split
        · exact ((Handles.removeNode s p).trans (ih _ _)).trans (Handles.nodeDeleted _ p)
        · exact (Handles.removeNode s p).trans (Handles.nodeDeleted _ p)
      · exact Handles.setNode hp rfl rfl (.inl rfl)

theorem Handles.putPid (s : State) (p : Nat) : Handles D s (s.putPid p) :=
  Handles.putPidFuel _ s p

theorem Handles.cont (s : State) (p : Nat) : Handles D s (s.cont p) :=
  (Handles.setProc s p _).trans (Handles.call _ trivial)

theorem Handles.detach (s : State) {workload : Bool} (hp : D p) :
    Handles D s (s.detach p workload) := by
  have hcall : Allowed D (.detach p) := hp
  unfold State.detach
  split
  · exact Handles.call s trivial
  · exact ((Handles.setProc s p _).trans (Handles.call _ hcall)).trans (Handles.putPid _ p)

/-- `__fork__new` detaches the child only with its parent or for want of a device. -/
theorem Handles.forkNew (hc : s.node c = some n) (hd : n.detach = true → D c)
    (hpar : n.detach = false → ∃ q m, n.parent = some q ∧ q ≠ c ∧ s.node q = some m ∧
      State.cloned clone m.devList ++ n.devList ≠ []) :
    Handles D s (s.forkNew c n clone) := by
  obtain ⟨k, hk⟩ : ∃ k : PidNode, k = { n with initialLink := none } := ⟨_, rfl⟩
  have hfirst : Handles D s (s.setNode c k) :=
    Handles.setNode hc (by rw [hk]) (by rw [hk]) (.inl (by rw [hk]))
  cases hdet : n.detach with
  | true =>
    rw [forkNew_detach hdet hk]
    exact hfirst.trans (Handles.detach _ (hd hdet))
  | false =>
    obtain ⟨q, m, hq, hqc, hm, hdevs⟩ := hpar hdet
    have hm₁ : (s.setNode c k).node q = some m := (node_setNode_of_ne s k hqc).trans hm
    rw [forkNew_adopt hdet hq hk hm₁]
    have hsecond : Handles D (s.setNode c k) ((s.setNode c k).setNode c
        { k with devList := State.cloned clone m.devList ++ k.devList, parent := none }) :=
      Handles.setNode (node_setNode_self s c k) rfl rfl (.inr rfl)
    refine ((hfirst.trans hsecond).trans (Handles.putPid _ q)).trans ?_
    have hdevs' : State.cloned clone m.devList ++ k.devList ≠ [] := by
      rw [hk]
      exact hdevs
    unfold State.contOrDetach
    rw [if_neg hdevs']
    exact Handles.cont _ c

end Handles

section Reports
variable {s s' : State} {D : Nat → Prop} {p q c : Nat} {n m : PidNode} {killed : Bool}
  {clone : Nat → Option Nat}

/-- A child that waits has the flags of its parent. -/
def Agrees (s : State) : Prop :=
  ∀ c n q m, s.node c = some n → n.parent = some q → s.node q = some m →
    n.detach = m.detach ∧ n.workload = m.workload

theorem Agrees.handles (h : Agrees s) (hs : Handles D s s') : Agrees s' := by
  intro c n' q m' hn' hpar hm'
  obtain ⟨n, hn, hd, hw, hp⟩ := hs.kept c n' hn'
  have hpar' : n.parent = some q := by
    rcases hp with hp | hp
    · exact hp.symm.trans hpar
    · rw [hp] at hpar
      cases hpar
  obtain ⟨m, hm, hd', hw', -⟩ := hs.kept q m' hm'
  obtain ⟨h₁, h₂⟩ := h c n q m hn hpar' hm
  rw [hd, hw, hd', hw']
  exact ⟨h₁, h₂⟩

/-- A node without a parent is added or replaced; no node has it as its parent. -/
theorem Agrees.setNode (h : Agrees s) (hrefs : s.refs c = 0)
    (hm : ∀ q k, m.parent = some q → q ≠ c → s.node q = some k →
      m.detach = k.detach ∧ m.workload = k.workload)
    (hself : m.parent ≠ some c) : Agrees (s.setNode c m) := by
  intro d n q k hn hpar hk
  have hqc : q ≠ c := by
    rintro rfl
    by_cases hd : d = q
    · rw [hd, node_setNode_self] at hn
      cases hn
      exact hself hpar
    · rw [node_setNode_of_ne s m hd] at hn
      exact refs_zero hrefs hn hpar
  rw [node_setNode_of_ne s m hqc] at hk
  by_cases hd : d = c
  · rw [hd, node_setNode_self] at hn
    cases hn
    exact hm q k hpar hqc hk
  · rw [node_setNode_of_ne s m hd] at hn
    exact h d n q k hn hpar hk

/-- What may be detached by a step: a process whose own node says so, and the child that is
reported by such a process. -/
def Detaches (s : State) : Act → Nat → Prop
  | .forkEvent p _ _, c => (∃ n, s.node p = some n ∧ n.detach = true) ∧
    (c = p ∨ s.proc p = .forking c false)
  | .stopEvent p _ _, c => c = p ∧ ∃ n, s.node p = some n ∧ n.detach = true
  | _, _ => False

/-- The steps that keep a child and its parent together. A thread list that attaches a detached
child that waits, or its parent, attaches both; the devices of a child that waits are not closed
before those of its parent; and one of the devices of a parent can be cloned. -/
def Together (s : State) : Act → Prop
  | .attach _ _ _ threads => ∀ c n q, s.node c = some n → n.parent = some q → n.detach = true →
    (c ∈ threads ↔ q ∈ threads)
  | .detach devs => ∀ c n q m, s.node c = some n → n.parent = some q → s.node q = some m →
    n.detach = false → (n.devList ≠ [] ∧ ∀ d ∈ n.devList, d ∈ devs) →
    (m.devList ≠ [] ∧ ∀ d ∈ m.devList, d ∈ devs)
  | .forkEvent p _ clone => ∀ c n k, s.proc p = .forking c false → s.node p = some n →
    s.node c = some k → n.detach = false → State.cloned clone n.devList ++ k.devList ≠ []
  | .stopEvent p _ clone => ∀ n q m, s.node p = some n → n.parent = some q → s.node q = some m →
    n.detach = false → State.cloned clone m.devList ++ n.devList ≠ []
  | _ => True

/-- The two conditions. -/
def Steady (s : State) (a : Act) : Prop := Orderly s a ∧ Together s a

theorem stopEvent_agrees (h : Sound s) (ha : Agrees s)
    (hok : Together s (.stopEvent p killed clone))
    (hp : s.proc p = .fresh ∨ s.proc p = .running)
    (hs : s' = (s.setProc p (reported killed)).newOrInterrupt p clone) :
    Agrees s' ∧ Sends (Detaches s (.stopEvent p killed clone)) s s' := by
  cases hn : s.node p with
  | none =>
    have hn₀ : (s.setProc p (reported killed)).node p = none := hn
    rw [newOrInterrupt_none hn₀] at hs
    have hrefs : s.refs p = 0 := h.books.refs_eq_zero hn
    refine ⟨?_, Sends.of_eq (by rw [hs]; rfl)⟩
    rw [hs]
    have ha₀ : Agrees (s.setProc p (reported killed)) := ha
    exact ha₀.setNode hrefs nofun nofun
  | some n =>
    have hn₀ : (s.setProc p (reported killed)).node p = some n := hn
    have hfinal : Handles (Detaches s (.stopEvent p killed clone)) s s' := by
      refine (Handles.setProc s p (reported killed)).trans ?_
      rcases h.settled.known p n trivial hn with h' | ⟨hi, -, q, m, hpar, -, hm, -⟩ | h'
      · rw [newOrInterrupt_started hn₀ h'.initial h'.parent] at hs
        rw [hs]
        split
        · rename_i hd
          exact Handles.detach _ ⟨rfl, n, hn, hd⟩
        · exact Handles.cont _ p
      · rw [newOrInterrupt_announced hn₀ hi hpar] at hs
        have hagree : (((s.setProc p (reported killed)).node q).map PidNode.detach) =
            some n.detach := by
          rw [show (s.setProc p (reported killed)).node q = some m from hm]
          exact congrArg some (ha p n q m hn hpar hm).1.symm
        rw [if_pos hagree] at hs
        have hrefs : s.refs p = 0 := h.settled.refs_zero hn (by rw [hi]; nofun)
        have hqp : q ≠ p := fun he => refs_zero hrefs hn (he ▸ hpar)
        have hset : Handles (Detaches s (.stopEvent p killed clone))
            (s.setProc p (reported killed)) ((s.setProc p (reported killed)).setNode p
              { n with initial := 2 }) :=
          Handles.setNode hn₀ rfl rfl (.inl rfl)
        rw [hs]
        refine hset.trans (Handles.forkNew (node_setNode_self ..) (fun hd => ⟨rfl, n, hn, hd⟩)
          fun hd => ⟨q, m, hpar, hqp, ?_, hok n q m hn hpar hm hd⟩)
        rw [node_setNode_of_ne _ _ hqp]
        exact hm
      · have hno := h'.proc
        rcases hp with hp | hp <;> rw [hp] at hno <;> simp at hno
    exact ⟨ha.handles hfinal, hfinal.calls⟩

theorem newFindPid_calls (s : State) (c : Nat) : (s.newFindPid c).1.calls = s.calls := by
  unfold State.newFindPid
  split <;> rfl

theorem newFindPid_of_ne (s : State) (h : q ≠ c) : (s.newFindPid c).1.node q = s.node q := by
  unfold State.newFindPid
  split
  · rfl
  · exact node_setNode_of_ne s _ h

theorem newFindPid_initial (h : (s.newFindPid c).1.node c = some n) (hi : n.initial ≠ 0) :
    s.node c = some n := by
  unfold State.newFindPid at h
  split at h
  · exact h
  · rw [node_setNode_self] at h
    cases h
    exact absurd rfl hi

theorem forkParent_node (hd : n.detach = false) (q : Nat) :
    (s.forkParent p (some n)).node q = s.node q := by
  unfold State.forkParent
  simp only [hd]
  rfl

/-- The nodes other than that of `c` keep their flags, and their parent or none. -/
def OthersKept (c : Nat) (s s' : State) : Prop :=
  ∀ q n', q ≠ c → s'.node q = some n' → ∃ n, s.node q = some n ∧
    n'.detach = n.detach ∧ n'.workload = n.workload ∧
    (n'.parent = n.parent ∨ n'.parent = none)

/-- A node that nothing refers to is nobody's parent, so the other pairs agree as they did. -/
theorem Agrees.pairs (ha : Agrees s) (hrefs : s.refs c = 0) (hkept : OthersKept c s s')
    (d : Nat) (n' : PidNode) (q : Nat) (hdc : d ≠ c) (hn' : s'.node d = some n')
    (hpar : n'.parent = some q) :
    q ≠ c ∧ ∀ m', s'.node q = some m' → n'.detach = m'.detach ∧ n'.workload = m'.workload := by
  obtain ⟨n₀, hn₀, hd₀, hw₀, hpar₀⟩ := hkept d n' hdc hn'
  have hpar' : n₀.parent = some q := by
    rcases hpar₀ with hp | hp
    · exact hp.symm.trans hpar
    · rw [hp] at hpar
      cases hpar
  have hqc : q ≠ c := fun he => refs_zero hrefs hn₀ (he ▸ hpar')
  refine ⟨hqc, fun m' hm' => ?_⟩
  obtain ⟨m₀, hm₀, hd₁, hw₁, -⟩ := hkept q m' hqc hm'
  obtain ⟨h₁, h₂⟩ := ha d n₀ q m₀ hn₀ hpar' hm₀
  rw [hd₀, hw₀, hd₁, hw₁]
  exact ⟨h₁, h₂⟩

/-- The child's node with the flags of its parent. -/
theorem Agrees.forked (ha : Agrees s) (hn : s.node p = some n) (hpc : p ≠ c)
    (hrefs : s.refs c = 0) (hkept : OthersKept c s s') (k : PidNode) :
    Agrees (s'.setNode c (forked k n p)) := by
  intro d n' q m' hn' hpar hm'
  by_cases hdc : d = c
  · rw [hdc, node_setNode_self] at hn'
    cases hn'
    cases hpar
    rw [node_setNode_of_ne _ _ hpc] at hm'
    obtain ⟨n₀, hn₀, hd₀, hw₀, -⟩ := hkept p m' hpc hm'
    rw [hn] at hn₀
    cases hn₀
    exact ⟨hd₀.symm, hw₀.symm⟩
  · rw [node_setNode_of_ne _ _ hdc] at hn'
    obtain ⟨hqc, hflags⟩ := ha.pairs hrefs hkept d n' q hdc hn' hpar
    rw [node_setNode_of_ne _ _ hqc] at hm'
    exact hflags m' hm'

/-- No node has the child as its parent, and its own node takes the flags of the process that has
reported the fork. -/
theorem forkEvent_agrees (h : Sound s) (ha : Agrees s)
    (hok : Together s (.forkEvent p killed clone)) (hp : s.proc p = .forking c false)
    (hs : s' = (s.setProc p (reported killed)).fork p c clone) :
    Agrees s' ∧ Sends (Detaches s (.forkEvent p killed clone)) s s' := by
  obtain ⟨n, hn, -⟩ := h.forking_node hp
  have hwaits := h.settled.forks p c hp
  have hcp : c ≠ p := by
    rintro rfl
    have hno := hwaits.proc
    simp [hp] at hno
  have hrefs : s.refs c = 0 := by
    cases hc : s.node c with
    | none => exact h.books.refs_eq_zero hc
    | some k => exact h.settled.refs_zero hc (by rw [(hwaits.node k hc).1]; simp)
  obtain ⟨s₁, hs₁⟩ : ∃ s₁, s₁ = (s.setProc p (reported killed)).setNode p
      { n with refcount := n.refcount + 1 } := ⟨_, rfl⟩
  obtain ⟨s₂, hs₂⟩ : ∃ s₂, s₂ = (s₁.newFindPid c).1 := ⟨_, rfl⟩
  obtain ⟨s₃, hs₃⟩ : ∃ s₃, s₃ = s₂.forkParent p (some n) := ⟨_, rfl⟩
  have hfirst : Handles (Detaches s (.forkEvent p killed clone)) s s₁ := by
    rw [hs₁]
    exact (Handles.setProc s p _).trans (Handles.setNode hn rfl rfl (.inl rfl))
  have hnode₁ : ∀ q, q ≠ p → s₁.node q = s.node q := fun q hq => by
    rw [hs₁]
    exact node_setNode_of_ne _ _ hq
  have hp₁ : s₁.node p = some { n with refcount := n.refcount + 1 } := by
    rw [hs₁]
    exact node_setNode_self ..
  have hthird : Handles (Detaches s (.forkEvent p killed clone)) s₂ s₃ := by
    rw [hs₃, State.forkParent]
    split
    · rename_i hd
      exact Handles.detach _ ⟨⟨n, hn, hd⟩, .inl rfl⟩
    · exact Handles.cont _ p
  have hcalls : Sends (Detaches s (.forkEvent p killed clone)) s s₃ := by
    refine (Sends.of_eq ?_).trans hthird.calls
    rw [hs₂, newFindPid_calls, hs₁]
    rfl
  -- the nodes other than the child's
  have hkept : OthersKept c s s₃ := by
    intro q n' hq hn'
    obtain ⟨n₂, hn₂, hd, hw, hpar⟩ := hthird.kept q n' hn'
    rw [hs₂, newFindPid_of_ne s₁ hq] at hn₂
    obtain ⟨n₀, hn₀, hd₀, hw₀, hpar₀⟩ := hfirst.kept q n₂ hn₂
    refine ⟨n₀, hn₀, hd.trans hd₀, hw.trans hw₀, ?_⟩
    rcases hpar with hpar | hpar
    · exact hpar₀.imp hpar.trans hpar.trans
    · exact .inr hpar
  have hpairs := ha.pairs hrefs hkept
  have hn₀ : (s.setProc p (reported killed)).node p = some n := hn
  rw [fork_eq hn₀ hs₁ hs₂ hs₃] at hs
  cases hk : s₃.node c with
  | none =>
    rw [hk] at hs
    subst hs
    refine ⟨fun d n' q m' hn' hpar hm' => ?_, hcalls⟩
    have hdc : d ≠ c := by
      rintro rfl
      rw [hk] at hn'
      cases hn'
    exact (hpairs d n' q hdc hn' hpar).2 m' hm'
  | some k =>
    rw [hk] at hs
    dsimp only at hs
    have hagree : Agrees (s₃.setNode c (forked k n p)) := ha.forked hn hcp.symm hrefs hkept k
    split at hs
    · rename_i hinitial
      have hnew : Handles (Detaches s (.forkEvent p killed clone)) (s₃.setNode c (forked k n p))
          s' := by
        rw [hs]
        refine Handles.forkNew (node_setNode_self ..) (fun hd => ⟨⟨n, hn, hd⟩, .inr hp⟩) fun hd => ?_
        have hd' : n.detach = false := hd
        have hsame : ∀ q, s₃.node q = s₂.node q := fun q => by
          rw [hs₃]
          exact forkParent_node hd' q
        refine ⟨p, { n with refcount := n.refcount + 1 }, rfl, hcp.symm, ?_, ?_⟩
        · rw [node_setNode_of_ne _ _ hcp.symm, hsame, hs₂, newFindPid_of_ne s₁ hcp.symm]
          exact hp₁
        · rw [hsame, hs₂] at hk
          have hk₁ : k.initial = 1 := Nat.succ.inj hinitial
          have hck := newFindPid_initial hk (by rw [hk₁]; simp)
          exact hok c n k hp hn ((hnode₁ c hcp).symm.trans hck) hd'
      have hset : Sends (Detaches s (.forkEvent p killed clone)) s₃
          (s₃.setNode c (forked k n p)) := Sends.of_eq rfl
      exact ⟨hagree.handles hnew, (hcalls.trans hset).trans hnew.calls⟩
    · subst hs
      exact ⟨hagree, hcalls⟩

end Reports

section Attach
variable {s s' : State} {D : Nat → Prop} {p q c : Nat} {n m : PidNode}

/-- The nodes of the threads that are attached lose their flag, and new nodes have no parent. -/
structure AttachedTo (threads : List Nat) (s s' : State) : Prop where
  node : ∀ q n', s'.node q = some n' → (s.node q = none ∧ n'.parent = none) ∨
    ∃ n, s.node q = some n ∧ n'.parent = n.parent ∧ n'.workload = n.workload ∧
      n'.detach = (n.detach && decide (q ∉ threads))
  stays : ∀ q, s'.node q = none → s.node q = none
  calls : s'.calls = s.calls

theorem AttachedTo.nil (s : State) : AttachedTo [] s s :=
  ⟨fun _ n' hn' => .inr ⟨n', hn', rfl, rfl, by simp⟩, fun _ => id, rfl⟩

theorem AttachedTo.cons {s₁ : State} {threads : List Nat} (h : AttachedTo [p] s s₁)
    (h' : AttachedTo threads s₁ s') : AttachedTo (p :: threads) s s' := by
  refine ⟨fun q n' hn' => ?_, fun q hq => h.stays q (h'.stays q hq), h'.calls.trans h.calls⟩
  rcases h'.node q n' hn' with ⟨hnone, hpar⟩ | ⟨n₁, hn₁, hpar₁, hw₁, hd₁⟩
  · exact .inl ⟨h.stays q hnone, hpar⟩
  · rcases h.node q n₁ hn₁ with ⟨hnone, hpar⟩ | ⟨n, hn, hpar, hw, hd⟩
    · exact .inl ⟨hnone, hpar₁.trans hpar⟩
    · refine .inr ⟨n, hn, hpar₁.trans hpar, hw₁.trans hw, ?_⟩
      rw [hd₁, hd]
      simp [Bool.and_assoc, not_or]

/-- The node is there, or made; then it is linked. -/
theorem AttachedTo.setNode (hp : s.node p = none → m.parent = none)
    (hold : ∀ n, s.node p = some n → m.parent = n.parent ∧ m.workload = n.workload)
    (hd : m.detach = false) (hnode : ∀ q, q ≠ p → s'.node q = s.node q)
    (hcalls : s'.calls = s.calls) : AttachedTo [p] s (s'.setNode p m) := by
  refine ⟨fun q n' hn' => ?_, fun q hq => ?_, hcalls⟩
  · by_cases hqp : q = p
    · rw [hqp, node_setNode_self] at hn'
      cases hn'
      cases hn : s.node p with
      | none => exact .inl ⟨hqp ▸ hn, hp hn⟩
      | some n =>
        obtain ⟨hpar, hw⟩ := hold n hn
        exact .inr ⟨n, hqp ▸ hn, hpar, hw, by simp [hqp, hd]⟩
    · rw [node_setNode_of_ne _ _ hqp, hnode q hqp] at hn'
      exact .inr ⟨n', hn', rfl, rfl, by simp [hqp]⟩
  · by_cases hqp : q = p
    · rw [hqp, node_setNode_self] at hq
      cases hq
    · rwa [node_setNode_of_ne _ _ hqp, hnode q hqp] at hq

theorem attachThread_attached (dev : Nat) (workload : Bool) (seized : Nat → Bool) (s : State)
    (p : Nat) : AttachedTo [p] s (State.attachThread dev workload seized s p) := by
  unfold State.attachThread
  cases hp : s.node p with
  | some n =>
    simp only [hp]
    refine AttachedTo.setNode (fun hno => ?_) (fun k hk => ?_) rfl (fun _ _ => rfl) rfl
    · rw [hp] at hno
      cases hno
    · rw [hp] at hk
      cases hk
      exact ⟨rfl, rfl⟩
  | none =>
    by_cases hu : s.proc p = .untraced ∧ seized p = true
    · simp only [if_pos hu, node_setNode_self]
      refine AttachedTo.setNode (fun _ => rfl) (fun k hk => ?_) rfl (fun q hq => ?_) rfl
      · rw [hp] at hk
        cases hk
      · exact node_setNode_of_ne _ _ hq
    · simp only [if_neg hu, hp]
      refine ⟨fun q n' hn' => ?_, fun _ => id, rfl⟩
      have hq : q ≠ p := by
        rintro rfl
        rw [hp] at hn'
        cases hn'
      exact .inr ⟨n', hn', rfl, rfl, by simp [hq]⟩

theorem ptraceAttach_attached (dev : Nat) (workload : Bool) (seized : Nat → Bool)
    (threads : List Nat) (s : State) :
    AttachedTo threads s (s.ptraceAttach dev workload seized threads) := by
  unfold State.ptraceAttach
  induction threads generalizing s with
  | nil => exact AttachedTo.nil s
  | cons p threads ih => exact (attachThread_attached dev workload seized s p).cons (ih _)

theorem AttachedTo.agrees {threads : List Nat} (hs : AttachedTo threads s s') (h : Sound s)
    (ha : Agrees s)
    (hok : ∀ c n q, s.node c = some n → n.parent = some q → n.detach = true →
      (c ∈ threads ↔ q ∈ threads)) : Agrees s' := by
  intro c n' q m' hn' hpar hm'
  rcases hs.node c n' hn' with ⟨-, hno⟩ | ⟨n, hn, hpar₁, hw, hd⟩
  · rw [hno] at hpar
    cases hpar
  · rw [hpar₁] at hpar
    obtain ⟨m, hm⟩ := h.books.points c n q hn hpar
    obtain ⟨hdet, hwork⟩ := ha c n q m hn hpar hm
    rcases hs.node q m' hm' with ⟨hno, -⟩ | ⟨m₀, hm₀, -, hw₀, hd₀⟩
    · rw [hm] at hno
      cases hno
    · rw [hm] at hm₀
      cases hm₀
      refine ⟨?_, by rw [hw, hw₀, hwork]⟩
      rw [hd, hd₀, ← hdet]
      cases hn₂ : n.detach with
      | false => rfl
      | true => simp [hok c n q hn hpar hn₂]

end Attach

section Detach
variable {s s' s₁ : State} {p q c dev : Nat} {n m : PidNode} {f g : Nat → Prop} {R : List Nat}

/-- Some nodes get the flag, and nothing else. -/
structure Flags (f : Nat → Prop) (s s' : State) : Prop where
  node : ∀ q n', s'.node q = some n' → ∃ n, s.node q = some n ∧ n'.parent = n.parent ∧
    n'.workload = n.workload ∧ n'.devList = n.devList ∧ (n'.detach = true ↔ n.detach = true ∨ f q)
  sends : Sends (fun _ => False) s s'

theorem Flags.trans (h : Flags f s s₁) (h' : Flags g s₁ s') :
    Flags (fun q => f q ∨ g q) s s' := by
  refine ⟨fun q n' hn' => ?_, h.sends.trans h'.sends⟩
  obtain ⟨n₁, hn₁, hpar₁, hw₁, hdev₁, hd₁⟩ := h'.node q n' hn'
  obtain ⟨n, hn, hpar, hw, hdev, hd⟩ := h.node q n₁ hn₁
  refine ⟨n, hn, hpar₁.trans hpar, hw₁.trans hw, hdev₁.trans hdev, ?_⟩
  rw [hd₁, hd, or_assoc]

theorem detachInitial_flags (s : State) (p : Nat) : Flags (· = p) s (s.detachInitial p) := by
  unfold State.detachInitial
  cases hp : s.node p with
  | none =>
    refine ⟨fun q n' hn' => ⟨n', hn', rfl, rfl, rfl, ?_⟩, Sends.of_eq rfl⟩
    have hq : q ≠ p := by
      rintro rfl
      rw [hp] at hn'
      cases hn'
    simp [hq]
  | some n =>
    have hset : Flags (· = p) s (s.setNode p { n with detach := true }) := by
      refine ⟨fun q n' hn' => ?_, Sends.of_eq rfl⟩
      by_cases hq : q = p
      · rw [hq, node_setNode_self] at hn'
        cases hn'
        exact ⟨n, hq ▸ hp, rfl, rfl, rfl, by simp [hq]⟩
      · rw [node_setNode_of_ne _ _ hq] at hn'
        exact ⟨n', hn', rfl, rfl, rfl, by simp [hq]⟩
    dsimp only
    split
    · exact ⟨hset.node, hset.sends.trans (Sends.call _ trivial)⟩
    · exact hset

theorem foldl_detachInitial (L : List Nat) (s : State) :
    Flags (· ∈ L) s (L.foldl State.detachInitial s) := by
  induction L generalizing s with
  | nil => exact ⟨fun q n' hn' => ⟨n', hn', rfl, rfl, rfl, by simp⟩, Sends.of_eq rfl⟩
  | cons p L ih =>
    obtain ⟨hnode, hsends⟩ := (detachInitial_flags s p).trans (ih _)
    refine ⟨fun q n' hn' => ?_, hsends⟩
    obtain ⟨n, hn, h₁, h₂, h₃, hd⟩ := hnode q n' hn'
    exact ⟨n, hn, h₁, h₂, h₃, by rw [hd, List.mem_cons]⟩

theorem mem_initialChildList (hq : s.node q = some n) :
    q ∈ s.initialChildList p ↔ n.initialLink = some p := by
  unfold State.initialChildList
  rw [List.mem_filter, hq]
  simp [Table.mem_of_val (show s.pidList.val q = some n from hq)]

/-- The last device of a node that is not detached. -/
def Empties (dev : Nat) (s : State) (p : Nat) : Prop :=
  ∃ n, s.node p = some n ∧ n.devList.filter (· ≠ dev) = [] ∧ n.detach = false

/-- What one link of `ptrace_detach` does: the device leaves the node, which is flagged with its
children when it was the last. -/
structure Unlinks (dev : Nat) (s : State) (p : Nat) (s' : State) : Prop where
  node : ∀ q n', s'.node q = some n' → ∃ n, s.node q = some n ∧ n'.parent = n.parent ∧
    n'.workload = n.workload ∧
    n'.devList = (if q = p then n.devList.filter (· ≠ dev) else n.devList) ∧
    (n'.detach = true ↔ n.detach = true ∨ (Empties dev s p ∧ (q = p ∨ n.initialLink = some p)))
  sends : Sends (fun _ => False) s s'

/-- The node has been flagged; its children on the list follow. -/
theorem unlinks_last {k : PidNode} (hp : s.node p = some n) (hempties : Empties dev s p)
    (hk : k = { n with devList := n.devList.filter (· ≠ dev), detach := true })
    (hnode : ∀ q, s₁.node q = (s.setNode p k).node q) (hsends : Sends (fun _ => False) s s₁) :
    Unlinks dev s p ((s₁.initialChildList p).foldl State.detachInitial s₁) := by
  obtain ⟨hflags, hrest⟩ := foldl_detachInitial (s₁.initialChildList p) s₁
  refine ⟨fun q n' hn' => ?_, hsends.trans hrest⟩
  obtain ⟨n₁, hn₁, hpar, hw, hdev, hd⟩ := hflags q n' hn'
  rw [mem_initialChildList hn₁] at hd
  rw [hnode] at hn₁
  by_cases hq : q = p
  · rw [hq, node_setNode_self] at hn₁
    cases hn₁
    rw [hk] at hpar hw hdev hd
    exact ⟨n, hq ▸ hp, hpar, hw, hdev.trans (if_pos hq).symm, by simp [hd, hempties, hq]⟩
  · rw [node_setNode_of_ne _ _ hq] at hn₁
    exact ⟨n₁, hn₁, hpar, hw, hdev.trans (if_neg hq).symm, by simp [hd, hempties, hq]⟩

theorem detachLink_unlinks (dev : Nat) (s : State) (p : Nat) :
    Unlinks dev s p (State.detachLink dev s p) := by
  unfold State.detachLink
  cases hp : s.node p with
  | none =>
    have hno : ¬ Empties dev s p := by
      rintro ⟨n, hn, -⟩
      rw [hp] at hn
      cases hn
    refine ⟨fun q n' hn' => ⟨n', hn', rfl, rfl, ?_, by simp [hno]⟩, Sends.of_eq rfl⟩
    rw [if_neg]
    rintro rfl
    rw [hp] at hn'
    cases hn'
  | some n =>
    dsimp only
    split
    · rename_i hlast
      refine unlinks_last hp ⟨n, hp, hlast⟩ rfl (fun q => ?_) ?_
      · split <;> rfl
      · split
        · exact Sends.call _ trivial
        · exact Sends.call _ trivial
    · rename_i hlast
      have hno : ¬ Empties dev s p := by
        rintro ⟨n', hn', h'⟩
        rw [hp] at hn'
        cases hn'
        exact hlast h'
      refine ⟨fun q n' hn' => ?_, Sends.of_eq rfl⟩
      by_cases hq : q = p
      · rw [hq, node_setNode_self] at hn'
        cases hn'
        exact ⟨n, hq ▸ hp, rfl, rfl, (if_pos hq).symm, by simp [hno]⟩
      · rw [node_setNode_of_ne _ _ hq] at hn'
        exact ⟨n', hn', rfl, rfl, (if_neg hq).symm, by simp [hno]⟩

/-- The node will lose its last device to the devices that are still to be closed. -/
def Drops (R : List Nat) (n : PidNode) : Prop := n.devList ≠ [] ∧ ∀ d ∈ n.devList, d ∈ R

/-- A child and its parent in the middle of `ptrace_detach`: the child may be first. -/
structure Pair (R : List Nat) (n m : PidNode) : Prop where
  workload : n.workload = m.workload
  down : m.detach = true → n.detach = true
  up : n.detach = true → m.detach = true ∨ Drops R m
  drops : Drops R n → m.detach = true ∨ Drops R m

def Loose (R : List Nat) (s : State) : Prop :=
  ∀ c n q m, s.node c = some n → n.parent = some q → s.node q = some m → Pair R n m

theorem Drops.of_filter {l : List Nat} (h : Drops (dev :: R) { n with devList := l })
    (hl : l = n.devList.filter (· ≠ dev)) : Drops (dev :: R) n := by
  obtain ⟨hne, hall⟩ := h
  subst hl
  refine ⟨fun hnil => hne ?_, fun d hd => ?_⟩
  · show n.devList.filter (· ≠ dev) = []
    rw [hnil]
    rfl
  · by_cases hdev : d = dev
    · exact hdev ▸ List.mem_cons_self ..
    · exact hall d (List.mem_filter.mpr ⟨hd, by simpa using hdev⟩)

/-- The parent is flagged once it has lost its last device. -/
theorem Unlinks.drops (h : Unlinks dev s p s') (hq : s.node q = some m) (hq' : s'.node q = some n)
    (hdrops : m.detach = true ∨ Drops (dev :: R) m) : n.detach = true ∨ Drops (dev :: R) n := by
  obtain ⟨m₀, hm₀, -, -, hdev, hd⟩ := h.node q n hq'
  rw [hq] at hm₀
  cases hm₀
  by_cases hdet : m.detach = true
  · exact .inl (hd.mpr (.inl hdet))
  obtain ⟨hne, hall⟩ := hdrops.resolve_left hdet
  by_cases hqp : q = p
  · rw [if_pos hqp] at hdev
    by_cases hnil : m.devList.filter (· ≠ dev) = []
    · have hempties : Empties dev s p := ⟨m, hqp ▸ hq, hnil, Bool.eq_false_iff.mpr hdet⟩
      exact .inl (hd.mpr (.inr ⟨hempties, .inl hqp⟩))
    · refine .inr ⟨by rw [hdev]; exact hnil, fun d hd' => ?_⟩
      rw [hdev] at hd'
      exact hall d (List.mem_filter.mp hd').1
  · rw [if_neg hqp] at hdev
    refine .inr ⟨by rw [hdev]; exact hne, fun d hd' => ?_⟩
    rw [hdev] at hd'
    exact hall d hd'

theorem Unlinks.loose (hs : Unlinks dev s p s') (h : Sound s) (hl : Loose (dev :: R) s)
    (hlinked : ∀ n, s.node p = some n → dev ∈ n.devList) : Loose (dev :: R) s' := by
  intro c n' q m' hn' hpar hm'
  obtain ⟨n, hn, hpar', hw, hdev, hd⟩ := hs.node c n' hn'
  rw [hpar'] at hpar
  obtain ⟨m, hm, -, hw₀, -, hd₀⟩ := hs.node q m' hm'
  have hpair := hl c n q m hn hpar hm
  -- the child is on the list of its parent, and the parent on nobody's
  have hlink : n.initialLink = some q ∧ m.initialLink = none := by
    rcases h.settled.known c n trivial hn with h' | ⟨-, -, r, k, hr, hlink, hk, hk₂⟩ | h'
    · rw [h'.parent] at hpar
      cases hpar
    · rw [hpar] at hr
      cases hr
      rw [hm] at hk
      cases hk
      refine ⟨hlink, ?_⟩
      rcases h.settled.known q m trivial hm with h' | h' | h'
      · exact h'.link
      · rw [h'.initial] at hk₂
        cases hk₂
      · exact h'.link
    · rw [h'.parent] at hpar
      cases hpar
  rw [hlink.1] at hd
  rw [hlink.2] at hd₀
  have hup : n.detach = true ∨ Drops (dev :: R) n → m'.detach = true ∨ Drops (dev :: R) m' :=
    fun hc => hs.drops hm hm' (hc.elim hpair.up hpair.drops)
  refine ⟨by rw [hw, hw₀, hpair.workload], fun hdet => ?_, fun hdet => ?_, fun hdrops => ?_⟩
  · rcases hd₀.mp hdet with hold | ⟨hempties, hq | hq⟩
    · exact hd.mpr (.inl (hpair.down hold))
    · exact hd.mpr (.inr ⟨hempties, .inr (congrArg some hq)⟩)
    · cases hq
  · rcases hd.mp hdet with hold | ⟨hempties, hc | hq⟩
    · exact hup (.inl hold)
    · refine hup (.inr ?_)
      obtain ⟨k, hk, hnil, -⟩ := hempties
      rw [← hc, hn] at hk
      cases hk
      refine ⟨List.ne_nil_of_mem (hlinked n (hc ▸ hn)), fun d hd' => ?_⟩
      by_contra hne
      have hdev' : d ≠ dev := by
        rintro rfl
        exact hne (List.mem_cons_self ..)
      have hmem : d ∈ n.devList.filter (· ≠ dev) := List.mem_filter.mpr ⟨hd', by simpa using hdev'⟩
      rw [hnil] at hmem
      cases hmem
    · exact .inl (hd₀.mpr (.inr ⟨hempties, .inl (Option.some.inj hq)⟩))
  · refine hup (.inr ?_)
    by_cases hc : c = p
    · rw [if_pos hc] at hdev
      exact Drops.of_filter ⟨hdrops.1, hdrops.2⟩ hdev
    · rw [if_neg hc] at hdev
      exact ⟨by rw [← hdev]; exact hdrops.1, fun d hd' => hdrops.2 d (by rw [hdev]; exact hd')⟩

/-- The loop over the nodes linked to a device. -/
theorem foldl_detachLink (ks : List Nat) (hks : ks.Nodup) (h : Sound s) (hl : Loose (dev :: R) s)
    (hlinked : ∀ p ∈ ks, ∀ n, s.node p = some n → dev ∈ n.devList)
    (hs : s' = ks.foldl (State.detachLink dev) s) :
    Sound s' ∧ Loose (dev :: R) s' ∧ Sends (fun _ => False) s s' ∧
      ∀ q n', s'.node q = some n' → dev ∈ n'.devList →
        q ∉ ks ∧ ∃ n, s.node q = some n ∧ dev ∈ n.devList := by
  induction ks generalizing s with
  | nil =>
    cases hs
    exact ⟨h, hl, Sends.of_eq rfl, fun q n' hn' hmem => ⟨List.not_mem_nil, n', hn', hmem⟩⟩
  | cons p ks ih =>
    obtain ⟨hp, hks'⟩ := List.nodup_cons.mp hks
    have hun := detachLink_unlinks dev s p
    have hkeep : ∀ r, r ∈ ks → ∀ n', (State.detachLink dev s p).node r = some n' →
        dev ∈ n'.devList := by
      intro r hr n' hn'
      obtain ⟨n, hn, -, -, hdev, -⟩ := hun.node r n' hn'
      have hrp : r ≠ p := by
        rintro rfl
        exact hp hr
      rw [hdev, if_neg hrp]
      exact hlinked r (List.mem_cons_of_mem _ hr) n hn
    obtain ⟨hsound, hloose, hsends, hleft⟩ := ih hks' (detachLink_sound dev h p)
      (hun.loose h hl (hlinked p (List.mem_cons_self ..))) hkeep hs
    refine ⟨hsound, hloose, hun.sends.trans hsends, fun q n' hn' hmem => ?_⟩
    obtain ⟨hq, n₁, hn₁, hmem₁⟩ := hleft q n' hn' hmem
    obtain ⟨n, hn, -, -, hdev, -⟩ := hun.node q n₁ hn₁
    have hqp : q ≠ p := by
      rintro rfl
      rw [hdev, if_pos rfl] at hmem₁
      simp at hmem₁
    rw [hdev, if_neg hqp] at hmem₁
    exact ⟨fun hmem' => (List.mem_cons.mp hmem').elim hqp hq, n, hn, hmem₁⟩

theorem detachDev_loose (h : Sound s) (hl : Loose (dev :: R) s) :
    Sound (s.detachDev dev) ∧ Loose R (s.detachDev dev) ∧
      Sends (fun _ => False) s (s.detachDev dev) := by
  have hmem : ∀ p n, s.node p = some n →
      (p ∈ (s.pidList.keys.filter fun p => dev ∈ ((s.node p).map PidNode.devList).getD []) ↔
        dev ∈ n.devList) := by
    intro p n hn
    rw [List.mem_filter, hn]
    simp [Table.mem_of_val (show s.pidList.val p = some n from hn)]
  obtain ⟨hsound, hloose, hsends, hleft⟩ := foldl_detachLink _
    (s.pidList.sorted.nodup.filter _) h hl (fun p hp n hn => (hmem p n hn).mp hp) rfl
  have hgone : ∀ q n', (s.detachDev dev).node q = some n' → dev ∉ n'.devList := by
    intro q n' hn' hdev
    obtain ⟨hq, n, hn, hdev'⟩ := hleft q n' hn' hdev
    exact hq ((hmem q n hn).mpr hdev')
  refine ⟨hsound, fun c n q m hn hpar hm => ?_, hsends⟩
  have hpair := hloose c n q m hn hpar hm
  have hdrops : Drops (dev :: R) m → Drops R m := fun hd =>
    ⟨hd.1, fun d hd' => (List.mem_cons.mp (hd.2 d hd')).resolve_left fun he =>
      hgone q m hm (he ▸ hd')⟩
  refine ⟨hpair.workload, hpair.down, fun hdet => (hpair.up hdet).imp_right hdrops, fun hd => ?_⟩
  exact (hpair.drops ⟨hd.1, fun d hd' => List.mem_cons_of_mem _ (hd.2 d hd')⟩).imp_right hdrops

theorem detachDevs_loose (devs : List Nat) (h : Sound s) (hl : Loose devs s) :
    Loose [] (s.detachDevs devs) ∧ Sends (fun _ => False) s (s.detachDevs devs) := by
  unfold State.detachDevs
  induction devs generalizing s with
  | nil => exact ⟨hl, Sends.of_eq rfl⟩
  | cons dev devs ih =>
    obtain ⟨hsound, hloose, hsends⟩ := detachDev_loose h hl
    obtain ⟨hloose', hsends'⟩ := ih hsound hloose
    exact ⟨hloose', hsends.trans hsends'⟩

theorem detachDevs_agrees {devs : List Nat} (h : Sound s) (ha : Agrees s)
    (hok : Together s (.detach devs)) :
    Agrees (s.detachDevs devs) ∧ Sends (fun _ => False) s (s.detachDevs devs) := by
  have hloose : Loose devs s := by
    intro c n q m hn hpar hm
    obtain ⟨hd, hw⟩ := ha c n q m hn hpar hm
    refine ⟨hw, fun hm' => hd.trans hm', fun hn' => .inl (hd.symm.trans hn'), fun hdrops => ?_⟩
    cases hdet : n.detach with
    | true => exact .inl (hd.symm.trans hdet)
    | false => exact .inr (hok c n q m hn hpar hm hdet hdrops)
  obtain ⟨hend, hsends⟩ := detachDevs_loose devs h hloose
  refine ⟨fun c n q m hn hpar hm => ?_, hsends⟩
  have hpair := hend c n q m hn hpar hm
  refine ⟨Bool.eq_iff_iff.mpr ⟨fun hn' => ?_, hpair.down⟩, hpair.workload⟩
  rcases hpair.up hn' with hm' | ⟨hne, hall⟩
  · exact hm'
  · obtain ⟨d, hd⟩ := List.exists_mem_of_ne_nil _ hne
    exact absurd (hall d hd) List.not_mem_nil

end Detach

section Runs
variable {s s' : State} {a : Act} {c p : Nat} {m : PidNode}

theorem Agrees.init : Agrees init := by
  intro c n q m hn
  cases hn

theorem Agrees.step (ha : Agrees s) (h : Sound s) (hok : Steady s a) (hs : step s a = some s') :
    Agrees s' ∧ Sends (Detaches s a) s s' := by
  cases a with
  | attach dev workload seized threads =>
    cases hs
    have hatt := ptraceAttach_attached dev workload seized threads s
    exact ⟨hatt.agrees h ha hok.2, Sends.of_eq hatt.calls⟩
  | detach devs =>
    cases hs
    exact detachDevs_agrees h ha hok.2
  | fork p c =>
    simp only [Ptrace.step] at hs
    split at hs
    · cases hs
      exact ⟨ha, Sends.of_eq rfl⟩
    · cases hs
  | kill p =>
    cases hs
    exact ⟨ha, Sends.of_eq rfl⟩
  | forkEvent p killed clone =>
    simp only [Ptrace.step] at hs
    split at hs
    · rename_i c reaped hp
      cases hs
      obtain ⟨rfl, -, -⟩ := hok.1 c reaped hp
      exact forkEvent_agrees h ha hok.2 hp rfl
    · cases hs
  | stopEvent p killed clone =>
    simp only [Ptrace.step] at hs
    split at hs
    · rename_i hp
      cases hs
      exact stopEvent_agrees h ha hok.2 hp rfl
    · cases hs
  | exit p =>
    simp only [Ptrace.step] at hs
    split at hs
    · cases hs
      have hreap : Handles (Detaches s (.exit p)) s { s with
          proc := Function.update (fun q => (s.proc q).reap p) p .untraced } :=
        Handles.of_node (fun _ => rfl) (Sends.of_eq rfl)
      have hput := hreap.trans (Handles.putPid _ p)
      exact ⟨ha.handles hput, hput.calls⟩
    · cases hs

/-- A child that waits for its parent's report or has been reported by it. -/
def ForkedBy (s : State) (c p : Nat) : Prop :=
  s.proc p = .forking c false ∨ ∃ n, s.node c = some n ∧ n.parent = some p

/-- The child of a process that is attached is not what a step detaches. -/
theorem not_detaches (h : Sound s) (ha : Agrees s) (hs : step s a = some s') (hc : ForkedBy s c p)
    (hp : s.node p = some m) (hd : m.detach = false) : ¬ Detaches s a c := by
  have hproc : ∀ d r, s.proc c ≠ .forking d r := by
    intro d r hcf
    rcases hc with hf | ⟨n, hn, hpar⟩
    · have hno := (h.settled.forks p c hf).proc
      simp [hcf] at hno
    · obtain ⟨k, hk, hstarted⟩ := h.forking_node hcf
      rw [hn] at hk
      cases hk
      rw [hstarted.parent] at hpar
      cases hpar
  intro hdet
  cases a with
  | forkEvent p' killed clone =>
    obtain ⟨⟨n', hn', hd'⟩, hcp | hf'⟩ := hdet
    · simp only [Ptrace.step] at hs
      split at hs
      · rename_i d r hp'
        exact hproc d r (hcp ▸ hp')
      · cases hs
    · rcases hc with hf | ⟨n, hn, hpar⟩
      · rw [h.settled.once p p' c hf hf', hn'] at hp
        cases hp
        rw [hd'] at hd
        cases hd
      · rw [((h.settled.forks p' c hf').node n hn).2] at hpar
        cases hpar
  | stopEvent p' killed clone =>
    obtain ⟨rfl, n', hn', hd'⟩ := hdet
    rcases hc with hf | ⟨n, hn, hpar⟩
    · have hwaits := (h.settled.forks p c hf).node n' hn'
      simp only [Ptrace.step] at hs
      split at hs
      · rename_i hstop
        rcases h.settled.known c n' trivial hn' with h' | ⟨-, -, q, k, hq, -⟩ | h'
        · have hno := h'.initial
          rw [hwaits.1] at hno
          cases hno
        · rw [hwaits.2] at hq
          cases hq
        · have hno := h'.proc
          rcases hstop with h'' | h'' <;> rw [h''] at hno <;> simp at hno
      · cases hs
    · have hagree := (ha c n p m hn hpar hp).1
      rw [hn] at hn'
      cases hn'
      rw [hagree, hd] at hd'
      cases hd'
  | _ => exact hdet

theorem Reaches.steady (h : Reaches Steady s) :
    Sound s ∧ Agrees s ∧ Call.bug .detachNotEqual ∉ s.calls := by
  induction h with
  | init => exact ⟨Sound.init, Agrees.init, List.not_mem_nil⟩
  | step _ hok hs ih =>
    obtain ⟨hsound, hagrees, hcalls⟩ := ih
    obtain ⟨hagrees', l, hl, hall⟩ := hagrees.step hsound hok hs
    refine ⟨hsound.step hok.1 hs, hagrees', fun hmem => ?_⟩
    rw [hl] at hmem
    exact (List.mem_append.mp hmem).elim hcalls (hall _)

/-- In every run of such steps a child that waits has the flags of its parent, the message is not
printed, and no step detaches the child of a process that is attached. -/
theorem detached_together (h : Reaches Steady s) :
    Agrees s ∧ Call.bug .detachNotEqual ∉ s.calls ∧
      ∀ a s' c p m, Steady s a → step s a = some s' → ForkedBy s c p → s.node p = some m →
        m.detach = false → ∃ l, s'.calls = s.calls ++ l ∧ Call.detach c ∉ l := by
  obtain ⟨hsound, hagrees, hcalls⟩ := h.steady
  refine ⟨hagrees, hcalls, fun a s' c p m hok hs hc hp hd => ?_⟩
  obtain ⟨-, l, hl, hall⟩ := hagrees.step hsound hok hs
  exact ⟨l, hl, fun hmem => not_detaches hsound hagrees hs hc hp hd (hall _ hmem)⟩

/-- A child is reported by its parent before it stops. -/
theorem detached_together_forked : ∃ s, Reaches Steady s ∧ Agrees s ∧
    Call.bug .detachNotEqual ∉ s.calls ∧ (s.node 2).bind PidNode.parent = some 1 := by
  have hattach := (Reaches.init : Reaches Steady init).step
    (a := .attach 9 false (fun _ => true) [1]) ⟨trivial, fun c n q hn => by cases hn⟩ rfl
  have hfork := hattach.step (a := .fork 1 2) ⟨rfl, trivial⟩ rfl
  have hevent := hfork.step (a := .forkEvent 1 false fun _ => some 10) ⟨?_, ?_⟩ rfl
  · have hall := detached_together hevent
    exact ⟨_, hevent, hall.1, hall.2.1, rfl⟩
  · intro c reaped hp
    cases hp
    refine ⟨rfl, fun _ _ _ => rfl, fun n k _ hk => ?_⟩
    cases hk
  · intro c n k hp _ hk
    cases hp
    cases hk

/-- A process is detached and attached again before the child that it has forked stops: the child
is still flagged. -/
theorem attached_again : ∃ s, Reaches (fun _ _ => True) s ∧ Call.bug .detachNotEqual ∈ s.calls ∧
    Call.detach 2 ∈ s.calls ∧ (s.node 1).map PidNode.detach = some false := by
  let acts : List Act := [.attach 9 false (fun _ => true) [1], .fork 1 2,
    .forkEvent 1 false fun _ => some 10, .detach [9], .attach 9 false (fun _ => true) [1],
    .stopEvent 2 false fun _ => some 10]
  obtain ⟨s, hs⟩ : ∃ s, run acts init = some s := ⟨_, rfl⟩
  have hcalls : s.calls = [.cont 1, .interrupt 1, .bug .detachNotEqual, .detach 2] := by
    cases hs
    rfl
  refine ⟨s, Reaches.init.run (fun _ _ => trivial) acts hs, ?_, ?_, ?_⟩
  · rw [hcalls]
    decide
  · rw [hcalls]
    decide
  · cases hs
    rfl

end Runs

end PerfProf.Ptrace
