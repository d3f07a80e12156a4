import PerfProf.TaskStateTime

/-! The events that task-state keeps to print them: `mem_bytes` is what the nodes hold, each event
that was copied is held by a node or was freed. -/
namespace PerfProf.TaskState
open PerfProf.Rblist

section Total
variable {l : List Node} {task : Node} {pid : Int}

/-- The sum of a weight over the nodes. -/
def total (w : Node → Nat) (l : List Node) : Nat := (l.map w).sum

/-- The size of the event that a node holds. -/
def heldBytes (node : Node) : Nat := node.event.elim 0 Sample.size

def heldCount (node : Node) : Nat := node.event.elim 0 fun _ => 1

theorem sorted_nodup (h : Sorted Node.pid l) : l.Nodup :=
  List.Pairwise.imp (fun hlt heq => absurd (congrArg Node.pid heq) (ne_of_lt hlt)) h

theorem put_perm (h : Sorted Node.pid l) (task : Node) : (put task l).Perm (task :: remove task.pid l) := by
  have hnot : task ∉ remove task.pid l := fun hin => (mem_remove.mp hin).2 rfl
  refine (List.perm_ext_iff_of_nodup (sorted_nodup (put_sorted h task)) ?_).mpr fun node => ?_
  · exact List.nodup_cons.mpr ⟨hnot, sorted_nodup (remove_sorted h task.pid)⟩
  · rw [mem_put h, List.mem_cons, mem_remove]

theorem find_perm (h : Sorted Node.pid l) (pid : Int) :
    l.Perm ((entryAt Node.pid pid l).toList ++ remove pid l) := by
  have hrest := sorted_nodup (remove_sorted h pid)
  cases hfind : entryAt Node.pid pid l with
  | none =>
    refine (List.perm_ext_iff_of_nodup (sorted_nodup h) hrest).mpr fun node => ?_
    rw [mem_remove]
    refine ⟨fun hin => ⟨hin, fun heq => ?_⟩, And.left⟩
    rw [h.entryAt_eq.mpr ⟨hin, heq⟩] at hfind
    cases hfind
  | some old =>
    obtain ⟨hold, hpid⟩ := h.entryAt_eq.mp hfind
    have hnot : old ∉ remove pid l := fun hin => (mem_remove.mp hin).2 hpid
    refine (List.perm_ext_iff_of_nodup (sorted_nodup h) (List.nodup_cons.mpr ⟨hnot, hrest⟩)).mpr fun node => ?_
    rw [List.mem_cons, mem_remove]
    constructor
    · intro hin
      by_cases heq : node.pid = pid
      · have hnode := h.entryAt_eq.mpr ⟨hin, heq⟩
        rw [hfind] at hnode
        exact Or.inl (Option.some.inj hnode).symm
      · exact Or.inr ⟨hin, heq⟩
    · rintro (rfl | ⟨hin, -⟩)
      · exact hold
      · exact hin

theorem total_put (w : Node → Nat) (h : Sorted Node.pid l) (task : Node) :
    total w (put task l) = w task + total w (remove task.pid l) := by
  rw [total, ((put_perm h task).map w).sum_nat, List.map_cons, List.sum_cons, total]

theorem total_find (w : Node → Nat) (h : Sorted Node.pid l) (pid : Int) :
    total w l = (entryAt Node.pid pid l).elim 0 w + total w (remove pid l) := by
  rw [total, ((find_perm h pid).map w).sum_nat, List.map_append, List.sum_append, total]
  cases entryAt Node.pid pid l with
  | none => rfl
  | some old => simp

end Total

section Accounts
variable {c : Ctx} {s : State} {e : Sample} {pid : Int} {task : Node}

/-- The statistics agree with the events that the nodes hold. -/
structure Accounts (s : State) : Prop where
  sorted : Sorted Node.pid s.tasks
  bytes : s.memBytes = total heldBytes s.tasks % 2 ^ 64
  copies : s.copied = (s.freed + total heldCount s.tasks) % 2 ^ 64
  small : ∀ node ∈ s.tasks, heldBytes node < 2 ^ 64

/-- The event of a node is given up. -/
theorem freeEvent_stat (s : State) (hsmall : heldBytes task < 2 ^ 64) {total count : Nat}
    (hbytes : s.memBytes = (heldBytes task + total) % 2 ^ 64)
    (hcopies : s.copied = (s.freed + (heldCount task + count)) % 2 ^ 64) :
    (s.freeEvent task).memBytes = total % 2 ^ 64 ∧
      (s.freeEvent task).copied = ((s.freeEvent task).freed + count) % 2 ^ 64 := by
  unfold State.freeEvent
  cases hevent : task.event with
  | none =>
    simp only [heldBytes, heldCount, hevent, Option.elim_none, Nat.zero_add] at hbytes hcopies
    exact ⟨hbytes, hcopies⟩
  | some event =>
    simp only [heldBytes, heldCount, hevent, Option.elim_some] at hbytes hcopies hsmall
    constructor
    · show (s.memBytes + (2 ^ 64 - event.size)) % 2 ^ 64 = total % 2 ^ 64
      omega
    · show s.copied = ((s.freed + 1) % 2 ^ 64 + count) % 2 ^ 64
      omega

/-- What the nodes weigh, from the node that is found and the others. -/
theorem Accounts.find_stat (h : Accounts s) {task : Node}
    (hevent : task.event = (s.find pid).bind Node.event) :
    heldBytes task < 2 ^ 64 ∧
      s.memBytes = (heldBytes task + total heldBytes (remove pid s.tasks)) % 2 ^ 64 ∧
      s.copied = (s.freed + (heldCount task + total heldCount (remove pid s.tasks))) % 2 ^ 64 := by
  have hbytes := total_find heldBytes h.sorted pid
  have hcount := total_find heldCount h.sorted pid
  have hheld : heldBytes task = (s.find pid).elim 0 heldBytes ∧ heldCount task = (s.find pid).elim 0 heldCount := by
    unfold heldBytes heldCount
    rw [hevent]
    cases s.find pid with
    | none => exact ⟨rfl, rfl⟩
    | some old => exact ⟨rfl, rfl⟩
  refine ⟨?_, ?_, ?_⟩
  · rw [hheld.1]
    cases hfind : s.find pid with
    | none => simp
    | some old => exact h.small old (find_mem hfind)
  · rw [hheld.1]
    exact h.bytes.trans (by rw [hbytes]; rfl)
  · rw [hheld.2]
    exact h.copies.trans (by rw [hcount]; rfl)

theorem Accounts.log (h : Accounts s) (log : List Charge) : Accounts { s with log := log } :=
  ⟨h.sorted, h.bytes, h.copies, h.small⟩

theorem small_remove (h : Accounts s) (pid : Int) : ∀ node ∈ remove pid s.tasks, heldBytes node < 2 ^ 64 :=
  fun node hin => h.small node (mem_remove.mp hin).1

theorem Accounts.removeNode (h : Accounts s) (hevent : task.event = (s.find task.pid).bind Node.event) :
    Accounts (s.removeNode task) := by
  obtain ⟨hsmall, hbytes, hcopies⟩ := h.find_stat hevent
  obtain ⟨hbytes', hcopies'⟩ := freeEvent_stat s hsmall hbytes hcopies
  exact ⟨remove_sorted h.sorted task.pid, hbytes', hcopies', small_remove h task.pid⟩

/-- The node that is found gets another event. -/
theorem Accounts.swap {u : State} (h : Accounts s) (htasks : u.tasks = s.tasks) (hsmall : heldBytes task < 2 ^ 64)
    (hbytes : u.memBytes = (heldBytes task + total heldBytes (remove task.pid s.tasks)) % 2 ^ 64)
    (hcopies : u.copied = (u.freed + (heldCount task + total heldCount (remove task.pid s.tasks))) % 2 ^ 64) :
    Accounts (u.store task) := by
  refine ⟨?_, ?_, ?_, ?_⟩
  · rw [store_tasks, htasks]
    exact put_sorted h.sorted task
  · rw [store_tasks, htasks, total_put _ h.sorted]
    exact hbytes
  · rw [store_tasks, htasks, total_put _ h.sorted]
    exact hcopies
  · intro node hin
    rw [store_tasks, htasks, mem_put h.sorted] at hin
    obtain rfl | ⟨hin, -⟩ := hin
    · exact hsmall
    · exact h.small node hin

theorem Accounts.store (h : Accounts s) (hevent : task.event = (s.find task.pid).bind Node.event) :
    Accounts (s.store task) := by
  obtain ⟨hsmall, hbytes, hcopies⟩ := h.find_stat hevent
  exact h.swap rfl hsmall hbytes hcopies

theorem Accounts.drop (h : Accounts s) (hevent : task.event = (s.find task.pid).bind Node.event) :
    Accounts ((s.freeEvent task).store { task with event := none }) := by
  obtain ⟨hsmall, hbytes, hcopies⟩ := h.find_stat hevent
  obtain ⟨hbytes', hcopies'⟩ := freeEvent_stat s hsmall hbytes hcopies
  refine h.swap (freeEvent_tasks s task) (by simp [heldBytes]) ?_ ?_
  · simpa [heldBytes] using hbytes'
  · simpa [heldCount] using hcopies'

theorem Accounts.keep (h : Accounts s) (hevent : task.event = (s.find task.pid).bind Node.event)
    (hsize : e.size < 2 ^ 16) : Accounts (((s.freeEvent task).keepEvent e).store { task with event := some e }) := by
  obtain ⟨hsmall, hbytes, hcopies⟩ := h.find_stat hevent
  obtain ⟨hbytes', hcopies'⟩ := freeEvent_stat s hsmall hbytes hcopies
  refine h.swap (freeEvent_tasks s task) ?_ ?_ ?_
  · show e.size < 2 ^ 64
    omega
  · show ((s.freeEvent task).memBytes + e.size) % 2 ^ 64 =
      (e.size + total heldBytes (remove task.pid s.tasks)) % 2 ^ 64
    omega
  · show ((s.freeEvent task).copied + 1) % 2 ^ 64 =
      ((s.freeEvent task).freed + (1 + total heldCount (remove task.pid s.tasks))) % 2 ^ 64
    omega

theorem Accounts.record (h : Accounts s) (prints : Bool) (keyOf : Nat → Option Nat) (pid : Int) :
    Accounts (s.record c e prints keyOf (s.find pid)) ∧
      (s.record c e prints keyOf (s.find pid)).find = s.find := by
  obtain ⟨charges, heq, -⟩ := record_eq c s e prints keyOf pid
  rw [heq]
  exact ⟨h.log _, rfl⟩

theorem switchPrev_accounts (h : Accounts s) (hsize : e.size < 2 ^ 16) : Accounts (s.switchPrev c e) := by
  by_cases hpid : 0 < e.prevPid
  · obtain ⟨hrec, hfind⟩ := h.record (c := c) (e := e) false State.runKey e.prevPid
    simp only [State.switchPrev, if_pos hpid]
    split
    · exact hrec.removeNode (by rw [hfind])
    · split
      · exact hrec.keep (by rw [hfind]) hsize
      · exact hrec.store (by rw [hfind])
  · rw [State.switchPrev, if_neg hpid]
    exact h

theorem switchNext_accounts (h : Accounts s) : Accounts (s.switchNext c e) := by
  by_cases hpid : 0 < e.nextPid
  · obtain ⟨hrec, hfind⟩ := h.record (c := c) (e := e) true State.delayKey e.nextPid
    simp only [State.switchNext, if_pos hpid]
    split
    · exact hrec.drop (by rw [hfind])
    · exact hrec.store (by rw [hfind])
  · rw [State.switchNext, if_neg hpid]
    exact h

theorem wakeup_accounts (h : Accounts s) (hsize : e.size < 2 ^ 16) : Accounts (s.wakeup c e) := by
  obtain ⟨hrec, hfind⟩ := h.record (c := c) (e := e) true (State.waitKey c) e.pid
  simp only [State.wakeup]
  split
  · cases hold : s.find e.pid with
    | none =>
      rw [hold] at hrec
      exact hrec
    | some task =>
      rw [hold] at hrec hfind
      refine hrec.removeNode ?_
      rw [hfind, find_pid hold, hold]
      rfl
  · split
    · exact hrec.keep (by rw [hfind]) hsize
    · exact hrec.store (by rw [hfind])

theorem process_accounts (c : Ctx) (h : Accounts s) (hsize : e.size < 2 ^ 16) : Accounts (s.process c e) := by
  unfold State.process
  split
  · exact h
  · dsimp only
    split
    · exact switchNext_accounts (switchPrev_accounts h hsize)
    · exact switchPrev_accounts h hsize
  · exact switchNext_accounts h
  · exact wakeup_accounts h hsize
  · exact wakeup_accounts h hsize

/-- `rblist__exit` frees what the nodes hold. -/
theorem exit_stat (l : List Node) (hsmall : ∀ node ∈ l, heldBytes node < 2 ^ 64)
    (hbytes : s.memBytes = total heldBytes l % 2 ^ 64)
    (hcopies : s.copied = (s.freed + total heldCount l) % 2 ^ 64) :
    (l.foldl State.freeEvent s).memBytes = 0 ∧
      (l.foldl State.freeEvent s).copied = (l.foldl State.freeEvent s).freed % 2 ^ 64 := by
  induction l generalizing s with
  | nil => exact ⟨hbytes, hcopies⟩
  | cons node l ih =>
    obtain ⟨hbytes', hcopies'⟩ := freeEvent_stat s (hsmall node (List.mem_cons_self ..)) hbytes hcopies
    exact ih (fun node' hin => hsmall node' (List.mem_cons_of_mem _ hin)) hbytes' hcopies'

theorem exit_accounts (h : Accounts s) : Accounts s.exit := by
  obtain ⟨hbytes, hcopies⟩ := exit_stat s.tasks h.small h.bytes h.copies
  exact ⟨.nil, hbytes, hcopies, by simp [State.exit]⟩

theorem eventLost_accounts (e : Sample) (L : List TaskLost) (h : Accounts s) :
    Accounts (State.eventLost e L s).1 := by
  have hlist : ∀ {u : State} (M : List TaskLost), Accounts u → Accounts { u with lostList := M } :=
    fun M hu => ⟨hu.sorted, hu.bytes, hu.copies, hu.small⟩
  induction L generalizing s with
  | nil => exact hlist _ h
  | cons lost rest ih =>
    have hexit : Accounts (if lost.reclaim then s else s.exit) := by
      split
      · exact h
      · exact exit_accounts h
    unfold State.eventLost
    split
    · exact hlist _ h
    · dsimp only
      split
      · exact hlist _ hexit
      · exact ih hexit

theorem step_accounts (c : Ctx) (h : Accounts s) {x : Input} (hsize : ∀ e, x = .sample e → e.size < 2 ^ 16) :
    Accounts (s.step c x) := by
  cases x with
  | sample e =>
    have hrecent : Accounts { s with recentTime := max s.recentTime e.time } :=
      ⟨h.sorted, h.bytes, h.copies, h.small⟩
    have hlost := eventLost_accounts e s.lostList hrecent
    show Accounts (s.sample c e)
    unfold State.sample
    dsimp only
    split
    · exact hrecent
    · split
      · rename_i heq
        rw [heq] at hlost
        exact hlost
      · rename_i heq
        rw [heq] at hlost
        exact process_accounts c hlost (hsize e rfl)
  | lost ins ls le =>
    show Accounts (s.lost c ins ls le)
    unfold State.lost
    split
    · exact h
    · exact ⟨h.sorted, h.bytes, h.copies, h.small⟩
  | commDelete pid freeTime =>
    show Accounts (s.notify pid freeTime)
    unfold State.notify
    cases hfind : s.find pid with
    | none => exact h
    | some task =>
      dsimp only
      split
      · refine h.removeNode ?_
        rw [find_pid hfind, hfind]
        rfl
      · exact h

theorem run_accounts (c : Ctx) (inputs : List Input) (h : ∀ e ∈ samples inputs, e.size < 2 ^ 16) :
    Accounts (run c inputs) := by
  induction inputs using List.reverseRecOn with
  | nil => exact ⟨.nil, rfl, rfl, by simp [run, start]⟩
  | append_singleton inputs x ih =>
    rw [samples_concat] at h
    rw [run_concat]
    refine step_accounts c (ih fun e he => h e (List.mem_append_left _ he)) ?_
    rintro e rfl
    exact h e (List.mem_append_right _ (List.mem_singleton.mpr rfl))

/-- After any inputs `mem_bytes` is the size of the events that the nodes hold, and a copied event is
held by a node or was freed, once; when the nodes are deleted nothing is left. -/
theorem task_state_memory (c : Ctx) (inputs : List Input) (h : ∀ e ∈ samples inputs, e.size < 2 ^ 16) :
    (run c inputs).memBytes = total heldBytes (run c inputs).tasks % 2 ^ 64 ∧
      (run c inputs).copied = ((run c inputs).freed + total heldCount (run c inputs).tasks) % 2 ^ 64 ∧
      (run c inputs).exit.memBytes = 0 ∧
      (run c inputs).exit.copied = (run c inputs).exit.freed % 2 ^ 64 := by
  have haccounts := run_accounts c inputs h
  obtain ⟨hbytes, hcopies⟩ := exit_stat _ haccounts.small haccounts.bytes haccounts.copies
  exact ⟨haccounts.bytes, haccounts.copies, hbytes, hcopies⟩

/-- With the event of each switch and wakeup kept. -/
theorem task_state_memory_sleepLoss :
    (run ⟨false, false, 0, true, 0, true⟩ (sleepLoss.take 2)).memBytes = 64 ∧
      (run ⟨false, false, 0, true, 0, true⟩ (sleepLoss.take 2)).exit.memBytes = 0 :=
  ⟨by decide, (task_state_memory ⟨false, false, 0, true, 0, true⟩ (sleepLoss.take 2) (by decide)).2.2.1⟩

end Accounts

end PerfProf.TaskState
