import Mathlib.Data.List.Induction
import PerfProf.TaskState

/-! The times that task-state records for a task do not overlap, lie between events of the task,
and stay clear of the windows in which events were lost. -/
namespace PerfProf.TaskState
open PerfProf.Rblist

section Touch
variable {c : Ctx} {s s' : State} {e : Sample} {pid : Int} {task : Node}

/-- The tasks whose states an event can change. -/
def names (c : Ctx) (e : Sample) : List Int :=
  match e.evsel with
  | none => []
  | some .schedSwitch => if c.mode = 0 then [e.prevPid, e.nextPid] else [e.prevPid]
  | some .schedSwitchNext => [e.nextPid]
  | some .schedWakeup => [e.pid]
  | some .schedWakeupNew => [e.pid]

/-- What an event does with one task: it may record the time since the last change, and the node
is removed or changed. If something is recorded, a new time starts. -/
structure Touch (e : Sample) (pid : Int) (s s' : State) : Prop where
  lostList : s'.lostList = s.lostList
  recentTime : s'.recentTime = s.recentTime
  logged : ∃ charges, s'.log = s.log ++ charges ∧ charges.length ≤ 1 ∧
    (∀ a ∈ charges, ∃ task, s.find pid = some task ∧ a.pid = pid ∧ a.start = task.time ∧
      a.stop = e.time ∧ task.time < e.time) ∧
    (s'.tasks = remove pid s.tasks ∨
      ∃ node : Node, node.pid = pid ∧ s'.tasks = put node s.tasks ∧
        (node.time = e.time ∨
          charges = [] ∧ ∃ task, s.find pid = some task ∧ node.time = task.time))

@[simp] theorem freeEvent_log (s : State) (task : Node) : (s.freeEvent task).log = s.log := by
  unfold State.freeEvent
  cases task.event <;> rfl

@[simp] theorem freeEvent_tasks (s : State) (task : Node) : (s.freeEvent task).tasks = s.tasks := by
  unfold State.freeEvent
  cases task.event <;> rfl

@[simp] theorem freeEvent_lostList (s : State) (task : Node) : (s.freeEvent task).lostList = s.lostList := by
  unfold State.freeEvent
  cases task.event <;> rfl

@[simp] theorem freeEvent_recentTime (s : State) (task : Node) :
    (s.freeEvent task).recentTime = s.recentTime := by
  unfold State.freeEvent
  cases task.event <;> rfl

@[simp] theorem keepEvent_log (s : State) (e : Sample) : (s.keepEvent e).log = s.log := rfl

@[simp] theorem keepEvent_tasks (s : State) (e : Sample) : (s.keepEvent e).tasks = s.tasks := rfl

@[simp] theorem keepEvent_lostList (s : State) (e : Sample) : (s.keepEvent e).lostList = s.lostList := rfl

@[simp] theorem keepEvent_recentTime (s : State) (e : Sample) :
    (s.keepEvent e).recentTime = s.recentTime := rfl

@[simp] theorem store_log (s : State) (task : Node) : (s.store task).log = s.log := rfl

@[simp] theorem store_tasks (s : State) (task : Node) : (s.store task).tasks = put task s.tasks := rfl

@[simp] theorem store_lostList (s : State) (task : Node) : (s.store task).lostList = s.lostList := rfl

@[simp] theorem store_recentTime (s : State) (task : Node) :
    (s.store task).recentTime = s.recentTime := rfl

@[simp] theorem removeNode_log (s : State) (task : Node) : (s.removeNode task).log = s.log := by
  simp [State.removeNode]

@[simp] theorem removeNode_tasks (s : State) (task : Node) :
    (s.removeNode task).tasks = remove task.pid s.tasks := rfl

@[simp] theorem removeNode_lostList (s : State) (task : Node) : (s.removeNode task).lostList = s.lostList := by
  simp [State.removeNode]

@[simp] theorem removeNode_recentTime (s : State) (task : Node) :
    (s.removeNode task).recentTime = s.recentTime := by
  simp [State.removeNode]

theorem find_pid (h : s.find pid = some task) : task.pid = pid := by
  have hkey := List.find?_some (p := fun a : Node => decide (a.pid = pid)) h
  exact of_decide_eq_true hkey

theorem find_mem (h : s.find pid = some task) : task ∈ s.tasks := List.mem_of_find?_eq_some h

/-- The record of an old node, if there is one. -/
theorem record_eq (c : Ctx) (s : State) (e : Sample) (prints : Bool) (keyOf : Nat → Option Nat) (pid : Int) :
    ∃ charges, s.record c e prints keyOf (s.find pid) = { s with log := s.log ++ charges } ∧
      charges.length ≤ 1 ∧
      (∀ a ∈ charges, ∃ task, s.find pid = some task ∧ keyOf task.state = some a.key ∧ a.pid = pid ∧
        a.start = task.time ∧ a.stop = e.time ∧ task.time < e.time) ∧
      ∀ task key, s.find pid = some task → keyOf task.state = some key → task.time < e.time →
        ∃ printed, charges = [⟨pid, key, task.time, e.time, printed⟩] := by
  have hnone : s = { s with log := s.log ++ [] } := by simp
  unfold State.record
  cases hfind : s.find pid with
  | none => exact ⟨[], hnone, by simp, by simp, by simp⟩
  | some task =>
    dsimp only
    by_cases htime : task.time < e.time
    · rw [if_pos htime]
      cases hkey : keyOf task.state with
      | none =>
        refine ⟨[], hnone, by simp, by simp, ?_⟩
        rintro task' key ⟨⟩ hkey' -
        rw [hkey] at hkey'
        cases hkey'
      | some key =>
        refine ⟨_, rfl, by simp, fun a ha => ⟨task, rfl, ?_⟩, ?_⟩
        · rw [List.mem_singleton] at ha
          subst ha
          exact ⟨hkey, find_pid hfind, rfl, rfl, htime⟩
        · rintro task' key' ⟨⟩ hkey' -
          rw [hkey] at hkey'
          cases hkey'
          rw [find_pid hfind]
          exact ⟨_, rfl⟩
    · rw [if_neg htime]
      refine ⟨[], hnone, by simp, by simp, ?_⟩
      rintro task' key ⟨⟩ - hlt
      exact absurd hlt htime

theorem switchPrev_touch (c : Ctx) (s : State) (e : Sample) (hpid : 0 < e.prevPid) :
    Touch e e.prevPid s (s.switchPrev c e) := by
  obtain ⟨charges, hlog, hone, hcharges, -⟩ := record_eq c s e false State.runKey e.prevPid
  have hcharges' : ∀ a ∈ charges, ∃ task, s.find e.prevPid = some task ∧ a.pid = e.prevPid ∧
      a.start = task.time ∧ a.stop = e.time ∧ task.time < e.time := by
    intro a ha
    obtain ⟨task, hfind, -, hrest⟩ := hcharges a ha
    exact ⟨task, hfind, hrest⟩
  let state := if e.prevState = c.reportMax then TASK_RUNNING else e.prevState
  simp only [State.switchPrev, if_pos hpid, hlog]
  split
  · exact ⟨by simp, by simp, charges, by simp, hone, hcharges', Or.inl (by simp)⟩
  · split
    · exact ⟨by simp, by simp, charges, by simp, hone, hcharges',
        Or.inr ⟨⟨e.prevPid, state, e.time, some e⟩, rfl, by simp [state], Or.inl rfl⟩⟩
    · exact ⟨by simp, by simp, charges, by simp, hone, hcharges',
        Or.inr ⟨⟨e.prevPid, state, e.time, (s.find e.prevPid).bind Node.event⟩, rfl, by simp [state], Or.inl rfl⟩⟩

theorem switchNext_touch (c : Ctx) (s : State) (e : Sample) (hpid : 0 < e.nextPid) :
    Touch e e.nextPid s (s.switchNext c e) := by
  obtain ⟨charges, hlog, hone, hcharges, -⟩ := record_eq c s e true State.delayKey e.nextPid
  have hcharges' : ∀ a ∈ charges, ∃ task, s.find e.nextPid = some task ∧ a.pid = e.nextPid ∧
      a.start = task.time ∧ a.stop = e.time ∧ task.time < e.time := by
    intro a ha
    obtain ⟨task, hfind, -, hrest⟩ := hcharges a ha
    exact ⟨task, hfind, hrest⟩
  simp only [State.switchNext, if_pos hpid, hlog]
  split
  · exact ⟨by simp, by simp, charges, by simp, hone, hcharges',
      Or.inr ⟨⟨e.nextPid, TASK_RUNNING, e.time, none⟩, rfl, by simp, Or.inl rfl⟩⟩
  · exact ⟨by simp, by simp, charges, by simp, hone, hcharges',
      Or.inr ⟨⟨e.nextPid, TASK_RUNNING, e.time, (s.find e.nextPid).bind Node.event⟩, rfl, by simp, Or.inl rfl⟩⟩

/-- A wakeup that leaves the time alone has found the task running, and records nothing. -/
theorem wakeup_touch (c : Ctx) (s : State) (e : Sample) : Touch e e.pid s (s.wakeup c e) := by
  obtain ⟨charges, hlog, hone, hcharges, -⟩ := record_eq c s e true (State.waitKey c) e.pid
  have hcharges' : ∀ a ∈ charges, ∃ task, s.find e.pid = some task ∧ a.pid = e.pid ∧
      a.start = task.time ∧ a.stop = e.time ∧ task.time < e.time := by
    intro a ha
    obtain ⟨task, hfind, -, hrest⟩ := hcharges a ha
    exact ⟨task, hfind, hrest⟩
  have hquiet : ∀ task, s.find e.pid = some task → task.state = TASK_RUNNING → charges = [] := by
    intro task hfind hstate
    refine List.eq_nil_iff_forall_not_mem.mpr fun a ha => ?_
    obtain ⟨task', hfind', hkey, -⟩ := hcharges a ha
    rw [hfind] at hfind'
    cases hfind'
    rw [hstate, State.waitKey, TASK_RUNNING, Nat.zero_and, if_neg (by simp)] at hkey
    cases hkey
  simp only [State.wakeup, hlog]
  split
  · cases hfind : s.find e.pid with
    | none =>
      have hkeep : remove e.pid s.tasks = s.tasks := by
        refine List.filter_eq_self.mpr fun node hnode => ?_
        have hne := List.find?_eq_none.mp hfind node hnode
        simpa using hne
      exact ⟨rfl, rfl, charges, rfl, hone, hfind ▸ hcharges', Or.inl hkeep.symm⟩
    | some task =>
      have hpid := find_pid hfind
      exact ⟨by simp, by simp, charges, by simp, hone, hfind ▸ hcharges', Or.inl (by simp [hpid])⟩
  · have htime : State.wakeTime e (s.find e.pid) = e.time ∨
        charges = [] ∧ ∃ task, s.find e.pid = some task ∧ State.wakeTime e (s.find e.pid) = task.time := by
      cases hfind : s.find e.pid with
      | none => exact Or.inl rfl
      | some task =>
        rw [State.wakeTime]
        by_cases hreset : task.state ≠ TASK_RUNNING ∨ e.evsel = some .schedWakeupNew
        · rw [if_pos hreset]
          exact Or.inl rfl
        · rw [if_neg hreset]
          have hrun : task.state = TASK_RUNNING := by
            by_contra hne
            exact hreset (Or.inl hne)
          exact Or.inr ⟨hquiet task hfind hrun, task, rfl, rfl⟩
    split
    · exact ⟨by simp, by simp, charges, by simp, hone, hcharges',
        Or.inr ⟨⟨e.pid, TASK_RUNNING, State.wakeTime e (s.find e.pid), some e⟩, rfl, by simp, htime⟩⟩
    · exact ⟨by simp, by simp, charges, by simp, hone, hcharges',
        Or.inr ⟨⟨e.pid, TASK_RUNNING, State.wakeTime e (s.find e.pid), (s.find e.pid).bind Node.event⟩,
          rfl, by simp, htime⟩⟩

end Touch

section Windows
variable {c : Ctx} {s : State} {e : Sample} {t : Nat} {L : List TaskLost} {lost : TaskLost}

/-- The windows that are left after an event at time `t`. -/
def settle (t : Nat) : List TaskLost → List TaskLost
  | [] => []
  | lost :: rest =>
    if t ≤ lost.startTime then lost :: rest
    else if t < lost.endTime then { lost with reclaim := true } :: rest
    else settle t rest

/-- The windows whose start an event at time `t` finds behind it. -/
def crossed (t : Nat) : List TaskLost → List TaskLost
  | [] => []
  | lost :: rest =>
    if t ≤ lost.startTime then []
    else if t < lost.endTime then [lost]
    else lost :: crossed t rest

/-- The event is inside the first window that is left. -/
def inside (t : Nat) (L : List TaskLost) : Bool := (settle t L).head?.any fun lost => lost.startTime < t

/-- A window that is crossed for the first time drops what is known of all tasks. -/
def wipes (t : Nat) (L : List TaskLost) : Bool := (crossed t L).any fun lost => !lost.reclaim

theorem exit_same (s : State) : s.exit.log = s.log ∧ s.exit.recentTime = s.recentTime := by
  have hfold : ∀ (l : List Node) (u : State), (l.foldl State.freeEvent u).log = u.log ∧
      (l.foldl State.freeEvent u).recentTime = u.recentTime := by
    intro l
    induction l with
    | nil => exact fun u => ⟨rfl, rfl⟩
    | cons node l ih =>
      intro u
      obtain ⟨hlog, htime⟩ := ih (u.freeEvent node)
      exact ⟨hlog.trans (freeEvent_log u node), htime.trans (freeEvent_recentTime u node)⟩
  exact hfold s.tasks s

/-- The loop of `task_state_event_lost` in terms of the windows. -/
theorem eventLost_spec (e : Sample) (L : List TaskLost) (s : State) :
    (State.eventLost e L s).1.lostList = settle e.time L ∧
      (State.eventLost e L s).2 = inside e.time L ∧
      (State.eventLost e L s).1.log = s.log ∧
      (State.eventLost e L s).1.recentTime = s.recentTime ∧
      (State.eventLost e L s).1.tasks = if wipes e.time L then [] else s.tasks := by
  induction L generalizing s with
  | nil => exact ⟨rfl, rfl, rfl, rfl, rfl⟩
  | cons lost rest ih =>
    unfold State.eventLost
    by_cases h1 : e.time ≤ lost.startTime
    · simp only [if_pos h1, settle, inside, wipes, crossed]
      simp [Nat.not_lt.mpr h1]
    · have hlt : lost.startTime < e.time := Nat.lt_of_not_le h1
      have hexit : (if lost.reclaim then s else s.exit).log = s.log ∧
          (if lost.reclaim then s else s.exit).recentTime = s.recentTime := by
        split
        · exact ⟨rfl, rfl⟩
        · exact exit_same s
      have htasks : (if lost.reclaim then s else s.exit).tasks =
          if !lost.reclaim then [] else s.tasks := by
        cases lost.reclaim with
        | true => rfl
        | false => rfl
      by_cases h2 : e.time < lost.endTime
      · simp only [if_neg h1, if_pos h2, settle, inside, wipes, crossed]
        refine ⟨trivial, by simp [hlt], hexit.1, hexit.2, ?_⟩
        rw [htasks]
        simp
      · simp only [if_neg h1, if_neg h2, settle, inside, wipes, crossed]
        obtain ⟨hlost, hin, hlog, htime, htasks'⟩ := ih (if lost.reclaim then s else s.exit)
        refine ⟨hlost, hin, hlog.trans hexit.1, htime.trans hexit.2, ?_⟩
        rw [htasks', htasks, List.any_cons]
        cases lost.reclaim with
        | true => rfl
        | false =>
          rw [wipes]
          simp

theorem settle_mem (h : lost ∈ L) (t : Nat) :
    (∃ lost' ∈ settle t L, lost'.startTime = lost.startTime ∧ lost'.endTime = lost.endTime) ∨
      lost ∈ crossed t L ∧ lost.endTime ≤ t := by
  induction L with
  | nil => cases h
  | cons first rest ih =>
    simp only [settle, crossed]
    by_cases h1 : t ≤ first.startTime
    · rw [if_pos h1, if_pos h1]
      exact Or.inl ⟨lost, h, rfl, rfl⟩
    · rw [if_neg h1, if_neg h1]
      by_cases h2 : t < first.endTime
      · rw [if_pos h2, if_pos h2]
        cases List.mem_cons.mp h with
        | inl heq =>
          subst heq
          exact Or.inl ⟨_, List.mem_cons_self .., rfl, rfl⟩
        | inr hin => exact Or.inl ⟨lost, List.mem_cons_of_mem _ hin, rfl, rfl⟩
      · rw [if_neg h2, if_neg h2]
        cases List.mem_cons.mp h with
        | inl heq =>
          subst heq
          exact Or.inr ⟨List.mem_cons_self .., Nat.le_of_not_lt h2⟩
        | inr hin => exact (ih hin).imp_right fun hr => ⟨List.mem_cons_of_mem _ hr.1, hr.2⟩

theorem mem_settle (h : lost ∈ settle t L) :
    lost ∈ L ∨ lost.reclaim = true ∧ lost.startTime < t ∧ t < lost.endTime ∧
      ∃ old ∈ crossed t L, lost = { old with reclaim := true } := by
  induction L with
  | nil => cases h
  | cons first rest ih =>
    simp only [settle, crossed] at h ⊢
    by_cases h1 : t ≤ first.startTime
    · rw [if_pos h1] at h
      exact Or.inl h
    · rw [if_neg h1] at h ⊢
      by_cases h2 : t < first.endTime
      · rw [if_pos h2] at h ⊢
        cases List.mem_cons.mp h with
        | inl heq =>
          subst heq
          exact Or.inr ⟨rfl, Nat.lt_of_not_le h1, h2, first, List.mem_singleton.mpr rfl, rfl⟩
        | inr hin => exact Or.inl (List.mem_cons_of_mem _ hin)
      · rw [if_neg h2] at h ⊢
        obtain hin | ⟨hr, hs, he, old, hold, heq⟩ := ih h
        · exact Or.inl (List.mem_cons_of_mem _ hin)
        · exact Or.inr ⟨hr, hs, he, old, List.mem_cons_of_mem _ hold, heq⟩

theorem crossed_mem (h : lost ∈ crossed t L) : lost ∈ L ∧ lost.startTime < t := by
  induction L with
  | nil => cases h
  | cons first rest ih =>
    simp only [crossed] at h
    by_cases h1 : t ≤ first.startTime
    · rw [if_pos h1] at h
      cases h
    · rw [if_neg h1] at h
      by_cases h2 : t < first.endTime
      · rw [if_pos h2, List.mem_singleton] at h
        subst h
        exact ⟨List.mem_cons_self .., Nat.lt_of_not_le h1⟩
      · rw [if_neg h2] at h
        cases List.mem_cons.mp h with
        | inl heq =>
          subst heq
          exact ⟨List.mem_cons_self .., Nat.lt_of_not_le h1⟩
        | inr hin => exact ⟨List.mem_cons_of_mem _ (ih hin).1, (ih hin).2⟩

/-- The windows are in the order of their starts. -/
def Ascending (L : List TaskLost) : Prop := L.Pairwise fun a b => a.startTime ≤ b.startTime

theorem settle_suffix (t : Nat) (L : List TaskLost) : ∃ rest, rest.Sublist L ∧
    (settle t L = rest ∨ ∃ first tail, rest = first :: tail ∧
      settle t L = { first with reclaim := true } :: tail) := by
  induction L with
  | nil => exact ⟨[], .slnil, Or.inl rfl⟩
  | cons first rest ih =>
    simp only [settle]
    split
    · exact ⟨_, .refl _, Or.inl rfl⟩
    · split
      · exact ⟨_, .refl _, Or.inr ⟨first, rest, rfl, rfl⟩⟩
      · obtain ⟨rest', hsub, hcase⟩ := ih
        exact ⟨rest', hsub.cons _, hcase⟩

theorem Ascending.settle (h : Ascending L) (t : Nat) : Ascending (settle t L) := by
  obtain ⟨rest, hsub, heq | ⟨first, tail, hrest, heq⟩⟩ := settle_suffix t L
  · rw [heq]
    exact List.Pairwise.sublist hsub h
  · rw [heq]
    have hpair := List.Pairwise.sublist hsub h
    rw [hrest] at hpair
    exact List.pairwise_cons.mpr (List.pairwise_cons.mp hpair)

theorem mem_insertLost {a : TaskLost} : a ∈ State.insertLost lost L ↔ a = lost ∨ a ∈ L := by
  induction L with
  | nil => simp [State.insertLost]
  | cons pos rest ih =>
    rw [State.insertLost]
    split
    · simp
    · simp only [List.mem_cons, ih]
      tauto

theorem Ascending.insertLost (h : Ascending L) (lost : TaskLost) : Ascending (State.insertLost lost L) := by
  induction L with
  | nil => exact List.pairwise_singleton _ _
  | cons pos rest ih =>
    obtain ⟨hpos, hrest⟩ := List.pairwise_cons.mp h
    rw [State.insertLost]
    split
    · rename_i hlt
      refine List.pairwise_cons.mpr ⟨fun b hb => ?_, h⟩
      cases List.mem_cons.mp hb with
      | inl heq => exact heq ▸ Nat.le_of_lt hlt
      | inr hin => exact Nat.le_trans (Nat.le_of_lt hlt) (hpos b hin)
    · rename_i hge
      refine List.pairwise_cons.mpr ⟨fun b hb => ?_, ih hrest⟩
      cases mem_insertLost.mp hb with
      | inl heq => exact heq ▸ Nat.le_of_not_lt hge
      | inr hin => exact hpos b hin

/-- Outside of all windows that are left, an event is before all of them. -/
theorem le_start_of_not_inside (h : Ascending L) (hout : inside t L = false)
    (hlost : lost ∈ settle t L) : t ≤ lost.startTime := by
  have hasc := h.settle t
  unfold inside at hout
  cases hsettle : settle t L with
  | nil =>
    rw [hsettle] at hlost
    cases hlost
  | cons first rest =>
    rw [hsettle] at hout hlost hasc
    have hfirst : t ≤ first.startTime := by simpa using hout
    cases List.mem_cons.mp hlost with
    | inl heq => exact heq ▸ hfirst
    | inr hin => exact Nat.le_trans hfirst ((List.pairwise_cons.mp hasc).1 lost hin)

/-- An event before all windows leaves them alone. -/
theorem settle_of_le (h : ∀ lost ∈ L, t ≤ lost.startTime) : settle t L = L ∧ crossed t L = [] := by
  cases L with
  | nil => exact ⟨rfl, rfl⟩
  | cons first rest =>
    have hfirst := h first (List.mem_cons_self ..)
    rw [settle, crossed, if_pos hfirst, if_pos hfirst]
    exact ⟨rfl, rfl⟩

/-- Inside a window, one has been crossed. -/
theorem exists_crossed_of_inside (h : inside t L = true) : ∃ lost ∈ crossed t L, t < lost.endTime := by
  induction L with
  | nil => cases h
  | cons first rest ih =>
    simp only [inside, settle, crossed] at h ⊢
    by_cases h1 : t ≤ first.startTime
    · rw [if_pos h1] at h
      simp [Nat.not_lt.mpr h1] at h
    · rw [if_neg h1] at h ⊢
      by_cases h2 : t < first.endTime
      · rw [if_pos h2]
        exact ⟨first, List.mem_singleton.mpr rfl, h2⟩
      · rw [if_neg h2] at h ⊢
        obtain ⟨lost, hin, hend⟩ := ih h
        exact ⟨lost, List.mem_cons_of_mem _ hin, hend⟩

end Windows

section Timeline
variable {c : Ctx} {s s' : State} {e : Sample} {pid : Int} {T ls le n : Nat}

/-- The nodes and the records of one task do not overlap; nothing is later than `T`. -/
structure Timed (T : Nat) (s : State) : Prop where
  sorted : Sorted Node.pid s.tasks
  tasks : ∀ node ∈ s.tasks, node.time ≤ T
  bound : ∀ a ∈ s.log, a.stop ≤ T
  after : ∀ a ∈ s.log, ∀ node ∈ s.tasks, node.pid = a.pid → a.stop ≤ node.time
  apart : s.log.Pairwise fun a b => a.pid = b.pid → a.stop ≤ b.start
  positive : ∀ a ∈ s.log, a.start < a.stop

theorem Timed.mono (h : Timed T s) {T' : Nat} (hle : T ≤ T') : Timed T' s where
  sorted := h.sorted
  tasks := fun node hnode => Nat.le_trans (h.tasks node hnode) hle
  bound := fun a ha => Nat.le_trans (h.bound a ha) hle
  after := h.after
  apart := h.apart
  positive := h.positive

/-- The nodes after an event: old ones, or the one of the task with its time. -/
theorem Touch.node_cases (h : Touch e pid s s') (hs : Sorted Node.pid s.tasks) {node : Node}
    (hnode : node ∈ s'.tasks) : (node ∈ s.tasks ∧ node.pid ≠ pid) ∨ node.pid = pid ∧
      (node.time = e.time ∨ s'.log = s.log ∧ ∃ task ∈ s.tasks, task.pid = pid ∧ node.time = task.time) := by
  obtain ⟨-, -, charges, hlog, -, -, htasks | ⟨new, hpid, htasks, htime⟩⟩ := h
  · rw [htasks, mem_remove] at hnode
    exact Or.inl hnode
  · rw [htasks, mem_put hs] at hnode
    obtain rfl | ⟨hin, hne⟩ := hnode
    · refine Or.inr ⟨hpid, htime.imp_right ?_⟩
      rintro ⟨rfl, task, hfind, heq⟩
      exact ⟨hlog.trans (List.append_nil _), task, find_mem hfind, find_pid hfind, heq⟩
    · exact Or.inl ⟨hin, hpid ▸ hne⟩

theorem Touch.sorted (h : Touch e pid s s') (hs : Sorted Node.pid s.tasks) : Sorted Node.pid s'.tasks := by
  obtain ⟨-, -, charges, -, -, -, htasks | ⟨new, -, htasks, -⟩⟩ := h
  · rw [htasks]
    exact remove_sorted hs pid
  · rw [htasks]
    exact put_sorted hs new

/-- A record is of the time since an old node. -/
theorem Touch.log_cases (h : Touch e pid s s') : s'.log = s.log ∨ ∃ a task, s'.log = s.log ++ [a] ∧
    task ∈ s.tasks ∧ task.pid = pid ∧ a.pid = pid ∧ a.start = task.time ∧ a.stop = e.time ∧
      a.start < a.stop := by
  obtain ⟨-, -, charges, hlog, hone, hcharges, -⟩ := h
  cases charges with
  | nil => exact Or.inl (hlog.trans (List.append_nil _))
  | cons a rest =>
    obtain rfl : rest = [] := by
      rw [List.length_cons] at hone
      exact List.eq_nil_of_length_eq_zero (by omega)
    obtain ⟨task, hfind, hpid, hstart, hstop, hlt⟩ := hcharges a (List.mem_singleton.mpr rfl)
    refine Or.inr ⟨a, task, hlog, find_mem hfind, find_pid hfind, hpid, hstart, hstop, ?_⟩
    rw [hstart, hstop]
    exact hlt

theorem Touch.timed (h : Touch e pid s s') (hs : Timed e.time s) : Timed e.time s' := by
  refine ⟨h.sorted hs.sorted, fun node hnode => ?_, fun a ha => ?_, fun a ha node hnode hpid => ?_, ?_,
    fun a ha => ?_⟩
  · obtain ⟨hin, -⟩ | ⟨-, heq | ⟨-, task, hin, -, heq⟩⟩ := h.node_cases hs.sorted hnode
    · exact hs.tasks node hin
    · exact Nat.le_of_eq heq
    · exact heq ▸ hs.tasks task hin
  · obtain heq | ⟨b, task, heq, -, -, -, -, hstop, -⟩ := h.log_cases
    · exact hs.bound a (heq ▸ ha)
    · rw [heq, List.mem_append, List.mem_singleton] at ha
      obtain ha | rfl := ha
      · exact hs.bound a ha
      · exact Nat.le_of_eq hstop
  · -- an old record is before the old node, a new one ends where the new time starts
    obtain ⟨hin, hne⟩ | ⟨hnpid, hnode'⟩ := h.node_cases hs.sorted hnode
    · obtain heq | ⟨b, task, heq, -, -, hbpid, -⟩ := h.log_cases
      · exact hs.after a (heq ▸ ha) node hin hpid
      · rw [heq, List.mem_append, List.mem_singleton] at ha
        obtain ha | rfl := ha
        · exact hs.after a ha node hin hpid
        · exact absurd (hpid.trans hbpid) hne
    · obtain heq | ⟨hlog, task, hin, htpid, heq⟩ := hnode'
      · rw [heq]
        obtain hlog | ⟨b, task, hlog, -, -, -, -, hstop, -⟩ := h.log_cases
        · exact hs.bound a (hlog ▸ ha)
        · rw [hlog, List.mem_append, List.mem_singleton] at ha
          obtain ha | rfl := ha
          · exact hs.bound a ha
          · exact Nat.le_of_eq hstop
      · rw [heq]
        exact hs.after a (hlog ▸ ha) task hin (htpid.trans (hnpid.symm.trans hpid))
  · obtain heq | ⟨b, task, heq, hin, htpid, hbpid, hstart, -, -⟩ := h.log_cases
    · rw [heq]
      exact hs.apart
    · rw [heq]
      refine List.pairwise_append.mpr ⟨hs.apart, List.pairwise_singleton _ _, fun a ha b' hb' hpid => ?_⟩
      rw [List.mem_singleton] at hb'
      subst hb'
      rw [hstart]
      exact hs.after a ha task hin (htpid.trans (hbpid.symm.trans hpid.symm))
  · obtain heq | ⟨b, task, heq, -, -, -, -, -, hlt⟩ := h.log_cases
    · exact hs.positive a (heq ▸ ha)
    · rw [heq, List.mem_append, List.mem_singleton] at ha
      obtain ha | rfl := ha
      · exact hs.positive a ha
      · exact hlt

/-- What each touch keeps, an event keeps. -/
theorem process_induct {P : State → Prop} (c : Ctx) (e : Sample) (hs : P s)
    (hstep : ∀ u u' pid, pid ∈ names c e → Touch e pid u u' → P u → P u') : P (s.process c e) := by
  have hnext : ∀ u, e.nextPid ∈ names c e → P u → P (u.switchNext c e) := by
    intro u hin hu
    by_cases hpid : 0 < e.nextPid
    · exact hstep u _ e.nextPid hin (switchNext_touch c u e hpid) hu
    · rw [State.switchNext, if_neg hpid]
      exact hu
  unfold State.process
  cases hev : e.evsel with
  | none => exact hs
  | some evsel =>
    cases evsel with
    | schedSwitch =>
      have hprev : P (s.switchPrev c e) := by
        by_cases hpid : 0 < e.prevPid
        · refine hstep s _ e.prevPid ?_ (switchPrev_touch c s e hpid) hs
          simp only [names, hev]
          split
          · exact List.mem_cons_self ..
          · exact List.mem_cons_self ..
        · rw [State.switchPrev, if_neg hpid]
          exact hs
      dsimp only
      split
      · rename_i hmode
        exact hnext _ (by simp [names, hev, hmode]) hprev
      · exact hprev
    | schedSwitchNext => exact hnext s (by simp [names, hev]) hs
    | schedWakeup => exact hstep s _ e.pid (by simp [names, hev]) (wakeup_touch c s e) hs
    | schedWakeupNew => exact hstep s _ e.pid (by simp [names, hev]) (wakeup_touch c s e) hs

/-- The windows are in order; in a window that has been entered no task is known. -/
structure Windowed (T : Nat) (s : State) : Prop where
  ascending : Ascending s.lostList
  entered : ∀ lost ∈ s.lostList, lost.reclaim = true → lost.startTime < T ∧ s.tasks = []

/-- Whether an event wipes or the windows it has crossed were entered before: nothing is known. -/
theorem tasks_of_crossed (hw : Windowed T s) {t : Nat} {lost : TaskLost}
    (hlost : lost ∈ crossed t s.lostList) : (if wipes t s.lostList then [] else s.tasks) = [] := by
  by_cases hwipes : wipes t s.lostList = true
  · rw [if_pos hwipes]
  · rw [if_neg hwipes]
    have hreclaim : lost.reclaim = true := by
      by_contra hne
      refine hwipes (List.any_eq_true.mpr ⟨lost, hlost, ?_⟩)
      simpa using hne
    exact (hw.entered lost (crossed_mem hlost).1 hreclaim).2

/-- A sample is dropped in a window, or processed behind all that are over. -/
theorem sample_cases (c : Ctx) (s : State) (e : Sample) (hasc : Ascending s.lostList) :
    c.final = false ∧ s.sample c e = { s with recentTime := max s.recentTime e.time } ∨
    ∃ u : State, u.lostList = settle e.time s.lostList ∧ u.log = s.log ∧
      u.tasks = (if wipes e.time s.lostList then [] else s.tasks) ∧
      u.recentTime = max s.recentTime e.time ∧
      (inside e.time s.lostList = true ∧ s.sample c e = u ∨
        (∀ lost ∈ u.lostList, e.time ≤ lost.startTime) ∧ s.sample c e = u.process c e) := by
  let s₁ : State := { s with recentTime := max s.recentTime e.time }
  cases hfinal : c.final with
  | false =>
    refine Or.inl ⟨rfl, ?_⟩
    simp [State.sample, hfinal]
  | true =>
    obtain ⟨hlost, hin, hlog, htime, htasks⟩ := eventLost_spec e s.lostList s₁
    have hsample : s.sample c e = if (State.eventLost e s.lostList s₁).2 then
        (State.eventLost e s.lostList s₁).1 else (State.eventLost e s.lostList s₁).1.process c e := by
      simp only [State.sample, hfinal, not_true_eq_false, if_false]
      generalize State.eventLost e s.lostList _ = out
      obtain ⟨u, dropped⟩ := out
      cases dropped with
      | true => rfl
      | false => rfl
    refine Or.inr ⟨(State.eventLost e s.lostList s₁).1, hlost, hlog, htasks, htime, ?_⟩
    rw [hsample, hin]
    cases hdropped : inside e.time s.lostList with
    | true => exact Or.inl ⟨rfl, rfl⟩
    | false =>
      refine Or.inr ⟨fun lost hlost' => ?_, rfl⟩
      exact le_start_of_not_inside hasc hdropped (hlost ▸ hlost')

/-- What is known before an event is processed. -/
theorem Timed.settled {u : State} (hs : Timed T s) (hlog : u.log = s.log)
    (htasks : u.tasks = if wipes e.time s.lostList then [] else s.tasks) : Timed T u := by
  have hsub : ∀ node ∈ u.tasks, node ∈ s.tasks := by
    intro node hnode
    rw [htasks] at hnode
    split at hnode
    · cases hnode
    · exact hnode
  refine ⟨?_, fun node hnode => hs.tasks node (hsub node hnode), ?_, ?_, ?_, ?_⟩
  · rw [htasks]
    split
    · exact .nil
    · exact hs.sorted
  · rw [hlog]
    exact hs.bound
  · rw [hlog]
    exact fun a ha node hnode => hs.after a ha node (hsub node hnode)
  · rw [hlog]
    exact hs.apart
  · rw [hlog]
    exact hs.positive

theorem Windowed.settled {u : State} (hw : Windowed T s) (hle : T ≤ e.time)
    (hlost : u.lostList = settle e.time s.lostList)
    (htasks : u.tasks = if wipes e.time s.lostList then [] else s.tasks) : Windowed e.time u := by
  refine ⟨hlost ▸ hw.ascending.settle e.time, fun lost hin hreclaim => ?_⟩
  rw [hlost] at hin
  rw [htasks]
  obtain hold | ⟨-, hstart, -, old, hcrossed, -⟩ := mem_settle hin
  · obtain ⟨hlt, hnone⟩ := hw.entered lost hold hreclaim
    refine ⟨Nat.lt_of_lt_of_le hlt hle, ?_⟩
    rw [hnone]
    split
    · rfl
    · rfl
  · exact ⟨hstart, tasks_of_crossed hw hcrossed⟩

theorem process_lostList (c : Ctx) (s : State) (e : Sample) : (s.process c e).lostList = s.lostList :=
  process_induct (P := fun u => u.lostList = s.lostList) c e rfl
    fun _ _ _ _ htouch hu => htouch.lostList.trans hu

/-- Where an event is processed, no window that is left has been entered. -/
theorem process_windowed (c : Ctx) (hw : Windowed e.time s)
    (hout : ∀ lost ∈ s.lostList, e.time ≤ lost.startTime) : Windowed e.time (s.process c e) := by
  have hlost := process_lostList c s e
  refine ⟨hlost ▸ hw.ascending, fun lost hin hreclaim => ?_⟩
  rw [hlost] at hin
  have hlt := (hw.entered lost hin hreclaim).1
  have hle := hout lost hin
  omega

theorem process_recentTime (c : Ctx) (s : State) (e : Sample) :
    (s.process c e).recentTime = s.recentTime :=
  process_induct (P := fun u => u.recentTime = s.recentTime) c e rfl
    fun _ _ _ _ htouch hu => htouch.recentTime.trans hu

/-- What holds after any inputs in the order of their times. -/
structure Tracked (s : State) : Prop where
  timed : Timed s.recentTime s
  windowed : Windowed s.recentTime s

theorem sample_tracked (c : Ctx) (h : Tracked s) (hle : s.recentTime ≤ e.time) :
    Tracked (s.sample c e) ∧ (s.sample c e).recentTime = e.time := by
  have hmax : max s.recentTime e.time = e.time := Nat.max_eq_right hle
  obtain ⟨-, heq⟩ | ⟨u, hlost, hlog, htasks, htime, hcase⟩ := sample_cases c s e h.windowed.ascending
  · rw [heq]
    have hw := h.windowed
    refine ⟨⟨?_, hw.ascending, fun lost hin hreclaim => ?_⟩, hmax⟩
    · have ht := h.timed.mono (Nat.le_max_left s.recentTime e.time)
      exact ⟨ht.sorted, ht.tasks, ht.bound, ht.after, ht.apart, ht.positive⟩
    · obtain ⟨hlt, hnone⟩ := hw.entered lost hin hreclaim
      exact ⟨Nat.lt_of_lt_of_le hlt (Nat.le_max_left _ _), hnone⟩
  · rw [hmax] at htime
    have ht : Timed e.time u := (h.timed.settled hlog htasks).mono hle
    have hw : Windowed e.time u := h.windowed.settled hle hlost htasks
    obtain ⟨-, heq⟩ | ⟨hout, heq⟩ := hcase
    · rw [heq]
      refine ⟨⟨?_, ?_⟩, htime⟩
      · rw [htime]
        exact ht
      · rw [htime]
        exact hw
    · rw [heq]
      have htime' := (process_recentTime c u e).trans htime
      refine ⟨⟨?_, ?_⟩, htime'⟩
      · rw [htime']
        exact process_induct c e ht fun v v' pid _ htouch hv => htouch.timed hv
      · rw [htime']
        exact process_windowed c hw hout

/-- Since the window from `ls` to `le` is known, nothing was recorded that overlaps it: the
window is still to come, or all that is known is from behind it. -/
structure Clear (ls le : Nat) (old : List Charge) (s : State) : Prop where
  guard : (∃ lost ∈ s.lostList, lost.startTime = ls ∧ lost.endTime = le) ∨
    le ≤ s.recentTime ∧ ∀ node ∈ s.tasks, le ≤ node.time
  clear : ∃ log, s.log = old ++ log ∧ ∀ a ∈ log, a.stop ≤ ls ∨ le ≤ a.start

/-- One touch, outside of the windows that are left. -/
theorem Touch.clear {old : List Charge} (h : Touch e pid s s') (ht : Timed e.time s)
    (htime : s.recentTime = e.time) (hout : ∀ lost ∈ s.lostList, e.time ≤ lost.startTime)
    (hc : Clear ls le old s) : Clear ls le old s' := by
  obtain ⟨hguard, log, hlog, hclear⟩ := hc
  refine ⟨?_, ?_⟩
  · rw [h.lostList, h.recentTime]
    refine hguard.imp_right fun ⟨hle, hnodes⟩ => ⟨hle, fun node hnode => ?_⟩
    obtain ⟨hin, -⟩ | ⟨-, heq | ⟨-, task, hin, -, heq⟩⟩ := h.node_cases ht.sorted hnode
    · exact hnodes node hin
    · omega
    · exact heq ▸ hnodes task hin
  · obtain heq | ⟨a, task, heq, hin, -, -, hstart, hstop, -⟩ := h.log_cases
    · exact ⟨log, heq.trans hlog, hclear⟩
    · refine ⟨log ++ [a], by rw [heq, hlog, List.append_assoc], fun b hb => ?_⟩
      rw [List.mem_append, List.mem_singleton] at hb
      obtain hb | rfl := hb
      · exact hclear b hb
      · obtain ⟨lost, hlost, rfl, -⟩ | ⟨-, hnodes⟩ := hguard
        · exact Or.inl (hstop ▸ hout lost hlost)
        · exact Or.inr (hstart ▸ hnodes task hin)

theorem sample_clear {old : List Charge} (c : Ctx) (h : Tracked s) (hle : s.recentTime ≤ e.time)
    (hc : Clear ls le old s) : Clear ls le old (s.sample c e) := by
  have hmax : max s.recentTime e.time = e.time := Nat.max_eq_right hle
  obtain ⟨hguard, hclear⟩ := hc
  obtain ⟨-, heq⟩ | ⟨u, hlost, hlog, htasks, htime, hcase⟩ := sample_cases c s e h.windowed.ascending
  · rw [heq]
    exact ⟨hguard.imp_right fun hr => ⟨Nat.le_trans hr.1 (Nat.le_max_left _ _), hr.2⟩, hclear⟩
  · rw [hmax] at htime
    have hcu : Clear ls le old u := by
      refine ⟨?_, by rw [hlog]; exact hclear⟩
      rw [hlost, htime, htasks]
      obtain ⟨lost, hin, rfl, rfl⟩ | ⟨hend, hnodes⟩ := hguard
      · refine (settle_mem hin e.time).imp_right fun ⟨hcrossed, hend⟩ => ⟨hend, fun node hnode => ?_⟩
        rw [tasks_of_crossed h.windowed hcrossed] at hnode
        cases hnode
      · refine Or.inr ⟨Nat.le_trans hend hle, fun node hnode => ?_⟩
        split at hnode
        · cases hnode
        · exact hnodes node hnode
    obtain ⟨-, heq⟩ | ⟨hout, heq⟩ := hcase
    · rw [heq]
      exact hcu
    · rw [heq]
      have hall := process_induct (P := fun v => v.lostList = u.lostList ∧ v.recentTime = e.time ∧
        Timed e.time v ∧ Clear ls le old v) c e
        ⟨rfl, htime, (h.timed.settled hlog htasks).mono hle, hcu⟩ fun v v' pid _ htouch hv =>
          ⟨htouch.lostList.trans hv.1, htouch.recentTime.trans hv.2.1, htouch.timed hv.2.2.1,
            htouch.clear hv.2.2.1 hv.2.1 (hv.1 ▸ hout) hv.2.2.2⟩
      exact hall.2.2.2

/-- The times of nodes and records are those of samples that name the task. -/
structure Seen (c : Ctx) (seen : List Sample) (s : State) : Prop where
  tasks : ∀ node ∈ s.tasks, ∃ e ∈ seen, e.time = node.time ∧ node.pid ∈ names c e
  log : ∀ a ∈ s.log, (∃ e ∈ seen, e.time = a.start ∧ a.pid ∈ names c e) ∧
    ∃ e ∈ seen, e.time = a.stop ∧ a.pid ∈ names c e

theorem Seen.mono {seen seen' : List Sample} (h : Seen c seen s) (hsub : ∀ e ∈ seen, e ∈ seen') :
    Seen c seen' s where
  tasks := fun node hnode => by
    obtain ⟨e, he, hrest⟩ := h.tasks node hnode
    exact ⟨e, hsub e he, hrest⟩
  log := fun a ha => by
    obtain ⟨⟨e, he, hrest⟩, e', he', hrest'⟩ := h.log a ha
    exact ⟨⟨e, hsub e he, hrest⟩, e', hsub e' he', hrest'⟩

theorem Touch.seen {seen : List Sample} (h : Touch e pid s s') (hs : Sorted Node.pid s.tasks)
    (he : e ∈ seen) (hpid : pid ∈ names c e) (hseen : Seen c seen s) : Seen c seen s' := by
  refine ⟨fun node hnode => ?_, fun a ha => ?_⟩
  · obtain ⟨hin, -⟩ | ⟨rfl, heq | ⟨-, task, hin, htpid, heq⟩⟩ := h.node_cases hs hnode
    · exact hseen.tasks node hin
    · exact ⟨e, he, heq.symm, hpid⟩
    · rw [heq, ← htpid]
      exact hseen.tasks task hin
  · obtain heq | ⟨b, task, heq, hin, htpid, hbpid, hstart, hstop, -⟩ := h.log_cases
    · exact hseen.log a (heq ▸ ha)
    · rw [heq, List.mem_append, List.mem_singleton] at ha
      obtain ha | rfl := ha
      · exact hseen.log a ha
      · rw [hbpid, hstart, hstop]
        exact ⟨htpid ▸ hseen.tasks task hin, e, he, rfl, hpid⟩

theorem sample_seen {seen : List Sample} (h : Tracked s) (hseen : Seen c seen s) :
    Seen c (seen ++ [e]) (s.sample c e) := by
  have hseen' : Seen c (seen ++ [e]) s := hseen.mono fun e he => List.mem_append_left _ he
  obtain ⟨-, heq⟩ | ⟨u, hlost, hlog, htasks, htime, hcase⟩ := sample_cases c s e h.windowed.ascending
  · rw [heq]
    exact ⟨hseen'.tasks, hseen'.log⟩
  · have hu : Seen c (seen ++ [e]) u := by
      refine ⟨fun node hnode => ?_, by rw [hlog]; exact hseen'.log⟩
      rw [htasks] at hnode
      split at hnode
      · cases hnode
      · exact hseen'.tasks node hnode
    obtain ⟨-, heq⟩ | ⟨-, heq⟩ := hcase
    · rw [heq]
      exact hu
    · rw [heq]
      have hlast : e ∈ seen ++ [e] := List.mem_append_right _ (List.mem_singleton.mpr rfl)
      have hall := process_induct (P := fun v => Sorted Node.pid v.tasks ∧ Seen c (seen ++ [e]) v) c e
        ⟨(h.timed.settled hlog htasks).sorted, hu⟩ fun v v' pid hpid htouch hv =>
          ⟨htouch.sorted hv.1, htouch.seen hv.1 hlast hpid hv.2⟩
      exact hall.2

/-- A window is reported; it has not been entered. -/
theorem lost_tracked (c : Ctx) (h : Tracked s) (ins ls le : Nat) : Tracked (s.lost c ins ls le) := by
  unfold State.lost
  split
  · exact h
  · have ht := h.timed
    refine ⟨⟨ht.sorted, ht.tasks, ht.bound, ht.after, ht.apart, ht.positive⟩,
      h.windowed.ascending.insertLost _, fun lost hin hreclaim => ?_⟩
    cases mem_insertLost.mp hin with
    | inl heq =>
      rw [heq] at hreclaim
      cases hreclaim
    | inr hin => exact h.windowed.entered lost hin hreclaim

/-- Fewer nodes are known. -/
theorem notify_cases (s : State) (pid : Int) (freeTime : Nat) :
    (s.notify pid freeTime).log = s.log ∧ (s.notify pid freeTime).lostList = s.lostList ∧
      (s.notify pid freeTime).recentTime = s.recentTime ∧
      ((s.notify pid freeTime).tasks = s.tasks ∨ ∃ pid', (s.notify pid freeTime).tasks = remove pid' s.tasks) := by
  unfold State.notify
  cases s.find pid with
  | none => exact ⟨rfl, rfl, rfl, Or.inl rfl⟩
  | some task =>
    dsimp only
    split
    · exact ⟨by simp, by simp, by simp, Or.inr ⟨task.pid, by simp⟩⟩
    · exact ⟨rfl, rfl, rfl, Or.inl rfl⟩

theorem notify_sub (s : State) (pid : Int) (freeTime : Nat) {node : Node}
    (h : node ∈ (s.notify pid freeTime).tasks) : node ∈ s.tasks := by
  obtain ⟨-, -, -, heq | ⟨pid', heq⟩⟩ := notify_cases s pid freeTime
  · exact heq ▸ h
  · rw [heq, mem_remove] at h
    exact h.1

theorem notify_tracked (h : Tracked s) (pid : Int) (freeTime : Nat) : Tracked (s.notify pid freeTime) := by
  obtain ⟨hlog, hlost, htime, htasks⟩ := notify_cases s pid freeTime
  have ht := h.timed
  refine ⟨⟨?_, ?_, ?_, ?_, ?_, ?_⟩, ?_, fun lost hin hreclaim => ?_⟩
  · obtain heq | ⟨pid', heq⟩ := htasks
    · rw [heq]
      exact ht.sorted
    · rw [heq]
      exact remove_sorted ht.sorted pid'
  · rw [htime]
    exact fun node hnode => ht.tasks node (notify_sub s pid freeTime hnode)
  · rw [hlog, htime]
    exact ht.bound
  · rw [hlog]
    exact fun a ha node hnode => ht.after a ha node (notify_sub s pid freeTime hnode)
  · rw [hlog]
    exact ht.apart
  · rw [hlog]
    exact ht.positive
  · rw [hlost]
    exact h.windowed.ascending
  · rw [hlost] at hin
    obtain ⟨hlt, hnone⟩ := h.windowed.entered lost hin hreclaim
    refine ⟨htime ▸ hlt, List.eq_nil_iff_forall_not_mem.mpr fun node hnode => ?_⟩
    have hin := notify_sub s pid freeTime hnode
    rw [hnone] at hin
    cases hin

end Timeline

section Runs
variable {c : Ctx} {inputs : List Input}

def Input.sample? : Input → Option Sample
  | .sample e => some e
  | _ => none

/-- The samples of a run. -/
def samples (inputs : List Input) : List Sample := inputs.filterMap Input.sample?

/-- The samples come in the order of their times. -/
def InOrder (inputs : List Input) : Prop := (samples inputs).Pairwise fun e e' => e.time ≤ e'.time

instance instDecidableInOrder (inputs : List Input) : Decidable (InOrder inputs) :=
  inferInstanceAs (Decidable ((samples inputs).Pairwise fun e e' => e.time ≤ e'.time))

theorem run_concat (c : Ctx) (inputs : List Input) (x : Input) :
    run c (inputs ++ [x]) = (run c inputs).step c x := by
  rw [run, List.foldl_append]
  rfl

theorem samples_concat (inputs : List Input) (x : Input) :
    samples (inputs ++ [x]) = samples inputs ++ x.sample?.toList := by
  rw [samples, List.filterMap_append]
  cases x <;> rfl

/-- After any inputs the records are in order, from samples, and nothing is later than the last. -/
theorem run_tracked (c : Ctx) (h : InOrder inputs) : Tracked (run c inputs) ∧
    Seen c (samples inputs) (run c inputs) ∧
    ∀ t, (∀ e ∈ samples inputs, e.time ≤ t) → (run c inputs).recentTime ≤ t := by
  induction inputs using List.reverseRecOn with
  | nil =>
    refine ⟨⟨⟨.nil, ?_, ?_, ?_, .nil, ?_⟩, .nil, ?_⟩, ⟨?_, ?_⟩, fun t _ => Nat.zero_le t⟩
    all_goals simp [run, start]
  | append_singleton inputs x ih =>
    rw [InOrder, samples_concat, List.pairwise_append] at h
    obtain ⟨hpre, -, hlast⟩ := h
    obtain ⟨htracked, hseen, hrecent⟩ := ih hpre
    rw [run_concat, samples_concat]
    cases x with
    | sample e =>
      have hle : (run c inputs).recentTime ≤ e.time :=
        hrecent e.time fun e' he' => hlast e' he' e (List.mem_singleton.mpr rfl)
      obtain ⟨htracked', htime⟩ := sample_tracked c htracked hle
      refine ⟨htracked', sample_seen htracked hseen, fun t ht => ?_⟩
      exact htime.trans_le (ht e (List.mem_append_right _ (List.mem_singleton.mpr rfl)))
    | lost ins ls le =>
      have hsame : (run c inputs).lost c ins ls le = run c inputs ∨ (run c inputs).lost c ins ls le =
          { run c inputs with lostList := State.insertLost ⟨ins, false, ls, le⟩ (run c inputs).lostList } := by
        unfold State.lost
        split
        · exact Or.inl rfl
        · exact Or.inr rfl
      simp only [Input.sample?, Option.toList_none, List.append_nil]
      refine ⟨lost_tracked c htracked ins ls le, ?_, ?_⟩
      · obtain heq | heq := hsame
        · show Seen c _ ((run c inputs).lost c ins ls le)
          rw [heq]
          exact hseen
        · show Seen c _ ((run c inputs).lost c ins ls le)
          rw [heq]
          exact ⟨hseen.tasks, hseen.log⟩
      · show ∀ t, _ → ((run c inputs).lost c ins ls le).recentTime ≤ t
        obtain heq | heq := hsame
        · rw [heq]
          exact hrecent
        · rw [heq]
          exact hrecent
    | commDelete pid freeTime =>
      obtain ⟨hlog, -, htime, -⟩ := notify_cases (run c inputs) pid freeTime
      simp only [Input.sample?, Option.toList_none, List.append_nil]
      refine ⟨notify_tracked htracked pid freeTime, ⟨fun node hnode => ?_, ?_⟩, ?_⟩
      · exact hseen.tasks node (notify_sub _ pid freeTime hnode)
      · show ∀ a ∈ ((run c inputs).notify pid freeTime).log, _
        rw [hlog]
        exact hseen.log
      · show ∀ t, _ → ((run c inputs).notify pid freeTime).recentTime ≤ t
        rw [htime]
        exact hrecent

theorem InOrder.pre {post : List Input} (h : InOrder (inputs ++ post)) : InOrder inputs := by
  rw [InOrder, samples, List.filterMap_append] at h
  exact (List.pairwise_append.mp h).1

theorem step_clear {old : List Charge} {s : State} {ls le : Nat} (h : Tracked s) (hc : Clear ls le old s)
    (x : Input) (hle : ∀ e, x = .sample e → s.recentTime ≤ e.time) : Clear ls le old (s.step c x) := by
  obtain ⟨hguard, hclear⟩ := hc
  cases x with
  | sample e => exact sample_clear c h (hle e rfl) ⟨hguard, hclear⟩
  | lost ins ls' le' =>
    show Clear ls le old (s.lost c ins ls' le')
    unfold State.lost
    split
    · exact ⟨hguard, hclear⟩
    · refine ⟨hguard.imp_left ?_, hclear⟩
      rintro ⟨lost, hin, heq⟩
      exact ⟨lost, mem_insertLost.mpr (Or.inr hin), heq⟩
  | commDelete pid freeTime =>
    obtain ⟨hlog, hlost, htime, -⟩ := notify_cases s pid freeTime
    refine ⟨?_, ?_⟩
    · show _ ∨ le ≤ (s.notify pid freeTime).recentTime ∧ _
      rw [htime]
      refine (hlost.symm ▸ hguard : _).imp_right ?_
      rintro ⟨hend, hnodes⟩
      exact ⟨hend, fun node hnode => hnodes node (notify_sub s pid freeTime hnode)⟩
    · show ∃ log, (s.notify pid freeTime).log = _ ∧ _
      rw [hlog]
      exact hclear

/-- Since the report of a window, the records stay clear of it. -/
theorem run_clear {pre post : List Input} {ins ls le : Nat} (hfinal : c.final = true)
    (h : InOrder (pre ++ .lost ins ls le :: post)) :
    Clear ls le (run c pre).log (run c (pre ++ .lost ins ls le :: post)) := by
  induction post using List.reverseRecOn with
  | nil =>
    rw [run_concat]
    show Clear ls le _ ((run c pre).lost c ins ls le)
    rw [State.lost, if_neg (by simp [hfinal])]
    exact ⟨Or.inl ⟨_, mem_insertLost.mpr (Or.inl rfl), rfl, rfl⟩, [], by simp, by simp⟩
  | append_singleton post x ih =>
    have hsplit : pre ++ .lost ins ls le :: (post ++ [x]) = (pre ++ .lost ins ls le :: post) ++ [x] := by simp
    rw [hsplit] at h ⊢
    obtain ⟨htracked, -, hrecent⟩ := run_tracked c h.pre
    rw [run_concat]
    refine step_clear htracked (ih h.pre) x ?_
    rintro e rfl
    rw [InOrder, samples_concat] at h
    exact hrecent e.time fun e' he' => (List.pairwise_append.mp h).2.2 e' he' e (List.mem_singleton.mpr rfl)

/-- The records of a task do not overlap, and each is from one event that names the task to a
later one. -/
theorem task_state_intervals (c : Ctx) (h : InOrder inputs) :
    ((run c inputs).log.Pairwise fun a b => a.pid = b.pid → a.stop ≤ b.start) ∧
      ∀ a ∈ (run c inputs).log, a.start < a.stop ∧
        (∃ e ∈ samples inputs, e.time = a.start ∧ a.pid ∈ names c e) ∧
        ∃ e ∈ samples inputs, e.time = a.stop ∧ a.pid ∈ names c e := by
  obtain ⟨htracked, hseen, -⟩ := run_tracked c h
  exact ⟨htracked.timed.apart, fun a ha => ⟨htracked.timed.positive a ha, hseen.log a ha⟩⟩

/-- Since a window in which events were lost is reported, no time is recorded that overlaps it; where
it is reported before the first event behind its start, no record at all overlaps it. -/
theorem task_state_lost_clear {pre post : List Input} {ins ls le : Nat} (hfinal : c.final = true)
    (h : InOrder (pre ++ .lost ins ls le :: post)) :
    (∃ log, (run c (pre ++ .lost ins ls le :: post)).log = (run c pre).log ++ log ∧
      ∀ a ∈ log, a.stop ≤ ls ∨ le ≤ a.start) ∧
    ((∀ e ∈ samples pre, e.time ≤ ls) →
      ∀ a ∈ (run c (pre ++ .lost ins ls le :: post)).log, a.stop ≤ ls ∨ le ≤ a.start) := by
  obtain ⟨-, log, hlog, hclear⟩ := run_clear hfinal h
  obtain ⟨htracked, -, hrecent⟩ := run_tracked c h.pre
  refine ⟨⟨log, hlog, hclear⟩, fun hpre a ha => ?_⟩
  rw [hlog, List.mem_append] at ha
  obtain hold | hnew := ha
  · exact Or.inl (Nat.le_trans (htracked.timed.bound a hold) (hrecent ls hpre))
  · exact hclear a hnew

/-- Task 5 sleeps from 10 to 20 and waits for its CPU from there; events are lost from 25 to 30, so
what is recorded at 40 is nothing, and at 50 that it ran from 40. -/
def sleepLoss : List Input :=
  [.sample ⟨64, some .schedSwitch, 10, 5, 1, 7, 0⟩, .sample ⟨64, some .schedWakeup, 20, 0, 0, 0, 5⟩] ++
    .lost 0 25 30 :: [.sample ⟨64, some .schedSwitch, 40, 7, 0, 5, 0⟩,
      .sample ⟨64, some .schedSwitch, 50, 5, 2, 7, 0⟩]

theorem task_state_intervals_sleepLoss :
    (run ⟨false, false, 0, false, 0, true⟩ sleepLoss).log = [⟨5, 1, 10, 20, none⟩, ⟨5, 0, 40, 50, none⟩,
      ⟨7, RUNDELAY, 40, 50, none⟩] ∧
    (run ⟨false, false, 0, false, 0, true⟩ sleepLoss).log.Pairwise fun a b => a.pid = b.pid → a.stop ≤ b.start :=
  ⟨by decide, (task_state_intervals ⟨false, false, 0, false, 0, true⟩ (by decide)).1⟩

theorem task_state_lost_clear_sleepLoss :
    (run ⟨false, false, 0, false, 0, true⟩ sleepLoss).log.length = 3 ∧
    ∀ a ∈ (run ⟨false, false, 0, false, 0, true⟩ sleepLoss).log, a.stop ≤ 25 ∨ 30 ≤ a.start :=
  ⟨by decide, (task_state_lost_clear (c := ⟨false, false, 0, false, 0, true⟩) rfl (by decide)).2 (by decide)⟩

end Runs

end PerfProf.TaskState
