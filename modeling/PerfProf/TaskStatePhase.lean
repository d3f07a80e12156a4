import PerfProf.TaskStateTime

/-! What task-state records against what the scheduler did. A task has a phase, which its own events
change; the profiler sees some of the events. In the modes without `-S` and `-D`, what is recorded
is a time in which the task really was in the phase, and no such time is left out. -/
namespace PerfProf.TaskState
open PerfProf.Rblist

section Phases

/-- What a task does. -/
inductive Phase where
  | running
  | runnable
  | blocked (state : Nat)
  | gone
deriving DecidableEq

/-- What an event says about a task. -/
inductive Move where
  | switchOut (state : Nat)
  | switchIn
  | wake
  | wakeNew
deriving DecidableEq

/-- The phase behind an event of the scheduler, if it can happen in the phase before. A wakeup may
find the task on its CPU or waiting for it. -/
def Phase.next (c : Ctx) : Move → Phase → Option Phase
  | .switchOut state, .running =>
    if state &&& c.stateDead ≠ 0 then some .gone
    else if state = TASK_RUNNING ∨ state = c.reportMax then some .runnable
    else some (.blocked state)
  | .switchIn, .runnable => some .running
  | .wake, .running => some .running
  | .wake, .runnable => some .runnable
  | .wake, .blocked _ => some .runnable
  | .wakeNew, .gone => some .runnable
  | _, _ => none

/-- What an event says about the task `pid`; the idle task is left out. -/
def moveOf (c : Ctx) (e : Sample) (pid : Int) : Option Move :=
  match e.evsel with
  | none => none
  | some .schedSwitch =>
    if 0 < e.prevPid ∧ pid = e.prevPid then some (.switchOut e.prevState)
    else if c.mode = 0 ∧ 0 < e.nextPid ∧ pid = e.nextPid then some .switchIn
    else none
  | some .schedSwitchNext => if 0 < e.nextPid ∧ pid = e.nextPid then some .switchIn else none
  | some .schedWakeup => if pid = e.pid then some .wake else none
  | some .schedWakeupNew => if pid = e.pid then some .wakeNew else none

/-- One event in the life of the task `pid`. -/
def advance (c : Ctx) (pid : Int) (phase : Phase) (e : Sample) : Phase :=
  match moveOf c e pid with
  | none => phase
  | some move => (phase.next c move).getD phase

/-- The phase of the task behind the events. -/
def phaseAt (c : Ctx) (init : Int → Phase) (history : List Sample) (pid : Int) : Phase :=
  history.foldl (advance c pid) (init pid)

/-- The events are in the order of their times, and each can happen. -/
structure Legal (c : Ctx) (init : Int → Phase) (history : List Sample) : Prop where
  ordered : history.Pairwise fun e e' => e.time ≤ e'.time
  switches : ∀ e ∈ history, e.prevPid ≠ e.nextPid
  moves : ∀ pre e post, history = pre ++ e :: post → ∀ pid move, moveOf c e pid = some move →
    ((phaseAt c init pre pid).next c move).isSome = true

/-- The state under which the time in a phase is recorded. -/
def Phase.key (c : Ctx) : Phase → Option Nat
  | .running => some TASK_RUNNING
  | .runnable => some RUNDELAY
  | .blocked state => State.waitKey c state
  | .gone => none

end Phases

section View
variable {c : Ctx} {s : State} {e : Sample} {pid pid' : Int}

/-- What is known of a task: its state, and since when. -/
def known (s : State) (pid : Int) : Option (Nat × Nat) := (s.find pid).map fun task => (task.state, task.time)

/-- What is recorded for a task: the state, from when and till when. -/
def recorded (s : State) (pid : Int) : List (Nat × Nat × Nat) :=
  (s.log.filter fun a => a.pid = pid).map fun a => (a.key, a.start, a.stop)

/-- The state to record on an event, from the state that is known. -/
def Move.key (c : Ctx) : Move → Nat → Option Nat
  | .switchOut _ => State.runKey
  | .switchIn => State.delayKey
  | .wake => State.waitKey c
  | .wakeNew => State.waitKey c

/-- What an event leaves known of its task. -/
def Move.learn (c : Ctx) (time : Nat) : Move → Option (Nat × Nat) → Option (Nat × Nat)
  | .switchOut state, _ =>
    if state &&& c.stateDead ≠ 0 then none
    else some (if state = c.reportMax then TASK_RUNNING else state, time)
  | .switchIn, _ => some (TASK_RUNNING, time)
  | .wake, some (state, since) => some (TASK_RUNNING, if state ≠ TASK_RUNNING then time else since)
  | .wake, none => some (TASK_RUNNING, time)
  | .wakeNew, _ => some (TASK_RUNNING, time)

/-- What an event records for its task. -/
def Move.records (c : Ctx) (time : Nat) (move : Move) : Option (Nat × Nat) → List (Nat × Nat × Nat)
  | none => []
  | some (state, since) =>
    if since < time then ((move.key c state).map fun key => (key, since, time)).toList else []

/-- What a part of `task_state_sample` does with its task. -/
structure Turn (c : Ctx) (time : Nat) (move : Move) (pid : Int) (s s' : State) : Prop where
  sorted : Sorted Node.pid s'.tasks
  learns : ∀ pid', known s' pid' = if pid' = pid then move.learn c time (known s pid) else known s pid'
  records : ∀ pid', recorded s' pid' =
    if pid' = pid then recorded s pid ++ move.records c time (known s pid) else recorded s pid'

theorem known_store (h : Sorted Node.pid s.tasks) (task : Node) (pid' : Int) :
    known (s.store task) pid' = if pid' = task.pid then some (task.state, task.time) else known s pid' := by
  unfold known State.find State.store
  rw [entryAt_put h]
  by_cases hpid : task.pid = pid'
  · rw [if_pos hpid, if_pos hpid.symm]
    rfl
  · rw [if_neg hpid, if_neg fun heq => hpid heq.symm]

theorem known_remove (h : Sorted Node.pid s.tasks) (task : Node) (pid' : Int) :
    known (s.removeNode task) pid' = if pid' = task.pid then none else known s pid' := by
  unfold known State.find
  rw [removeNode_tasks, entryAt_remove h]
  by_cases hpid : pid' = task.pid
  · rw [if_pos hpid, if_pos hpid]
    rfl
  · rw [if_neg hpid, if_neg hpid]

theorem known_congr {s' : State} (h : s'.tasks = s.tasks) (pid : Int) : known s' pid = known s pid := by
  unfold known State.find
  rw [h]

theorem recorded_congr {s' : State} (h : s'.log = s.log) (pid : Int) : recorded s' pid = recorded s pid := by
  unfold recorded
  rw [h]

/-- The record of an old node, task by task. -/
theorem record_recorded (c : Ctx) (s : State) (e : Sample) (prints : Bool) (move : Move) (pid pid' : Int) :
    recorded (s.record c e prints (move.key c) (s.find pid)) pid' =
      if pid' = pid then recorded s pid ++ move.records c e.time (known s pid) else recorded s pid' := by
  have hsame : recorded s pid' = if pid' = pid then recorded s pid ++ [] else recorded s pid' := by
    split
    · rename_i heq
      rw [heq, List.append_nil]
    · rfl
  cases hfind : s.find pid with
  | none => simpa [known, hfind, State.record, Move.records] using hsame
  | some task =>
    have htask := find_pid hfind
    simp only [known, hfind, State.record, Move.records, Option.map_some]
    by_cases htime : task.time < e.time
    · rw [if_pos htime, if_pos htime]
      cases hkey : move.key c task.state with
      | none => simpa using hsame
      | some key =>
        simp only [State.input, recorded, List.filter_append, List.map_append, htask]
        by_cases hpid : pid' = pid
        · rw [if_pos hpid, hpid]
          simp
        · have hne : ¬ pid = pid' := fun heq => hpid heq.symm
          rw [if_neg hpid]
          simp [hne]
    · rw [if_neg htime, if_neg htime]
      exact hsame

theorem Turn.of_tasks {s s' : State} {move : Move} (prints : Bool) (h : Sorted Node.pid s.tasks)
    (hlog : s'.log = (s.record c e prints (move.key c) (s.find pid)).log)
    (htasks : (∃ node : Node, node.pid = pid ∧ s'.tasks = put node s.tasks ∧
        move.learn c e.time (known s pid) = some (node.state, node.time)) ∨
      s'.tasks = remove pid s.tasks ∧ move.learn c e.time (known s pid) = none) :
    Turn c e.time move pid s s' := by
  have hrecorded : ∀ pid', recorded s' pid' =
      if pid' = pid then recorded s pid ++ move.records c e.time (known s pid) else recorded s pid' :=
    fun pid' => (recorded_congr hlog pid').trans (record_recorded c s e prints move pid pid')
  obtain ⟨node, rfl, htasks, hlearn⟩ | ⟨htasks, hlearn⟩ := htasks
  · refine ⟨?_, fun pid' => ?_, hrecorded⟩
    · rw [htasks]
      exact put_sorted h node
    · rw [known_congr (s := s.store node) htasks, known_store h, hlearn]
  · refine ⟨?_, fun pid' => ?_, hrecorded⟩
    · rw [htasks]
      exact remove_sorted h pid
    · rw [known_congr (s := s.removeNode ⟨pid, 0, 0, none⟩) htasks, known_remove h, hlearn]

theorem record_tasks (c : Ctx) (s : State) (e : Sample) (prints : Bool) (keyOf : Nat → Option Nat) (pid : Int) :
    (s.record c e prints keyOf (s.find pid)).tasks = s.tasks := by
  obtain ⟨charges, heq, -⟩ := record_eq c s e prints keyOf pid
  rw [heq]

theorem switchPrev_turn (h : Sorted Node.pid s.tasks) (hpid : 0 < e.prevPid) :
    Turn c e.time (.switchOut e.prevState) e.prevPid s (s.switchPrev c e) := by
  have hrec := record_tasks c s e false State.runKey e.prevPid
  simp only [State.switchPrev, if_pos hpid]
  split
  · rename_i hdead
    exact .of_tasks false h (by simp [Move.key])
      (Or.inr ⟨by simp [hrec], by rw [Move.learn, if_pos hdead]⟩)
  · rename_i hdead
    have hlearn : Move.learn c e.time (.switchOut e.prevState) (known s e.prevPid) =
        some (if e.prevState = c.reportMax then TASK_RUNNING else e.prevState, e.time) := by
      rw [Move.learn, if_neg hdead]
    split
    · exact .of_tasks false h (by simp [Move.key]) (Or.inl ⟨_, rfl, by simp [hrec]; rfl, hlearn⟩)
    · exact .of_tasks false h (by simp [Move.key]) (Or.inl ⟨_, rfl, by simp [hrec]; rfl, hlearn⟩)

theorem switchNext_turn (h : Sorted Node.pid s.tasks) (hpid : 0 < e.nextPid) :
    Turn c e.time .switchIn e.nextPid s (s.switchNext c e) := by
  have hrec := record_tasks c s e true State.delayKey e.nextPid
  simp only [State.switchNext, if_pos hpid]
  split
  · exact .of_tasks true h (by simp [Move.key]) (Or.inl ⟨_, rfl, by simp [hrec]; rfl, rfl⟩)
  · exact .of_tasks true h (by simp [Move.key]) (Or.inl ⟨_, rfl, by simp [hrec]; rfl, rfl⟩)

theorem wakeup_turn (hmode : c.mode < 2) (h : Sorted Node.pid s.tasks) {move : Move}
    (hmove : e.evsel = some .schedWakeup ∧ move = .wake ∨ e.evsel = some .schedWakeupNew ∧ move = .wakeNew) :
    Turn c e.time move e.pid s (s.wakeup c e) := by
  have hrec := record_tasks c s e true (State.waitKey c) e.pid
  have hkey : move.key c = State.waitKey c := by
    obtain ⟨-, rfl⟩ | ⟨-, rfl⟩ := hmove
    · rfl
    · rfl
  have hlearn : move.learn c e.time (known s e.pid) =
      some (TASK_RUNNING, State.wakeTime e (s.find e.pid)) := by
    unfold known State.wakeTime
    obtain ⟨hev, rfl⟩ | ⟨hev, rfl⟩ := hmove
    · cases s.find e.pid with
      | none => rfl
      | some task => simp [Move.learn, hev]
    · cases s.find e.pid with
      | none => rfl
      | some task => simp [Move.learn, hev]
  simp only [State.wakeup]
  rw [if_neg (by omega)]
  split
  · exact .of_tasks true h (by simp [hkey]) (Or.inl ⟨_, rfl, by simp [hrec]; rfl, hlearn⟩)
  · exact .of_tasks true h (by simp [hkey]) (Or.inl ⟨_, rfl, by simp [hrec]; rfl, hlearn⟩)

/-- `task_state_sample` behind `task_state_event_lost`, task by task. -/
theorem process_known (hmode : c.mode < 2) (h : Sorted Node.pid s.tasks) (hne : e.prevPid ≠ e.nextPid)
    (pid : Int) :
    known (s.process c e) pid = (match moveOf c e pid with
      | none => known s pid
      | some move => move.learn c e.time (known s pid)) ∧
    recorded (s.process c e) pid = (match moveOf c e pid with
      | none => recorded s pid
      | some move => recorded s pid ++ move.records c e.time (known s pid)) := by
  have hnext : ∀ u : State, Sorted Node.pid u.tasks →
      known (u.switchNext c e) pid = (if 0 < e.nextPid ∧ pid = e.nextPid then
        Move.learn c e.time .switchIn (known u pid) else known u pid) ∧
      recorded (u.switchNext c e) pid = (if 0 < e.nextPid ∧ pid = e.nextPid then
        recorded u pid ++ Move.records c e.time .switchIn (known u pid) else recorded u pid) := by
    intro u hu
    by_cases hpos : 0 < e.nextPid
    · have hturn := switchNext_turn (c := c) hu hpos
      rw [hturn.learns, hturn.records]
      by_cases hpid : pid = e.nextPid
      · simp [hpid, hpos]
      · simp [hpid]
    · rw [State.switchNext, if_neg hpos]
      simp [hpos]
  unfold State.process moveOf
  cases hev : e.evsel with
  | none => exact ⟨rfl, rfl⟩
  | some evsel =>
    cases evsel with
    | schedSwitch =>
      have hprev : Sorted Node.pid (s.switchPrev c e).tasks ∧
          known (s.switchPrev c e) pid = (if 0 < e.prevPid ∧ pid = e.prevPid then
            Move.learn c e.time (.switchOut e.prevState) (known s pid) else known s pid) ∧
          recorded (s.switchPrev c e) pid = (if 0 < e.prevPid ∧ pid = e.prevPid then
            recorded s pid ++ Move.records c e.time (.switchOut e.prevState) (known s pid)
            else recorded s pid) := by
        by_cases hpos : 0 < e.prevPid
        · have hturn := switchPrev_turn (c := c) h hpos
          rw [hturn.learns, hturn.records]
          refine ⟨hturn.sorted, ?_⟩
          by_cases hpid : pid = e.prevPid
          · simp [hpid, hpos]
          · simp [hpid]
        · rw [State.switchPrev, if_neg hpos]
          simpa [hpos] using h
      obtain ⟨hsorted, hknown, hrecorded⟩ := hprev
      dsimp only
      by_cases hmode0 : c.mode = 0
      · rw [if_pos hmode0]
        obtain ⟨hknown', hrecorded'⟩ := hnext _ hsorted
        rw [hknown', hrecorded', hknown, hrecorded]
        by_cases hpid : 0 < e.prevPid ∧ pid = e.prevPid
        · have hout : ¬ (0 < e.nextPid ∧ pid = e.nextPid) := fun hin => hne (hpid.2.symm.trans hin.2)
          simp only [if_pos hpid, if_neg hout]
          exact ⟨trivial, trivial⟩
        · simp only [if_neg hpid, hmode0, true_and]
          split
          · exact ⟨rfl, rfl⟩
          · exact ⟨rfl, rfl⟩
      · rw [if_neg hmode0, hknown, hrecorded]
        simp only [hmode0, false_and, if_false]
        split
        · exact ⟨rfl, rfl⟩
        · exact ⟨rfl, rfl⟩
    | schedSwitchNext =>
      obtain ⟨hknown, hrecorded⟩ := hnext s h
      dsimp only
      rw [hknown, hrecorded]
      split
      · exact ⟨rfl, rfl⟩
      · exact ⟨rfl, rfl⟩
    | schedWakeup =>
      have hturn := wakeup_turn hmode h (Or.inl ⟨hev, rfl⟩)
      dsimp only
      rw [hturn.learns, hturn.records]
      split
      · rename_i hpid
        rw [hpid]
        exact ⟨rfl, rfl⟩
      · exact ⟨rfl, rfl⟩
    | schedWakeupNew =>
      have hturn := wakeup_turn hmode h (Or.inr ⟨hev, rfl⟩)
      dsimp only
      rw [hturn.learns, hturn.records]
      split
      · rename_i hpid
        rw [hpid]
        exact ⟨rfl, rfl⟩
      · exact ⟨rfl, rfl⟩

end View

section History
variable {c : Ctx} {init : Int → Phase} {history : List Sample} {e : Sample} {pid : Int} {move : Move}

theorem phaseAt_concat (c : Ctx) (init : Int → Phase) (history : List Sample) (e : Sample) (pid : Int) :
    phaseAt c init (history ++ [e]) pid = advance c pid (phaseAt c init history pid) e := by
  rw [phaseAt, List.foldl_append]
  rfl

theorem advance_none (h : moveOf c e pid = none) (phase : Phase) : advance c pid phase e = phase := by
  rw [advance, h]

theorem Legal.pre {post : List Sample} (h : Legal c init (history ++ post)) : Legal c init history where
  ordered := (List.pairwise_append.mp h.ordered).1
  switches := fun e he => h.switches e (List.mem_append_left _ he)
  moves := fun pre e post' heq pid move hmove =>
    h.moves pre e (post' ++ post) (by rw [heq, List.append_assoc, List.cons_append]) pid move hmove

/-- The phase that an event moves the task to. -/
theorem Legal.next {post : List Sample} (h : Legal c init (history ++ e :: post)) (hmove : moveOf c e pid = some move) :
    (phaseAt c init history pid).next c move = some (phaseAt c init (history ++ [e]) pid) := by
  have hsome := h.moves history e post rfl pid move hmove
  obtain ⟨phase, hphase⟩ := Option.isSome_iff_exists.mp hsome
  simp [phaseAt_concat, advance, hmove, hphase]

/-- The state that stands for a phase in a node: a task that runs and one that waits are both
running. -/
def Phase.Shows : Phase → Nat → Prop
  | .running, state => state = TASK_RUNNING
  | .runnable, state => state = TASK_RUNNING
  | .blocked state', state => state = state' ∧ state ≠ TASK_RUNNING
  | .gone, _ => False

/-- The task has been in a phase that shows as `state` since an event of its own at the time
`since`. -/
def Since (c : Ctx) (init : Int → Phase) (history : List Sample) (pid : Int) (state since : Nat) : Prop :=
  ∃ pre e mid phase, history = pre ++ e :: mid ∧ e.time = since ∧ (moveOf c e pid).isSome = true ∧
    phase.Shows state ∧ ∀ part, part <+: mid → phaseAt c init (pre ++ e :: part) pid = phase

/-- The task was in the phase that is recorded as `key` from an event of its own at `start` to the
event at `stop`, which ended it. -/
def Spent (c : Ctx) (init : Int → Phase) (history : List Sample) (pid : Int) (key start stop : Nat) : Prop :=
  ∃ pre e mid e' post phase, history = pre ++ e :: mid ++ e' :: post ∧ e.time = start ∧ e'.time = stop ∧
    start < stop ∧ (moveOf c e pid).isSome = true ∧ phase.key c = some key ∧
    (∀ part, part <+: mid → phaseAt c init (pre ++ e :: part) pid = phase) ∧
    phaseAt c init (pre ++ e :: mid ++ [e']) pid ≠ phase

theorem Spent.more {key start stop : Nat} (h : Spent c init history pid key start stop) (post : List Sample) :
    Spent c init (history ++ post) pid key start stop := by
  obtain ⟨pre, e, mid, e', post', phase, rfl, hrest⟩ := h
  exact ⟨pre, e, mid, e', post' ++ post, phase, by simp, hrest⟩

theorem Since.last {state since : Nat} (h : Since c init history pid state since) :
    (phaseAt c init history pid).Shows state := by
  obtain ⟨pre, e, mid, phase, rfl, -, -, hshows, hsame⟩ := h
  rw [hsame mid List.prefix_rfl]
  exact hshows

theorem Since.more {state since : Nat} (h : Since c init history pid state since)
    (hsame : phaseAt c init (history ++ [e]) pid = phaseAt c init history pid) :
    Since c init (history ++ [e]) pid state since := by
  obtain ⟨pre, e₁, mid, phase, rfl, htime, hnamed, hshows, hphase⟩ := h
  refine ⟨pre, e₁, mid ++ [e], phase, by simp, htime, hnamed, hshows, fun part hpart => ?_⟩
  obtain rfl | hpart := List.prefix_concat_iff.mp hpart
  · have hlast : pre ++ e₁ :: (mid ++ [e]) = pre ++ e₁ :: mid ++ [e] := by simp
    rw [hlast, hsame]
    exact hphase mid List.prefix_rfl
  · exact hphase part hpart

theorem Since.now {state : Nat} (hmove : moveOf c e pid = some move)
    (hshows : (phaseAt c init (history ++ [e]) pid).Shows state) :
    Since c init (history ++ [e]) pid state e.time := by
  refine ⟨history, e, [], _, rfl, rfl, by rw [hmove]; rfl, hshows, fun part hpart => ?_⟩
  rw [List.prefix_nil.mp hpart]

theorem next_switchOut {phase phase' : Phase} {state : Nat} (h : phase.next c (.switchOut state) = some phase')
    (hdead : ¬ state &&& c.stateDead ≠ 0) : phase = .running ∧ phase' ≠ .running ∧
      phase'.Shows (if state = c.reportMax then TASK_RUNNING else state) := by
  cases phase with
  | running =>
    rw [Phase.next, if_neg hdead] at h
    refine ⟨rfl, ?_⟩
    by_cases hready : state = TASK_RUNNING ∨ state = c.reportMax
    · rw [if_pos hready] at h
      cases h
      refine ⟨by simp, ?_⟩
      show (if state = c.reportMax then TASK_RUNNING else state) = TASK_RUNNING
      split
      · rfl
      · rename_i hmax
        exact hready.resolve_right hmax
    · rw [if_neg hready] at h
      cases h
      rw [not_or] at hready
      rw [if_neg hready.2]
      exact ⟨by simp, rfl, hready.1⟩
  | runnable => cases h
  | blocked _ => cases h
  | gone => cases h

/-- A wakeup of a task that is known to be running changes nothing; otherwise the task was blocked. -/
theorem next_wake {phase phase' : Phase} {state : Nat} (h : phase.next c .wake = some phase')
    (hshows : phase.Shows state) : state = TASK_RUNNING ∧ phase' = phase ∨
      state ≠ TASK_RUNNING ∧ phase = .blocked state ∧ phase' = .runnable := by
  cases phase with
  | running =>
    cases h
    exact Or.inl ⟨hshows, rfl⟩
  | runnable =>
    cases h
    exact Or.inl ⟨hshows, rfl⟩
  | blocked state' =>
    cases h
    obtain ⟨rfl, hne⟩ := hshows
    exact Or.inr ⟨hne, rfl, rfl⟩
  | gone => cases h

theorem next_wake_shows {phase phase' : Phase} (h : phase.next c .wake = some phase') :
    phase'.Shows TASK_RUNNING := by
  cases phase with
  | running =>
    cases h
    rfl
  | runnable =>
    cases h
    rfl
  | blocked _ =>
    cases h
    rfl
  | gone => cases h

theorem next_switchIn {phase phase' : Phase} (h : phase.next c .switchIn = some phase') :
    phase = .runnable ∧ phase' = .running := by
  cases phase with
  | running => cases h
  | runnable =>
    cases h
    exact ⟨rfl, rfl⟩
  | blocked _ => cases h
  | gone => cases h

theorem next_wakeNew {phase phase' : Phase} (h : phase.next c .wakeNew = some phase') :
    phase = .gone ∧ phase' = .runnable := by
  cases phase with
  | running => cases h
  | runnable => cases h
  | blocked _ => cases h
  | gone =>
    cases h
    exact ⟨rfl, rfl⟩

/-- What is learned from an event is right, if what was known is. -/
theorem learn_since {post : List Sample} (h : Legal c init (history ++ e :: post)) (hmove : moveOf c e pid = some move)
    {old : Option (Nat × Nat)}
    (hold : ∀ state since, old = some (state, since) → Since c init history pid state since)
    {state since : Nat} (hlearn : move.learn c e.time old = some (state, since)) :
    Since c init (history ++ [e]) pid state since := by
  have hnext := h.next hmove
  cases move with
  | switchOut state' =>
    rw [Move.learn] at hlearn
    by_cases hdead : state' &&& c.stateDead ≠ 0
    · rw [if_pos hdead] at hlearn
      cases hlearn
    · rw [if_neg hdead] at hlearn
      cases hlearn
      exact .now hmove (next_switchOut hnext hdead).2.2
  | switchIn =>
    cases hlearn
    refine .now hmove ?_
    rw [(next_switchIn hnext).2]
    rfl
  | wake =>
    cases old with
    | none =>
      cases hlearn
      exact .now hmove (next_wake_shows hnext)
    | some last =>
      have hsince := hold last.1 last.2 rfl
      obtain ⟨hrun, hsame⟩ | ⟨hne, -, -⟩ := next_wake hnext hsince.last
      · rw [Move.learn, if_neg (by simp [hrun])] at hlearn
        cases hlearn
        exact hrun ▸ hsince.more hsame
      · rw [Move.learn, if_pos hne] at hlearn
        cases hlearn
        exact .now hmove (next_wake_shows hnext)
  | wakeNew =>
    cases hlearn
    refine .now hmove ?_
    rw [(next_wakeNew hnext).2]
    rfl

/-- An event that records a state ends a phase that shows as it. -/
theorem key_of_next {phase phase' : Phase} {state key : Nat} (h : phase.next c move = some phase')
    (hshows : phase.Shows state) (hkey : move.key c state = some key) :
    phase.key c = some key ∧ phase' ≠ phase := by
  cases move with
  | switchOut state' =>
    cases phase with
    | running =>
      rw [Phase.Shows] at hshows
      rw [Move.key, State.runKey, if_pos hshows] at hkey
      refine ⟨hkey, ?_⟩
      rw [Phase.next] at h
      split at h
      · cases h
        simp
      · split at h
        · cases h
          simp
        · cases h
          simp
    | runnable => cases h
    | blocked _ => cases h
    | gone => cases h
  | switchIn =>
    obtain ⟨rfl, rfl⟩ := next_switchIn h
    rw [Phase.Shows] at hshows
    rw [Move.key, State.delayKey, if_pos hshows] at hkey
    exact ⟨hkey, by simp⟩
  | wake =>
    obtain ⟨rfl, -⟩ | ⟨-, rfl, rfl⟩ := next_wake h hshows
    · rw [Move.key, State.waitKey, TASK_RUNNING, Nat.zero_and, if_neg (by simp)] at hkey
      cases hkey
    · exact ⟨hkey, by simp⟩
  | wakeNew =>
    obtain ⟨rfl, -⟩ := next_wakeNew h
    exact hshows.elim

/-- What an event records was spent so, if what was known is right. -/
theorem records_spent {post : List Sample} (h : Legal c init (history ++ e :: post))
    (hmove : moveOf c e pid = some move) {old : Option (Nat × Nat)}
    (hold : ∀ state since, old = some (state, since) → Since c init history pid state since)
    {key start stop : Nat} (hrec : (key, start, stop) ∈ move.records c e.time old) :
    Spent c init (history ++ [e]) pid key start stop := by
  have hnext := h.next hmove
  cases old with
  | none => cases hrec
  | some last =>
    rw [Move.records] at hrec
    split at hrec
    · rename_i htime
      cases hkey : move.key c last.1 with
      | none =>
        rw [hkey] at hrec
        cases hrec
      | some key' =>
        rw [hkey] at hrec
        cases List.mem_singleton.mp hrec
        have hsince := hold last.1 last.2 rfl
        obtain ⟨hphase, hends⟩ := key_of_next hnext hsince.last hkey
        obtain ⟨pre, e₁, mid, phase, rfl, hstart, hnamed, -, hsame⟩ := hsince
        rw [hsame mid List.prefix_rfl] at hphase hends
        exact ⟨pre, e₁, mid, e, [], phase, rfl, hstart, rfl, htime, hnamed, hphase, hsame, hends⟩
    · cases hrec

end History

section Runs
variable {c : Ctx} {init : Int → Phase} {pid : Int} {hs : List Happening}

/-- What happens: the profiler is called, or the scheduler has an event that is lost. -/
inductive Happening where
  | input (x : Input)
  | missed (e : Sample)

def Happening.input? : Happening → Option Input
  | .input x => some x
  | .missed _ => none

def Happening.event? : Happening → Option Sample
  | .input x => x.sample?
  | .missed e => some e

/-- What the profiler is called with. -/
def inputsOf (hs : List Happening) : List Input := hs.filterMap Happening.input?

/-- What the scheduler did. -/
def historyOf (hs : List Happening) : List Sample := hs.filterMap Happening.event?

/-- Each event of the task that is lost is inside a window that was reported. -/
def Covered (c : Ctx) (pid : Int) (hs : List Happening) : Prop :=
  ∀ pre e post, hs = pre ++ .missed e :: post → moveOf c e pid = none ∨
    ∃ ins ls le, .lost ins ls le ∈ inputsOf pre ∧ ls < e.time ∧ e.time < le

theorem inputsOf_append (hs hs' : List Happening) : inputsOf (hs ++ hs') = inputsOf hs ++ inputsOf hs' :=
  List.filterMap_append

theorem historyOf_append (hs hs' : List Happening) : historyOf (hs ++ hs') = historyOf hs ++ historyOf hs' :=
  List.filterMap_append

theorem Covered.pre {post : List Happening} (h : Covered c pid (hs ++ post)) : Covered c pid hs :=
  fun pre e post' heq => h pre e (post' ++ post) (by rw [heq, List.append_assoc, List.cons_append])

/-- The samples are among the events. -/
theorem samples_sublist (hs : List Happening) : (samples (inputsOf hs)).Sublist (historyOf hs) := by
  induction hs with
  | nil => exact .slnil
  | cons x hs ih =>
    cases x with
    | input x =>
      cases x with
      | sample e => exact ih.cons_cons e
      | lost ins ls le => exact ih
      | commDelete pid freeTime => exact ih
    | missed e => exact ih.cons e

theorem Legal.inOrder (h : Legal c init (historyOf hs)) : InOrder (inputsOf hs) :=
  h.ordered.sublist (samples_sublist hs)

/-- What is known of a task is right, unless a window that was reported has begun, in which case
the next sample drops it; what is recorded was spent so. -/
structure Faithful (c : Ctx) (init : Int → Phase) (pid : Int) (history : List Sample) (s : State) : Prop where
  node : (∃ lost ∈ s.lostList, ∃ e ∈ history, lost.startTime < e.time) ∨
    ∀ state since, known s pid = some (state, since) → Since c init history pid state since
  spent : ∀ key start stop, (key, start, stop) ∈ recorded s pid → Spent c init history pid key start stop

theorem known_of_tasks_nil {s : State} (h : s.tasks = []) (pid : Int) : known s pid = none := by
  unfold known State.find
  rw [h]
  rfl

/-- Behind `task_state_event_lost` what is known of a task is right. -/
theorem Faithful.settled {history : List Sample} {s u : State} {e : Sample} (h : Faithful c init pid history s)
    (ht : Tracked s) (hord : ∀ e' ∈ history, e'.time ≤ e.time)
    (hlost : u.lostList = settle e.time s.lostList)
    (htasks : u.tasks = if wipes e.time s.lostList then [] else s.tasks)
    (hout : ∀ lost ∈ u.lostList, e.time ≤ lost.startTime) :
    ∀ state since, known u pid = some (state, since) → Since c init history pid state since := by
  obtain ⟨lost, hin, e', he', hlt⟩ | hright := h.node
  · -- the window is behind the event, or it has been crossed
    have hnil : u.tasks = [] := by
      obtain ⟨lost', hin', hstart, -⟩ | ⟨hcrossed, -⟩ := settle_mem hin e.time
      · have hle := hout lost' (hlost ▸ hin')
        have hle' := hord e' he'
        omega
      · rw [htasks]
        exact tasks_of_crossed ht.windowed hcrossed
    intro state since hknown
    rw [known_of_tasks_nil hnil] at hknown
    cases hknown
  · intro state since hknown
    by_cases hwipes : wipes e.time s.lostList = true
    · rw [if_pos hwipes] at htasks
      rw [known_of_tasks_nil htasks] at hknown
      cases hknown
    · rw [if_neg hwipes] at htasks
      rw [known_congr htasks] at hknown
      exact hright state since hknown

/-- A sample that is processed. -/
theorem process_faithful {history : List Sample} {s u : State} {e : Sample} (hmode : c.mode < 2)
    (h : Faithful c init pid history s) (hlegal : Legal c init (history ++ [e]))
    (hsorted : Sorted Node.pid u.tasks) (hlog : u.log = s.log)
    (hright : ∀ state since, known u pid = some (state, since) → Since c init history pid state since) :
    Faithful c init pid (history ++ [e]) (u.process c e) := by
  have hne := hlegal.switches e (List.mem_append_right _ (List.mem_singleton.mpr rfl))
  obtain ⟨hknown, hrecorded⟩ := process_known hmode hsorted hne pid
  rw [recorded_congr hlog] at hrecorded
  refine ⟨Or.inr ?_, ?_⟩
  · rw [hknown]
    cases hmove : moveOf c e pid with
    | none =>
      refine fun state since hold => (hright state since hold).more ?_
      rw [phaseAt_concat, advance_none hmove]
    | some move => exact fun state since hlearn => learn_since hlegal hmove hright hlearn
  · rw [hrecorded]
    cases hmove : moveOf c e pid with
    | none => exact fun key start stop hold => (h.spent key start stop hold).more [e]
    | some move =>
      intro key start stop hrec
      obtain hold | hnew := List.mem_append.mp hrec
      · exact (h.spent key start stop hold).more [e]
      · exact records_spent hlegal hmove hright hnew

theorem sample_faithful {history : List Sample} {s : State} {e : Sample} (hmode : c.mode < 2)
    (hfinal : c.final = true) (ht : Tracked s) (h : Faithful c init pid history s)
    (hlegal : Legal c init (history ++ [e])) : Faithful c init pid (history ++ [e]) (s.sample c e) := by
  have hord : ∀ e' ∈ history, e'.time ≤ e.time := fun e' he' =>
    (List.pairwise_append.mp hlegal.ordered).2.2 e' he' e (List.mem_singleton.mpr rfl)
  obtain ⟨hno, -⟩ | ⟨u, hlost, hlog, htasks, -, hcase⟩ := sample_cases c s e ht.windowed.ascending
  · rw [hfinal] at hno
    cases hno
  · obtain ⟨hinside, heq⟩ | ⟨hout, heq⟩ := hcase
    · rw [heq]
      obtain ⟨lost, hcrossed, -⟩ := exists_crossed_of_inside hinside
      have hnil : u.tasks = [] := htasks.trans (tasks_of_crossed ht.windowed hcrossed)
      refine ⟨Or.inr fun state since hknown => ?_, fun key start stop hrec => ?_⟩
      · rw [known_of_tasks_nil hnil] at hknown
        cases hknown
      · rw [recorded_congr hlog] at hrec
        exact (h.spent key start stop hrec).more [e]
    · rw [heq]
      exact process_faithful hmode h hlegal (ht.timed.settled hlog htasks).sorted hlog
        (h.settled ht hord hlost htasks hout)

theorem known_notify {s : State} (hs : Sorted Node.pid s.tasks) (pid' : Int) (freeTime : Nat) (pid : Int) :
    known (s.notify pid' freeTime) pid = known s pid ∨ pid' = pid ∧ known (s.notify pid' freeTime) pid = none ∧
      ∃ state since, known s pid = some (state, since) ∧ since < freeTime := by
  unfold State.notify
  cases hfind : s.find pid' with
  | none => exact Or.inl rfl
  | some task =>
    dsimp only
    split
    · rename_i htime
      have htask := find_pid hfind
      rw [known_remove hs, htask]
      by_cases hpid : pid = pid'
      · rw [if_pos hpid]
        refine Or.inr ⟨hpid.symm, rfl, task.state, task.time, ?_, htime⟩
        rw [known, hpid, hfind]
        rfl
      · rw [if_neg hpid]
        exact Or.inl rfl
    · exact Or.inl rfl

theorem Faithful.more {history : List Sample} {s : State} {e : Sample} (h : Faithful c init pid history s)
    (hmove : moveOf c e pid = none) : Faithful c init pid (history ++ [e]) s := by
  refine ⟨h.node.imp ?_ ?_, fun key start stop hrec => (h.spent key start stop hrec).more [e]⟩
  · rintro ⟨lost, hin, e', he', hlt⟩
    exact ⟨lost, hin, e', List.mem_append_left _ he', hlt⟩
  · refine fun hright state since hknown => (hright state since hknown).more ?_
    rw [phaseAt_concat, advance_none hmove]

/-- A reported window stays until a sample is not before its end. -/
theorem reported_window {inputs : List Input} (hfinal : c.final = true) (h : InOrder inputs) {ins ls le t : Nat}
    (hreported : .lost ins ls le ∈ inputs) (ht : ∀ e ∈ samples inputs, e.time ≤ t) (hend : t < le) :
    ∃ lost ∈ (run c inputs).lostList, lost.startTime = ls := by
  obtain ⟨pre, post, rfl⟩ := List.append_of_mem hreported
  obtain ⟨⟨lost, hin, hstart, -⟩ | ⟨hle, -⟩, -⟩ := run_clear hfinal h
  · exact ⟨lost, hin, hstart⟩
  · have hrecent := (run_tracked c h).2.2 t ht
    omega

/-- The inputs one by one, and the events that are lost in between. -/
theorem run_faithful (hmode : c.mode < 2) (hfinal : c.final = true) (hlegal : Legal c init (historyOf hs))
    (hcovered : Covered c pid hs) : Faithful c init pid (historyOf hs) (run c (inputsOf hs)) := by
  induction hs using List.reverseRecOn with
  | nil =>
    refine ⟨Or.inr ?_, ?_⟩
    · simp [known, State.find, inputsOf, run, start, entryAt]
    · simp [recorded, inputsOf, run, start]
  | append_singleton hs x ih =>
    rw [historyOf_append] at hlegal
    have h := ih hlegal.pre hcovered.pre
    have htracked := (run_tracked c hlegal.pre.inOrder).1
    cases x with
    | missed e =>
      have hinputs : inputsOf (hs ++ [.missed e]) = inputsOf hs := (inputsOf_append hs _).trans (List.append_nil _)
      rw [hinputs, historyOf_append]
      obtain hmove | ⟨ins, ls, le, hreported, hstart, hend⟩ := hcovered hs e [] rfl
      · exact h.more hmove
      · have hin : ∀ e' ∈ samples (inputsOf hs), e'.time ≤ e.time := by
          intro e' he'
          have hall := (List.pairwise_append.mp hlegal.ordered).2.2
          exact hall e' ((samples_sublist hs).subset he') e (List.mem_singleton.mpr rfl)
        obtain ⟨lost, hlost, heq⟩ := reported_window hfinal hlegal.pre.inOrder hreported hin hend
        refine ⟨Or.inl ⟨lost, hlost, e, ?_, heq ▸ hstart⟩, fun key start stop hrec => ?_⟩
        · exact List.mem_append_right _ (List.mem_singleton.mpr rfl)
        · exact (h.spent key start stop hrec).more [e]
    | input x =>
      have hinputs : inputsOf (hs ++ [.input x]) = inputsOf hs ++ [x] := inputsOf_append hs _
      rw [hinputs, run_concat, historyOf_append]
      cases x with
      | sample e => exact sample_faithful hmode hfinal htracked h hlegal
      | lost ins ls le =>
        show Faithful c init pid (historyOf hs ++ []) ((run c (inputsOf hs)).lost c ins ls le)
        rw [List.append_nil, State.lost, if_neg (by simp [hfinal])]
        refine ⟨h.node.imp_left ?_, h.spent⟩
        rintro ⟨lost, hin, hrest⟩
        exact ⟨lost, mem_insertLost.mpr (Or.inr hin), hrest⟩
      | commDelete pid' freeTime =>
        show Faithful c init pid (historyOf hs ++ []) ((run c (inputsOf hs)).notify pid' freeTime)
        obtain ⟨hlog, hlost, -⟩ := notify_cases (run c (inputsOf hs)) pid' freeTime
        rw [List.append_nil]
        refine ⟨?_, ?_⟩
        · rw [hlost]
          refine h.node.imp_right fun hright state since hknown => ?_
          obtain hsame | ⟨-, hnone, -⟩ := known_notify htracked.timed.sorted pid' freeTime pid
          · exact hright state since (hsame ▸ hknown)
          · rw [hnone] at hknown
            cases hknown
        · intro key start stop hrec
          rw [recorded_congr hlog] at hrec
          exact h.spent key start stop hrec

/-- Where all events of a task are seen but those inside of reported windows, each time that is
recorded for it was spent in the phase that it is recorded for, up to the phase's end. -/
theorem task_state_spent (hmode : c.mode < 2) (hfinal : c.final = true) (hlegal : Legal c init (historyOf hs))
    (hcovered : Covered c pid hs) : ∀ a ∈ (run c (inputsOf hs)).log, a.pid = pid →
      Spent c init (historyOf hs) pid a.key a.start a.stop := by
  intro a ha hpid
  refine (run_faithful hmode hfinal hlegal hcovered).spent a.key a.start a.stop ?_
  rw [recorded, List.mem_map]
  exact ⟨a, List.mem_filter.mpr ⟨ha, by simpa using hpid⟩, rfl⟩

/-- The windows that are left were reported. -/
theorem lostList_reported {inputs : List Input} (h : InOrder inputs) :
    ∀ lost ∈ (run c inputs).lostList, ∃ ins, .lost ins lost.startTime lost.endTime ∈ inputs := by
  induction inputs using List.reverseRecOn with
  | nil => simp [run, start]
  | append_singleton inputs x ih =>
    have ih := ih h.pre
    have hasc := (run_tracked c h.pre).1.windowed.ascending
    have hmore : ∀ lost ∈ (run c inputs).lostList, ∃ ins, .lost ins lost.startTime lost.endTime ∈ inputs ++ [x] := by
      intro lost hin
      obtain ⟨ins, hreported⟩ := ih lost hin
      exact ⟨ins, List.mem_append_left _ hreported⟩
    rw [run_concat]
    cases x with
    | sample e =>
      show ∀ lost ∈ ((run c inputs).sample c e).lostList, _
      have hsettle : ∀ lost ∈ settle e.time (run c inputs).lostList,
          ∃ ins, .lost ins lost.startTime lost.endTime ∈ inputs ++ [.sample e] := by
        intro lost hin
        obtain hold | ⟨-, -, -, old, hcrossed, rfl⟩ := mem_settle hin
        · exact hmore lost hold
        · exact hmore old (crossed_mem hcrossed).1
      obtain ⟨-, heq⟩ | ⟨u, hlost, -, -, -, hcase⟩ := sample_cases c (run c inputs) e hasc
      · rw [heq]
        exact hmore
      · obtain ⟨-, heq⟩ | ⟨-, heq⟩ := hcase
        · rw [heq, hlost]
          exact hsettle
        · rw [heq, process_lostList, hlost]
          exact hsettle
    | lost ins ls le =>
      show ∀ lost ∈ ((run c inputs).lost c ins ls le).lostList, _
      unfold State.lost
      split
      · exact hmore
      · intro lost hin
        obtain rfl | hold := mem_insertLost.mp hin
        · exact ⟨ins, List.mem_append_right _ (List.mem_singleton.mpr rfl)⟩
        · exact hmore lost hold
    | commDelete pid freeTime =>
      show ∀ lost ∈ ((run c inputs).notify pid freeTime).lostList, _
      rw [(notify_cases (run c inputs) pid freeTime).2.1]
      exact hmore

/-- A sample before all windows is processed. -/
theorem sample_ahead {s : State} {e : Sample} (hfinal : c.final = true) (hasc : Ascending s.lostList)
    (hahead : ∀ lost ∈ s.lostList, e.time ≤ lost.startTime) :
    ∃ u : State, u.tasks = s.tasks ∧ u.log = s.log ∧ u.lostList = s.lostList ∧ s.sample c e = u.process c e := by
  obtain ⟨hsettle, hcrossed⟩ := settle_of_le hahead
  obtain ⟨hno, -⟩ | ⟨u, hlost, hlog, htasks, -, hcase⟩ := sample_cases c s e hasc
  · rw [hfinal] at hno
    cases hno
  · rw [wipes, hcrossed] at htasks
    obtain ⟨hinside, -⟩ | ⟨-, heq⟩ := hcase
    · obtain ⟨lost, hin, -⟩ := exists_crossed_of_inside hinside
      rw [hcrossed] at hin
      cases hin
    · exact ⟨u, htasks, hlog, hlost.trans hsettle, heq⟩

/-- Nothing keeps the profiler from seeing what the task does from `e` to `e'`: its events come
in, each window is over at `e` or begins no sooner than `e'`, and the task is not forgotten. -/
structure Watched (c : Ctx) (pid : Int) (pre : List Happening) (e : Sample) (mid : List Happening) (e' : Sample) :
    Prop where
  seen : ∀ x, .missed x ∈ mid → moveOf c x pid = none
  passed : ∀ ins ls le, .lost ins ls le ∈ inputsOf pre → ls < e.time ∧ le ≤ e.time ∨ e'.time ≤ ls
  ahead : ∀ ins ls le, .lost ins ls le ∈ inputsOf mid → e'.time ≤ ls
  kept : ∀ freeTime, .commDelete pid freeTime ∈ inputsOf mid → freeTime ≤ e.time

/-- What is known while the task is in the phase that began at `time`. -/
structure Watch (pid : Int) (phase : Phase) (time stop : Nat) (s : State) : Prop where
  ahead : ∀ lost ∈ s.lostList, stop ≤ lost.startTime
  known : ∃ state, phase.Shows state ∧ TaskState.known s pid = some (state, time)

/-- An event that begins a phase to record. -/
theorem learn_enter {phase phase' : Phase} {move : Move} {key time : Nat} {old : Option (Nat × Nat)}
    (h : phase.next c move = some phase') (hne : phase ≠ phase') (hkey : phase'.key c = some key)
    (hold : ∀ state since, old = some (state, since) → phase.Shows state) :
    ∃ state, phase'.Shows state ∧ move.learn c time old = some (state, time) := by
  cases move with
  | switchOut state =>
    by_cases hdead : state &&& c.stateDead ≠ 0
    · cases phase with
      | running =>
        rw [Phase.next, if_pos hdead] at h
        cases h
        cases hkey
      | runnable => cases h
      | blocked _ => cases h
      | gone => cases h
    · refine ⟨_, (next_switchOut h hdead).2.2, ?_⟩
      rw [Move.learn, if_neg hdead]
  | switchIn =>
    obtain ⟨-, rfl⟩ := next_switchIn h
    exact ⟨TASK_RUNNING, rfl, rfl⟩
  | wake =>
    refine ⟨TASK_RUNNING, next_wake_shows h, ?_⟩
    cases old with
    | none => rfl
    | some last =>
      obtain ⟨-, hsame⟩ | ⟨hblocked, -, -⟩ := next_wake h (hold last.1 last.2 rfl)
      · exact absurd hsame.symm hne
      · rw [Move.learn, if_pos hblocked]
  | wakeNew =>
    obtain ⟨-, rfl⟩ := next_wakeNew h
    exact ⟨TASK_RUNNING, rfl, rfl⟩

/-- An event that leaves the task in its phase leaves alone what is known of it. -/
theorem learn_stay {phase : Phase} {move : Move} {key time state since : Nat} (h : phase.next c move = some phase)
    (hkey : phase.key c = some key) (hshows : phase.Shows state) :
    move.learn c time (some (state, since)) = some (state, since) := by
  cases move with
  | switchOut state' =>
    by_cases hdead : state' &&& c.stateDead ≠ 0
    · cases phase with
      | running =>
        rw [Phase.next, if_pos hdead] at h
        cases h
      | runnable => cases h
      | blocked _ => cases h
      | gone => cases h
    · obtain ⟨rfl, hne, -⟩ := next_switchOut h hdead
      exact absurd rfl hne
  | switchIn =>
    obtain ⟨rfl, hrun⟩ := next_switchIn h
    cases hrun
  | wake =>
    obtain ⟨hrun, -⟩ | ⟨-, rfl, hrun⟩ := next_wake h hshows
    · rw [Move.learn, if_neg (by simp [hrun]), hrun]
    · cases hrun
  | wakeNew =>
    obtain ⟨rfl, hrun⟩ := next_wakeNew h
    cases hrun

/-- An event that ends a phase to record. -/
theorem records_leave {phase phase' : Phase} {move : Move} {key time state since : Nat}
    (h : phase.next c move = some phase') (hne : phase' ≠ phase) (hkey : phase.key c = some key)
    (hshows : phase.Shows state) (htime : since < time) :
    move.records c time (some (state, since)) = [(key, since, time)] := by
  have hmove : move.key c state = some key := by
    cases move with
    | switchOut state' =>
      cases phase with
      | running =>
        rw [Phase.Shows] at hshows
        rw [Move.key, State.runKey, if_pos hshows]
        exact hkey
      | runnable => cases h
      | blocked _ => cases h
      | gone => cases h
    | switchIn =>
      obtain ⟨rfl, -⟩ := next_switchIn h
      rw [Phase.Shows] at hshows
      rw [Move.key, State.delayKey, if_pos hshows]
      exact hkey
    | wake =>
      obtain ⟨-, hsame⟩ | ⟨-, rfl, -⟩ := next_wake h hshows
      · exact absurd hsame hne
      · exact hkey
    | wakeNew =>
      obtain ⟨rfl, -⟩ := next_wakeNew h
      cases hkey
  rw [Move.records, if_pos htime, hmove]
  rfl

/-- The event that begins a phase to record is processed. -/
theorem watch_begin {pre mid : List Happening} {e e' : Sample} {phase : Phase} {key : Nat} (hmode : c.mode < 2)
    (hfinal : c.final = true) (hlegal : Legal c init (historyOf pre ++ [e])) (hcovered : Covered c pid pre)
    (hwatched : Watched c pid pre e mid e') (htime : e.time < e'.time)
    (hbegin : phaseAt c init (historyOf pre) pid ≠ phase)
    (hphase : phaseAt c init (historyOf pre ++ [e]) pid = phase) (hkey : phase.key c = some key) :
    Watch pid phase e.time e'.time ((run c (inputsOf pre)).sample c e) := by
  have hinorder := hlegal.pre.inOrder
  have hfaithful := run_faithful hmode hfinal hlegal.pre hcovered
  have htracked := (run_tracked c hinorder).1
  have hord : ∀ e₁ ∈ historyOf pre, e₁.time ≤ e.time := fun e₁ he₁ =>
    (List.pairwise_append.mp hlegal.ordered).2.2 e₁ he₁ e (List.mem_singleton.mpr rfl)
  -- a window is over, or begins no sooner than the end
  have hpassed : ∀ lost ∈ (run c (inputsOf pre)).lostList,
      lost.startTime < e.time ∧ lost.endTime ≤ e.time ∨ e'.time ≤ lost.startTime := by
    intro lost hin
    obtain ⟨ins, hreported⟩ := lostList_reported hinorder lost hin
    exact hwatched.passed ins _ _ hreported
  obtain ⟨hno, -⟩ | ⟨u, hlost, hlog, htasks, -, hcase⟩ :=
    sample_cases c (run c (inputsOf pre)) e htracked.windowed.ascending
  · rw [hfinal] at hno
    cases hno
  · obtain ⟨hinside, -⟩ | ⟨hout, heq⟩ := hcase
    · obtain ⟨lost, hcrossed, hend⟩ := exists_crossed_of_inside hinside
      obtain ⟨hin, hstart⟩ := crossed_mem hcrossed
      have hwin := hpassed lost hin
      omega
    · have hsorted := (htracked.timed.settled hlog htasks).sorted
      have hright := hfaithful.settled htracked hord hlost htasks hout
      have hne := hlegal.switches e (List.mem_append_right _ (List.mem_singleton.mpr rfl))
      rw [heq]
      refine ⟨fun lost hin => ?_, ?_⟩
      · rw [process_lostList] at hin
        have hle := hout lost hin
        rw [hlost] at hin
        obtain hold | ⟨-, hlt, -⟩ := mem_settle hin
        · have hwin := hpassed lost hold
          omega
        · omega
      · rw [(process_known hmode hsorted hne pid).1]
        cases hmove : moveOf c e pid with
        | none =>
          rw [phaseAt_concat, advance_none hmove] at hphase
          exact absurd hphase hbegin
        | some move =>
          have hnext := hlegal.next hmove
          rw [hphase] at hnext
          exact learn_enter hnext hbegin hkey fun state since hold => (hright state since hold).last

/-- A sample that leaves the task in its phase. -/
theorem Watch.sample {s : State} {history : List Sample} {x : Sample} {phase : Phase} {key time stop : Nat}
    (h : Watch pid phase time stop s) (hmode : c.mode < 2) (hfinal : c.final = true) (ht : Tracked s)
    (hlegal : Legal c init (history ++ [x])) (hx : x.time ≤ stop) (hold : phaseAt c init history pid = phase)
    (hnew : phaseAt c init (history ++ [x]) pid = phase) (hkey : phase.key c = some key) :
    Watch pid phase time stop (s.sample c x) := by
  obtain ⟨u, htasks, -, hlost, heq⟩ := sample_ahead (e := x) hfinal ht.windowed.ascending
    fun lost hin => Nat.le_trans hx (h.ahead lost hin)
  obtain ⟨state, hshows, hknown⟩ := h.known
  have hne := hlegal.switches x (List.mem_append_right _ (List.mem_singleton.mpr rfl))
  rw [heq]
  refine ⟨fun lost hin => ?_, state, hshows, ?_⟩
  · rw [process_lostList, hlost] at hin
    exact h.ahead lost hin
  · rw [(process_known hmode (htasks ▸ ht.timed.sorted) hne pid).1, known_congr htasks, hknown]
    cases hmove : moveOf c x pid with
    | none => rfl
    | some move =>
      have hnext := hlegal.next hmove
      rw [hold, hnew] at hnext
      exact learn_stay hnext hkey hshows

theorem Watch.lost {s : State} {phase : Phase} {time stop : Nat} (h : Watch pid phase time stop s)
    {ins ls le : Nat} (hahead : stop ≤ ls) : Watch pid phase time stop (s.lost c ins ls le) := by
  unfold State.lost
  split
  · exact h
  · refine ⟨fun lost hin => ?_, h.known⟩
    obtain rfl | hold := mem_insertLost.mp hin
    · exact hahead
    · exact h.ahead lost hold

theorem Watch.notify {s : State} {phase : Phase} {time stop : Nat} (h : Watch pid phase time stop s)
    (ht : Tracked s) {pid' : Int} {freeTime : Nat} (hkept : pid' = pid → freeTime ≤ time) :
    Watch pid phase time stop (s.notify pid' freeTime) := by
  obtain ⟨state, hshows, hknown⟩ := h.known
  refine ⟨fun lost hin => ?_, state, hshows, ?_⟩
  · rw [(notify_cases s pid' freeTime).2.1] at hin
    exact h.ahead lost hin
  · obtain hsame | ⟨heq, -, state', since, hold, hlt⟩ := known_notify ht.timed.sorted pid' freeTime pid
    · exact hsame.trans hknown
    · rw [hknown] at hold
      cases hold
      have hle := hkept heq
      omega

theorem Watched.most {pre mid : List Happening} {e e' : Sample} {x : Happening}
    (h : Watched c pid pre e (mid ++ [x]) e') : Watched c pid pre e mid e' where
  seen := fun y hy => h.seen y (List.mem_append_left _ hy)
  passed := h.passed
  ahead := fun ins ls le hin => h.ahead ins ls le (by rw [inputsOf_append]; exact List.mem_append_left _ hin)
  kept := fun freeTime hin => h.kept freeTime (by rw [inputsOf_append]; exact List.mem_append_left _ hin)

/-- What happens while the task stays in its phase. -/
theorem watch_stay {pre mid : List Happening} {e e' : Sample} {phase : Phase} {key : Nat} (hmode : c.mode < 2)
    (hfinal : c.final = true) (hlegal : Legal c init (historyOf (pre ++ .input (.sample e) :: mid)))
    (hcovered : Covered c pid pre) (hwatched : Watched c pid pre e mid e') (htime : e.time < e'.time)
    (hlast : ∀ x ∈ historyOf mid, x.time ≤ e'.time)
    (hbegin : phaseAt c init (historyOf pre) pid ≠ phase)
    (hphase : ∀ part, part <+: historyOf mid → phaseAt c init (historyOf pre ++ e :: part) pid = phase)
    (hkey : phase.key c = some key) :
    Watch pid phase e.time e'.time (run c (inputsOf (pre ++ .input (.sample e) :: mid))) := by
  induction mid using List.reverseRecOn with
  | nil =>
    have hinputs : inputsOf (pre ++ [.input (.sample e)]) = inputsOf pre ++ [.sample e] := inputsOf_append pre _
    rw [historyOf_append] at hlegal
    rw [hinputs, run_concat]
    exact watch_begin hmode hfinal hlegal hcovered hwatched htime hbegin (hphase [] List.prefix_rfl) hkey
  | append_singleton mid x ih =>
    have hsplit : pre ++ .input (.sample e) :: (mid ++ [x]) = (pre ++ .input (.sample e) :: mid) ++ [x] := by simp
    have hhistory : historyOf (pre ++ .input (.sample e) :: mid) = historyOf pre ++ e :: historyOf mid :=
      historyOf_append pre _
    rw [historyOf_append] at hlast hphase
    rw [hsplit, historyOf_append] at hlegal
    have hwatch := ih hlegal.pre hwatched.most (fun y hy => hlast y (List.mem_append_left _ hy))
      (fun part hpart => hphase part (hpart.trans (List.prefix_append _ _)))
    have htracked := (run_tracked c hlegal.pre.inOrder).1
    have hlastin : ∀ y, x = .input y → y ∈ inputsOf (mid ++ [x]) := by
      rintro y rfl
      rw [inputsOf_append]
      exact List.mem_append_right _ (List.mem_singleton.mpr rfl)
    rw [hsplit, inputsOf_append]
    cases x with
    | missed y =>
      show Watch pid phase e.time e'.time (run c (_ ++ []))
      rw [List.append_nil]
      exact hwatch
    | input x =>
      show Watch pid phase e.time e'.time (run c (_ ++ [x]))
      rw [run_concat]
      cases x with
      | sample y =>
        have hold := hphase _ (List.prefix_append (historyOf mid) _)
        have hnew : phaseAt c init (historyOf pre ++ e :: (historyOf mid ++ [y])) pid = phase :=
          hphase _ List.prefix_rfl
        have happend : historyOf pre ++ e :: (historyOf mid ++ [y]) =
            historyOf (pre ++ .input (.sample e) :: mid) ++ [y] := by
          rw [hhistory]
          simp
        exact hwatch.sample hmode hfinal htracked hlegal
          (hlast y (List.mem_append_right _ (List.mem_singleton.mpr rfl))) (hhistory ▸ hold) (happend ▸ hnew) hkey
      | lost ins ls le => exact hwatch.lost (hwatched.ahead ins ls le (hlastin _ rfl))
      | commDelete pid' freeTime =>
        refine hwatch.notify htracked ?_
        rintro rfl
        exact hwatched.kept freeTime (hlastin _ rfl)

/-- The records stay. -/
theorem run_log_prefix (c : Ctx) (inputs inputs' : List Input) (h : InOrder (inputs ++ inputs')) :
    ∃ log, (run c (inputs ++ inputs')).log = (run c inputs).log ++ log := by
  induction inputs' using List.reverseRecOn with
  | nil => exact ⟨[], by simp⟩
  | append_singleton inputs' x ih =>
    rw [← List.append_assoc] at h ⊢
    obtain ⟨log, hlog⟩ := ih h.pre
    have hasc := (run_tracked c h.pre).1.windowed.ascending
    rw [run_concat]
    suffices hstep : ∃ more, ((run c (inputs ++ inputs')).step c x).log = (run c (inputs ++ inputs')).log ++ more by
      obtain ⟨more, hmore⟩ := hstep
      exact ⟨log ++ more, by rw [hmore, hlog, List.append_assoc]⟩
    cases x with
    | sample e =>
      show ∃ more, (State.sample c _ e).log = _
      obtain ⟨-, heq⟩ | ⟨u, -, hlog', -, -, hcase⟩ := sample_cases c (run c (inputs ++ inputs')) e hasc
      · rw [heq]
        exact ⟨[], by simp⟩
      · obtain ⟨-, heq⟩ | ⟨-, heq⟩ := hcase
        · rw [heq, hlog']
          exact ⟨[], by simp⟩
        · rw [heq, ← hlog']
          refine process_induct (P := fun v => ∃ more, v.log = u.log ++ more) c e ⟨[], by simp⟩ ?_
          rintro v v' pid - htouch ⟨more, hmore⟩
          obtain ⟨charges, hcharges, -⟩ := htouch.logged
          exact ⟨more ++ charges, by rw [hcharges, hmore, List.append_assoc]⟩
    | lost ins ls le =>
      show ∃ more, (State.lost c _ ins ls le).log = _
      unfold State.lost
      split
      · exact ⟨[], by simp⟩
      · exact ⟨[], by simp⟩
    | commDelete pid freeTime =>
      show ∃ more, (State.notify _ pid freeTime).log = _
      rw [(notify_cases _ pid freeTime).1]
      exact ⟨[], by simp⟩

theorem Legal.concat {history : List Sample} {e : Sample} (h : Legal c init history)
    (hord : ∀ e' ∈ history, e'.time ≤ e.time) (hne : e.prevPid ≠ e.nextPid)
    (hmove : ∀ pid move, moveOf c e pid = some move → ((phaseAt c init history pid).next c move).isSome = true) :
    Legal c init (history ++ [e]) where
  ordered := by
    refine List.pairwise_append.mpr ⟨h.ordered, List.pairwise_singleton _ _, fun e' he' x hx => ?_⟩
    rw [List.mem_singleton.mp hx]
    exact hord e' he'
  switches := by
    intro x hx
    obtain hold | hnew := List.mem_append.mp hx
    · exact h.switches x hold
    · rw [List.mem_singleton.mp hnew]
      exact hne
  moves := by
    intro pre x post heq
    obtain rfl | ⟨post', y, rfl⟩ := List.eq_nil_or_concat post
    · obtain ⟨rfl, hx⟩ := List.append_inj' heq rfl
      cases hx
      exact hmove
    · rw [List.concat_eq_append, ← List.cons_append, ← List.append_assoc] at heq
      exact h.moves pre x post' (List.append_inj' heq rfl).1

theorem Legal.switch {history : List Sample} {e : Sample} (h : Legal c init history)
    (hev : e.evsel = some .schedSwitch) (hord : ∀ e' ∈ history, e'.time ≤ e.time) (hne : e.prevPid ≠ e.nextPid)
    (hprev : ((phaseAt c init history e.prevPid).next c (.switchOut e.prevState)).isSome = true)
    (hnext : ((phaseAt c init history e.nextPid).next c .switchIn).isSome = true) :
    Legal c init (history ++ [e]) := by
  refine h.concat hord hne fun pid move hmove => ?_
  simp only [moveOf, hev] at hmove
  split at hmove
  · rename_i hpid
    cases hmove
    rw [hpid.2]
    exact hprev
  · split at hmove
    · rename_i hpid
      cases hmove
      rw [hpid.2.2]
      exact hnext
    · cases hmove

/-- Task 5 goes to sleep at 10, and task 7 gets the CPU; task 5 is woken up at 20. From 25 to 30 events
are lost: task 5 gets the CPU back at 27. -/
def sleepMissed : List Happening :=
  [.input (.sample ⟨64, some .schedSwitch, 10, 5, 1, 7, 0⟩), .input (.sample ⟨64, some .schedWakeup, 20, 0, 0, 1, 5⟩),
    .input (.lost 0 25 30), .missed ⟨64, some .schedSwitch, 27, 7, 0, 5, 0⟩]

def sleepCtx : Ctx := ⟨false, false, 0, false, 0, true⟩

def sleepInit (pid : Int) : Phase := if pid = 5 then .running else .runnable

theorem sleepMissed_legal : Legal sleepCtx sleepInit (historyOf sleepMissed) := by
  have hnil : Legal sleepCtx sleepInit [] := ⟨.nil, by simp, by simp⟩
  have hsleep := hnil.switch (e := ⟨64, some .schedSwitch, 10, 5, 1, 7, 0⟩) rfl (by simp) (by decide)
    (by decide) (by decide)
  have hwake := hsleep.concat (e := ⟨64, some .schedWakeup, 20, 0, 0, 1, 5⟩) (by simp) (by decide) (by
    intro pid move hmove
    simp only [moveOf] at hmove
    split at hmove
    · rename_i hpid
      cases hmove
      rw [hpid]
      decide
    · cases hmove)
  exact hwake.switch (e := ⟨64, some .schedSwitch, 27, 7, 0, 5, 0⟩) rfl (by simp) (by decide)
    (by decide) (by decide)

theorem sleepMissed_covered : Covered sleepCtx 5 sleepMissed := by
  intro pre e post heq
  have hlast : sleepMissed = [.input (.sample ⟨64, some .schedSwitch, 10, 5, 1, 7, 0⟩),
      .input (.sample ⟨64, some .schedWakeup, 20, 0, 0, 1, 5⟩), .input (.lost 0 25 30)] ++
        .missed ⟨64, some .schedSwitch, 27, 7, 0, 5, 0⟩ :: [] := rfl
  rw [hlast] at heq
  obtain rfl | ⟨post', y, rfl⟩ := List.eq_nil_or_concat post
  · obtain ⟨rfl, he⟩ := List.append_inj' heq rfl
    cases he
    exact Or.inr ⟨0, 25, 30, by simp [inputsOf, Happening.input?], by decide, by decide⟩
  · rw [List.concat_eq_append, ← List.cons_append, ← List.append_assoc] at heq
    have hin : Happening.missed e ∈ [Happening.input (.sample ⟨64, some .schedSwitch, 10, 5, 1, 7, 0⟩),
        .input (.sample ⟨64, some .schedWakeup, 20, 0, 0, 1, 5⟩), .input (.lost 0 25 30)] := by
      rw [(List.append_inj' heq rfl).1]
      exact List.mem_append_right _ (List.mem_cons_self ..)
    simp at hin

theorem task_state_spent_sleepMissed :
    (run sleepCtx (inputsOf sleepMissed)).log = [⟨5, 1, 10, 20, none⟩] ∧
    Spent sleepCtx sleepInit (historyOf sleepMissed) 5 1 10 20 :=
  ⟨by decide, task_state_spent (by decide) rfl sleepMissed_legal sleepMissed_covered ⟨5, 1, 10, 20, none⟩
    (by decide) rfl⟩

end Runs

end PerfProf.TaskState
