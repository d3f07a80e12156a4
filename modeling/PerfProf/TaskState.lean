import PerfProf.RbTree
import PerfProf.TaskStateFilter

/-! task-state.c: the states of the tasks and the time that each was spent in. A task that runs and
one that waits for a CPU are both `TASK_RUNNING`; which it is, the next event tells. What is known
of all tasks is dropped where events were lost. -/
namespace PerfProf.TaskState
open PerfProf.Rblist

section Model

def TASK_RUNNING : Nat := 0

def __TASK_STOPPED : Nat := 4

def __TASK_TRACED : Nat := 8

def EXIT_ZOMBIE : Nat := 16

def EXIT_DEAD : Nat := 32

def TASK_DEAD : Nat := 64

def TASK_STATE_MAX : Nat := 1024

def TASK_REPORT : Nat := TASK_INTERRUPTIBLE ||| TASK_UNINTERRUPTIBLE ||| __TASK_STOPPED ||| __TASK_TRACED

def RUNDELAY : Nat := TASK_STATE_MAX <<< 1

def TASK_REPORT_IDLE : Nat := 0x80

def TASK_REPORT_MAX : Nat := 0x100

/-- What `task_state_init` settles: the values that differ between kernels, the states to report,
the mode, and whether events are kept to be printed. -/
structure Ctx where
  kernel414 : Bool
  noInterruptible : Bool
  mode : Nat
  dup : Bool
  greaterThan : Nat
  final : Bool

def Ctx.stateDead (c : Ctx) : Nat :=
  if c.kernel414 then EXIT_ZOMBIE ||| EXIT_DEAD else EXIT_ZOMBIE ||| EXIT_DEAD ||| TASK_DEAD

def Ctx.reportMax (c : Ctx) : Nat := if c.kernel414 then TASK_REPORT_MAX else TASK_STATE_MAX

def Ctx.taskReport (c : Ctx) : Nat :=
  let report := if c.noInterruptible then TASK_REPORT - TASK_INTERRUPTIBLE else TASK_REPORT
  if c.kernel414 then report ||| TASK_REPORT_IDLE else report

/-- A sample: its header size, the event that its id stands for, and the fields of the raw data;
`pid` is that of a wakeup. -/
structure Sample where
  size : Nat
  evsel : Option Evsel
  time : Nat
  prevPid : Int
  prevState : Nat
  nextPid : Int
  pid : Int
deriving DecidableEq

structure Node where
  pid : Int
  state : Nat
  time : Nat
  event : Option Sample
deriving DecidableEq

/-- `struct task_lost_node`. -/
structure TaskLost where
  ins : Nat
  reclaim : Bool
  startTime : Nat
  endTime : Nat
deriving DecidableEq

/-- A call of `latency_dist_input` for the time from `start` to `stop`, and the event that is
printed with it. -/
structure Charge where
  pid : Int
  key : Nat
  start : Nat
  stop : Nat
  printed : Option Sample
deriving DecidableEq

/-- `struct task_state_ctx`, as far as it changes, and what has been recorded. -/
structure State where
  tasks : List Node
  lostList : List TaskLost
  recentTime : Nat
  copied : Nat
  freed : Nat
  memBytes : Nat
  log : List Charge

def start : State := ⟨[], [], 0, 0, 0, 0, []⟩

/-- The node that `rblist__findnew` finds is changed in place; otherwise one is added. -/
def put (task : Node) (l : List Node) : List Node := upsert Node.pid task (fun _ => task) l

/-- `rblist__remove_node`. -/
def remove (pid : Int) (l : List Node) : List Node := l.filter fun node => node.pid ≠ pid

namespace State

/-- `rblist__find`. -/
def find (s : State) (pid : Int) : Option Node := entryAt Node.pid pid s.tasks

/-- `rblist__findnew`, and what is written to the node. -/
def store (s : State) (task : Node) : State := { s with tasks := put task s.tasks }

/-- The kept event of a node is freed. -/
def freeEvent (s : State) (task : Node) : State :=
  match task.event with
  | none => s
  | some event => { s with
      memBytes := (s.memBytes + (2 ^ 64 - event.size)) % 2 ^ 64
      freed := (s.freed + 1) % 2 ^ 64 }

/-- `memdup` of the event for a node. -/
def keepEvent (s : State) (event : Sample) : State :=
  { s with memBytes := (s.memBytes + event.size) % 2 ^ 64, copied := (s.copied + 1) % 2 ^ 64 }

/-- `rblist__remove_node`, with `task_state_node_delete`. -/
def removeNode (s : State) (task : Node) : State :=
  { s.freeEvent task with tasks := remove task.pid s.tasks }

/-- `rblist__exit`. -/
def exit (s : State) : State := { s.tasks.foldl freeEvent s with tasks := [] }

/-- `latency_dist_input` for the time since the node was changed last. -/
def input (c : Ctx) (s : State) (task : Node) (key : Nat) (e : Sample) (prints : Bool) : State :=
  let delta := e.time - task.time
  let printed := if prints ∧ c.greaterThan ≠ 0 ∧ c.greaterThan < delta then task.event else none
  { s with log := s.log ++ [⟨task.pid, key, task.time, e.time, printed⟩] }

/-- The time since an old node was changed last, if it stands for a state to record. -/
def record (c : Ctx) (s : State) (e : Sample) (prints : Bool) (keyOf : Nat → Option Nat) :
    Option Node → State
  | none => s
  | some task =>
    if task.time < e.time then
      match keyOf task.state with
      | some key => s.input c task key e prints
      | none => s
    else s

/-- The state of a node on a switch from the task: it was running. -/
def runKey (state : Nat) : Option Nat := if state = TASK_RUNNING then some TASK_RUNNING else none

/-- On a switch to the task: it was waiting for the CPU. -/
def delayKey (state : Nat) : Option Nat := if state = TASK_RUNNING then some RUNDELAY else none

/-- On a wakeup: it was blocked in a state to report. -/
def waitKey (c : Ctx) (state : Nat) : Option Nat :=
  if state &&& c.taskReport ≠ 0 then some (state &&& c.taskReport) else none

/-- The task that was switched from. -/
def switchPrev (c : Ctx) (s : State) (e : Sample) : State :=
  if 0 < e.prevPid then
    let old := s.find e.prevPid
    let s := s.record c e false runKey old
    let state := if e.prevState = c.reportMax then TASK_RUNNING else e.prevState
    let task : Node := ⟨e.prevPid, state, e.time, old.bind Node.event⟩
    if e.prevState &&& c.stateDead ≠ 0 then s.removeNode task
    else if c.dup then ((s.freeEvent task).keepEvent e).store { task with event := some e }
    else s.store task
  else s

/-- The task that was switched to. -/
def switchNext (c : Ctx) (s : State) (e : Sample) : State :=
  if 0 < e.nextPid then
    let old := s.find e.nextPid
    let s := s.record c e true delayKey old
    let task : Node := ⟨e.nextPid, TASK_RUNNING, e.time, old.bind Node.event⟩
    if c.dup then (s.freeEvent task).store { task with event := none }
    else s.store task
  else s

/-- A task that runs or waits for a CPU already keeps its time. -/
def wakeTime (e : Sample) : Option Node → Nat
  | none => e.time
  | some task =>
    if task.state ≠ TASK_RUNNING ∨ e.evsel = some .schedWakeupNew then e.time else task.time

/-- The task that was woken up. -/
def wakeup (c : Ctx) (s : State) (e : Sample) : State :=
  let old := s.find e.pid
  let s := s.record c e true (waitKey c) old
  if c.mode = 2 ∨ c.mode = 3 then
    match old with
    | some task => s.removeNode task
    | none => s
  else
    let task : Node := ⟨e.pid, TASK_RUNNING, wakeTime e old, old.bind Node.event⟩
    if c.dup then ((s.freeEvent task).keepEvent e).store { task with event := some e }
    else s.store task

/-- `task_state_event_lost`: the windows that are left, and whether the event is to be dropped. -/
def eventLost (e : Sample) : List TaskLost → State → State × Bool
  | [], s => ({ s with lostList := [] }, false)
  | lost :: rest, s =>
    if e.time ≤ lost.startTime then ({ s with lostList := lost :: rest }, false)
    else
      let s := if lost.reclaim then s else s.exit
      if e.time < lost.endTime then
        ({ s with lostList := { lost with reclaim := true } :: rest }, true)
      else eventLost e rest s

/-- `task_state_sample` behind `task_state_event_lost`. -/
def process (c : Ctx) (s : State) (e : Sample) : State :=
  match e.evsel with
  | none => s
  | some .schedSwitch =>
    let s := s.switchPrev c e
    if c.mode = 0 then s.switchNext c e else s
  | some .schedSwitchNext => s.switchNext c e
  | some .schedWakeup => s.wakeup c e
  | some .schedWakeupNew => s.wakeup c e

/-- `task_state_sample`. -/
def sample (c : Ctx) (s : State) (e : Sample) : State :=
  let s := { s with recentTime := max s.recentTime e.time }
  if ¬ c.final then s
  else
    match eventLost e s.lostList s with
    | (s, true) => s
    | (s, false) => s.process c e

/-- Behind the windows that start no later. -/
def insertLost (lost : TaskLost) : List TaskLost → List TaskLost
  | [] => [lost]
  | pos :: rest => if lost.startTime < pos.startTime then lost :: pos :: rest else pos :: insertLost lost rest

/-- `task_state_lost`. -/
def lost (c : Ctx) (s : State) (ins lostStart lostEnd : Nat) : State :=
  if ¬ c.final then s
  else { s with lostList := insertLost ⟨ins, false, lostStart, lostEnd⟩ s.lostList }

/-- `task_state_notify` with `NOTIFY_COMM_DELETE`. -/
def notify (s : State) (pid : Int) (freeTime : Nat) : State :=
  match s.find pid with
  | some task => if task.time < freeTime then s.removeNode task else s
  | none => s

end State

/-- What the profiler is called with. -/
inductive Input where
  | sample (e : Sample)
  | lost (ins lostStart lostEnd : Nat)
  | commDelete (pid : Int) (freeTime : Nat)

def State.step (c : Ctx) (s : State) : Input → State
  | .sample e => s.sample c e
  | .lost ins lostStart lostEnd => s.lost c ins lostStart lostEnd
  | .commDelete pid freeTime => s.notify pid freeTime

def run (c : Ctx) (inputs : List Input) : State := inputs.foldl (State.step c) start

end Model

section Tasks
variable {l : List Node} {task node : Node} {pid : Int}

theorem put_eq (task : Node) (l : List Node) :
    put task l = upsert Node.pid task (fun node => if node.pid = task.pid then task else node) l := by
  unfold put
  induction l with
  | nil => simp [upsert]
  | cons b l ih =>
    simp only [upsert, ih]
    by_cases hlt : b.pid < task.pid
    · rw [if_pos hlt, if_pos hlt]
    · rw [if_neg hlt, if_neg hlt]
      by_cases hgt : task.pid < b.pid
      · rw [if_pos hgt, if_pos hgt, if_pos trivial]
      · rw [if_neg hgt, if_neg hgt, if_pos (by omega)]

theorem put_keeps (task node : Node) :
    (if node.pid = task.pid then task else node).pid = node.pid := by
  split
  · rename_i h
    exact h.symm
  · rfl

theorem put_sorted (h : Sorted Node.pid l) (task : Node) : Sorted Node.pid (put task l) := by
  rw [put_eq]
  exact @Sorted.upsert Node Unit Int _ Node.pid (fun _ => task)
    (fun _ node => if node.pid = task.pid then task else node) () l (put_keeps task) h

theorem entryAt_put (h : Sorted Node.pid l) (task : Node) (pid : Int) :
    entryAt Node.pid pid (put task l) = if task.pid = pid then some task else entryAt Node.pid pid l := by
  rw [put_eq, @entryAt_upsert Node Unit Int _ Node.pid (fun _ => task)
    (fun _ node => if node.pid = task.pid then task else node) () l (put_keeps task) h]
  by_cases hpid : task.pid = pid
  · rw [if_pos hpid, if_pos hpid]
    cases hold : entryAt Node.pid pid l with
    | none => simp
    | some old =>
      have hkey : old.pid = pid := (h.entryAt_eq.mp hold).2
      rw [Option.getD_some, if_pos (hkey.trans hpid.symm)]
  · rw [if_neg hpid, if_neg hpid]

theorem mem_put (h : Sorted Node.pid l) :
    node ∈ put task l ↔ node = task ∨ node ∈ l ∧ node.pid ≠ task.pid := by
  have hmem := (put_sorted h task).entryAt_eq (k := node.pid) (b := node)
  rw [entryAt_put h] at hmem
  by_cases hpid : task.pid = node.pid
  · rw [if_pos hpid] at hmem
    refine ⟨fun hin => Or.inl (Option.some.inj (hmem.mpr ⟨hin, rfl⟩)).symm, ?_⟩
    rintro (rfl | ⟨-, hne⟩)
    · exact (hmem.mp rfl).1
    · exact absurd hpid.symm hne
  · rw [if_neg hpid, h.entryAt_eq] at hmem
    refine ⟨fun hin => Or.inr ⟨(hmem.mpr ⟨hin, rfl⟩).1, fun heq => hpid heq.symm⟩, ?_⟩
    rintro (rfl | ⟨hin, -⟩)
    · exact absurd rfl hpid
    · exact (hmem.mp ⟨hin, rfl⟩).1

theorem mem_remove : node ∈ remove pid l ↔ node ∈ l ∧ node.pid ≠ pid := by
  simp [remove]

theorem remove_sorted (h : Sorted Node.pid l) (pid : Int) : Sorted Node.pid (remove pid l) :=
  List.Pairwise.filter _ h

theorem entryAt_remove (h : Sorted Node.pid l) (pid pid' : Int) :
    entryAt Node.pid pid' (remove pid l) = if pid' = pid then none else entryAt Node.pid pid' l := by
  refine Option.ext fun node => ?_
  rw [(remove_sorted h pid).entryAt_eq, mem_remove]
  by_cases hpid : pid' = pid
  · rw [if_pos hpid]
    simp only [reduceCtorEq, iff_false]
    rintro ⟨⟨-, hne⟩, hkey⟩
    exact hne (hkey.trans hpid)
  · rw [if_neg hpid, h.entryAt_eq]
    refine ⟨fun hb => ⟨hb.1.1, hb.2⟩, fun hb => ⟨⟨hb.1, ?_⟩, hb.2⟩⟩
    rw [hb.2]
    exact hpid

end Tasks

end PerfProf.TaskState
