import PerfProf.RefTable

/-! ptrace.c: the tracer's `pid_list` beside what the kernel knows of the traced processes. The two
reports of a fork, of the parent and of the child's initial stop, come in either order. -/
namespace PerfProf.Ptrace
open RefTable

section Kernel

/-- A process as its tracer can know it. `forking` stands in the stop of PTRACE_EVENT_FORK, VFORK
or CLONE that waitpid has yet to report; `reaped` when the exit of the child has been reported
already. A process that is killed leaves its stop and reports nothing but its exit. -/
inductive Proc where
  | untraced
  | running
  | fresh
  | stopped
  | forking (child : Nat) (reaped : Bool)
  | dying
deriving DecidableEq

/-- SIGKILL. -/
def Proc.kill : Proc → Proc
  | .untraced => .untraced
  | _ => .dying

/-- PTRACE_CONT. -/
def Proc.cont : Proc → Proc
  | .stopped => .running
  | proc => proc

/-- PTRACE_DETACH; it fails with ESRCH for a process that has been killed. -/
def Proc.detach : Proc → Proc
  | .stopped => .untraced
  | proc => proc

/-- The exit of `pid` is reported while a fork of it is still to be. -/
def Proc.reap (pid : Nat) : Proc → Proc
  | .forking child reaped => .forking child (reaped || child == pid)
  | proc => proc

end Kernel

section Model

/-- The messages that start with BUG. -/
inductive Bug where
  | childListNotEmpty
  | workloadDetached
  | parentFreed
  | detachNotEqual
deriving DecidableEq

/-- Requests to the kernel, and messages. -/
inductive Call where
  | cont (pid : Nat)
  | detach (pid : Nat)
  | interrupt (pid : Nat)
  | kill (pid : Nat)
  | bug (message : Bug)
deriving DecidableEq

/-- `struct pid_node`. A node is named by its pid; `devList` are the devices linked to it, and
`initialLink` is the node on whose `initial_child_list` it stands. -/
structure PidNode where
  initial : Nat
  detach : Bool
  workload : Bool
  devList : List Nat
  refcount : Int
  parent : Option Nat
  initialLink : Option Nat
deriving DecidableEq

structure State where
  proc : Nat → Proc
  pidList : Table PidNode
  calls : List Call

def init : State := ⟨fun _ => .untraced, Table.empty, []⟩

namespace State

def node (s : State) (pid : Nat) : Option PidNode := s.pidList.val pid

def setNode (s : State) (pid : Nat) (node : PidNode) : State :=
  { s with pidList := s.pidList.put pid node }

def setProc (s : State) (pid : Nat) (proc : Proc) : State :=
  { s with proc := Function.update s.proc pid proc }

def call (s : State) (c : Call) : State := { s with calls := s.calls ++ [c] }

def bug (s : State) (message : Bug) : State := s.call (.bug message)

/-- `kill(pid, SIGKILL)`. -/
def sigkill (s : State) (pid : Nat) : State :=
  (s.setProc pid (s.proc pid).kill).call (.kill pid)

/-- `__cont`. -/
def cont (s : State) (pid : Nat) : State := (s.setProc pid (s.proc pid).cont).call (.cont pid)

/-- `ptrace(PTRACE_DETACH, pid, 0, 0)`. -/
def ptraceDetach (s : State) (pid : Nat) : State :=
  (s.setProc pid (s.proc pid).detach).call (.detach pid)

/-- How many nodes have the node as their parent. -/
def refs (s : State) (pid : Nat) : Nat := s.pidList.refs PidNode.parent pid

/-- The nodes on the `initial_child_list` of a node. -/
def initialChildList (s : State) (pid : Nat) : List Nat :=
  s.pidList.keys.filter fun q => (s.node q).bind PidNode.initialLink = some pid

/-- `__node_new`: memory is always there. -/
def nodeNew (initial : Nat) (workload : Bool) : PidNode := ⟨initial, false, workload, [], 1, none, none⟩

/-- `new_find_pid`. -/
def newFindPid (s : State) (pid : Nat) : State × PidNode :=
  match s.node pid with
  | some node => (s, node)
  | none => (s.setNode pid (nodeNew 0 false), nodeNew 0 false)

/-- `rblist__remove_node(&pid_list, ..)`. -/
def removeNode (s : State) (pid : Nat) : State := { s with pidList := s.pidList.erase pid }

/-- The check at the end of `__node_delete`. -/
def nodeDeleted (s : State) (pid : Nat) : State :=
  if s.initialChildList pid = [] then s else s.bug .childListNotEmpty

/-- `put_pid` with `__node_delete`; a turn takes a node off the list, so that the number of nodes
is fuel enough. -/
def putPidFuel : Nat → Nat → State → State
  | 0, _, s => s
  | fuel+1, pid, s =>
    match s.node pid with
    | none => s
    | some node =>
      if node.refcount = 1 then
        match node.parent with
        | some parent => (putPidFuel fuel parent (s.removeNode pid)).nodeDeleted pid
        | none => (s.removeNode pid).nodeDeleted pid
      else s.setNode pid { node with refcount := node.refcount - 1 }

def putPid (s : State) (pid : Nat) : State := putPidFuel s.pidList.keys.length pid s

/-- `__detach`. -/
def detach (s : State) (pid : Nat) (workload : Bool) : State :=
  if workload then s.bug .workloadDetached else (s.ptraceDetach pid).putPid pid

/-- The devices of the parent whose clones could be linked to the child: `prof_dev_clone` and
`__ptrace_link`, where the former does not fail. -/
def cloned (clone : Nat → Option Nat) (devs : List Nat) : List Nat := (devs.filterMap clone).reverse

/-- The end of `__fork__new`. -/
def contOrDetach (s : State) (pid : Nat) (child : PidNode) : State :=
  if child.devList = [] then s.detach pid child.workload else s.cont pid

/-- `__fork__new`: both reports of the child have come. -/
def forkNew (s : State) (pid : Nat) (child : PidNode) (clone : Nat → Option Nat) : State :=
  let child := { child with initialLink := none }
  let s := s.setNode pid child
  if child.detach then s.detach pid child.workload
  else match child.parent with
    | none => s.contOrDetach pid child
    | some parent =>
      let devs := ((s.node parent).map PidNode.devList).getD []
      let child := { child with devList := cloned clone devs ++ child.devList, parent := none }
      ((s.setNode pid child).putPid parent).contOrDetach pid child

/-- The part of `__fork` for the parent: what the parent's node is left with. -/
def forkParent (s : State) (ppid : Nat) (parent : Option PidNode) : State :=
  match parent with
  | none => (s.ptraceDetach ppid).bug .parentFreed
  | some parent =>
    if parent.detach then s.detach ppid parent.workload else s.cont ppid

/-- `__fork`. -/
def fork (s : State) (ppid pid : Nat) (clone : Nat → Option Nat) : State :=
  let parent := s.node ppid
  let s := match parent with
    | some node => s.setNode ppid { node with refcount := node.refcount + 1 }
    | none => s
  let (s, _) := s.newFindPid pid
  let s := s.forkParent ppid parent
  match s.node pid with
  | none => s
  | some child =>
    let child := { child with
      detach := ((parent.map PidNode.detach).getD true)
      workload := ((parent.map PidNode.workload).getD false)
      parent := if parent.isSome then some ppid else none
      initialLink := if parent.isSome then some ppid else child.initialLink
      initial := child.initial + 1 }
    let s := s.setNode pid child
    if child.initial = 2 then s.forkNew pid child clone else s

/-- `__new_or_interrupt`, and the PTRACE_CONT of `ptrace_stop` when it says so. -/
def newOrInterrupt (s : State) (pid : Nat) (clone : Nat → Option Nat) : State :=
  let (s, curr) := s.newFindPid pid
  let s := match curr.parent with
    | some parent =>
      if (s.node parent).map PidNode.detach = some curr.detach then s else s.bug .detachNotEqual
    | none => s
  if curr.initial = 2 then
    if curr.detach then s.detach pid curr.workload else s.cont pid
  else
    let curr := { curr with initial := curr.initial + 1 }
    let s := s.setNode pid curr
    if curr.initial = 2 then s.forkNew pid curr clone else s

/-- `ptrace_exited`. -/
def exited (s : State) (pid : Nat) : State := s.putPid pid

/-- One thread in `ptrace_attach`; `seized` is the answer of PTRACE_SEIZE, which a process that is
traced already refuses. -/
def attachThread (dev : Nat) (workload : Bool) (seized : Nat → Bool) (s : State) (pid : Nat) :
    State :=
  let s := match s.node pid with
    | some _ => s
    | none =>
      if s.proc pid = Proc.untraced ∧ seized pid = true then
        (s.setProc pid .running).setNode pid (nodeNew 2 workload)
      else s
  match s.node pid with
  | none => s
  | some node => s.setNode pid { node with
      devList := if dev ∈ node.devList then node.devList else dev :: node.devList
      detach := false }

def ptraceAttach (s : State) (dev : Nat) (workload : Bool) (seized : Nat → Bool)
    (threads : List Nat) : State :=
  threads.foldl (attachThread dev workload seized) s

/-- A child on the `initial_child_list` of a node that is detached. -/
def detachInitial (s : State) (pid : Nat) : State :=
  match s.node pid with
  | none => s
  | some node =>
    let s := s.setNode pid { node with detach := true }
    if node.workload then s.sigkill pid else s

/-- One link of `ptrace_detach`; a device has at most one to a node. -/
def detachLink (dev : Nat) (s : State) (pid : Nat) : State :=
  match s.node pid with
  | none => s
  | some node =>
    let node := { node with devList := node.devList.filter (· ≠ dev) }
    if node.devList = [] ∧ node.detach = false then
      let s := s.setNode pid { node with detach := true }
      let s := if node.workload then s.sigkill pid else s.call (.interrupt pid)
      (s.initialChildList pid).foldl detachInitial s
    else s.setNode pid node

/-- The loop of `ptrace_detach` over the nodes linked to a device. -/
def detachDev (s : State) (dev : Nat) : State :=
  (s.pidList.keys.filter fun p => dev ∈ ((s.node p).map PidNode.devList).getD []).foldl
    (detachLink dev) s

/-- `ptrace_detach` of a device and of the devices cloned from it. -/
def detachDevs (s : State) (devs : List Nat) : State := devs.foldl detachDev s

/-- `ptrace_detach_done`. -/
def detachDone (s : State) : Bool := s.pidList.keys.isEmpty

end State

/-- What may happen: calls of `ptrace_attach` and `ptrace_detach`; in the kernel a fork or a kill;
and what waitpid reports. `killed` when the process is killed before the report is handled. -/
inductive Act where
  | attach (dev : Nat) (workload : Bool) (seized : Nat → Bool) (threads : List Nat)
  | detach (devs : List Nat)
  | fork (ppid pid : Nat)
  | kill (pid : Nat)
  | forkEvent (ppid : Nat) (killed : Bool) (clone : Nat → Option Nat)
  | stopEvent (pid : Nat) (killed : Bool) (clone : Nat → Option Nat)
  | exit (pid : Nat)

/-- The state of a process whose stop has been reported. -/
def reported (killed : Bool) : Proc := if killed then .dying else .stopped

def step (s : State) : Act → Option State
  | .attach dev workload seized threads => some (s.ptraceAttach dev workload seized threads)
  | .detach devs => some (s.detachDevs devs)
  | .fork ppid pid =>
    if s.proc ppid = .running ∧ s.proc pid = .untraced then
      some ((s.setProc ppid (.forking pid false)).setProc pid .fresh)
    else none
  | .kill pid => some (s.setProc pid (s.proc pid).kill)
  | .forkEvent ppid killed clone =>
    match s.proc ppid with
    | .forking pid _ => some ((s.setProc ppid (reported killed)).fork ppid pid clone)
    | _ => none
  | .stopEvent pid killed clone =>
    if s.proc pid = .fresh ∨ s.proc pid = .running then
      some ((s.setProc pid (reported killed)).newOrInterrupt pid clone)
    else none
  | .exit pid =>
    if s.proc pid = .running ∨ s.proc pid = .dying then
      some (State.exited { s with
        proc := Function.update (fun q => (s.proc q).reap pid) pid .untraced } pid)
    else none

def run : List Act → State → Option State
  | [], s => some s
  | a :: acts, s => (step s a).bind (run acts)

/-- The states of the runs whose steps all meet a condition. -/
inductive Reaches (ok : State → Act → Prop) : State → Prop
  | init : Reaches ok init
  | step {s s' : State} {a : Act} : Reaches ok s → ok s a → step s a = some s' → Reaches ok s'

end Model

end PerfProf.Ptrace
