import Mathlib.Algebra.Order.Ring.Int
import Mathlib.Data.List.Basic
import Mathlib.Logic.Function.Basic

/-! multi-trace.c: pairing events by key, with or without the timeline of --detail. Event
contents are abstract (`ρ`), what the attribute programs compute from them is given
with the tracepoint. A node is identified by its `seq`; red-black trees are lists in
the order of their comparison function. -/
namespace PerfProf.MultiTrace
variable {ρ : Type*}

/-- A tracepoint: its `-e` list and its place there. -/
structure TpRef where
  list : Nat
  idx : Nat
deriving DecidableEq

structure Tp (ρ : Type*) where
  evsel : Nat
  untraced : Bool
  keyProg : Option (ρ → Nat)
  roleProg : Option (ρ → Nat)

/-- `struct timeline_node`. -/
structure Node where
  time : Nat
  key : Nat
  tp : TpRef
  tp1 : Option TpRef
  unneeded : Bool
  needFindPrev : Bool
  needBackup : Bool
  needRemoveFromBackup : Bool
  ins : Nat
  seq : Nat
  size : Nat
deriving DecidableEq

inductive Reason where
  | exit | lost
deriving DecidableEq

/-- The calls of the class: `two(event1, event2)` and `remaining(event)`, with the fields of
`struct event_info`. -/
inductive ClassCall where
  | two (event1 : Node) (event2 : Option Node) (key recentTime : Nat)
  | remaining (event : Node) (key recentTime : Nat) (rr : Reason)
deriving DecidableEq

structure LostNode where
  ins : Nat
  reclaim : Bool
  startTime : Nat
  endTime : Nat
deriving DecidableEq

inductive LostAffect where
  | allEvent | insEvent
deriving DecidableEq

/-- The options and the context after init. `remaining` says whether `class->remaining` returns
`REMAINING_BREAK`; its last argument is whether it was given an iterator. -/
structure Config (ρ : Type*) where
  tpList : List (List (Tp ρ))
  cycle : Bool
  order : Bool
  nested : Bool
  implBasedOnCall : Bool
  needTimeline : Bool
  beforeEvent1 : Nat
  afterEvent2 : Nat
  insKey : Nat → Nat
  remaining : List ClassCall → Nat → Node → Reason → Bool → Bool

structure Event (ρ : Type*) where
  evsel : Nat
  time : Nat
  ins : Nat
  size : Nat
  raw : ρ
  isDev : Bool
  wakeupUnnecessary : Bool

/-- `struct timeline_stat`. -/
structure TimelineStat where
  new : Nat
  delete : Nat
  unneeded : Nat
  pending : Nat
  memBytes : Nat
  unneededBytes : Nat
  pendingBytes : Nat
deriving DecidableEq

/-- `struct multi_trace_ctx`. `bugs` counts the two `BUG:` messages, `handledTime` is the
time of the last event that was checked against the lost windows. -/
structure Trace where
  timeline : List Node
  backup : List Node
  neededList : List Node
  pendingList : List Node
  timelineLost : List LostNode
  perinsLost : Nat → List LostNode
  recentTime : Nat
  eventHandled : Nat
  stat : TimelineStat
  bugs : Nat
  handledTime : Nat
  calls : List ClassCall

def Trace.init : Trace :=
  ⟨[], [], [], [], [], fun _ => [], 0, 0, ⟨0, 0, 0, 0, 0, 0, 0⟩, 0, 0, []⟩

section Init

/-- The traced tracepoints of a list, which is number `k`. -/
def tracedFrom (k : Nat) : Nat → List (Tp ρ) → List TpRef
  | _, [] => []
  | j, tp :: rest =>
    if tp.untraced then tracedFrom k (j+1) rest else ⟨k, j⟩ :: tracedFrom k (j+1) rest

def Config.traced (c : Config ρ) (k : Nat) : List TpRef := tracedFrom k 0 (c.tpList.getD k [])

def Config.nrList (c : Config ρ) : Nat := c.tpList.length

/-- The objects that `multi_trace_init` and `nested_trace_init` create. -/
def Config.objects (c : Config ρ) : List (TpRef × Option TpRef) :=
  if c.nested then
    (List.range c.nrList).filterMap fun k => match c.traced k with
      | t1 :: t2 :: _ => some (t1, if c.implBasedOnCall then none else some t2)
      | _ => none
  else
    (List.range (c.nrList - if c.cycle then 0 else 1)).flatMap fun k =>
      (c.traced k).flatMap fun t1 =>
        (t1, none) :: (c.traced ((k+1) % c.nrList)).map fun t2 => (t1, some t2)

/-- `impl->object_find`; the call implementations do not use `tp2`. -/
def Config.objectFind (c : Config ρ) (tp1 : TpRef) (tp2 : Option TpRef) : Bool :=
  c.objects.contains (tp1, if c.implBasedOnCall then none else tp2)

def Config.lostAffect (c : Config ρ) : LostAffect :=
  if c.tpList.any fun l => l.any fun tp => tp.keyProg.isSome then .allEvent else .insEvent

end Init

section Backup

/-- `node_cmp` of `backup`: does `b` stand before `e`? -/
def Config.backupBefore (c : Config ρ) (b e : Node) : Bool :=
  b.key < e.key || (c.nested && b.key == e.key && e.time < b.time)

def Config.backupSame (c : Config ρ) (b e : Node) : Bool :=
  !c.backupBefore b e && !c.backupBefore e b

/-- Insert into a tree that has no equal node. -/
def insertBy (before : Node → Node → Bool) (e : Node) : List Node → List Node
  | [] => [e]
  | b :: bs => if before b e then b :: insertBy before e bs else e :: b :: bs

namespace Trace

def count (s : Trace) (f : TimelineStat → TimelineStat) : Trace := { s with stat := f s.stat }

def markUnneeded (seq : Nat) (n : Node) : Node :=
  if n.seq = seq then { n with unneeded := true } else n

/-- Flip the bit of a node on the timeline and count it. -/
def setUnneeded (s : Trace) (b : Node) : Trace :=
  { s with timeline := s.timeline.map (markUnneeded b.seq) }.count fun st =>
    { st with unneeded := st.unneeded + 1, unneededBytes := st.unneededBytes + b.size }

/-- `perf_event_backup_node_delete`. -/
def backupNodeDelete (c : Config ρ) (s : Trace) (b : Node) : Trace :=
  if c.needTimeline then
    { s with neededList := s.neededList.filter fun n => n.seq ≠ b.seq }.setUnneeded b
  else s

/-- `rblist__remove_node(&ctx->backup, ..)`. -/
def backupRemove (c : Config ρ) (s : Trace) (b : Node) : Trace :=
  { s with backup := s.backup.filter fun n => n.seq ≠ b.seq }.backupNodeDelete c b

/-- `rblist__findnew` when there is no equal node, with `perf_event_backup_node_new`. -/
def backupInsert (c : Config ρ) (s : Trace) (e : Node) : Trace :=
  let s := if c.needTimeline then { s with neededList := s.neededList ++ [e] } else s
  { s with backup := insertBy c.backupBefore e s.backup }

/-- `rblist__exit(&ctx->backup)`. -/
def backupExit (c : Config ρ) (s : Trace) : Trace := s.backup.foldl (fun s b => s.backupRemove c b) s

/-- `multi_trace_call_remaining`; true stands for `REMAINING_BREAK`. -/
def callRemaining (c : Config ρ) (s : Trace) (left : Node) (rr : Reason) : Trace × Bool :=
  if c.objectFind left.tp none then
    ({ s with calls := s.calls ++ [.remaining left left.key s.recentTime rr] },
      c.remaining s.calls s.recentTime left rr c.needTimeline)
  else (s, false)

/-- `multi_trace_handle_remaining` from a node on. -/
def handleRemaining (c : Config ρ) (s : Trace) (rr : Reason) : List Node → Trace
  | [] => s
  | left :: rest => match s.callRemaining c left rr with
    | (s, true) => s
    | (s, false) => s.handleRemaining c rr rest

/-- The loop of `reclaim` over the nodes of one key. -/
def reclaimNodes (c : Config ρ) (s : Trace) (rr : Reason) : Bool → List Node → Trace
  | _, [] => s
  | true, b :: rest => (s.backupRemove c b).reclaimNodes c rr true rest
  | false, b :: rest => match s.callRemaining c b rr with
    | (s, stop) => (s.backupRemove c b).reclaimNodes c rr stop rest

def reclaim (c : Config ρ) (s : Trace) (key : Nat) (rr : Reason) : Trace :=
  s.reclaimNodes c rr false (s.backup.filter fun b => b.key = key)

def lostReclaim (c : Config ρ) (s : Trace) (ins : Nat) : Trace :=
  match c.lostAffect with
  | .insEvent => s.reclaim c (c.insKey ins) .lost
  | .allEvent => (s.handleRemaining c .lost s.backup).backupExit c

/-- An event at `lost->start_time` or inside the window is not backed up. -/
def dropBackup (s : Trace) (tl : Node) : Trace × Node :=
  if tl.needBackup then (s.setUnneeded tl, { tl with needBackup := false, unneeded := true })
  else (s, tl)

/-- The loop of `multi_trace_event_lost`; the windows that are left come with the result. -/
def eventLostLoop (c : Config ρ) (s : Trace) (tl : Node) :
    List LostNode → Trace × Node × List LostNode
  | [] => (s, tl, [])
  | lost :: rest =>
    if tl.time < lost.startTime then (s, tl, lost :: rest)
    else if tl.time = lost.startTime then
      let (s, tl) := s.dropBackup tl
      (s, tl, lost :: rest)
    else
      let s := if lost.reclaim then s else
        { { s with recentTime := lost.startTime }.lostReclaim c tl.ins with
          recentTime := s.recentTime }
      if tl.time < lost.endTime then
        let (s, tl) := s.dropBackup { tl with needFindPrev := false }
        (s, tl, { lost with reclaim := true } :: rest)
      else s.eventLostLoop c tl rest

/-- `multi_trace_event_lost`. -/
def eventLost (c : Config ρ) (s : Trace) (tl : Node) : Trace × Node :=
  let s := { s with handledTime := tl.time }
  match c.lostAffect with
  | .insEvent =>
    let (s, tl, windows) := s.eventLostLoop c tl (s.perinsLost tl.ins)
    ({ s with perinsLost := Function.update s.perinsLost tl.ins windows }, tl)
  | .allEvent =>
    let (s, tl, windows) := s.eventLostLoop c tl s.timelineLost
    ({ s with timelineLost := windows }, tl)

/-- `multi_trace_find_prev`. -/
def findPrev (s : Trace) (key : Nat) (tp : Option TpRef) : Option Node :=
  s.backup.find? fun b => b.key = key && (tp.isNone || tp = some b.tp)

def tryCallTwo (c : Config ρ) (s : Trace) (tl : Node) (needFree : Bool) : Trace × Bool :=
  if tl.needFindPrev then
    match s.findPrev tl.key tl.tp1 with
    | some prev =>
      let s := if c.objectFind prev.tp (some tl.tp) && prev.time < tl.time then
        { s with calls := s.calls ++ [.two prev (some tl) tl.key s.recentTime] } else s
      if tl.needRemoveFromBackup then (s.backupRemove c prev, true) else (s, needFree)
    | none =>
      if c.implBasedOnCall && c.objectFind tl.tp none then
        ({ s with calls := s.calls ++ [.two tl none tl.key 0] }, needFree)
      else (s, needFree)
  else (s, needFree)

/-- The `retry` loop of `multi_trace_tryto_backup`; each turn takes a node out of the tree. -/
def backupRetry (c : Config ρ) : Nat → Trace → Node → Bool → Trace × Bool
  | 0, s, _, needFree => (s, needFree)
  | fuel+1, s, tl, needFree =>
    match s.backup.find? fun b => c.backupSame b tl with
    | some exist =>
      if tl.time < exist.time then (s.setUnneeded tl, true)
      else backupRetry c fuel (s.backupRemove c exist) tl true
    | none => (s.backupInsert c tl, needFree)

def tryBackup (c : Config ρ) (s : Trace) (tl : Node) (needFree : Bool) : Trace × Bool :=
  if tl.needBackup then backupRetry c (s.backup.length + 1) s tl needFree else (s, true)

/-- What is done with an event that is not untraced once its turn has come. -/
def handle (c : Config ρ) (s : Trace) (tl : Node) (needFree : Bool) : Trace × Bool :=
  let (s, tl) := s.eventLost c tl
  let (s, needFree) := s.tryCallTwo c tl needFree
  s.tryBackup c tl needFree

end Trace

end Backup

section Timeline

def timelineBefore (b e : Node) : Bool :=
  b.time < e.time || (b.time == e.time && (b.key < e.key || (b.key == e.key && b.seq < e.seq)))

namespace Trace

/-- `rblist__add_node(&ctx->timeline, ..)` with `timeline_node_new`, unless the node exists. -/
def timelineAdd (s : Trace) (e : Node) (untraced : Bool) : Option Trace :=
  if s.timeline.any fun b => !timelineBefore b e && !timelineBefore e b then none
  else
    let e := if untraced then e else { e with unneeded := false }
    let s := if untraced then s else
      ({ s with pendingList := s.pendingList ++ [e] }).count fun st =>
        { st with pending := st.pending + 1, pendingBytes := st.pendingBytes + e.size }
    let s := s.count fun st => { st with new := st.new + 1, memBytes := st.memBytes + e.size }
    let s := if e.unneeded then s.count fun st =>
      { st with unneeded := st.unneeded + 1, unneededBytes := st.unneededBytes + e.size } else s
    some { s with timeline := insertBy timelineBefore e s.timeline }

/-- `rblist__remove_node(&ctx->timeline, ..)` with `timeline_node_delete`. -/
def timelineRemove (s : Trace) (b : Node) : Trace :=
  let s := { s with timeline := s.timeline.filter fun n => n.seq ≠ b.seq }
  let s := if (s.pendingList ++ s.neededList).any fun n => n.seq = b.seq then
    { s with pendingList := s.pendingList.filter fun n => n.seq ≠ b.seq,
             neededList := s.neededList.filter fun n => n.seq ≠ b.seq, bugs := s.bugs + 1 }
    else s
  let s := s.count fun st => { st with delete := st.delete + 1, memBytes := st.memBytes - b.size }
  if b.unneeded then s.count fun st =>
    { st with unneeded := st.unneeded - 1, unneededBytes := st.unneededBytes - b.size } else s

/-- `rblist__exit(&ctx->timeline)`. -/
def timelineExit (s : Trace) : Trace := s.timeline.foldl (fun s b => s.timelineRemove b) s

/-- `unneeded_before` of `timeline_free_unneeded`. -/
def unneededBefore (c : Config ρ) (s : Trace) : Nat :=
  if c.beforeEvent1 ≠ 0 then
    let neededFirst := match s.neededList.head? with
      | some n => some n
      | none => match s.pendingList.head? with
        | some n => some n
        | none => s.timeline.getLast?
    match neededFirst with
    | some n => if c.beforeEvent1 < n.time then n.time - c.beforeEvent1 else 0
    | none => 0
  else 0

/-- One turn of the loop of `timeline_free_unneeded` for the first node `tl`. -/
def freeNode (c : Config ρ) (s : Trace) (tl : Node) : Trace :=
  if tl.unneeded then s.timelineRemove tl
  else match s.backup.find? fun b => b.seq = tl.seq with
    | some b => (s.backupRemove c b).timelineRemove { tl with unneeded := true }
    | none => { s with bugs := s.bugs + 1 }.timelineRemove tl

def freeLoop (c : Config ρ) (limit : Nat) : Nat → Trace → Trace
  | 0, s => s
  | fuel+1, s => match s.timeline with
    | [] => s
    | tl :: _ =>
      if (limit = 0 ∧ tl.unneeded) ∨ tl.time < limit then freeLoop c limit fuel (s.freeNode c tl)
      else s

def timelineFreeUnneeded (c : Config ρ) (s : Trace) : Trace :=
  freeLoop c (s.unneededBefore c) s.timeline.length s

/-- `deadline` of `multi_trace_first_pending`, a `u64`. -/
def deadline (c : Config ρ) : Option Node → Nat
  | some tl => if c.afterEvent2 ≠ 0 then (tl.time + 2 ^ 64 - c.afterEvent2) % 2 ^ 64 else 2 ^ 64 - 1
  | none => 2 ^ 64 - 1

def firstPending (c : Config ρ) (s : Trace) (tail : Option Node) : Option (Node × Trace) :=
  match s.pendingList with
  | [] => none
  | first :: rest =>
    if first.time ≤ deadline c tail then
      let s := ({ s with pendingList := rest }).count fun st =>
        { st with pending := st.pending - 1, pendingBytes := st.pendingBytes - first.size }
      if first.needBackup then some ({ first with unneeded := false }, s)
      else some ({ first with unneeded := true }, s.setUnneeded first)
    else none

/-- The `while (1)` loop over the pending events of `multi_trace_sample`. -/
def pendingLoop (c : Config ρ) (tail : Node) : Nat → Trace → Bool → Trace × Bool
  | 0, s, needFree => (s, needFree)
  | fuel+1, s, needFree => match s.firstPending c (some tail) with
    | none => (s, needFree)
    | some (first, s) =>
      let (s, needFree) := s.handle c first needFree
      pendingLoop c tail fuel s needFree

end Trace

end Timeline

section Sample

def findIn (evsel k : Nat) : Nat → Option TpRef → List (Tp ρ) → Option (TpRef × Tp ρ × Option TpRef)
  | _, _, [] => none
  | j, tp1, tp :: rest =>
    if tp.evsel = evsel then some (⟨k, j⟩, tp, tp1)
    else findIn evsel k (j+1) (if tp.untraced then tp1 else some ⟨k, j⟩) rest

/-- The search for the event's tracepoint, with the last traced one before it in its list. -/
def findTp (evsel : Nat) : Nat → List (List (Tp ρ)) → Option (TpRef × Tp ρ × Option TpRef)
  | _, [] => none
  | k, l :: rest => match findIn evsel k 0 none l with
    | some found => some found
    | none => findTp evsel (k+1) rest

/-- `role.as_event1` and `role.as_event2`. -/
def roleOf (tp : Tp ρ) (ev : Event ρ) : Nat :=
  if ev.isDev then 3
  else match tp.roleProg with
    | some prog => prog ev.raw
    | none => 3

def asEvent1 (role : Nat) : Bool := role % 2 = 1
def asEvent2 (role : Nat) : Bool := role / 2 % 2 = 1

/-- The node `current` of `multi_trace_sample`. -/
def mkNode (c : Config ρ) (ref : TpRef) (tp : Tp ρ) (tp1 : Option TpRef) (ev : Event ρ) (seq : Nat) :
    Node :=
  let unnecessary := !ev.isDev && ev.wakeupUnnecessary
  let role := roleOf tp ev
  let needFindPrev := if c.nested then c.implBasedOnCall || tp1.isSome
    else (ref.list ≠ 0 || c.cycle) && asEvent2 role
  let needBackup := if c.nested then tp1.isNone
    else (if ref.list ≠ c.nrList - 1 then !unnecessary else c.cycle) && asEvent1 role
  { time := ev.time
    key := match tp.keyProg with
      | some prog => prog ev.raw
      | none => c.insKey ev.ins
    tp := ref
    tp1 := if c.nested then tp1 else none
    unneeded := !needBackup || tp.untraced
    needFindPrev := needFindPrev
    needBackup := needBackup
    needRemoveFromBackup := if c.nested then tp1.isSome else true
    ins := ev.ins
    seq := seq
    size := ev.size }

namespace Trace

def sampleTimeline (c : Config ρ) (s : Trace) (current : Node) (untraced : Bool) : Trace :=
  if s.timeline.isEmpty && current.unneeded && c.beforeEvent1 = 0 && c.afterEvent2 = 0 then s
  else match s.timelineAdd current untraced with
    | none => s
    | some s =>
      let (s, needFree) := pendingLoop c current s.pendingList.length s current.unneeded
      if needFree then s.timelineFreeUnneeded c else s

def samplePlain (c : Config ρ) (s : Trace) (current : Node) (untraced : Bool) : Trace :=
  if untraced then s else (s.handle c current false).1

/-- `multi_trace_sample`. -/
def sample (c : Config ρ) (s : Trace) (ev : Event ρ) : Trace :=
  let s := { s with recentTime := max s.recentTime ev.time }
  match findTp ev.evsel 0 c.tpList with
  | none => s
  | some (ref, tp, tp1) =>
    let current := mkNode c ref tp tp1 ev s.eventHandled
    let s := { s with eventHandled := s.eventHandled + 1 }
    if c.needTimeline then s.sampleTimeline c current tp.untraced
    else s.samplePlain c current tp.untraced

/-- Insert before the first window that starts later. -/
def insertLost (w : LostNode) : List LostNode → List LostNode
  | [] => [w]
  | pos :: rest => if w.startTime < pos.startTime then w :: pos :: rest else pos :: insertLost w rest

/-- `multi_trace_lost`. -/
def lost (c : Config ρ) (s : Trace) (ins lostStart lostEnd : Nat) : Trace :=
  if !c.order && c.afterEvent2 = 0 then
    let s := s.lostReclaim c ins
    if c.needTimeline then s.timelineFreeUnneeded c else s
  else
    let w : LostNode := ⟨ins, false, lostStart, lostEnd⟩
    match c.lostAffect with
    | .insEvent =>
      { s with perinsLost := Function.update s.perinsLost ins (s.perinsLost ins ++ [w]) }
    | .allEvent => { s with timelineLost := insertLost w s.timelineLost }

def drainPending (c : Config ρ) : Nat → Trace → Trace
  | 0, s => s
  | fuel+1, s => match s.firstPending c none with
    | none => s
    | some (_, s) => drainPending c fuel s

/-- `multi_trace_flush` with `PROF_DEV_FLUSH_FINAL`. -/
def flush (c : Config ρ) (s : Trace) : Trace :=
  let s := s.handleRemaining c .exit s.backup
  let s := drainPending c s.pendingList.length s
  (s.backupExit c).timelineExit

end Trace

/-- What the device calls. -/
inductive Input (ρ : Type*) where
  | sample (ev : Event ρ)
  | lost (ins lostStart lostEnd : Nat)
  | flush

def Trace.step (c : Config ρ) (s : Trace) : Input ρ → Trace
  | .sample ev => s.sample c ev
  | .lost ins lostStart lostEnd => s.lost c ins lostStart lostEnd
  | .flush => s.flush c

def Trace.run (c : Config ρ) (s : Trace) (inputs : List (Input ρ)) : Trace :=
  inputs.foldl (fun s i => s.step c i) s

/-- The samples come in time order, from `now` on; times are `u64`. -/
def TimeOrdered (now : Nat) : List (Input ρ) → Prop
  | [] => True
  | .sample ev :: rest => now ≤ ev.time ∧ ev.time < 2 ^ 64 ∧ TimeOrdered ev.time rest
  | .lost .. :: rest => TimeOrdered now rest
  | .flush :: rest => TimeOrdered now rest

/-- `delay_remaining`: does it return `REMAINING_BREAK`? -/
def delayRemaining (greaterThan : Nat) (rr : Reason) (iter : Bool) : Bool :=
  rr ≠ .lost || greaterThan = 0 || !iter

/-- `multi-trace -e A -e B`: event 0 opens, event 1 closes. -/
def twoLists (keyProg : Option (Nat → Nat)) (needTimeline : Bool) : Config Nat where
  tpList := [[⟨0, false, keyProg, none⟩], [⟨1, false, keyProg, none⟩]]
  cycle := false
  order := true
  nested := false
  implBasedOnCall := false
  needTimeline := needTimeline
  beforeEvent1 := 0
  afterEvent2 := 0
  insKey := id
  remaining := fun _ _ _ rr iter => delayRemaining 1 rr iter

/-- An event of `twoLists`; its content is its key. -/
def eventAt (evsel time ins key : Nat) : Event Nat := ⟨evsel, time, ins, 8, key, false, false⟩

end Sample

end PerfProf.MultiTrace
