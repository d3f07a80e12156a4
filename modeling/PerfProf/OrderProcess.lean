import PerfProf.Heap
import PerfProf.Loop
import PerfProf.Ring

/-! `order_process` of order.c: the merge of all ring buffers and streams of a device
tree. A call is a machine whose program points are the loop heads and `goto` labels
of the source; `arrivals` says what the kernel writes before each of its looks at a
ring buffer's head, so that every interleaving is a value of this list. -/
namespace PerfProf.OrderProcess
open PerfProf.Heap PerfProf.Loop PerfProf.Ring

inductive HeapId where
  | mmap (i : Nat)
  | stream (j : Nat)
deriving DecidableEq

inductive StreamKind where
  | sample (time : Nat)
  | orderTime (time : Nat)
  | other (type : Nat)
deriving DecidableEq

structure StreamRecord where
  kind : StreamKind
  ins : Nat
  writable : Bool
  converted : Bool
deriving DecidableEq

/-- `struct perf_mmap_event` with its `heap_event` and its map. -/
structure MmapEvent where
  map : PerfMmap
  event : Record
  time : Nat
  writable : Bool
  eventMonoTime : Nat
  maybeLostEnd : Nat
  lostPause : Bool

/-- `struct stream_event`. `reads` are the results of the calls of `read_event` to come,
`taken` the events they have returned so far. -/
structure StreamEvent where
  event : StreamRecord
  time : Nat
  unconsumed : Bool
  reads : List (Option StreamRecord)
  taken : List StreamRecord

/-- `struct order_ctx` of a device, as far as it is counted for each device. -/
structure DevOrder where
  heapPoppedTime : Nat
  nrUnorderedEvents : Nat
  nrFixedEvents : Nat
  nrLost : Nat
  nrMaybeLost : Nat
  nrMaybeLostPause : Nat

inductive BreakReason where
  | none | empty | lostWait | targetMap | targetTime | streamStop
deriving DecidableEq

/-- What the merge hands on: a record of ring buffer `map` at position `pos`, a stream's
record, or a loss, which was read at position `from_.2` of ring buffer `from_.1`. -/
inductive Handed where
  | record (map pos : Nat) (event : Record) (ins : Nat) (writable : Bool)
  | stream (j : Nat) (event : StreamRecord)
  | lost (from_ : Nat × Nat) (dev id lost ins first last : Nat)
deriving DecidableEq

/-- The devices under one main device, which is device 0. `events` is the order in which
`order_heap_init` goes through their heap events. -/
structure Config where
  dev : HeapId → Nat
  ins : Nat → Nat
  events : List HeapId
  events_nodup : events.Nodup
  profLost : Nat → Bool
  wakeupWatermark : Nat → Nat
  needConv : Bool
  perfclockToEvclock : Nat → Nat
  evclockToPerfclock : Nat → Nat

structure Order where
  maps : Nat → MmapEvent
  streams : Nat → StreamEvent
  devs : Nat → DevOrder
  heap : List HeapId
  heapPoppedTime : Nat
  heapPoppedIns : Nat
  breakReason : BreakReason
  inprocess : Bool
  arrivals : List (List (Nat × Record))
  log : List Handed

section Clock

def Config.nrStreams (c : Config) : Nat :=
  (c.events.filter fun e => match e with | .stream _ => true | .mmap _ => false).length

def heapclock (c : Config) (time : Nat) : Nat :=
  if c.nrStreams ≠ 0 ∧ c.needConv then c.perfclockToEvclock time else time

def heapclockToEvclock (c : Config) (time : Nat) : Nat :=
  if ¬ c.needConv ∨ c.nrStreams ≠ 0 then time else c.perfclockToEvclock time

def heapclockToPerfclock (c : Config) (time : Nat) : Nat :=
  if c.nrStreams ≠ 0 ∧ c.needConv then c.evclockToPerfclock time else time

end Clock

namespace Order

def updMap (s : Order) (i : Nat) (f : MmapEvent → MmapEvent) : Order :=
  { s with maps := Function.update s.maps i (f (s.maps i)) }

def updRing (s : Order) (i : Nat) (f : PerfMmap → PerfMmap) : Order :=
  s.updMap i fun e => { e with map := f e.map }

def updStream (s : Order) (j : Nat) (f : StreamEvent → StreamEvent) : Order :=
  { s with streams := Function.update s.streams j (f (s.streams j)) }

def updDev (s : Order) (d : Nat) (f : DevOrder → DevOrder) : Order :=
  { s with devs := Function.update s.devs d (f (s.devs d)) }

def setHeap (s : Order) (heap : List HeapId) : Order := { s with heap := heap }

def hand (s : Order) (h : Handed) : Order := { s with log := s.log ++ [h] }

/-- The key by which the heap compares. -/
def time (s : Order) : HeapId → Nat
  | .mmap i => (s.maps i).time
  | .stream j => (s.streams j).time

def kernelOutput (s : Order) : List (Nat × Record) → Order
  | [] => s
  | (i, r) :: rest => (s.updRing i (·.output r)).kernelOutput rest

/-- What the kernel writes before the next look at a head. -/
def tick (s : Order) : Order :=
  match s.arrivals with
  | [] => s
  | batch :: rest => { s with arrivals := rest }.kernelOutput batch

/-- `perf_event_process_record` for the record of map `i` that was read last. -/
def processRecord (c : Config) (s : Order) (i : Nat) (r : Record) (writable : Bool) : Order :=
  s.hand (.record i ((s.maps i).map.start - r.size) r (c.ins i) writable)

/-- `perf_mmap__consume`. -/
def mmapConsume (s : Order) (i : Nat) : Order :=
  (s.updRing i PerfMmap.writeTail).tick.updRing i PerfMmap.putEmpty

def fixOutOfOrder (c : Config) (s : Order) (i : Nat) (poppedTime : Nat) : Order :=
  (s.updMap i fun e =>
    { e with event := { e.event with kind := .sample (heapclockToPerfclock c poppedTime) },
             time := poppedTime, writable := true }).updDev (c.dev (.mmap i)) fun d =>
    { d with nrFixedEvents := d.nrFixedEvents + 1 }

/-- The `// out of order` paragraph, shared by ring buffers and streams. -/
def popTime (c : Config) (s : Order) (e : HeapId) (time ins : Nat) : Order :=
  let s := if c.dev e ≠ 0 then s.updDev (c.dev e) fun d => { d with heapPoppedTime := time } else s
  if time < s.heapPoppedTime then
    s.updDev (c.dev e) fun d => { d with nrUnorderedEvents := d.nrUnorderedEvents + 1 }
  else { s with heapPoppedTime := time, heapPoppedIns := ins }

end Order

/-- `struct perf_record_lost lost`, with the place it was read from. -/
structure Lost where
  from_ : Nat × Nat
  id : Nat
  lost : Nat
deriving DecidableEq

def noLost : Lost := ⟨(0, 0), 0, 0⟩

/-- The arguments of a call and its locals that outlive an iteration. -/
structure Frame where
  targetMap : Option Nat
  targetEnd : Nat
  targetTime : Nat
  lost : Lost

/-- Where a call stands. `mmapRetry` and `streamRetry` are the `retry` labels of the two
init functions with the heap events still to come, `streamNext` that of
`stream_event_init` inside `stream_event_process`, `consume` the label in the loop. -/
inductive Pc where
  | heapInit (todo : List HeapId)
  | mmapRetry (i : Nat) (lost : Lost) (todo : List HeapId)
  | streamRetry (j : Nat) (todo : List HeapId)
  | top
  | streamNext (j : Nat)
  | consume (i : Nat) (needBreak : Bool)
deriving DecidableEq

structure Call where
  s : Order
  pc : Pc
  frame : Frame

namespace Order

/-- From `stream_stop` to the end of the call. -/
def unwind (s : Order) : List HeapId → Order
  | [] => { s with heap := [], inprocess := false }
  | .mmap i :: rest =>
    ((s.updRing i (·.unreadEvent (s.maps i).event)).mmapConsume i).unwind rest
  | .stream j :: rest => (s.updStream j fun e => { e with unconsumed := true }).unwind rest

def stop (s : Order) (reason : BreakReason) : Order :=
  { s with breakReason := reason }.unwind s.heap

/-- Pass the loss on to `prof->lost`, from the last time of map `i` to the next. -/
def reportLost (c : Config) (s : Order) (i : Nat) (lost : Lost) : Order :=
  if lost.lost ≠ 0 then
    s.hand (.lost lost.from_ (c.dev (.mmap i)) lost.id lost.lost (c.ins i)
      (heapclockToEvclock c (s.maps i).eventMonoTime) (heapclockToEvclock c (s.maps i).time))
  else s

def loadSample (c : Config) (s : Order) (i : Nat) (r : Record) (time : Nat) (writable : Bool) :
    Order :=
  s.updMap i fun e => { e with event := r, time := heapclock c time, writable := writable }

def countLost (c : Config) (s : Order) (i : Nat) (r : Record) : Order :=
  match r.kind with
  | .lost _ _ => s.updDev (c.dev (.mmap i)) fun d => { d with nrLost := d.nrLost + 1 }
  | _ => s

/-- `perf_mmap__read_event`. -/
def readNext (s : Order) (i : Nat) : Order × Option (Record × Bool) :=
  let s := s.tick
  (s.updRing i fun m => m.readEvent.1, (s.maps i).map.readEvent.2)

/-- A `PERF_RECORD_LOST` that is kept back for `prof->lost`. -/
def lostFor (c : Config) (s : Order) (i : Nat) (r : Record) : Option Lost :=
  match r.kind with
  | .lost id n =>
    if c.profLost (c.dev (.mmap i)) then some ⟨(i, (s.maps i).map.start - r.size), id, n⟩ else none
  | _ => none

/-- The end of `perf_mmap_event_init`: a sample was found. -/
def enterHeap (c : Config) (s : Order) (i : Nat) (r : Record) (time : Nat) (writable : Bool)
    (lost : Lost) : Order :=
  let s := s.loadSample c i r time writable
  let s := if (s.maps i).time < s.heapPoppedTime then
    s.fixOutOfOrder c i s.heapPoppedTime else s
  let s := s.reportLost c i lost
  s.setHeap (s.heap ++ [.mmap i])

/-- One record of `perf_mmap_event_init`. -/
def mmapRetry (c : Config) (s : Order) (i : Nat) (lost : Lost) (todo : List HeapId) :
    Order × Pc :=
  match s.readNext i with
  | (s, none) => (s.updRing i PerfMmap.readDone, .heapInit todo)
  | (s, some (r, writable)) =>
    match r.sample? with
    | some time => (s.enterHeap c i r time writable lost, .heapInit todo)
    | none =>
      let s := s.countLost c i r
      match s.lostFor c i r with
      | some l => (s.mmapConsume i, .mmapRetry i l todo)
      | none => ((s.processRecord c i r writable).mmapConsume i, .mmapRetry i lost todo)

/-- One result of `read_event`. -/
def readStream (s : Order) (j : Nat) : Order × Option StreamRecord :=
  match (s.streams j).reads with
  | [] => (s, none)
  | none :: rest => (s.updStream j fun e => { e with reads := rest }, none)
  | some r :: rest =>
    (s.updStream j fun e => { e with reads := rest, taken := e.taken ++ [r] }, some r)

/-- The body of `retry` in `stream_event_init`: nothing to read, a record that is handed
on at once, or one that waits in the heap. -/
def streamInit (s : Order) (j : Nat) : Order × Option Bool :=
  match s.readStream j with
  | (s, none) => (s, none)
  | (s, some r) =>
    match r.kind with
    | .other _ => (s.hand (.stream j r), some false)
    | .sample t => (s.updStream j fun e => { e with event := r, time := t }, some true)
    | .orderTime t => (s.updStream j fun e => { e with event := r, time := t }, some true)

/-- Is the event at the root to be kept in its ring buffer because what follows it may be
lost? Otherwise note where to look next time. -/
def lostWait (c : Config) (s : Order) (i : Nat) : Order × Bool :=
  let e := s.maps i
  let d := c.dev (.mmap i)
  if e.map.end_ ≠ e.maybeLostEnd then
    if e.map.hasSpace (c.wakeupWatermark d + e.event.size) then
      (s.updMap i fun e => { e with maybeLostEnd := e.map.end_ - 1, lostPause := false }, false)
    else ((s.updMap i fun e => { e with maybeLostEnd := e.map.end_, lostPause := false }).updDev d
      fun d => { d with nrMaybeLost := d.nrMaybeLost + 1 }, false)
  else
    let s := s.tick
    if (s.maps i).map.empty then
      if (s.maps i).lostPause then (s, true)
      else ((({ s with breakReason := .lostWait } : Order).updMap i fun e =>
        { e with lostPause := true }).updDev d
          fun d => { d with nrMaybeLostPause := d.nrMaybeLostPause + 1 }, true)
    else (s.updMap i fun e => { e with lostPause := false }, false)

/-- From the monotone time of the ring buffer to `process`. -/
def processRoot (c : Config) (s : Order) (i : Nat) : Order :=
  let e := s.maps i
  let s := if e.time < e.eventMonoTime then s.fixOutOfOrder c i e.eventMonoTime
    else s.updMap i fun e => { e with eventMonoTime := e.time }
  let s := s.popTime c (.mmap i) (s.maps i).time (c.ins i)
  s.processRecord c i (s.maps i).event (s.maps i).writable

/-- Not lost. Or lost: fast consuming will result in more losses. -/
def consumeDeferred (c : Config) (s : Order) (i : Nat) : Order :=
  let e := s.maps i
  if e.map.end_ ≠ e.maybeLostEnd ∨ e.map.hasSpace (c.wakeupWatermark (c.dev (.mmap i)) / 2) then
    s.mmapConsume i
  else s

end Order

section Process
variable (c : Config) (H : MinHeap HeapId)

def leave (k : Call) (s : Order) (needBreak : Bool) : Pass Call Unit :=
  if needBreak then .done { k with s := s.unwind s.heap } ()
  else .again { k with s := s, pc := .top }

/-- The part of `consume` before the next record is read, with `need_break`. -/
def consumeTail (k : Call) (i : Nat) (needBreak : Bool) : Order × Bool :=
  let s := k.s.consumeDeferred c i
  if k.frame.targetMap = some i ∧ (s.maps i).map.start = k.frame.targetEnd then
    ({ s with breakReason := .targetMap }, true)
  else (s, needBreak)

/-- The part of an iteration after `process`. -/
def consumePass (k : Call) (i : Nat) (needBreak : Bool) : Pass Call Unit :=
  let (s, needBreak) := consumeTail c k i needBreak
  match s.readNext i with
  | (s, none) =>
    let s := s.updRing i PerfMmap.readDone
    leave k (s.setHeap (H.pop s.time s.heap)) needBreak
  | (s, some (r, writable)) =>
    match r.sample? with
    | some time =>
      let s := s.loadSample c i r time writable
      let s := s.setHeap (H.siftDown s.time s.heap)
      leave { k with frame := { k.frame with lost := { k.frame.lost with lost := 0 } } }
        (s.reportLost c i k.frame.lost) needBreak
    | none =>
      let s := s.countLost c i r
      match s.lostFor c i r with
      | some l => .again ⟨s, .consume i needBreak, { k.frame with lost := l }⟩
      | none => .again { k with s := s.processRecord c i r writable, pc := .consume i needBreak }

/-- One iteration of the loop up to `consume`. -/
def topPass (k : Call) : Pass Call Unit :=
  match k.s.heap with
  | [] => .done { k with s := k.s.stop .empty } ()
  | .stream j :: _ =>
    let e := k.s.streams j
    let s := (k.s.popTime c (.stream j) e.time e.event.ins).hand (.stream j e.event)
    .again { k with s := s, pc := .streamNext j }
  | .mmap i :: _ =>
    if k.frame.targetTime < (k.s.maps i).time then .done { k with s := k.s.stop .targetTime } ()
    else
      match k.s.lostWait c i with
      | (s, true) => .done { k with s := s.unwind s.heap } ()
      | (s, false) => .again { k with s := s.processRoot c i, pc := .consume i false }

def heapInitPass (k : Call) : List HeapId → Pass Call Unit
  | [] => .again { k with s := k.s.setHeap (H.heapifyAll k.s.time k.s.heap), pc := .top }
  | .mmap i :: todo =>
    let s := k.s.tick
    let (m, ok) := (s.maps i).map.readInit
    let s := s.updRing i fun _ => m
    .again { k with s := s, pc := if ok then .mmapRetry i noLost todo else .heapInit todo }
  | .stream j :: todo =>
    if (k.s.streams j).unconsumed then
      let s := k.s.updStream j fun e => { e with unconsumed := false }
      .again { k with s := s.setHeap (s.heap ++ [.stream j]), pc := .heapInit todo }
    else .again { k with pc := .streamRetry j todo }

def orderPass (k : Call) : Pass Call Unit :=
  match k.pc with
  | .heapInit todo => heapInitPass H k todo
  | .mmapRetry i lost todo =>
    let (s, pc) := k.s.mmapRetry c i lost todo
    .again { k with s := s, pc := pc }
  | .streamRetry j todo =>
    match k.s.streamInit j with
    | (s, none) => .done { k with s := s.stop .streamStop } ()
    | (s, some false) => .again { k with s := s }
    | (s, some true) =>
      .again { k with s := s.setHeap (s.heap ++ [.stream j]), pc := .heapInit todo }
  | .top => topPass c k
  | .streamNext j =>
    match k.s.streamInit j with
    | (s, none) =>
      .done { k with s := (s.setHeap (H.pop s.time s.heap)).stop .streamStop } ()
    | (s, some false) => .again { k with s := s }
    | (s, some true) =>
      .again { k with s := s.setHeap (H.siftDown s.time s.heap), pc := .top }
  | .consume i needBreak => consumePass c H k i needBreak

/-- A point of a run: between two calls, or inside one. -/
inductive Point where
  | idle (s : Order)
  | inside (k : Call)

def Point.order : Point → Order
  | .idle s => s
  | .inside k => k.s

/-- `order_process` up to the heap init. A call that returns at once may still have looked
at the target map. -/
def orderStart (s : Order) (targetMap : Option Nat) (targetTm : Nat) : Point :=
  let enter (s : Order) (targetEnd : Nat) : Point :=
    .inside ⟨{ s with inprocess := true, heap := [] }, .heapInit c.events, ⟨targetMap, targetEnd,
      if targetTm ≠ 0 then heapclock c targetTm else 2 ^ 64 - 1, noLost⟩⟩
  if s.inprocess then .idle s
  else match targetMap with
    | none => enter s 0
    | some i =>
      let s := s.tick
      let (m, ok) := (s.maps i).map.readInit
      let s := s.updRing i fun _ => m
      if ok then
        let s := s.tick
        if (s.maps i).map.empty then .idle s else enter s (s.maps i).map.end_
      else .idle s

/-- The points of the runs from `s₀`: any calls, one after the other. -/
inductive Reached (s₀ : Order) : Point → Prop where
  | boot : Reached s₀ (.idle s₀)
  | call {s : Order} (targetMap : Option Nat) (targetTm : Nat) (h : Reached s₀ (.idle s)) :
      Reached s₀ (orderStart c s targetMap targetTm)
  | step {k k' : Call} (h : Reached s₀ (.inside k)) (hp : orderPass c H k = .again k') :
      Reached s₀ (.inside k')
  | ret {k k' : Call} (h : Reached s₀ (.inside k)) (hp : orderPass c H k = .done k' ()) :
      Reached s₀ (.idle k'.s)

end Process

/-- A freshly opened ring buffer. -/
def MmapEvent.Fresh (e : MmapEvent) : Prop :=
  e.map.tail = 0 ∧ e.map.prev = 0 ∧ e.map.start = 0 ∧ e.map.end_ = 0 ∧
    extent e.map.written ≤ e.map.size ∧ e.eventMonoTime = 0

/-- Nothing has been processed yet; the ring buffers may already hold records. -/
structure Boot (s : Order) : Prop where
  maps : ∀ i, (s.maps i).Fresh
  streams : ∀ j, (s.streams j).unconsumed = false ∧ (s.streams j).taken = []
  heap : s.heap = []
  popped : s.heapPoppedTime = 0
  unordered : ∀ d, (s.devs d).nrUnorderedEvents = 0
  idle : s.inprocess = false
  log : s.log = []

theorem Reached.of_iterate {c : Config} {H : MinHeap HeapId} {s₀ : Order} {k k' : Call} {n : Nat}
    (h : Reached c H s₀ (.inside k)) (hi : iterate (orderPass c H) n k = some (k', ())) :
    Reached c H s₀ (.idle k'.s) := by
  induction n generalizing k with
  | zero => simp [iterate] at hi
  | succ n ih =>
    cases hp : orderPass c H k with
    | again k₁ => exact ih (.step h hp) (by rwa [iterate_again hp] at hi)
    | done k₁ u =>
      rw [iterate_done hp] at hi
      obtain ⟨rfl, -⟩ : k₁ = k' ∧ True := by simpa using hi
      exact .ret h hp

section Fresh
variable {β : Type*}

/-- Ring buffers of 4096 bytes that hold the given records. -/
def freshMap (written : List Record) : MmapEvent :=
  ⟨⟨written, 0, 0, 0, 0, 4096, 0, 2⟩, ⟨.other 0, 8, Nat.le_refl 8, rfl⟩, 0, false, 0, 0, false⟩

def freshOrder (written : Nat → List Record) (arrivals : List (List (Nat × Record))) : Order where
  maps := fun i => freshMap (written i)
  streams := fun _ => ⟨⟨.other 0, 0, false, false⟩, 0, false, [], []⟩
  devs := fun _ => ⟨0, 0, 0, 0, 0, 0⟩
  heap := []
  heapPoppedTime := 0
  heapPoppedIns := 0
  breakReason := .none
  inprocess := false
  arrivals := arrivals
  log := []

theorem freshOrder_boot (written : Nat → List Record) (arrivals : List (List (Nat × Record)))
    (h : ∀ i, extent (written i) ≤ 4096) : Boot (freshOrder written arrivals) where
  maps := fun i => ⟨rfl, rfl, rfl, rfl, h i, rfl⟩
  streams := fun _ => ⟨rfl, rfl⟩
  heap := rfl
  popped := rfl
  unordered := fun _ => rfl
  idle := rfl
  log := rfl

/-- Ring buffers 0 and 1 of one device whose profiler takes losses. -/
def twoMaps : Config where
  dev := fun _ => 0
  ins := id
  events := [.mmap 0, .mmap 1]
  events_nodup := by decide
  profLost := fun _ => true
  wakeupWatermark := fun _ => 0
  needConv := false
  perfclockToEvclock := id
  evclockToPerfclock := id

def record (kind : Kind) : Record := ⟨kind, 16, by decide, rfl⟩

def firstCall (c : Config) (s : Order) : Call :=
  ⟨{ s with inprocess := true, heap := [] }, .heapInit c.events, ⟨none, 0, 2 ^ 64 - 1, noLost⟩⟩

theorem Reached.firstCall {c : Config} {H : MinHeap HeapId} {s : Order} {f : Order → β} {x : β}
    (hs : s.inprocess = false) (n : Nat)
    (h : (iterate (orderPass c H) n (firstCall c s)).map (fun out => f out.1.s) = some x) :
    ∃ s', Reached c H s (.idle s') ∧ f s' = x := by
  have hstart : orderStart c s none 0 = .inside (OrderProcess.firstCall c s) := by
    simp only [orderStart, hs]
    rfl
  have hr : Reached c H s (.inside (OrderProcess.firstCall c s)) := by
    rw [← hstart]
    exact .call none 0 .boot
  obtain ⟨⟨k', u⟩, hk, hx⟩ := Option.map_eq_some_iff.mp h
  exact ⟨k'.s, hr.of_iterate hk, hx⟩

end Fresh

end PerfProf.OrderProcess
