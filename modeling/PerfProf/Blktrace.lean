import Mathlib.Logic.Function.Basic
import PerfProf.RbTree

/-! blktrace.c: the stage that each request has reached, in a tree of ranges of sectors, and the time
from one stage to the next. Where records are lost the tree is emptied as soon as a later event comes. -/
namespace PerfProf.Blktrace
open PerfProf.Rblist

section Model

/-- `enum block_tp` -/
inductive BlockTp where
  | getrq | rqInsert | rqIssue | rqComplete
deriving DecidableEq

/-- `r.tp - 1` -/
def BlockTp.prev : BlockTp → Option BlockTp
  | getrq => none
  | rqInsert => some getrq
  | rqIssue => some rqInsert
  | rqComplete => some rqIssue

/-- `struct request_track` -/
structure RequestTrack where
  tp : BlockTp
  dev : UInt32
  sector : UInt64
  nrSector : UInt32
  time : UInt64
deriving DecidableEq

/-- `sector + nr_sector` -/
def RequestTrack.stop (r : RequestTrack) : UInt64 := r.sector + r.nrSector.toUInt64

/-- `request_track_node_cmp` -/
def requestTrackNodeCmp (r rq : RequestTrack) : Ordering :=
  if rq.dev > r.dev then .gt
  else if rq.dev < r.dev then .lt
  else if rq.sector ≥ r.stop then .gt
  else if rq.stop ≤ r.sector then .lt
  else .eq

/-- `struct block_iostat` without the name. -/
structure BlockIostat where
  type : Nat
  min : UInt64
  max : UInt64
  n : Nat
  sum : UInt64
  than : Nat
deriving DecidableEq

/-- `struct block_lost_node` -/
structure BlockLostNode where
  ins : Nat
  reclaim : Bool
  startTime : UInt64
  endTime : UInt64
deriving DecidableEq

/-- `struct blktrace_ctx` -/
structure BlktraceCtx where
  stats : BlockTp → BlockIostat
  rqTracks : RbList RequestTrack
  lostList : List BlockLostNode

/-- What a sample has of `struct sample_type_raw`. -/
structure Sample where
  commonType : Nat
  time : UInt64
  dev : UInt32
  sector : UInt64
  nrSector : UInt32
deriving DecidableEq

/-- `iostat_reset` -/
def iostatReset (stats : BlockTp → BlockIostat) : BlockTp → BlockIostat := fun i =>
  { stats i with min := UInt64.ofNat (2 ^ 64 - 1), max := 0, n := 0, sum := 0, than := 0 }

/-- The context after `blktrace_init`, with the ids of the events. -/
def blktraceInit (type : BlockTp → Nat) : BlktraceCtx :=
  ⟨iostatReset fun i => ⟨type i, 0, 0, 0, 0, 0⟩, RbList.init RequestTrack, []⟩

/-- `blktrace_lost`: behind those that begin no later. -/
def blktraceLost (ins : Nat) (lostStart lostEnd : UInt64) (ctx : BlktraceCtx) : BlktraceCtx :=
  let (before, after) := ctx.lostList.span fun pos => pos.startTime ≤ lostStart
  { ctx with lostList := before ++ ⟨ins, false, lostStart, lostEnd⟩ :: after }

/-- `rblist__exit` -/
def exitTracks (bal : Rebalance RequestTrack) (tracks : RbList RequestTrack) : RbList RequestTrack :=
  (tracks.drainAll bal (fun u _ => u) ()).1

/-- The loop of `blktrace_event_lost`; true if the event is unsafe. -/
def eventLostLoop (bal : Rebalance RequestTrack) (time : UInt64) :
    List BlockLostNode → RbList RequestTrack → List BlockLostNode × RbList RequestTrack × Bool
  | [], tracks => ([], tracks, false)
  | lost :: next, tracks =>
    if time ≤ lost.startTime then (lost :: next, tracks, false)
    else
      let tracks := if lost.reclaim then tracks else exitTracks bal tracks
      if time < lost.endTime then ({ lost with reclaim := true } :: next, tracks, true)
      else eventLostLoop bal time next tracks

/-- `blktrace_event_lost` -/
def blktraceEventLost (bal : Rebalance RequestTrack) (time : UInt64) (ctx : BlktraceCtx) : BlktraceCtx × Bool :=
  let (lostList, tracks, unsafeEvent) := eventLostLoop bal time ctx.lostList ctx.rqTracks
  ({ ctx with rqTracks := tracks, lostList := lostList }, unsafeEvent)

/-- The chain of `IF`. -/
def tpOf (stats : BlockTp → BlockIostat) (commonType : Nat) : Option BlockTp :=
  if commonType = (stats .getrq).type then some .getrq
  else if commonType = (stats .rqInsert).type then some .rqInsert
  else if commonType = (stats .rqIssue).type then some .rqIssue
  else if commonType = (stats .rqComplete).type then some .rqComplete
  else none

/-- `r`, unless the event is none of these, or belongs to a flush. -/
def requestOf (stats : BlockTp → BlockIostat) (s : Sample) : Option RequestTrack :=
  match tpOf stats s.commonType with
  | none => none
  | some tp =>
    if s.sector = UInt64.ofNat (2 ^ 64 - 1) then none
    else some ⟨tp, s.dev, s.sector, s.nrSector, s.time⟩

/-- The delay is added up. -/
def BlockIostat.add (greaterThan : UInt64) (delta : UInt64) (iostat : BlockIostat) : BlockIostat :=
  { iostat with
    min := if delta < iostat.min then delta else iostat.min
    max := if delta > iostat.max then delta else iostat.max
    than := if greaterThan ≠ 0 ∧ delta > greaterThan then iostat.than + 1 else iostat.than
    n := iostat.n + 1
    sum := iostat.sum + delta }

/-- What is printed before an event, if it is. -/
def printOf (greaterThan : UInt64) (prevRq r : RequestTrack) : Option String :=
  if greaterThan ≠ 0 ∧ r.time - prevRq.time > greaterThan then some "GREATER_THAN"
  else if r.tp = .getrq then some "EXIST"
  else if some prevRq.tp ≠ r.tp.prev then
    if r.tp = .rqIssue then some "BYPASS_INSERT" else some "LOST"
  else none

/-- `blktrace_sample` from `rblist__find` on. -/
def trackRequest (bal : Rebalance RequestTrack) (greaterThan : UInt64) (r : RequestTrack) (ctx : BlktraceCtx) :
    BlktraceCtx × Option String :=
  match ctx.rqTracks.entries.find (requestTrackNodeCmp r) with
  | some prevRq =>
    let delta := r.time - prevRq.time
    let stats := Function.update ctx.stats r.tp ((ctx.stats r.tp).add greaterThan delta)
    let tracks :=
      if r.tp ≠ .rqComplete then
        { ctx.rqTracks with entries := ctx.rqTracks.entries.change (requestTrackNodeCmp r) fun _ => r }
      else ((ctx.rqTracks.remove bal (requestTrackNodeCmp r)).map Prod.snd).getD ctx.rqTracks
    ({ ctx with stats := stats, rqTracks := tracks }, printOf greaterThan prevRq r)
  | none =>
    if r.tp ≠ .rqComplete then
      ({ ctx with rqTracks := ctx.rqTracks.addNode bal (requestTrackNodeCmp r) r }, none)
    else (ctx, none)

/-- `blktrace_sample` -/
def blktraceSample (bal : Rebalance RequestTrack) (greaterThan : UInt64) (s : Sample) (ctx : BlktraceCtx) :
    BlktraceCtx × Option String :=
  let (ctx, unsafeEvent) := blktraceEventLost bal s.time ctx
  if unsafeEvent then (ctx, none)
  else match requestOf ctx.stats s with
    | none => (ctx, none)
    | some r => trackRequest bal greaterThan r ctx

/-- A line of the report before it is scaled: `than` with its percentage if a threshold is given. -/
structure Row where
  first : BlockTp
  second : BlockTp
  reqs : Nat
  total : UInt64
  min : UInt64
  avg : Nat
  max : UInt64
  than : Option (Nat × Nat)
deriving DecidableEq

def rowOf (greaterThan : UInt64) (stats : BlockTp → BlockIostat) (first second : BlockTp) : Row :=
  let iostat := stats second
  { first := first
    second := second
    reqs := iostat.n
    total := iostat.sum
    min := if iostat.n ≠ 0 then iostat.min else 0
    avg := if iostat.n ≠ 0 then iostat.sum.toNat / iostat.n else 0
    max := iostat.max
    than :=
      if greaterThan ≠ 0 then some (iostat.than, iostat.than * 100 / (if iostat.n ≠ 0 then iostat.n else 1))
      else none }

/-- `blktrace_interval` -/
def blktraceInterval (greaterThan : UInt64) (ctx : BlktraceCtx) : BlktraceCtx × List Row :=
  let rows := [(BlockTp.getrq, BlockTp.rqInsert), (.rqInsert, .rqIssue), (.rqIssue, .rqComplete)]
  ({ ctx with stats := iostatReset ctx.stats },
    rows.map fun (first, second) => rowOf greaterThan ctx.stats first second)

/-- What happens to the profiler. -/
inductive Input where
  | sample (s : Sample)
  | lost (ins : Nat) (lostStart lostEnd : UInt64)
  | interval
deriving DecidableEq

def step (bal : Rebalance RequestTrack) (greaterThan : UInt64) (ctx : BlktraceCtx) : Input → BlktraceCtx
  | .sample s => (blktraceSample bal greaterThan s ctx).1
  | .lost ins lostStart lostEnd => blktraceLost ins lostStart lostEnd ctx
  | .interval => (blktraceInterval greaterThan ctx).1

def run (bal : Rebalance RequestTrack) (greaterThan : UInt64) (type : BlockTp → Nat) (inputs : List Input) :
    BlktraceCtx := inputs.foldl (step bal greaterThan) (blktraceInit type)

def Input.time? : Input → Option UInt64
  | sample s => some s.time
  | _ => none

/-- The samples come in the order of their times. -/
def TimeOrdered (inputs : List Input) : Prop := (inputs.filterMap Input.time?).Pairwise (· ≤ ·)

end Model

section Steps
variable {bal : Rebalance RequestTrack} {greaterThan time : UInt64} {ctx : BlktraceCtx} {tracks : RbList RequestTrack}
  {l : List BlockLostNode} {r : RequestTrack}

theorem exitTracks_toList (bal : Rebalance RequestTrack) (tracks : RbList RequestTrack) :
    (exitTracks bal tracks).entries.toList = [] := (RbList.drainAll_eq bal (fun u _ => u) tracks ()).2.1

/-- The requests stay or are all forgotten. -/
theorem eventLostLoop_tracks (bal : Rebalance RequestTrack) (time : UInt64) (l : List BlockLostNode)
    (tracks : RbList RequestTrack) : (eventLostLoop bal time l tracks).2.1 = tracks ∨
      (eventLostLoop bal time l tracks).2.1.entries.toList = [] := by
  induction l generalizing tracks with
  | nil => exact Or.inl rfl
  | cons lost next ih =>
    rw [eventLostLoop]
    split_ifs with hbefore hreclaim hinside hinside
    · exact Or.inl rfl
    · exact Or.inl rfl
    · exact ih tracks
    · exact Or.inr (exitTracks_toList bal tracks)
    · rcases ih (exitTracks bal tracks) with heq | hnil
      · rw [heq]
        exact Or.inr (exitTracks_toList bal tracks)
      · exact Or.inr hnil

theorem blktraceEventLost_stats (bal : Rebalance RequestTrack) (time : UInt64) (ctx : BlktraceCtx) :
    (blktraceEventLost bal time ctx).1.stats = ctx.stats := rfl

theorem step_sample (bal : Rebalance RequestTrack) (greaterThan : UInt64) (ctx : BlktraceCtx) (s : Sample) :
    step bal greaterThan ctx (.sample s) =
      if (blktraceEventLost bal s.time ctx).2 then (blktraceEventLost bal s.time ctx).1
      else match requestOf ctx.stats s with
        | none => (blktraceEventLost bal s.time ctx).1
        | some r => (trackRequest bal greaterThan r (blktraceEventLost bal s.time ctx).1).1 := by
  rw [step, blktraceSample]
  dsimp only
  rw [blktraceEventLost_stats]
  cases (blktraceEventLost bal s.time ctx).2 with
  | true => rfl
  | false => cases requestOf ctx.stats s <;> rfl

theorem run_concat (bal : Rebalance RequestTrack) (greaterThan : UInt64) (type : BlockTp → Nat) (pre : List Input)
    (x : Input) : run bal greaterThan type (pre ++ [x]) = step bal greaterThan (run bal greaterThan type pre) x :=
  List.foldl_concat _ _ _ _

end Steps

end PerfProf.Blktrace
