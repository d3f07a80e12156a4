import Mathlib.Logic.Function.Basic
import PerfProf.Blocks
import PerfProf.Top

/-! oncpu.c: the time that threads have run, by thread and cpu or by cpu and thread or comm. The report by
cpu moves the entries to a second rblist, which is sorted by the time. -/
namespace PerfProf.Oncpu
open Blocks Rblist
open PerfProf.Top (CStr strcmp orders_strcmp)

section Model

/-- `struct runtime` -/
structure Runtime where
  ins : Int
  another : Int
  runtime : UInt64
  nrRun : Nat
  max : UInt64
  comm : CStr
deriving DecidableEq

/-- `struct runtime_entry` -/
structure RuntimeEntry where
  ins : Int
  another : Int
  comm : CStr
deriving DecidableEq

/-- The options, and what is known of the instances and the cpus. -/
structure Env where
  tidToCpumap : Bool
  onlyComm : Bool
  usingOrder : Bool
  threadOrCpu : Int → Int
  percpuThreadSiblings : Option (Int → Int)
  perinsVmfSib : Int → Int

/-- `struct oncpu_ctx` -/
structure OncpuCtx where
  lastTime : Int → UInt64
  runtimes : RbList Runtime

/-- What a sample has of `struct sample_type_data`; `comm` and `pid` are those of `sched_stat_runtime`, or
those of the thread that `sched_switch` switches from. -/
structure Sample where
  ins : Int
  tid : Int
  time : UInt64
  cpu : Int
  comm : CStr
  pid : Int
  runtime : UInt64
deriving DecidableEq

/-- `runtime_node_cmp` -/
def runtimeNodeCmp (e : RuntimeEntry) (run : Runtime) : Ordering :=
  if run.ins > e.ins then .gt
  else if run.ins < e.ins then .lt
  else if run.another > e.another then .gt
  else if run.another < e.another then .lt
  else .eq

/-- `runtime_node_cmp_comm` -/
def runtimeNodeCmpComm (e : RuntimeEntry) (run : Runtime) : Ordering :=
  if run.ins > e.ins then .gt
  else if run.ins < e.ins then .lt
  else if e.another = 0 then strcmp run.comm e.comm
  else if run.another > e.another then .gt
  else if run.another < e.another then .lt
  else .eq

/-- `runtime_instance_cmp`, the other way round. -/
def runtimeInstanceCmp (ins : Int) (run : Runtime) : Ordering := compare (run.ins - ins) 0

/-- `runtime_sorted_node_cmp` -/
def runtimeSortedNodeCmp (e run : Runtime) : Ordering :=
  if run.ins > e.ins then .gt
  else if run.ins < e.ins then .lt
  else if run.runtime > e.runtime then .lt
  else if run.runtime < e.runtime then .gt
  else if run.another > e.another then .gt
  else if run.another < e.another then .lt
  else .eq

/-- `runtimes.node_cmp` -/
def nodeCmp (env : Env) : RuntimeEntry → Runtime → Ordering :=
  if env.tidToCpumap then runtimeNodeCmp else runtimeNodeCmpComm

/-- `runtime_node_new` -/
def runtimeNodeNew (e : RuntimeEntry) : Runtime := ⟨e.ins, e.another, 0, 0, 0, e.comm⟩

/-- The context after `oncpu_init`. -/
def oncpuInit : OncpuCtx := ⟨fun _ => 0, RbList.init Runtime⟩

/-- `oncpu_sample` up to `rblist__findnew`: the entry and the time that it has run. -/
def sampleEntry (env : Env) (lastTime : Int → UInt64) (s : Sample) :
    (Int → UInt64) × Option (RuntimeEntry × UInt64) :=
  if env.tidToCpumap then
    if s.tid ≠ s.pid then (lastTime, none) else (lastTime, some (⟨s.ins, s.cpu, s.comm⟩, s.runtime))
  else if lastTime s.ins = 0 then (Function.update lastTime s.ins s.time, none)
  else
    let runtime := s.time - lastTime s.ins
    let lastTime := Function.update lastTime s.ins s.time
    -- exclude swapper
    if s.pid = 0 then (lastTime, none)
    else (lastTime, some (⟨s.ins, if env.onlyComm then 0 else s.pid, s.comm⟩, runtime))

/-- The time is added up. -/
def Runtime.add (runtime : UInt64) (run : Runtime) : Runtime :=
  { run with
    runtime := run.runtime + runtime
    nrRun := run.nrRun + 1
    max := if runtime > run.max then runtime else run.max }

/-- `oncpu_sample` -/
def oncpuSample (bal : Rebalance Runtime) (env : Env) (s : Sample) (ctx : OncpuCtx) : OncpuCtx :=
  match sampleEntry env ctx.lastTime s with
  | (lastTime, none) => { ctx with lastTime := lastTime }
  | (lastTime, some (e, runtime)) =>
    ⟨lastTime, ctx.runtimes.findnew bal (nodeCmp env e) (runtimeNodeNew e) (Runtime.add runtime)⟩

/-- `oncpu_lost` -/
def oncpuLost (env : Env) (ins : Int) (ctx : OncpuCtx) : OncpuCtx :=
  if env.usingOrder then ctx
  else if env.tidToCpumap then ctx
  else { ctx with lastTime := Function.update ctx.lastTime ins 0 }

/-- `rb_find_first`: the first equal node and, in order, those behind it. -/
def rbFindFirst (cmp : Runtime → Ordering) : Rblist.Tree Runtime → Option (List Runtime)
  | .leaf => none
  | .node l a r => match cmp a with
    | .gt => (rbFindFirst cmp l).map fun found => found ++ a :: r.toList
    | .eq => some (((rbFindFirst cmp l).getD []) ++ a :: r.toList)
    | .lt => rbFindFirst cmp r

/-- `for_each_runtime` from the first of these on. -/
def forEachRuntime : List Runtime → List Runtime
  | [] => []
  | first :: next => first :: next.takeWhile fun run => run.ins = first.ins

/-- `find_first_sib`, with what `for_each_runtime` runs over from there. -/
def findFirstSib (ctx : OncpuCtx) (ins : Int) : List Runtime :=
  forEachRuntime ((rbFindFirst (runtimeInstanceCmp ins) ctx.runtimes.entries).getD [])

/-- `sum` -/
def sumOf (runs : List Runtime) : UInt64 := runs.foldl (fun sum run => sum + run.runtime) 0

/-- `co` -/
def coOf (env : Env) (ctx : OncpuCtx) (siblings : Int → Int) (first : Runtime) (runs : List Runtime) : UInt64 :=
  if env.perinsVmfSib first.ins ≥ 0 then
    runs.foldl (fun co run =>
      match (findFirstSib ctx (env.perinsVmfSib run.ins)).find? fun sib => siblings sib.another = run.another with
      | some sib => co + if run.runtime < sib.runtime then run.runtime else sib.runtime
      | none => co) 0
  else 0

/-- A line of the report before it is scaled; `who` is the thread or the cpu of the instance. -/
structure Line where
  ins : Int
  who : Int
  comm : Option CStr
  sum : UInt64
  nrRun : Option Nat
  co : Option (UInt64 × UInt64)
  runs : List Runtime
  siblings : List Int
deriving DecidableEq

/-- `print_cpumap`; none where it divides by zero. -/
def printCpumap (env : Env) (ctx : OncpuCtx) (first : Runtime) (runs : List Runtime) : Option Line :=
  let sum := sumOf runs
  let line : Line := ⟨first.ins, env.threadOrCpu first.ins, some first.comm, sum, none, none, runs, []⟩
  match env.percpuThreadSiblings with
  | none => some line
  | some siblings =>
    let co := coOf env ctx siblings first runs
    if sum = 0 then none
    else some { line with co := some (co, co * 100 / sum), siblings := runs.map fun run => siblings run.another }

/-- `print_tidmap` -/
def printTidmap (env : Env) (first : Runtime) (runs : List Runtime) : Line :=
  ⟨first.ins, env.threadOrCpu first.ins, none, sumOf runs, some (runs.map Runtime.nrRun).sum, none, runs, []⟩

/-- A node that has been removed is added to `sorted`. -/
def moveSorted (bal : Rebalance Runtime) (sorted : RbList Runtime) (run : Runtime) : RbList Runtime :=
  sorted.addNode bal (runtimeSortedNodeCmp run) run

/-- `rblist__exit` -/
def exitRuntimes (bal : Rebalance Runtime) (runtimes : RbList Runtime) : RbList Runtime :=
  (runtimes.drainAll bal (fun u _ => u) ()).1

/-- `oncpu_interval`; none where it divides by zero. -/
def oncpuInterval (bal : Rebalance Runtime) (env : Env) (ctx : OncpuCtx) : Option (OncpuCtx × List Line) :=
  if ctx.runtimes.isEmpty then some (ctx, [])
  else if env.tidToCpumap then
    let lines := (blocks Runtime.ins ctx.runtimes.entries.toList).mapM fun (first, next) =>
      printCpumap env ctx first (first :: next)
    lines.map fun lines => ({ ctx with runtimes := exitRuntimes bal ctx.runtimes }, lines)
  else
    -- `node_delete` of `runtimes` is `empty` meanwhile
    let moving := { ctx.runtimes with frees := false }
    let (left, sorted) := moving.drainAll bal (moveSorted bal) (.init Runtime)
    let lines := (blocks Runtime.ins sorted.entries.toList).map fun (first, next) =>
      printTidmap env first (first :: next)
    some ({ ctx with runtimes := { left with frees := true } }, lines)

/-- What happens to the profiler. -/
inductive Input where
  | sample (s : Sample)
  | lost (ins : Int)
  | interval
deriving DecidableEq

/-- None where the program has been killed. -/
def step (bal : Rebalance Runtime) (env : Env) (ctx : OncpuCtx) : Input → Option OncpuCtx
  | .sample s => some (oncpuSample bal env s ctx)
  | .lost ins => some (oncpuLost env ins ctx)
  | .interval => (oncpuInterval bal env ctx).map Prod.fst

def run (bal : Rebalance Runtime) (env : Env) (inputs : List Input) : Option OncpuCtx :=
  inputs.foldlM (step bal env) oncpuInit

end Model

section Orders
variable {env : Env} {e : RuntimeEntry} {a b : Runtime}

/-- The report by cpu and comm. -/
def Env.byComm (env : Env) : Bool := !env.tidToCpumap && env.onlyComm

/-- What tells two entries apart. -/
def pair (env : Env) (ins another : Int) (comm : CStr) : Int ×ₗ Int ×ₗ CStr :=
  toLex (ins, if env.byComm then toLex (0, comm) else toLex (another, []))

def entryKey (env : Env) (e : RuntimeEntry) : Int ×ₗ Int ×ₗ CStr := pair env e.ins e.another e.comm

def runKey (env : Env) (run : Runtime) : Int ×ₗ Int ×ₗ CStr := pair env run.ins run.another run.comm

/-- The order of the sorted entries: instance, descending time, the other number. -/
def sortKey (run : Runtime) : Int ×ₗ Natᵒᵈ ×ₗ Int :=
  toLex (run.ins, toLex (OrderDual.toDual run.runtime.toNat, run.another))

/-- Only an entry of a comm has no number. -/
def Proper (env : Env) (e : RuntimeEntry) : Prop := env.tidToCpumap = false → (e.another = 0 ↔ env.onlyComm = true)

theorem ite_compare (a b : Int) (o : Ordering) :
    (if a > b then Ordering.gt else if a < b then .lt else o) = (compare a b).then o := by
  rcases lt_trichotomy a b with hlt | heq | hgt
  · rw [if_neg (not_lt_of_gt hlt), if_pos hlt, compare_lt_iff_lt.mpr hlt]
    rfl
  · rw [heq, if_neg (lt_irrefl b), if_neg (lt_irrefl b), compare_eq_iff_eq.mpr rfl]
    rfl
  · rw [if_pos hgt, compare_gt_iff_gt.mpr hgt]
    rfl

theorem orders_nodeCmp (he : Proper env e) (run : Runtime) :
    Orders (nodeCmp env e run) (runKey env run) (entryKey env e) := by
  have hanother : Orders ((compare run.another e.another).then .eq)
      (toLex (run.another, ([] : CStr))) (toLex (e.another, [])) :=
    (orders_compare run.another e.another).lex (orders_of_eq rfl)
  unfold nodeCmp runKey entryKey pair Env.byComm
  cases hmap : env.tidToCpumap with
  | true =>
    rw [if_pos rfl, runtimeNodeCmp, ite_compare, ite_compare]
    exact (orders_compare run.ins e.ins).lex hanother
  | false =>
    rw [if_neg Bool.false_ne_true, runtimeNodeCmpComm, ite_compare, ite_compare]
    refine (orders_compare run.ins e.ins).lex ?_
    cases honly : env.onlyComm with
    | true =>
      rw [if_pos ((he hmap).mpr honly)]
      exact (orders_of_eq rfl).lex (orders_strcmp run.comm e.comm)
    | false =>
      have hne : e.another ≠ 0 := fun hzero => Bool.false_ne_true (honly.symm.trans ((he hmap).mp hzero))
      rw [if_neg hne]
      exact hanother

theorem orders_runtime (a b : UInt64) :
    Orders (if a > b then .lt else if a < b then .gt else .eq) (OrderDual.toDual a.toNat)
      (OrderDual.toDual b.toNat) := by
  refine Orders.dual ?_
  split_ifs with hgt hlt
  · exact orders_of_lt (UInt64.lt_iff_toNat_lt.mp hgt)
  · exact orders_of_gt (UInt64.lt_iff_toNat_lt.mp hlt)
  · exact orders_of_eq (le_antisymm (UInt64.le_iff_toNat_le.mp (UInt64.not_lt.mp hlt))
      (UInt64.le_iff_toNat_le.mp (UInt64.not_lt.mp hgt)))

theorem orders_sortedNodeCmp (a b : Runtime) : Orders (runtimeSortedNodeCmp a b) (sortKey b) (sortKey a) := by
  have hruntime := orders_runtime b.runtime a.runtime
  have hthen : (if b.runtime > a.runtime then Ordering.lt else if b.runtime < a.runtime then .gt
      else (compare b.another a.another).then .eq) =
      (if b.runtime > a.runtime then Ordering.lt else if b.runtime < a.runtime then .gt else .eq).then
        ((compare b.another a.another).then .eq) := by
    split_ifs <;> rfl
  rw [runtimeSortedNodeCmp, ite_compare, ite_compare, hthen, Ordering.then_eq]
  exact (orders_compare b.ins a.ins).lex (hruntime.lex (orders_compare b.another a.another))

end Orders

end PerfProf.Oncpu
