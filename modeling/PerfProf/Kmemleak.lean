import Mathlib.Algebra.BigOperators.Group.List.Basic
import PerfProf.RbTree

/-! kmemleak.c: allocations wait for the free of their pointer, frees that have come too early are
parked and played back in the order of time, and what is left is reported as leaked. -/
namespace PerfProf.Kmemleak
open PerfProf.Rblist

section Model

/-- `struct perf_event_backup`; `size` is the size of the event that is kept. -/
structure Backup where
  ptr : Nat
  time : Nat
  size : Nat
deriving DecidableEq

/-- The memory that a node takes. -/
def Backup.bytes (b : Backup) : Nat := 48 + b.size

/-- `perf_event_backup_node_cmp`. -/
def nodeCmp (insert : Bool) (e b : Backup) : Ordering :=
  (compare b.ptr e.ptr).then
    (if e.time < b.time then .gt else if insert ∧ b.time < e.time then .lt else .eq)

/-- `perf_event_backup_gc_free_node_cmp` and `perf_event_backup_sorted_node_cmp`. -/
def timeCmp (e b : Backup) : Ordering := (compare b.time e.time).then (compare b.ptr e.ptr)

/-- `struct kmemleak_stat`. -/
structure Stat where
  allocNum : Int
  freeNum : Int
  allocMem : Int
  freeMem : Int
  totalAlloc : Int
  totalFree : Int
deriving DecidableEq

structure LostNode where
  reclaim : Bool
  startTime : Nat
  endTime : Nat
deriving DecidableEq

/-- Why a node has left the alloc list: a free was matched with it, another allocation took its
place, or it was reported. -/
inductive Removal where
  | freed (alloc free : Backup)
  | replaced (alloc new : Backup)
  | reported (alloc : Backup)
deriving DecidableEq

/-- The node that has left. -/
def Removal.alloc : Removal → Backup
  | .freed alloc _ => alloc
  | .replaced alloc _ => alloc
  | .reported alloc => alloc

/-- `struct kmemleak_ctx`, with the nodes that have been put into the alloc list and those that have
left it. -/
structure Ctx where
  alloc : RbList Backup
  gcFree : RbList Backup
  stat : Stat
  lostList : List LostNode
  usingOrder : Bool
  added : List Backup
  removed : List Removal
deriving DecidableEq

/-- `monitor_ctx_init`. -/
def init (usingOrder : Bool) : Ctx :=
  ⟨.init Backup, .init Backup, ⟨0, 0, 0, 0, 0, 0⟩, [], usingOrder, [], []⟩

namespace Ctx
variable (bal : Rebalance Backup)

/-- `rblist__add_node(&ctx->alloc, ..)`; none for -EEXIST. There is always memory. -/
def addAlloc (ctx : Ctx) (e : Backup) : Option Ctx :=
  match ctx.alloc.entries.find (nodeCmp true e) with
  | some _ => none
  | none => some { ctx with
      alloc := ctx.alloc.addNode bal (nodeCmp true e) e
      stat.allocNum := ctx.stat.allocNum + 1
      stat.allocMem := ctx.stat.allocMem + e.bytes
      added := ctx.added ++ [e] }

/-- `rblist__add_node(&ctx->gc_free, ..)`, whose result is not looked at. -/
def addFree (ctx : Ctx) (e : Backup) : Ctx :=
  match ctx.gcFree.entries.find (timeCmp e) with
  | some _ => ctx
  | none => { ctx with
      gcFree := ctx.gcFree.addNode bal (timeCmp e) e
      stat.freeNum := ctx.stat.freeNum + 1
      stat.freeMem := ctx.stat.freeMem + e.bytes }

/-- `rblist__find` and `rblist__remove_node` of the alloc list, with `perf_event_backup_node_delete`;
none if nothing is found. -/
def removeAlloc (ctx : Ctx) (cmp : Backup → Ordering) (why : Backup → Removal) : Option Ctx :=
  (ctx.alloc.remove bal cmp).map fun (b, alloc) => { ctx with
    alloc := alloc
    stat.allocNum := ctx.stat.allocNum - 1
    stat.allocMem := ctx.stat.allocMem - b.bytes
    removed := ctx.removed ++ [why b] }

/-- `__gc_free_first`. -/
def gcFreeFirst (ctx : Ctx) : Ctx :=
  match ctx.gcFree.removeFirst bal with
  | none => ctx
  | some (free, gcFree) =>
    let ctx := (ctx.removeAlloc bal (nodeCmp false free) (.freed · free)).getD ctx
    { ctx with
      gcFree := gcFree
      stat.freeNum := ctx.stat.freeNum - 1
      stat.freeMem := ctx.stat.freeMem - free.bytes }

/-- `gc_need_free`. -/
def gcNeedFree (ctx : Ctx) (time : Nat) : Bool :=
  match ctx.gcFree.entries.toList with
  | first :: _ :: _ => first.time < time && 1000000000 < time - first.time
  | _ => false

/-- `gc_free` as long as `gc_need_free`; a turn takes a node off the list, so that the number of
nodes is fuel enough. -/
def gcLoop : Nat → Ctx → Nat → Ctx
  | 0, ctx, _ => ctx
  | fuel+1, ctx, time => if ctx.gcNeedFree time then gcLoop fuel (ctx.gcFreeFirst bal) time else ctx

/-- The loop at the start of `report_kmemleak`. -/
def playBack : Nat → Ctx → Ctx
  | 0, ctx => ctx
  | fuel+1, ctx => if ctx.gcFree.isEmpty then ctx else playBack fuel (ctx.gcFreeFirst bal)

/-- All parked frees are played back. -/
def playAll (ctx : Ctx) : Ctx := ctx.playBack bal ctx.gcFree.entries.toList.length

/-- A node that has been removed from the alloc list is added to `sorted`. -/
def moveSorted (sorted : RbList Backup) (b : Backup) : RbList Backup :=
  sorted.addNode bal (timeCmp b) b

/-- The loops of `report_kmemleak` over the alloc list, whose `node_delete` is empty meanwhile, and
over `sorted`. -/
def reportAlloc (ctx : Ctx) : Ctx :=
  let (alloc, sorted) := { ctx.alloc with frees := false }.drainAll bal (moveSorted bal)
    (.init Backup)
  let (_, out) := sorted.drainAll bal (fun out b => out ++ [b]) []
  { ctx with
    alloc := { alloc with frees := true }
    removed := ctx.removed ++ out.map .reported }

/-- `report_kmemleak`. -/
def report (ctx : Ctx) : Ctx :=
  let ctx := ctx.playAll bal
  if ctx.alloc.isEmpty then ctx else ctx.reportAlloc bal

/-- `rblist__exit(&ctx->gc_free)`. -/
def exitFree (ctx : Ctx) : Ctx :=
  let (gcFree, stat) := ctx.gcFree.drainAll bal (fun (stat : Stat) b => { stat with
    freeNum := stat.freeNum - 1
    freeMem := stat.freeMem - b.bytes }) ctx.stat
  { ctx with gcFree := gcFree, stat := stat }

/-- `lost_reclaim`. -/
def lostReclaim (ctx : Ctx) : Ctx :=
  if ctx.alloc.isEmpty then ctx.exitFree bal else ctx.report bal

/-- `kmemleak_lost`. -/
def lost (ctx : Ctx) (lostStart lostEnd : Nat) : Ctx :=
  if ctx.usingOrder then
    { ctx with lostList := ctx.lostList.takeWhile (fun pos => decide (pos.startTime ≤ lostStart)) ++
        ⟨false, lostStart, lostEnd⟩ ::
          ctx.lostList.dropWhile (fun pos => decide (pos.startTime ≤ lostStart)) }
  else ctx.lostReclaim bal

/-- The loop of `kmemleak_event_lost`, and whether the event is to be dropped. -/
def eventLost (ctx : Ctx) (time : Nat) : List LostNode → Ctx × Bool
  | [] => ({ ctx with lostList := [] }, false)
  | lost :: next =>
    if time ≤ lost.startTime then ({ ctx with lostList := lost :: next }, false)
    else
      let ctx := if lost.reclaim then ctx else ctx.lostReclaim bal
      if time < lost.endTime then ({ ctx with lostList := { lost with reclaim := true } :: next }, true)
      else eventLost ctx time next

/-- `kmemleak_sample` of an allocation that has not been lost. -/
def sampleAlloc (ctx : Ctx) (e : Backup) : Ctx :=
  let ctx := match ctx.addAlloc bal e with
    | some ctx => ctx
    | none =>
      let ctx := (ctx.removeAlloc bal (nodeCmp true e) (.replaced · e)).getD ctx
      (ctx.addAlloc bal e).getD ctx
  { ctx with stat.totalAlloc := ctx.stat.totalAlloc + 1 }

/-- `kmemleak_sample` of a free that has not been lost. -/
def sampleFree (ctx : Ctx) (e : Backup) : Ctx :=
  let ctx := match ctx.removeAlloc bal (nodeCmp false e) (.freed · e) with
    | some ctx => ctx
    | none =>
      let ctx := ctx.addFree bal e
      ctx.gcLoop bal ctx.gcFree.entries.toList.length e.time
  { ctx with stat.totalFree := ctx.stat.totalFree + 1 }

/-- `kmemleak_sample`. -/
def sample (ctx : Ctx) (isAlloc : Bool) (e : Backup) : Ctx :=
  let (ctx, drop) := ctx.eventLost bal e.time ctx.lostList
  if drop then ctx
  else if isAlloc then ctx.sampleAlloc bal e
  else ctx.sampleFree bal e

end Ctx

inductive Act where
  | sample (isAlloc : Bool) (e : Backup)
  | lost (lostStart lostEnd : Nat)
deriving DecidableEq

def step (bal : Rebalance Backup) (ctx : Ctx) : Act → Ctx
  | .sample isAlloc e => ctx.sample bal isAlloc e
  | .lost lostStart lostEnd => ctx.lost bal lostStart lostEnd

def run (bal : Rebalance Backup) (ctx : Ctx) (acts : List Act) : Ctx := acts.foldl (step bal) ctx

end Model

section Spec

/-- A free of the same pointer that is not older, or an allocation of the same pointer and time. -/
def Removal.Justified : Removal → Prop
  | .freed alloc free => free.ptr = alloc.ptr ∧ alloc.time ≤ free.time
  | .replaced alloc new => new.ptr = alloc.ptr ∧ new.time = alloc.time
  | .reported _ => True

/-- The counters are those of the lists, and every allocation is in the list or has left it once,
for one of the three reasons. -/
structure Accurate (ctx : Ctx) : Prop where
  allocNum : ctx.stat.allocNum = ctx.alloc.entries.toList.length
  allocMem : ctx.stat.allocMem = (ctx.alloc.entries.toList.map Backup.bytes).sum
  freeNum : ctx.stat.freeNum = ctx.gcFree.entries.toList.length
  freeMem : ctx.stat.freeMem = (ctx.gcFree.entries.toList.map Backup.bytes).sum
  once : ctx.added.Perm (ctx.alloc.entries.toList ++ ctx.removed.map Removal.alloc)
  justified : ∀ r ∈ ctx.removed, r.Justified

/-- `kmemleak_event_lost` comes to a `lost_reclaim`. -/
def reclaimsAt (time : Nat) : List LostNode → Bool
  | [] => false
  | lost :: next =>
    decide (lost.startTime < time) &&
      (!lost.reclaim || decide (lost.endTime ≤ time) && reclaimsAt time next)

/-- The act comes to a `lost_reclaim`. -/
def Ctx.reclaims (ctx : Ctx) : Act → Bool
  | .sample _ e => reclaimsAt e.time ctx.lostList
  | .lost _ _ => !ctx.usingOrder

/-- The allocations that the parked frees leave. -/
def Ctx.leftover (bal : Rebalance Backup) (ctx : Ctx) : List Backup :=
  (ctx.playAll bal).alloc.entries.toList

end Spec

section Books
variable {bal : Rebalance Backup} {ctx ctx' : Ctx} {e : Backup} {why : Backup → Removal}
  {cmp : Backup → Ordering}

/-- The order of the alloc list. -/
def allocKey (b : Backup) : Nat ×ₗ Nat := toLex (b.ptr, b.time)

def timeKey (b : Backup) : Nat ×ₗ Nat := toLex (b.time, b.ptr)

def Removal.isReported : Removal → Bool
  | .reported _ => true
  | _ => false

/-- What has been reported so far. -/
def Ctx.reported (ctx : Ctx) : List Backup :=
  (ctx.removed.filter Removal.isReported).map Removal.alloc

/-- The counters, where those of the alloc list still count what has been reported. -/
structure Books (ctx : Ctx) : Prop where
  sorted : Sorted allocKey ctx.alloc.entries.toList
  allocNum : ctx.stat.allocNum = ctx.alloc.entries.toList.length + ctx.reported.length
  allocMem : ctx.stat.allocMem = (ctx.alloc.entries.toList.map Backup.bytes).sum +
    (ctx.reported.map Backup.bytes).sum
  freeNum : ctx.stat.freeNum = ctx.gcFree.entries.toList.length
  freeMem : ctx.stat.freeMem = (ctx.gcFree.entries.toList.map Backup.bytes).sum
  once : ctx.added.Perm (ctx.alloc.entries.toList ++ ctx.removed.map Removal.alloc)
  justified : ∀ r ∈ ctx.removed, r.Justified

theorem orders_nodeCmp (e b : Backup) : Orders (nodeCmp true e b) (allocKey b) (allocKey e) := by
  refine (orders_compare b.ptr e.ptr).lex ?_
  split_ifs with hgt hlt
  · exact orders_of_gt hgt
  · exact orders_of_lt hlt.2
  · exact orders_of_eq (le_antisymm (not_lt.mp hgt) (not_lt.mp fun h => hlt ⟨rfl, h⟩))

theorem orders_timeCmp (e b : Backup) : Orders (timeCmp e b) (timeKey b) (timeKey e) :=
  (orders_compare b.time e.time).lex (orders_compare b.ptr e.ptr)

/-- A free finds an allocation of its pointer that is not younger. -/
theorem nodeCmp_false {b : Backup} (h : nodeCmp false e b = .eq) : e.ptr = b.ptr ∧ b.time ≤ e.time := by
  obtain ⟨hptr, htime⟩ := Ordering.then_eq_eq.mp h
  refine ⟨(compare_eq_iff_eq.mp hptr).symm, ?_⟩
  by_contra hlt
  rw [if_pos (not_le.mp hlt)] at htime
  cases htime

theorem nodeCmp_true {b : Backup} (h : nodeCmp true e b = .eq) : e.ptr = b.ptr ∧ e.time = b.time := by
  obtain ⟨hptr, htime⟩ := Ordering.then_eq_eq.mp h
  refine ⟨(compare_eq_iff_eq.mp hptr).symm, ?_⟩
  split_ifs at htime with hgt hlt
  exact le_antisymm (not_lt.mp fun h => hlt ⟨rfl, h⟩) (not_lt.mp hgt)

theorem Ctx.reported_append (ctx : Ctx) {removed : List Removal} (h : ctx'.removed = ctx.removed ++ removed) :
    ctx'.reported = ctx.reported ++ (removed.filter Removal.isReported).map Removal.alloc := by
  rw [reported, reported, h, List.filter_append, List.map_append]

/-- The counters and the list after a node has been added to the alloc list. -/
theorem Books.addAlloc (B : Books ctx) (h : ctx.addAlloc bal e = some ctx') :
    Books ctx' ∧ ctx'.reported = ctx.reported := by
  rw [Ctx.addAlloc] at h
  cases hfind : ctx.alloc.entries.find (nodeCmp true e) with
  | some b =>
    rw [hfind] at h
    cases h
  | none =>
    rw [hfind] at h
    cases h
    have hlist : (ctx.alloc.addNode bal (nodeCmp true e) e).entries.toList =
        upsert allocKey e id ctx.alloc.entries.toList :=
      RbList.addNode_toList bal B.sorted fun b _ => orders_nodeCmp e b
    have hperm : (ctx.alloc.addNode bal (nodeCmp true e) e).entries.toList.Perm
        (e :: ctx.alloc.entries.toList) := by
      obtain ⟨l, r, hsplit, hlink, _⟩ := Tree.link_toList allocKey e hfind
      rw [RbList.addNode, hfind]
      dsimp only
      rw [bal.toList_inserted, hlink, hsplit]
      exact List.perm_middle
    have hlen := hperm.length_eq
    have hsum := (hperm.map Backup.bytes).sum_eq
    rw [List.length_cons] at hlen
    rw [List.map_cons, List.sum_cons] at hsum
    refine ⟨⟨?_, ?_, ?_, B.freeNum, B.freeMem, ?_, B.justified⟩, rfl⟩
    · rw [hlist]
      exact @Sorted.upsert _ Unit _ _ allocKey (fun _ => e) (fun _ => id) () _ (fun _ => rfl) B.sorted
    · have hnum := B.allocNum
      dsimp only [Ctx.reported] at hnum ⊢
      omega
    · have hmem := B.allocMem
      dsimp only [Ctx.reported] at hmem ⊢
      omega
    · refine (List.perm_append_singleton e ctx.added).trans ?_
      exact (B.once.cons e).trans (hperm.symm.append_right _)

/-- The counters and the list after a node has been removed from the alloc list for a reason other
than a report. -/
theorem Books.removeAlloc (B : Books ctx) (h : ctx.removeAlloc bal cmp why = some ctx')
    (hwhy : ∀ b, cmp b = .eq → (why b).alloc = b ∧ (why b).isReported = false ∧ (why b).Justified) :
    Books ctx' ∧ ctx'.reported = ctx.reported := by
  obtain ⟨⟨b, alloc⟩, hremove, hctx⟩ := Option.map_eq_some_iff.mp h
  obtain ⟨heq, xs, ys, hsplit, hrest⟩ := RbList.remove_some hremove
  obtain ⟨hb, hrep, hjust⟩ := hwhy b heq
  cases hctx
  have hreported : Ctx.reported { ctx with
      alloc := alloc
      stat.allocNum := ctx.stat.allocNum - 1
      stat.allocMem := ctx.stat.allocMem - b.bytes
      removed := ctx.removed ++ [why b] } = ctx.reported := by
    rw [Ctx.reported_append ctx rfl, List.filter_cons_of_neg (by rw [hrep]; decide)]
    exact List.append_nil _
  refine ⟨⟨?_, ?_, ?_, B.freeNum, B.freeMem, ?_, ?_⟩, hreported⟩
  · rw [hrest]
    have hs := B.sorted
    rw [hsplit] at hs
    exact hs.sublist ((List.sublist_cons_self b ys).append_left xs)
  · have hnum := B.allocNum
    rw [hreported, hrest]
    rw [hsplit] at hnum
    simp only [List.length_append, List.length_cons] at hnum ⊢
    omega
  · have hmem := B.allocMem
    rw [hreported, hrest]
    rw [hsplit] at hmem
    simp only [List.map_append, List.map_cons, List.sum_append, List.sum_cons] at hmem ⊢
    omega
  · have honce := B.once
    rw [hsplit] at honce
    rw [hrest, List.map_append, List.map_cons, List.map_nil, hb]
    refine honce.trans ?_
    rw [List.append_assoc, List.cons_append, List.append_assoc]
    refine List.Perm.append_left xs ?_
    refine (List.perm_append_singleton b _).symm.trans ?_
    rw [List.append_assoc]
  · intro r hr
    rcases List.mem_append.mp hr with hr | hr
    · exact B.justified r hr
    · rw [List.mem_singleton.mp hr]
      exact hjust

/-- What only has to do with the parked frees. -/
theorem Books.parked (B : Books ctx) (gcFree : RbList Backup) (freeNum freeMem : Int)
    (hnum : freeNum = gcFree.entries.toList.length)
    (hmem : freeMem = (gcFree.entries.toList.map Backup.bytes).sum) :
    Books { ctx with gcFree := gcFree, stat.freeNum := freeNum, stat.freeMem := freeMem } :=
  ⟨B.sorted, B.allocNum, B.allocMem, hnum, hmem, B.once, B.justified⟩

theorem Books.addFree (B : Books ctx) (bal : Rebalance Backup) (e : Backup) :
    Books (ctx.addFree bal e) ∧ (ctx.addFree bal e).reported = ctx.reported := by
  rw [Ctx.addFree]
  cases hfind : ctx.gcFree.entries.find (timeCmp e) with
  | some b => exact ⟨B, rfl⟩
  | none =>
    have hperm : (ctx.gcFree.addNode bal (timeCmp e) e).entries.toList.Perm
        (e :: ctx.gcFree.entries.toList) := by
      obtain ⟨l, r, hsplit, hlink, _⟩ := Tree.link_toList timeKey e hfind
      rw [RbList.addNode, hfind]
      dsimp only
      rw [bal.toList_inserted, hlink, hsplit]
      exact List.perm_middle
    have hlen := hperm.length_eq
    have hsum := (hperm.map Backup.bytes).sum_eq
    rw [List.length_cons] at hlen
    rw [List.map_cons, List.sum_cons] at hsum
    have hnum := B.freeNum
    have hmem := B.freeMem
    exact ⟨B.parked _ _ _ (by omega) (by omega), rfl⟩

theorem Books.gcFreeFirst (B : Books ctx) (bal : Rebalance Backup) :
    Books (ctx.gcFreeFirst bal) ∧ (ctx.gcFreeFirst bal).reported = ctx.reported ∧
      (ctx.gcFreeFirst bal).gcFree.entries.toList = ctx.gcFree.entries.toList.tail := by
  have hfirst := RbList.removeFirst_eq bal ctx.gcFree
  rw [Ctx.gcFreeFirst]
  cases hremove : ctx.gcFree.removeFirst bal with
  | none =>
    rw [hremove] at hfirst
    dsimp only at hfirst
    rw [hfirst]
    exact ⟨B, rfl, rfl⟩
  | some p =>
    obtain ⟨free, gcFree⟩ := p
    rw [hremove] at hfirst
    dsimp only at hfirst ⊢
    have hkeep : ∀ ctx₁, ctx₁ = (ctx.removeAlloc bal (nodeCmp false free) (.freed · free)).getD ctx →
        Books ctx₁ ∧ ctx₁.reported = ctx.reported ∧ ctx₁.stat.freeNum = ctx.stat.freeNum ∧
          ctx₁.stat.freeMem = ctx.stat.freeMem := by
      rintro ctx₁ rfl
      cases hfound : ctx.removeAlloc bal (nodeCmp false free) (.freed · free) with
      | none => exact ⟨B, rfl, rfl, rfl⟩
      | some ctx₁ =>
        obtain ⟨B₁, hrep⟩ := B.removeAlloc hfound fun b hb => ⟨rfl, rfl, nodeCmp_false hb⟩
        obtain ⟨p, _, hctx⟩ := Option.map_eq_some_iff.mp hfound
        cases hctx
        exact ⟨B₁, hrep, rfl, rfl⟩
    obtain ⟨B₁, hrep, hnum₁, hmem₁⟩ := hkeep _ rfl
    generalize (ctx.removeAlloc bal (nodeCmp false free) (.freed · free)).getD ctx = ctx₁ at *
    have hnum := B.freeNum
    have hmem := B.freeMem
    rw [hfirst, List.length_cons] at hnum
    rw [hfirst, List.map_cons, List.sum_cons] at hmem
    refine ⟨B₁.parked _ _ _ (by omega) (by omega), hrep, ?_⟩
    rw [hfirst]
    rfl

theorem Books.gcLoop (B : Books ctx) (bal : Rebalance Backup) (fuel time : Nat) :
    Books (ctx.gcLoop bal fuel time) ∧ (ctx.gcLoop bal fuel time).reported = ctx.reported := by
  induction fuel generalizing ctx with
  | zero => exact ⟨B, rfl⟩
  | succ fuel ih =>
    rw [Ctx.gcLoop]
    split_ifs
    · obtain ⟨B₁, hrep₁, _⟩ := B.gcFreeFirst bal
      obtain ⟨B₂, hrep₂⟩ := ih B₁
      exact ⟨B₂, hrep₂.trans hrep₁⟩
    · exact ⟨B, rfl⟩

theorem Books.playBack (B : Books ctx) (bal : Rebalance Backup) {fuel : Nat}
    (hfuel : ctx.gcFree.entries.toList.length ≤ fuel) :
    Books (ctx.playBack bal fuel) ∧ (ctx.playBack bal fuel).reported = ctx.reported ∧
      (ctx.playBack bal fuel).gcFree.entries.toList = [] := by
  induction fuel generalizing ctx with
  | zero => exact ⟨B, rfl, List.eq_nil_of_length_eq_zero (Nat.le_zero.mp hfuel)⟩
  | succ fuel ih =>
    rw [Ctx.playBack]
    split_ifs with hempty
    · exact ⟨B, rfl, List.isEmpty_iff.mp hempty⟩
    · obtain ⟨B₁, hrep₁, htail⟩ := B.gcFreeFirst bal
      obtain ⟨B₂, hrep₂, hnil⟩ := ih B₁ (by
        rw [htail, List.length_tail]
        omega)
      exact ⟨B₂, hrep₂.trans hrep₁, hnil⟩

theorem Books.playAll (B : Books ctx) (bal : Rebalance Backup) :
    Books (ctx.playAll bal) ∧ (ctx.playAll bal).reported = ctx.reported ∧
      (ctx.playAll bal).gcFree.entries.toList = [] := B.playBack bal (Nat.le_refl _)

/-- What is printed is what was in the list. -/
theorem sorted_perm (B : Books ctx) (bal : Rebalance Backup) :
    (ctx.alloc.entries.toList.foldl (Ctx.moveSorted bal) (.init Backup)).entries.toList.Perm
      ctx.alloc.entries.toList := by
  have hgather := RbList.addNode_foldl bal timeCmp orders_timeCmp ctx.alloc.entries.toList
  have hnodup : (ctx.alloc.entries.toList.map timeKey).Nodup := by
    refine List.Pairwise.map _ (fun a b hlt heq => ?_) B.sorted
    obtain ⟨htime, hptr⟩ := Prod.mk_inj.mp heq
    exact ne_of_lt hlt (Prod.mk_inj.mpr ⟨hptr, htime⟩)
  exact (List.Perm.of_eq hgather).trans (gather_perm hnodup)

theorem Books.reportAlloc (B : Books ctx) (bal : Rebalance Backup) :
    Books (ctx.reportAlloc bal) ∧ (ctx.reportAlloc bal).alloc.entries.toList = [] ∧
      (ctx.reportAlloc bal).gcFree = ctx.gcFree ∧
      (ctx.reportAlloc bal).reported.Perm (ctx.reported ++ ctx.alloc.entries.toList) := by
  have hperm := sorted_perm B bal
  obtain ⟨hmoved, hnil, -, -⟩ := RbList.drainAll_eq bal (Ctx.moveSorted bal)
    { ctx.alloc with frees := false } (.init Backup)
  dsimp only at hmoved hnil
  rw [← hmoved] at hperm
  rw [Ctx.reportAlloc]
  generalize RbList.drainAll bal (Ctx.moveSorted bal) { ctx.alloc with frees := false }
    (.init Backup) = moved at hperm hnil ⊢
  obtain ⟨alloc, sorted⟩ := moved
  dsimp only at hperm hnil ⊢
  have hout := RbList.drainAll_out bal sorted
  generalize RbList.drainAll bal (fun out b => out ++ [b]) sorted [] = drained at hout ⊢
  obtain ⟨_, out⟩ := drained
  dsimp only at hout ⊢
  rw [← hout] at hperm
  have hmap : (out.map Removal.reported).map Removal.alloc = out := by
    rw [List.map_map]
    exact List.map_id out
  have hreported : Ctx.reported { ctx with
      alloc := { alloc with frees := true }
      removed := ctx.removed ++ out.map .reported } = ctx.reported ++ out := by
    rw [Ctx.reported_append ctx rfl, List.filter_eq_self.mpr, hmap]
    intro r hr
    obtain ⟨b, _, rfl⟩ := List.mem_map.mp hr
    rfl
  have hlen := hperm.length_eq
  have hsum := (hperm.map Backup.bytes).sum_eq
  refine ⟨⟨?_, ?_, ?_, B.freeNum, B.freeMem, ?_, ?_⟩, hnil, rfl, ?_⟩
  · rw [hnil]
    exact List.Pairwise.nil
  · have hnum := B.allocNum
    rw [hreported, hnil, List.length_append]
    simp only [List.length_nil]
    omega
  · have hmem := B.allocMem
    rw [hreported, hnil, List.map_append, List.sum_append]
    simp only [List.map_nil, List.sum_nil]
    omega
  · rw [hnil, List.map_append, hmap, List.nil_append]
    refine B.once.trans ?_
    exact (List.perm_append_comm).trans (hperm.symm.append_left _)
  · intro r hr
    rcases List.mem_append.mp hr with hr | hr
    · exact B.justified r hr
    · obtain ⟨b, _, rfl⟩ := List.mem_map.mp hr
      trivial
  · rw [hreported]
    exact hperm.append_left _

theorem Books.report (B : Books ctx) (bal : Rebalance Backup) :
    Books (ctx.report bal) ∧ (ctx.report bal).alloc.entries.toList = [] ∧
      (ctx.report bal).gcFree.entries.toList = [] ∧
      (ctx.report bal).reported.Perm (ctx.reported ++ ctx.leftover bal) := by
  obtain ⟨B₁, hrep, hnil⟩ := B.playAll bal
  rw [Ctx.report, Ctx.leftover]
  split_ifs with hempty
  · have hlist := List.isEmpty_iff.mp hempty
    refine ⟨B₁, hlist, hnil, ?_⟩
    rw [hlist, hrep, List.append_nil]
  · obtain ⟨B₂, halloc, hgc, hperm⟩ := B₁.reportAlloc bal
    refine ⟨B₂, halloc, ?_, ?_⟩
    · rw [hgc]
      exact hnil
    · rw [← hrep]
      exact hperm

theorem exitFree_stat (l : List Backup) (stat : Stat) :
    l.foldl (fun (stat : Stat) b => { stat with
      freeNum := stat.freeNum - 1
      freeMem := stat.freeMem - b.bytes }) stat =
    { stat with
      freeNum := stat.freeNum - l.length
      freeMem := stat.freeMem - (l.map Backup.bytes).sum } := by
  induction l generalizing stat with
  | nil => simp
  | cons b l ih =>
    rw [List.foldl_cons, ih]
    simp only [List.length_cons, List.map_cons, List.sum_cons]
    congr 1
    · omega
    · omega

theorem Books.exitFree (B : Books ctx) (bal : Rebalance Backup) :
    Books (ctx.exitFree bal) ∧ (ctx.exitFree bal).reported = ctx.reported ∧
      (ctx.exitFree bal).alloc = ctx.alloc ∧ (ctx.exitFree bal).gcFree.entries.toList = [] := by
  obtain ⟨hstat, hnil, -, -⟩ := RbList.drainAll_eq bal (fun (stat : Stat) (b : Backup) =>
    { stat with freeNum := stat.freeNum - 1, freeMem := stat.freeMem - b.bytes })
    ctx.gcFree ctx.stat
  rw [exitFree_stat] at hstat
  rw [Ctx.exitFree]
  generalize RbList.drainAll bal (fun (stat : Stat) (b : Backup) =>
    { stat with freeNum := stat.freeNum - 1, freeMem := stat.freeMem - b.bytes })
    ctx.gcFree ctx.stat = drained at hstat hnil ⊢
  obtain ⟨gcFree, stat⟩ := drained
  dsimp only at hstat hnil ⊢
  subst hstat
  have hnum := B.freeNum
  have hmem := B.freeMem
  refine ⟨B.parked _ _ _ ?_ ?_, rfl, rfl, hnil⟩
  · rw [hnil]
    simp only [List.length_nil]
    omega
  · rw [hnil]
    simp only [List.map_nil, List.sum_nil]
    omega

theorem removeAlloc_sublist (h : ctx.removeAlloc bal cmp why = some ctx') :
    ctx'.alloc.entries.toList.Sublist ctx.alloc.entries.toList := by
  obtain ⟨⟨b, alloc⟩, hremove, hctx⟩ := Option.map_eq_some_iff.mp h
  obtain ⟨_, xs, ys, hsplit, hrest⟩ := RbList.remove_some hremove
  cases hctx
  rw [hrest, hsplit]
  exact (List.sublist_cons_self b ys).append_left xs

theorem gcFreeFirst_sublist (bal : Rebalance Backup) (ctx : Ctx) :
    (ctx.gcFreeFirst bal).alloc.entries.toList.Sublist ctx.alloc.entries.toList := by
  rw [Ctx.gcFreeFirst]
  cases ctx.gcFree.removeFirst bal with
  | none => exact List.Sublist.refl _
  | some p =>
    dsimp only
    cases hfound : ctx.removeAlloc bal (nodeCmp false p.1) (.freed · p.1) with
    | none => exact List.Sublist.refl _
    | some ctx' => exact removeAlloc_sublist hfound

theorem playBack_sublist (bal : Rebalance Backup) (fuel : Nat) (ctx : Ctx) :
    (ctx.playBack bal fuel).alloc.entries.toList.Sublist ctx.alloc.entries.toList := by
  induction fuel generalizing ctx with
  | zero => exact List.Sublist.refl _
  | succ fuel ih =>
    rw [Ctx.playBack]
    split_ifs
    · exact List.Sublist.refl _
    · exact (ih _).trans (gcFreeFirst_sublist bal ctx)

theorem leftover_nil (bal : Rebalance Backup) (h : ctx.alloc.entries.toList = []) :
    ctx.leftover bal = [] := by
  have hsub := playBack_sublist bal ctx.gcFree.entries.toList.length ctx
  rw [h] at hsub
  exact List.eq_nil_of_sublist_nil hsub

end Books

section Runs
variable {bal : Rebalance Backup} {ctx ctx' : Ctx} {e : Backup}

theorem Books.lostReclaim (B : Books ctx) (bal : Rebalance Backup) :
    Books (ctx.lostReclaim bal) ∧ (ctx.lostReclaim bal).alloc.entries.toList = [] ∧
      (ctx.lostReclaim bal).reported.length = ctx.reported.length + (ctx.leftover bal).length := by
  rw [Ctx.lostReclaim]
  split_ifs with hempty
  · have hlist := List.isEmpty_iff.mp hempty
    obtain ⟨B₁, hrep, halloc, _⟩ := B.exitFree bal
    refine ⟨B₁, ?_, ?_⟩
    · rw [halloc]
      exact hlist
    · rw [hrep, leftover_nil bal hlist]
      rfl
  · obtain ⟨B₁, halloc, _, hperm⟩ := B.report bal
    exact ⟨B₁, halloc, hperm.length_eq.trans List.length_append⟩

theorem Books.lostList (B : Books ctx) (lostList : List LostNode) :
    Books { ctx with lostList := lostList } :=
  ⟨B.sorted, B.allocNum, B.allocMem, B.freeNum, B.freeMem, B.once, B.justified⟩

/-- Only the first `lost_reclaim` of an event can report anything. -/
theorem Books.eventLost (B : Books ctx) (bal : Rebalance Backup) (time : Nat) (l : List LostNode) :
    Books (ctx.eventLost bal time l).1 ∧ (ctx.eventLost bal time l).1.reported.length =
      ctx.reported.length + if reclaimsAt time l then (ctx.leftover bal).length else 0 := by
  induction l generalizing ctx with
  | nil => exact ⟨B.lostList [], rfl⟩
  | cons lost next ih =>
    rw [Ctx.eventLost, reclaimsAt]
    by_cases hstart : time ≤ lost.startTime
    · rw [if_pos hstart, decide_eq_false (not_lt.mpr hstart), Bool.false_and]
      exact ⟨B.lostList _, rfl⟩
    · rw [if_neg hstart, decide_eq_true (not_le.mp hstart), Bool.true_and]
      cases hreclaim : lost.reclaim with
      | true =>
        rw [if_pos rfl, Bool.not_true, Bool.false_or]
        by_cases hend : time < lost.endTime
        · rw [if_pos hend, decide_eq_false (not_le.mpr hend), Bool.false_and]
          exact ⟨B.lostList _, rfl⟩
        · rw [if_neg hend, decide_eq_true (not_lt.mp hend), Bool.true_and]
          exact ih B
      | false =>
        obtain ⟨B₁, halloc, hlen⟩ := B.lostReclaim bal
        rw [if_neg Bool.false_ne_true, Bool.not_false, Bool.true_or, if_pos rfl]
        by_cases hend : time < lost.endTime
        · rw [if_pos hend]
          exact ⟨B₁.lostList _, hlen⟩
        · obtain ⟨B₂, hlen₂⟩ := ih B₁
          rw [if_neg hend]
          refine ⟨B₂, hlen₂.trans ?_⟩
          rw [leftover_nil bal halloc, hlen]
          split_ifs
          · rfl
          · rfl

theorem Books.total (B : Books ctx) (totalAlloc totalFree : Int) :
    Books { ctx with stat.totalAlloc := totalAlloc, stat.totalFree := totalFree } :=
  ⟨B.sorted, B.allocNum, B.allocMem, B.freeNum, B.freeMem, B.once, B.justified⟩

theorem Books.sampleAlloc (B : Books ctx) (bal : Rebalance Backup) (e : Backup) :
    Books (ctx.sampleAlloc bal e) ∧ (ctx.sampleAlloc bal e).reported = ctx.reported := by
  rw [Ctx.sampleAlloc]
  cases hadd : ctx.addAlloc bal e with
  | some ctx₁ =>
    obtain ⟨B₁, hrep⟩ := B.addAlloc hadd
    exact ⟨B₁.total _ _, hrep⟩
  | none =>
    have hkeep : ∀ ctx₁, ctx₁ = (ctx.removeAlloc bal (nodeCmp true e) (.replaced · e)).getD ctx →
        Books ctx₁ ∧ ctx₁.reported = ctx.reported := by
      rintro ctx₁ rfl
      cases hfound : ctx.removeAlloc bal (nodeCmp true e) (.replaced · e) with
      | none => exact ⟨B, rfl⟩
      | some ctx₁ => exact B.removeAlloc hfound fun b hb => ⟨rfl, rfl, nodeCmp_true hb⟩
    obtain ⟨B₁, hrep₁⟩ := hkeep _ rfl
    dsimp only
    generalize (ctx.removeAlloc bal (nodeCmp true e) (.replaced · e)).getD ctx = ctx₁ at *
    cases hadd₂ : ctx₁.addAlloc bal e with
    | none => exact ⟨B₁.total _ _, hrep₁⟩
    | some ctx₂ =>
      obtain ⟨B₂, hrep₂⟩ := B₁.addAlloc hadd₂
      exact ⟨B₂.total _ _, hrep₂.trans hrep₁⟩

theorem Books.sampleFree (B : Books ctx) (bal : Rebalance Backup) (e : Backup) :
    Books (ctx.sampleFree bal e) ∧ (ctx.sampleFree bal e).reported = ctx.reported := by
  rw [Ctx.sampleFree]
  cases hfound : ctx.removeAlloc bal (nodeCmp false e) (.freed · e) with
  | some ctx₁ =>
    obtain ⟨B₁, hrep⟩ := B.removeAlloc hfound fun b hb => ⟨rfl, rfl, nodeCmp_false hb⟩
    exact ⟨B₁.total _ _, hrep⟩
  | none =>
    obtain ⟨B₁, hrep₁⟩ := B.addFree bal e
    obtain ⟨B₂, hrep₂⟩ := B₁.gcLoop bal (ctx.addFree bal e).gcFree.entries.toList.length e.time
    exact ⟨B₂.total _ _, hrep₂.trans hrep₁⟩

/-- What an act adds to the allocations that have been reported. -/
theorem Books.step (B : Books ctx) (bal : Rebalance Backup) (a : Act) :
    Books (step bal ctx a) ∧ (step bal ctx a).reported.length =
      ctx.reported.length + if ctx.reclaims a then (ctx.leftover bal).length else 0 := by
  cases a with
  | sample isAlloc e =>
    have hlost := B.eventLost bal e.time ctx.lostList
    rw [Kmemleak.step, Ctx.sample, Ctx.reclaims]
    generalize ctx.eventLost bal e.time ctx.lostList = p at hlost ⊢
    obtain ⟨ctx₁, drop⟩ := p
    obtain ⟨B₁, hlen⟩ := hlost
    dsimp only at B₁ hlen ⊢
    rw [← hlen]
    split_ifs
    · exact ⟨B₁, rfl⟩
    · obtain ⟨B₂, hrep⟩ := B₁.sampleAlloc bal e
      exact ⟨B₂, congrArg List.length hrep⟩
    · obtain ⟨B₂, hrep⟩ := B₁.sampleFree bal e
      exact ⟨B₂, congrArg List.length hrep⟩
  | lost lostStart lostEnd =>
    rw [Kmemleak.step, Ctx.lost, Ctx.reclaims]
    by_cases horder : ctx.usingOrder = true
    · rw [if_pos horder, if_neg (by rw [horder]; decide)]
      exact ⟨B.lostList _, rfl⟩
    · obtain ⟨B₁, _, hlen⟩ := B.lostReclaim bal
      rw [if_neg horder, if_pos (by rw [Bool.eq_false_iff.mpr horder]; rfl)]
      exact ⟨B₁, hlen⟩

theorem books_init (usingOrder : Bool) : Books (init usingOrder) :=
  ⟨List.Pairwise.nil, rfl, rfl, rfl, rfl, List.Perm.refl _, fun _ hr => absurd hr List.not_mem_nil⟩

theorem books_run (bal : Rebalance Backup) (usingOrder : Bool) (acts : List Act) :
    Books (run bal (init usingOrder) acts) := by
  induction acts using List.reverseRecOn with
  | nil => exact books_init usingOrder
  | append_singleton acts a ih =>
    rw [run, List.foldl_concat]
    exact (ih.step bal a).1

/-- The counters are wrong from the first report on. -/
theorem Books.accurate_reported (B : Books ctx) : Accurate ctx ↔ ctx.reported = [] := by
  constructor
  · intro h
    have hnum := B.allocNum
    rw [h.allocNum] at hnum
    exact List.eq_nil_of_length_eq_zero (by omega)
  · intro h
    have hnum := B.allocNum
    have hmem := B.allocMem
    rw [h] at hnum hmem
    simp only [List.length_nil, List.map_nil, List.sum_nil] at hnum hmem
    exact ⟨by omega, by omega, B.freeNum, B.freeMem, B.once, B.justified⟩

/-- In every state of a run the counters are right and what has left the alloc list is accounted
for, if and only if no report for the sake of lost events finds an allocation that the parked frees
leave. -/
theorem accurate_iff (bal : Rebalance Backup) (usingOrder : Bool) (acts : List Act) :
    (∀ pre, pre <+: acts → Accurate (run bal (init usingOrder) pre)) ↔
      ∀ pre a, pre ++ [a] <+: acts → (run bal (init usingOrder) pre).reclaims a = true →
        (run bal (init usingOrder) pre).leftover bal = [] := by
  have hstep : ∀ pre a, (run bal (init usingOrder) (pre ++ [a])).reported.length =
      (run bal (init usingOrder) pre).reported.length +
        if (run bal (init usingOrder) pre).reclaims a then
          ((run bal (init usingOrder) pre).leftover bal).length else 0 := fun pre a => by
    have h := ((books_run bal usingOrder pre).step bal a).2
    rw [run, List.foldl_concat]
    exact h
  constructor
  · intro h pre a hpre hreclaims
    have hnil := (books_run bal usingOrder (pre ++ [a])).accurate_reported.mp (h _ hpre)
    have hlen := hstep pre a
    rw [hnil, if_pos hreclaims] at hlen
    exact List.eq_nil_of_length_eq_zero (by simp only [List.length_nil] at hlen; omega)
  · intro h pre
    induction pre using List.reverseRecOn with
    | nil => exact fun _ => (books_init usingOrder).accurate_reported.mpr rfl
    | append_singleton pre a ih =>
      intro hpre
      have hbefore := (books_run bal usingOrder pre).accurate_reported.mp
        (ih ((List.prefix_append pre [a]).trans hpre))
      have hlen := hstep pre a
      rw [hbefore] at hlen
      refine (books_run bal usingOrder (pre ++ [a])).accurate_reported.mpr
        (List.eq_nil_of_length_eq_zero ?_)
      rw [hlen]
      split_ifs with hreclaims
      · rw [h pre a hpre hreclaims]
        rfl
      · rfl

/-- One allocation, and then events have been lost. -/
theorem stale_after_lost :
    ¬ Accurate (run .none (init false) [.sample true ⟨4096, 10, 64⟩, .lost 0 0]) := by
  intro h
  have hnum := h.allocNum
  exact absurd hnum (by decide)

end Runs

end PerfProf.Kmemleak
