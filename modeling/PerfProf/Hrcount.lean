import Mathlib.Data.UInt
import PerfProf.RbTree

/-! hrcount.c and count_helpers.c: the counters of every instance are read period by period into a
ring of two rounds, and a round is printed when every instance has got through it. The layout of
the lines is left out. -/
namespace PerfProf.Hrcount
open PerfProf.Rblist

section CountDist

structure CountNode where
  ins : Nat
  id : Nat
  key : Nat
  max : UInt64
  sum : UInt64
  histLen : Nat
  hist : List UInt64
deriving DecidableEq

structure CountDist where
  dist : RbList CountNode
  ins : Bool
  id : Bool
  key : Bool
  histSize : Int32
  max : UInt64
deriving DecidableEq

namespace CountDist

/-- `count_dist_new`. -/
def new (ins id key : Bool) (histSize : Int32) : CountDist :=
  ⟨.init CountNode, ins, id, key, histSize, 0⟩

/-- `count_dist_node_cmp`. -/
def nodeCmp (d : CountDist) (e n : CountNode) : Ordering :=
  (if d.ins then compare n.ins e.ins else .eq).then
    ((if d.id then compare n.id e.id else .eq).then (if d.key then compare n.key e.key else .eq))

/-- `count_dist_node_new` for the entry that is looked for. -/
def nodeNew (d : CountDist) (ins id key : Nat) : CountNode where
  ins := if d.ins then ins else 0
  id := if d.id then id else 0
  key := if d.key then key else 0
  max := 0
  sum := 0
  histLen := 0
  hist := List.replicate d.histSize.toInt.toNat 0

/-- `i %= dist->hist_size`; none for a division by zero. -/
def cell (d : CountDist) (i : Nat) : Option Nat :=
  if d.histSize = 0 then none else some (i % (d.histSize.toInt % 2 ^ 64).toNat)

/-- What `count_dist_insert` does with its node. -/
def account (i : Nat) (count : UInt64) (n : CountNode) : CountNode :=
  let hist := n.hist.modify i (· + count)
  { n with
    hist := hist
    max := if n.max < hist.getD i 0 then hist.getD i 0 else n.max
    sum := n.sum + count
    histLen := if n.histLen < i then i else n.histLen }

/-- `count_dist_insert`. -/
def insert (bal : Rebalance CountNode) (d : CountDist) (ins id key i : Nat) (count : UInt64) :
    Option CountDist :=
  (d.cell i).map fun i =>
    let new := d.nodeNew ins id key
    let n := account i count ((d.dist.entries.find (d.nodeCmp new)).getD new)
    { d with
      dist := d.dist.findnew bal (d.nodeCmp new) new (account i count)
      max := if d.max < n.hist.getD i 0 then n.hist.getD i 0 else d.max }

/-- `count_dist_reset`. -/
def reset (d : CountDist) : CountDist := { d with dist := .init CountNode, max := 0 }

end CountDist

end CountDist

section Ctx

/-- Of a `struct tp`: whether it stands for a device, and the length of its title. -/
structure Tp where
  isDev : Bool
  title : Int32
deriving DecidableEq

structure HrcountCtx where
  tpList : List Tp
  counters : Nat → Nat → UInt64
  perinsPos : List Nat
  countDist : CountDist
  histSize : Int32
  period : Nat
  packedDisplay : Bool
  rounds : Nat
  slots : Nat
  roundNr : Nat
  needReset : Bool
  pertpMaxLen : List Int32

namespace HrcountCtx
variable (ctx : HrcountCtx)

/-- `(ctx->rounds + 1) * ctx->hist_size`. -/
def printPos : Nat := ((ctx.rounds + 1) * ctx.histSize.toInt % 2 ^ 64).toNat

/-- `(ctx->rounds % ctx->slots) * ctx->hist_size`. -/
def slot : Nat := ctx.rounds % ctx.slots * ctx.histSize.toInt.toNat

/-- The cells that are printed; the first one always is. -/
def printCells : List Nat := List.range' ctx.slot (max 1 ctx.histSize.toInt.toNat)

/-- The cells of the round are set to zero. -/
def clear (n : CountNode) : CountNode :=
  { n with hist := n.hist.mapIdx fun h c =>
      if ctx.slot ≤ h ∧ h < ctx.slot + ctx.histSize.toInt.toNat then 0 else c }

end HrcountCtx

/-- A printed line, in packed display a part of one. -/
structure Line where
  round : Nat
  ins : Nat
  id : Nat
  columns : List UInt64
  total : Option UInt64
deriving DecidableEq

/-- `direct_print`. -/
def directPrint (ctx : HrcountCtx) (node : CountNode) : CountNode × Line :=
  ({ ctx.clear node with sum := 0 },
    ⟨ctx.rounds, node.ins, node.id, ctx.printCells.map fun h => node.hist.getD h 0, some node.sum⟩)

/-- `packed_print`. -/
def packedPrint (ctx : HrcountCtx) (node : CountNode) : CountNode × Line :=
  ({ ctx.clear node with max := 0 },
    ⟨ctx.rounds, node.ins, node.id, ctx.printCells.map fun h => node.hist.getD h 0, none⟩)

/-- `printnode`. -/
def printNode (ctx : HrcountCtx) : CountNode → CountNode × Line :=
  if ctx.packedDisplay then packedPrint ctx else directPrint ctx

/-- `__hrcount_interval`. -/
def roundInterval (ctx : HrcountCtx) : HrcountCtx × List Line :=
  if ctx.perinsPos.any (· < ctx.printPos) then (ctx, [])
  else
    let maxPos := ctx.perinsPos.foldl max 0
    let ahead := 2 ≤ ctx.perinsPos.length ∧ 2 ≤ ctx.histSize.toInt ∧
      ctx.histSize.toInt / 2 ≤ maxPos - ctx.printPos
    let entries := ctx.countDist.dist.entries
    ({ ctx with
      needReset := ctx.needReset || decide ahead
      countDist.dist.entries := entries.map fun n => (printNode ctx n).1
      rounds := (ctx.rounds + 1) % 2 ^ 64 }, entries.toList.map fun n => (printNode ctx n).2)

/-- `hrcount_reset`. -/
def hrcountReset (ctx : HrcountCtx) : HrcountCtx :=
  { ctx with
    countDist := ctx.countDist.reset
    perinsPos := ctx.perinsPos.map fun _ => 0
    rounds := 0
    roundNr := 0 }

/-- `hrcount_interval`. -/
def hrcountInterval (ctx : HrcountCtx) : HrcountCtx × List Line :=
  let (ctx, lines) := roundInterval ctx
  (if ctx.needReset then hrcountReset { ctx with needReset := false } else ctx, lines)

/-- The evsel that the id of a group member leads to. -/
inductive Member where
  | leader
  | tp (j : Nat)
  | other
deriving DecidableEq

/-- What `count_dist_insert` is called with. -/
structure Increment where
  ins : Nat
  id : Nat
  pos : Nat
  count : UInt64
deriving DecidableEq

/-- How far a sample after `cpuClock` ns jumps. -/
def skipped (period : Nat) (cpuClock : UInt64) : Nat :=
  if period * 2 % 2 ^ 64 ≤ cpuClock.toNat then (cpuClock.toNat / period + (2 ^ 64 - 1)) % 2 ^ 64
  else 0

/-- The next value of a counter. -/
def HrcountCtx.count (ctx : HrcountCtx) (ins j : Nat) (value : UInt64) : HrcountCtx :=
  { ctx with counters := fun i k => if i = ins ∧ k = j then value else ctx.counters i k }

/-- One turn of the loop over the members of the group, and what it inserts. -/
def sampleMember (bal : Rebalance CountNode) (ins : Nat) (ctx : HrcountCtx) :
    Member × UInt64 → Option (HrcountCtx × List Increment)
  | (.other, _) => some (ctx, [])
  | (.leader, value) =>
    let cpuClock := value - ctx.counters ins ctx.tpList.length
    if ctx.period = 0 then none
    else some ({ ctx.count ins ctx.tpList.length value with
      perinsPos := ctx.perinsPos.modify ins fun pos =>
        (pos + skipped ctx.period cpuClock) % 2 ^ 64 }, [])
  | (.tp j, value) =>
    let counter := value - ctx.counters ins j
    let pos := ctx.perinsPos.getD ins 0
    (ctx.countDist.insert bal ins j 0 pos counter).map fun d =>
      ({ ctx.count ins j value with countDist := d }, [⟨ins, j, pos, counter⟩])

def sampleMembers (bal : Rebalance CountNode) (ins : Nat) :
    List (Member × UInt64) → HrcountCtx → Option (HrcountCtx × List Increment)
  | [], ctx => some (ctx, [])
  | m :: members, ctx => do
    let (ctx, incs) ← sampleMember bal ins ctx m
    let (ctx, incs') ← sampleMembers bal ins members ctx
    return (ctx, incs ++ incs')

/-- The instance has got through a period. -/
def HrcountCtx.advance (ctx : HrcountCtx) (ins : Nat) : HrcountCtx :=
  { ctx with perinsPos := ctx.perinsPos.modify ins fun pos => (pos + 1) % 2 ^ 64 }

/-- The end of `hrcount_sample`. -/
def completed (ins printPos : Nat) (ctx : HrcountCtx) : HrcountCtx × List Line :=
  let ctx := ctx.advance ins
  if printPos ≤ ctx.perinsPos.getD ins 0 then
    if ctx.perinsPos.length ≤ ctx.roundNr + 1 then roundInterval { ctx with roundNr := 0 }
    else ({ ctx with roundNr := ctx.roundNr + 1 }, [])
  else (ctx, [])

/-- `hrcount_sample`; none for a division by zero. -/
def hrcountSample (bal : Rebalance CountNode) (ins : Nat) (members : List (Member × UInt64))
    (ctx : HrcountCtx) : Option (HrcountCtx × List Increment × List Line) := do
  let (ctx', incs) ← sampleMembers bal ins members ctx
  let (ctx', lines) := completed ins ctx.printPos ctx'
  return (ctx', incs, lines)

end Ctx

end PerfProf.Hrcount
