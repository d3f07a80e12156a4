import Mathlib.Data.Prod.Lex
import PerfProf.RbTree

/-! latency_helpers.c: latency statistics by instance and key, and printing them sorted by their
sum. Sorting moves the nodes to a second rblist while `node_delete` of the first does nothing. -/
namespace PerfProf.LatencyDist
open Rblist

section Model

structure LatencyNode where
  inst : Nat
  key : Nat
  min : Nat
  max : Nat
  n : Nat
  than : Nat
  sum : Nat
deriving DecidableEq

/-- `struct latency_dist`. -/
structure Dist where
  lat : RbList LatencyNode
  perins : Bool
  perkey : Bool
deriving DecidableEq

/-- The arguments of `latency_dist_input`; `lat` is a u64. -/
structure Input where
  inst : Nat
  key : Nat
  lat : Nat
  greaterThan : Nat
  lat_lt : lat < 2 ^ 64

namespace Dist

/-- `latency_stat_node_cmp`. -/
def statNodeCmp (d : Dist) (inst key : Nat) (n : LatencyNode) : Ordering :=
  (if d.perins then compare n.inst inst else .eq).then
    (if d.perkey then compare n.key key else .eq)

/-- `latency_stat_node_new`. -/
def statNodeNew (inst key : Nat) : LatencyNode := ⟨inst, key, 2 ^ 64 - 1, 0, 0, 0, 0⟩

/-- `latency_stat__sorted_node_cmp`. -/
def sortedNodeCmp (d : Dist) (e n : LatencyNode) : Ordering :=
  ((if d.perins then compare n.inst e.inst else .eq).then (compare e.sum n.sum)).then
    (if d.perkey then compare n.key e.key else .eq)

/-- `latency_dist_new`. -/
def new (perins perkey : Bool) : Dist := ⟨.init LatencyNode, perins, perkey⟩

/-- What `latency_dist_input` does with the node. -/
def account (x : Input) (n : LatencyNode) : LatencyNode where
  inst := n.inst
  key := n.key
  min := if x.lat < n.min then x.lat else n.min
  max := if n.max < x.lat then x.lat else n.max
  than := if x.greaterThan ≠ 0 ∧ x.greaterThan < x.lat then (n.than + 1) % 2 ^ 64 else n.than
  n := (n.n + 1) % 2 ^ 64
  sum := (n.sum + x.lat) % 2 ^ 64

/-- `latency_dist_input`. -/
def input (bal : Rebalance LatencyNode) (d : Dist) (x : Input) : Dist :=
  let new := statNodeNew x.inst x.key
  { d with lat := d.lat.findnew bal (d.statNodeCmp x.inst x.key) new (account x) }

def inputs (bal : Rebalance LatencyNode) (d : Dist) (xs : List Input) : Dist :=
  xs.foldl (input bal) d

/-- `latency_dist_print`: the distribution that is left and the nodes `printnode` was called with. -/
def print (bal : Rebalance LatencyNode) (d : Dist) : Dist × List LatencyNode :=
  if d.lat.isEmpty then (d, [])
  else
    let (lat, out) := d.lat.drainAll bal (fun out n => out ++ [n]) []
    ({ d with lat := lat }, out)

/-- A node that has been removed is added to the second rblist. -/
def moveSorted (bal : Rebalance LatencyNode) (d : Dist) (sorted : RbList LatencyNode)
    (n : LatencyNode) : RbList LatencyNode :=
  sorted.addNode bal (d.sortedNodeCmp n) n

/-- `latency_dist_print_sorted`; the nodes that the second rblist has freed come last. -/
def printSorted (bal : Rebalance LatencyNode) (d : Dist) :
    Dist × List LatencyNode × List LatencyNode :=
  if d.lat.isEmpty then (d, [], [])
  else
    let lat := { d.lat with frees := false }
    let (lat, sorted) := lat.drainAll bal (moveSorted bal d) (.init LatencyNode)
    let (sorted, out) := sorted.drainAll bal (fun out n => out ++ [n]) []
    ({ d with lat := { lat with frees := true } }, out, sorted.freed)

end Dist

end Model

section Keys
variable (d : Dist)

/-- What tells two nodes apart: the instance if `perins`, the key if `perkey`. -/
def Dist.pair (inst key : Nat) : Nat ×ₗ Nat :=
  toLex (if d.perins then inst else 0, if d.perkey then key else 0)

def Dist.nodeKey (n : LatencyNode) : Nat ×ₗ Nat := d.pair n.inst n.key

def Dist.inputKey (x : Input) : Nat ×ₗ Nat := d.pair x.inst x.key

/-- The order of the sorted nodes: instance, descending sum, key. -/
def Dist.sortKey (n : LatencyNode) : Nat ×ₗ Natᵒᵈ ×ₗ Nat :=
  toLex (if d.perins then n.inst else 0,
    toLex (OrderDual.toDual n.sum, if d.perkey then n.key else 0))

theorem orders_flag (flag : Bool) (a b : Nat) :
    Orders (if flag then compare a b else .eq) (if flag then a else 0) (if flag then b else 0) := by
  cases flag with
  | true => exact orders_compare a b
  | false => exact orders_of_eq rfl

theorem orders_statNodeCmp (inst key : Nat) (n : LatencyNode) :
    Orders (d.statNodeCmp inst key n) (d.nodeKey n) (d.pair inst key) :=
  (orders_flag d.perins n.inst inst).lex (orders_flag d.perkey n.key key)

theorem orders_sortedNodeCmp (e n : LatencyNode) :
    Orders (d.sortedNodeCmp e n) (d.sortKey n) (d.sortKey e) := by
  rw [Dist.sortedNodeCmp, Ordering.then_assoc]
  exact (orders_flag d.perins n.inst e.inst).lex
    ((orders_compare e.sum n.sum).dual.lex (orders_flag d.perkey n.key e.key))

/-- Nodes that are equal for the second order are equal for the first. -/
theorem nodeKey_eq_of_sortKey {a b : LatencyNode} (h : d.sortKey a = d.sortKey b) :
    d.nodeKey a = d.nodeKey b := by
  have hpair := toLex_inj.mp h
  have hrest := toLex_inj.mp (Prod.mk.inj hpair).2
  exact congrArg toLex (Prod.ext (Prod.mk.inj hpair).1 (Prod.mk.inj hrest).2)

end Keys

section Inputs
variable {d : Dist} {xs : List Input} {x : Input} {n : LatencyNode}

/-- The node has the statistics of the inputs. -/
structure Summarizes (n : LatencyNode) (xs : List Input) : Prop where
  count : n.n = xs.length % 2 ^ 64
  sum : n.sum = (xs.map Input.lat).sum % 2 ^ 64
  minLe : ∀ x ∈ xs, n.min ≤ x.lat
  minMem : xs = [] ∧ n.min = 2 ^ 64 - 1 ∨ ∃ x ∈ xs, x.lat = n.min
  leMax : ∀ x ∈ xs, x.lat ≤ n.max
  maxMem : xs = [] ∧ n.max = 0 ∨ ∃ x ∈ xs, x.lat = n.max
  than : n.than =
    (xs.filter fun x => x.greaterThan ≠ 0 ∧ x.greaterThan < x.lat).length % 2 ^ 64

theorem summarizes_new (inst key : Nat) : Summarizes (Dist.statNodeNew inst key) [] where
  count := rfl
  sum := rfl
  minLe := nofun
  minMem := Or.inl ⟨rfl, rfl⟩
  leMax := nofun
  maxMem := Or.inl ⟨rfl, rfl⟩
  than := rfl

theorem forall_mem_concat {p : Input → Prop} (h : ∀ y ∈ xs, p y) (hx : p x) :
    ∀ y ∈ xs ++ [x], p y := by
  intro y hy
  rcases List.mem_append.mp hy with hy | hy
  · exact h y hy
  · rw [List.mem_singleton.mp hy]
    exact hx

theorem Summarizes.account (h : Summarizes n xs) (x : Input) :
    Summarizes (Dist.account x n) (xs ++ [x]) where
  count := by
    simp only [Dist.account, h.count, List.length_append, Nat.mod_add_mod]
    rfl
  sum := by
    simp only [Dist.account, h.sum, List.map_append, List.sum_append, Nat.mod_add_mod]
    rfl
  minLe := by
    have hmin := h.minLe
    refine forall_mem_concat (fun y hy => ?_) ?_
    · have hy' := hmin y hy
      simp only [Dist.account]
      split_ifs <;> omega
    · simp only [Dist.account]
      split_ifs <;> omega
  minMem := by
    right
    have hlt := x.lat_lt
    simp only [Dist.account]
    split_ifs with hx
    · exact ⟨x, List.mem_append_right _ (List.mem_singleton.mpr rfl), rfl⟩
    · rcases h.minMem with ⟨-, hmin⟩ | ⟨y, hy, hmin⟩
      · exact ⟨x, List.mem_append_right _ (List.mem_singleton.mpr rfl), by omega⟩
      · exact ⟨y, List.mem_append_left _ hy, hmin⟩
  leMax := by
    have hmax := h.leMax
    refine forall_mem_concat (fun y hy => ?_) ?_
    · have hy' := hmax y hy
      simp only [Dist.account]
      split_ifs <;> omega
    · simp only [Dist.account]
      split_ifs <;> omega
  maxMem := by
    right
    simp only [Dist.account]
    split_ifs with hx
    · exact ⟨x, List.mem_append_right _ (List.mem_singleton.mpr rfl), rfl⟩
    · rcases h.maxMem with ⟨-, hmax⟩ | ⟨y, hy, hmax⟩
      · exact ⟨x, List.mem_append_right _ (List.mem_singleton.mpr rfl), by omega⟩
      · exact ⟨y, List.mem_append_left _ hy, hmax⟩
  than := by
    rw [List.filter_append, List.length_append]
    simp only [Dist.account, h.than]
    simp only [List.filter_cons, List.filter_nil, decide_eq_true_eq]
    split_ifs with hx
    · rw [Nat.mod_add_mod]
      rfl
    · rfl

/-- The node of a key has the statistics of the inputs of that key. -/
theorem summarizes_entry (h : entryOf (fun x => Dist.statNodeNew x.inst x.key) Dist.account xs =
    some n) : Summarizes n xs := by
  induction xs using List.reverseRecOn generalizing n with
  | nil => cases h
  | append_singleton xs x ih =>
    rw [entryOf_concat] at h
    cases h
    cases hxs : entryOf (fun x => Dist.statNodeNew x.inst x.key) Dist.account xs with
    | none =>
      have hnil : xs = [] := by
        cases xs with
        | nil => rfl
        | cons y ys => cases hxs
      subst hnil
      exact (summarizes_new x.inst x.key).account x
    | some m => exact (ih hxs).account x

/-- The list that the inputs leave. -/
def gathered (d : Dist) (xs : List Input) : List LatencyNode :=
  gather d.nodeKey (fun x => Dist.statNodeNew x.inst x.key) Dist.account xs

theorem gathered_spec (d : Dist) (xs : List Input) :
    Sorted d.nodeKey (gathered d xs) ∧
      ∀ k, entryAt d.nodeKey k (gathered d xs) = entryOf (fun x => Dist.statNodeNew x.inst x.key)
        Dist.account (xs.filter fun x => d.inputKey x = k) :=
  @gather_spec _ _ _ _ d.nodeKey (fun x : Input => Dist.statNodeNew x.inst x.key) Dist.account
    (fun _ _ => rfl) xs

/-- What no input changes. -/
structure Fed (d₀ d : Dist) (xs : List Input) : Prop where
  perins : d.perins = d₀.perins
  perkey : d.perkey = d₀.perkey
  frees : d.lat.frees = d₀.lat.frees
  freed : d.lat.freed = d₀.lat.freed
  nodes : d.lat.entries.toList = gathered d₀ xs

theorem fed_inputs (bal : Rebalance LatencyNode) (perins perkey : Bool) (xs : List Input) :
    Fed (Dist.new perins perkey) ((Dist.new perins perkey).inputs bal xs) xs := by
  generalize hd : Dist.new perins perkey = d₀
  induction xs using List.reverseRecOn with
  | nil =>
    refine ⟨rfl, rfl, rfl, rfl, ?_⟩
    rw [← hd]
    rfl
  | append_singleton xs x ih =>
    have hstep : d₀.inputs bal (xs ++ [x]) = (d₀.inputs bal xs).input bal x := by
      rw [Dist.inputs, List.foldl_concat]
      rfl
    have hframe := RbList.findnew_frees bal ((d₀.inputs bal xs).statNodeCmp x.inst x.key)
      (Dist.statNodeNew x.inst x.key) (Dist.account x) (d₀.inputs bal xs).lat
    rw [hstep]
    refine ⟨ih.perins, ih.perkey, hframe.1.trans ih.frees, hframe.2.trans ih.freed, ?_⟩
    have hkey : (d₀.inputs bal xs).nodeKey = d₀.nodeKey := by
      funext n
      rw [Dist.nodeKey, Dist.nodeKey, Dist.pair, Dist.pair, ih.perins, ih.perkey]
    have hsorted : Sorted (d₀.inputs bal xs).nodeKey (d₀.inputs bal xs).lat.entries.toList := by
      rw [hkey, ih.nodes]
      exact (gathered_spec d₀ xs).1
    have hagrees : Agrees (d₀.inputs bal xs).nodeKey
        ((d₀.inputs bal xs).statNodeCmp x.inst x.key)
        ((d₀.inputs bal xs).nodeKey (Dist.statNodeNew x.inst x.key))
        (d₀.inputs bal xs).lat.entries.toList := fun b _ => orders_statNodeCmp _ _ _ b
    refine (RbList.findnew_toList bal hsorted hagrees).trans ?_
    rw [hkey, ih.nodes, gathered, gathered, gather, gather, List.foldl_concat]

end Inputs

section Print
variable {d : Dist}

/-- Every node is printed once, freed, and the distribution is empty and frees its nodes. -/
structure Printed (d d' : Dist) (out freed : List LatencyNode) : Prop where
  once : out.Perm d.lat.entries.toList
  freed : freed = out
  empty : d'.lat.entries.toList = []
  frees : d'.lat.frees = true
  perins : d'.perins = d.perins
  perkey : d'.perkey = d.perkey

theorem print_printed (bal : Rebalance LatencyNode) (hfrees : d.lat.frees = true)
    (hfreed : d.lat.freed = []) :
    Printed d (d.print bal).1 (d.print bal).2 (d.print bal).1.lat.freed ∧
      (d.print bal).2 = d.lat.entries.toList := by
  unfold Dist.print
  split
  · rename_i hempty
    have hnil : d.lat.entries.toList = [] := List.isEmpty_iff.mp hempty
    exact ⟨⟨by rw [hnil], hfreed, hnil, hfrees, rfl, rfl⟩, hnil.symm⟩
  · obtain ⟨hout, hnil, hfr, hfd⟩ :=
      RbList.drainAll_eq bal (fun out (n : LatencyNode) => out ++ [n]) d.lat []
    rw [Rblist.foldl_concat_eq, List.nil_append] at hout
    rw [hfrees, hfreed, if_pos rfl, List.nil_append] at hfd
    exact ⟨⟨by rw [hout], hfd.trans hout.symm, hnil, hfr.trans hfrees, rfl, rfl⟩, hout⟩

/-- The second rblist gets every node. -/
theorem moveSorted_toList (bal : Rebalance LatencyNode) (d : Dist) (l : List LatencyNode) :
    (l.foldl (d.moveSorted bal) (.init LatencyNode)).entries.toList =
        gather d.sortKey id (fun _ => id) l ∧
      (l.foldl (d.moveSorted bal) (.init LatencyNode)).frees = true ∧
      (l.foldl (d.moveSorted bal) (.init LatencyNode)).freed = [] := by
  exact ⟨RbList.addNode_foldl bal d.sortedNodeCmp (orders_sortedNodeCmp d) l,
    RbList.addNode_foldl_frees bal d.sortedNodeCmp l (.init LatencyNode)⟩

theorem printSorted_printed (bal : Rebalance LatencyNode) (hfrees : d.lat.frees = true)
    (hsorted : Sorted d.nodeKey d.lat.entries.toList) :
    Printed d (d.printSorted bal).1 (d.printSorted bal).2.1 (d.printSorted bal).2.2 ∧
      Sorted d.sortKey (d.printSorted bal).2.1 := by
  unfold Dist.printSorted
  split
  · rename_i hempty
    have hnil : d.lat.entries.toList = [] := List.isEmpty_iff.mp hempty
    exact ⟨⟨by rw [hnil], rfl, hnil, hfrees, rfl, rfl⟩, List.Pairwise.nil⟩
  · -- no two nodes are equal for the second order, so none is dropped
    have hnodup : (d.lat.entries.toList.map d.sortKey).Nodup := by
      refine List.Pairwise.map _ (fun a b hlt heq => ?_) hsorted
      exact ne_of_lt hlt (nodeKey_eq_of_sortKey d heq)
    obtain ⟨hmoved, hnil, -, -⟩ := RbList.drainAll_eq bal (d.moveSorted bal)
      { d.lat with frees := false } (.init LatencyNode)
    obtain ⟨hlist, hfr, hfd⟩ := moveSorted_toList bal d d.lat.entries.toList
    dsimp only at hmoved hnil ⊢
    rw [← hmoved] at hlist hfr hfd
    generalize (RbList.drainAll bal (d.moveSorted bal) { d.lat with frees := false }
      (.init LatencyNode)) = moved at hlist hfr hfd hnil ⊢
    obtain ⟨lat, sorted⟩ := moved
    obtain ⟨hout, -, -, hfreed⟩ :=
      RbList.drainAll_eq bal (fun out (n : LatencyNode) => out ++ [n]) sorted []
    rw [Rblist.foldl_concat_eq, List.nil_append] at hout
    rw [hfr, hfd, if_pos rfl, List.nil_append] at hfreed
    refine ⟨⟨?_, hfreed.trans hout.symm, hnil, rfl, rfl, rfl⟩, ?_⟩
    · rw [hout, hlist]
      exact gather_perm hnodup
    · rw [hout, hlist]
      exact (gather_spec (fun _ _ => rfl) _).1

/-- The statistics of all inputs, by instance and key as the flags say, and what the two ways to
print them do. -/
theorem latency_statistics (bal : Rebalance LatencyNode) (perins perkey : Bool) (xs : List Input) :
    let d := (Dist.new perins perkey).inputs bal xs
    (Sorted d.nodeKey d.lat.entries.toList ∧
      (∀ x ∈ xs, ∃ n ∈ d.lat.entries.toList, d.nodeKey n = d.inputKey x) ∧
      ∀ n ∈ d.lat.entries.toList, (∃ x ∈ xs, d.inputKey x = d.nodeKey n) ∧
        Summarizes n (xs.filter fun x => d.inputKey x = d.nodeKey n)) ∧
    (Printed d (d.print bal).1 (d.print bal).2 (d.print bal).1.lat.freed ∧
      (d.print bal).2 = d.lat.entries.toList) ∧
    Printed d (d.printSorted bal).1 (d.printSorted bal).2.1 (d.printSorted bal).2.2 ∧
      Sorted d.sortKey (d.printSorted bal).2.1 := by
  intro d
  have hfed := fed_inputs bal perins perkey xs
  have hpair : ∀ inst key, d.pair inst key = (Dist.new perins perkey).pair inst key := by
    intro inst key
    rw [Dist.pair, Dist.pair, hfed.perins, hfed.perkey]
  have hnodeKey : d.nodeKey = (Dist.new perins perkey).nodeKey := funext fun n => hpair _ _
  have hinputKey : d.inputKey = (Dist.new perins perkey).inputKey := funext fun x => hpair _ _
  obtain ⟨hsorted, hentry⟩ := gathered_spec (Dist.new perins perkey) xs
  rw [← hfed.nodes, ← hnodeKey] at hsorted hentry
  rw [← hinputKey] at hentry
  refine ⟨⟨hsorted, fun x hx => ?_, fun n hn => ?_⟩, print_printed bal hfed.frees hfed.freed,
    printSorted_printed bal hfed.frees hsorted⟩
  · have hmem : x ∈ xs.filter fun y => d.inputKey y = d.inputKey x := by
      simpa using hx
    have hat := hentry (d.inputKey x)
    cases hlist : xs.filter fun y => d.inputKey y = d.inputKey x with
    | nil =>
      rw [hlist] at hmem
      cases hmem
    | cons y ys =>
      rw [hlist] at hat
      obtain ⟨hn, hkey⟩ := hsorted.entryAt_eq.mp hat
      exact ⟨_, hn, hkey⟩
  · have hat := (hentry (d.nodeKey n)).symm.trans (hsorted.entryAt_eq.mpr ⟨hn, rfl⟩)
    refine ⟨?_, summarizes_entry hat⟩
    cases hlist : xs.filter fun y => d.inputKey y = d.nodeKey n with
    | nil =>
      rw [hlist] at hat
      cases hat
    | cons y ys =>
      have hy : y ∈ xs.filter fun y => d.inputKey y = d.nodeKey n := by
        rw [hlist]
        exact List.mem_cons_self ..
      simp only [List.mem_filter, decide_eq_true_eq] at hy
      exact ⟨y, hy.1, hy.2⟩

/-- A latency of 5 that is above 0 is not counted when `greater_than` is 0. -/
theorem zero_bound_not_counted :
    let xs := [Input.mk 0 0 5 0 (by decide)]
    (((Dist.new true true).inputs .none xs).lat.entries.toList.map LatencyNode.than) = [0] ∧
      (xs.filter fun x => x.greaterThan < x.lat).length = 1 := by
  decide

end Print

end PerfProf.LatencyDist
