import Mathlib.Algebra.BigOperators.Group.List.Basic
import Mathlib.Algebra.Order.Ring.Int
import Mathlib.Data.List.Induction
import Mathlib.Logic.Function.Basic

/-! perfeval.c: events are counted by the cpus and by the threads to be watched, and at every
interval the number for each of them is held against a limit. -/
namespace PerfProf.Perfeval

section Model

/-- `struct perfeval_node`. -/
structure PerfevalNode where
  cpuTid : UInt32
  samples : Nat
deriving DecidableEq

/-- `hash_min(key, PERFEVAL_HASHBITS)`. -/
def hashMin (key : UInt32) : Nat := ((key * 0x61C88647) >>> 26).toNat

/-- `struct performance_evaluation`; `hashmap` is the list of every bucket. -/
structure PerformanceEvaluation where
  hashmap : Option (List (List PerfevalNode)) := none
  memPos : Int := 0
  nrIns : Nat := 0
  matchedEvents : Nat := 0
  sampledEvents : Nat := 0
deriving DecidableEq

/-- `perfeval[0]` counts by cpu and `perfeval[1]` by thread. -/
structure ProfDev where
  perfeval : Fin 2 → PerformanceEvaluation
  interval : Int32
  samplingLimit : Int32
  inclose : Bool

inductive PerfEvent where
  | dev (cpu tid : UInt32)
  | sample (array : Int → UInt8)

/-- `*(u32 *)(array + pos)`. -/
def readU32 (array : Int → UInt8) (pos : Int) : UInt32 :=
  (array pos).toUInt32 ||| ((array (pos + 1)).toUInt32 <<< 8) |||
    ((array (pos + 2)).toUInt32 <<< 16) ||| ((array (pos + 3)).toUInt32 <<< 24)

/-- `cpu_tid[i]`. -/
def PerfEvent.cpuTid (event : PerfEvent) (pe : PerformanceEvaluation) (i : Fin 2) : UInt32 :=
  match event with
  | .dev cpu tid => if i = 0 then cpu else tid
  | .sample array => if pe.hashmap.isSome then readU32 array pe.memPos else 0

/-- An event in the context of `key`; the first node of the bucket with the key counts it. -/
def PerformanceEvaluation.count (pe : PerformanceEvaluation) (key : UInt32) :
    PerformanceEvaluation :=
  match pe.hashmap with
  | none => pe
  | some hash =>
    let pe := { pe with sampledEvents := pe.sampledEvents + 1 }
    let bucket := hash.getD (hashMin key) []
    match bucket.findIdx? fun node => node.cpuTid == key with
    | none => pe
    | some j => { pe with
        hashmap := some (hash.modify (hashMin key) fun bucket =>
          bucket.modify j fun node => { node with samples := node.samples + 1 })
        nrIns := if (bucket[j]?.map PerfevalNode.samples) = some 0 then pe.nrIns + 1 else pe.nrIns
        matchedEvents := pe.matchedEvents + 1 }

def perfevalSample (dev : ProfDev) (event : PerfEvent) : ProfDev :=
  { dev with perfeval := fun i =>
      (dev.perfeval i).count (event.cpuTid (dev.perfeval i) i) }

/-- `events * 1000 / interval` as a long. -/
def perSecond (events : Nat) (interval : Int32) : Int :=
  (BitVec.ofNat 64 (events * 1000 % 2 ^ 64 / (interval.toInt % 2 ^ 64).toNat)).toInt

/-- The nodes start from zero again, and so do the counters. -/
def PerformanceEvaluation.reset (pe : PerformanceEvaluation) : PerformanceEvaluation where
  hashmap := pe.hashmap.map fun hash =>
    hash.map fun bucket => bucket.map fun node => { node with samples := 0 }
  memPos := pe.memPos

def resetDim (i : Fin 2) (dev : ProfDev) : ProfDev :=
  { dev with perfeval := Function.update dev.perfeval i (dev.perfeval i).reset }

/-- `prof_dev_close`, which goes to work once; `flushed` are the events that are still to be
processed when it does. -/
def profDevClose (flushed : List PerfEvent) (dev : ProfDev) : ProfDev :=
  if dev.inclose then dev else flushed.foldl perfevalSample { dev with inclose := true }

/-- The limit is exceeded. -/
def exceeds (dev : ProfDev) (i : Fin 2) : Bool :=
  dev.samplingLimit != 0 && decide (dev.samplingLimit.toInt <
    (perSecond (dev.perfeval i).matchedEvents dev.interval).tdiv (dev.perfeval i).nrIns)

/-- One turn of `perfeval_evaluate`; none for a division by zero. -/
def evaluateDim (flushed : List PerfEvent) (i : Fin 2) (dev : ProfDev) : Option ProfDev :=
  if (dev.perfeval i).hashmap = none ∨ (dev.perfeval i).sampledEvents = 0 then some dev
  else if dev.interval = 0 then none
  else if dev.samplingLimit ≠ 0 ∧ (dev.perfeval i).nrIns = 0 then none
  else
    some (resetDim i (if exceeds dev i then profDevClose flushed dev else dev))

def perfevalEvaluate (flushed : List PerfEvent) (dev : ProfDev) : Option ProfDev :=
  (evaluateDim flushed 0 dev).bind (evaluateDim flushed 1)

/-- `perfeval_node_add`. -/
def perfevalNodeAdd (hash : List (List PerfevalNode)) (key : UInt32) : List (List PerfevalNode) :=
  hash.modify (hashMin key) fun bucket => ⟨key, 0⟩ :: bucket

/-- The table for a list of cpus or of threads, if there is one. -/
def perfevalInitDim (keys : Option (List UInt32)) (memPos : Int) : PerformanceEvaluation :=
  match keys with
  | none => {}
  | some keys => { hashmap := some (keys.foldl perfevalNodeAdd (List.replicate 64 [])), memPos := memPos }

/-- `perfeval_init`; `sources` are the positions in the forwarding source devices. -/
def perfevalInit (interval samplingLimit : Int32) (cpus pids : Option (List UInt32))
    (cpuPos tidPos : Int) (sources : List (Int × Int)) : Option ProfDev :=
  if interval = 0 then some ⟨fun _ => {}, interval, samplingLimit, false⟩
  else if cpus.isSome ∧ (cpuPos < 0 ∨ ∃ source ∈ sources, source.1 < 0 ∨ cpuPos ≠ 24) then none
  else if pids.isSome ∧ (tidPos < 0 ∨ ∃ source ∈ sources, source.2 < 0 ∨ tidPos ≠ 4) then none
  else some ⟨fun i => if i = 0 then perfevalInitDim cpus cpuPos else perfevalInitDim pids (tidPos + 4),
    interval, samplingLimit, false⟩

inductive Call where
  | sample (event : PerfEvent)
  | evaluate (flushed : List PerfEvent)

def step (dev : ProfDev) : Call → Option ProfDev
  | .sample event => some (perfevalSample dev event)
  | .evaluate flushed => perfevalEvaluate flushed dev

def run : List Call → ProfDev → Option ProfDev
  | [], dev => some dev
  | c :: calls, dev => (step dev c).bind (run calls)

end Model

section Spec

def PerformanceEvaluation.nodes (pe : PerformanceEvaluation) : List PerfevalNode :=
  (pe.hashmap.getD []).flatten

/-- The counters say what the nodes hold. -/
structure Books (pe : PerformanceEvaluation) : Prop where
  nrIns : pe.nrIns = pe.nodes.countP fun node => 0 < node.samples
  matched : pe.matchedEvents = (pe.nodes.map PerfevalNode.samples).sum
  sampled : pe.matchedEvents ≤ pe.sampledEvents

/-- The counters and the nodes are zero. -/
structure Cleared (pe : PerformanceEvaluation) : Prop where
  nrIns : pe.nrIns = 0
  matched : pe.matchedEvents = 0
  sampled : pe.sampledEvents = 0
  nodes : ∀ node ∈ pe.nodes, node.samples = 0

/-- No call divides by zero, the books balance after each, and an evaluation clears every dimension
that had samples. -/
structure Sound (calls : List Call) (dev : ProfDev) : Prop where
  books : ∀ pre, pre <+: calls → ∃ dev', run pre dev = some dev' ∧ ∀ i, Books (dev'.perfeval i)
  cleared : ∀ pre flushed, pre ++ [.evaluate flushed] <+: calls → ∀ dev' dev'',
    run pre dev = some dev' → perfevalEvaluate flushed dev' = some dev'' →
      ∀ i, (dev'.perfeval i).hashmap ≠ none → (dev'.perfeval i).sampledEvents ≠ 0 →
        Cleared (dev''.perfeval i)

/-- Where there is a limit and events have been sampled, one of them was in a context watched. -/
def Matched (dev : ProfDev) (i : Fin 2) : Prop :=
  dev.samplingLimit ≠ 0 → (dev.perfeval i).hashmap ≠ none → (dev.perfeval i).sampledEvents ≠ 0 →
    (dev.perfeval i).matchedEvents ≠ 0

/-- The close for the sake of the threads leaves nothing to process where cpus are watched. -/
def Quiet (dev dev₁ : ProfDev) (flushed : List PerfEvent) : Prop :=
  (dev.perfeval 0).hashmap ≠ none → (dev.perfeval 0).sampledEvents ≠ 0 →
    (dev₁.perfeval 1).hashmap ≠ none → (dev₁.perfeval 1).sampledEvents ≠ 0 → exceeds dev₁ 1 = true →
      dev₁.inclose = false → flushed = []

/-- What an evaluation needs. -/
structure Ready (flushed : List PerfEvent) (dev : ProfDev) : Prop where
  cpus : Matched dev 0
  pids : ∀ dev₁, evaluateDim flushed 0 dev = some dev₁ → Matched dev₁ 1
  quiet : ∀ dev₁, evaluateDim flushed 0 dev = some dev₁ → Quiet dev dev₁ flushed

end Spec

section Nodes
variable {pe : PerformanceEvaluation} {dev dev' : ProfDev} {hash : List (List PerfevalNode)}
  {key : UInt32} {i : Fin 2} {flushed events : List PerfEvent}

/-- What a sample does to a table: nothing but to count, or one node more of its samples. -/
theorem count_cases (key : UInt32) (h : pe.hashmap = some hash) :
    (pe.count key).hashmap = some hash ∧ (pe.count key).nrIns = pe.nrIns ∧
        (pe.count key).matchedEvents = pe.matchedEvents ∧
        (pe.count key).sampledEvents = pe.sampledEvents + 1 ∨
      ∃ xs node ys hash', hash.flatten = xs ++ node :: ys ∧
        hash'.flatten = xs ++ { node with samples := node.samples + 1 } :: ys ∧
        (pe.count key).hashmap = some hash' ∧
        (pe.count key).nrIns = (if node.samples = 0 then pe.nrIns + 1 else pe.nrIns) ∧
        (pe.count key).matchedEvents = pe.matchedEvents + 1 ∧
        (pe.count key).sampledEvents = pe.sampledEvents + 1 := by
  rw [PerformanceEvaluation.count, h]
  dsimp only
  cases hfind : (hash.getD (hashMin key) []).findIdx? fun node => node.cpuTid == key with
  | none => exact .inl ⟨rfl, rfl, rfl, rfl⟩
  | some j =>
    dsimp only
    have hj := (List.findIdx?_eq_some_iff_getElem.mp hfind).1
    have hb : hashMin key < hash.length := by
      by_contra hle
      rw [List.getD_eq_getElem?_getD, List.getElem?_eq_none (Nat.le_of_not_lt hle)] at hj
      exact absurd hj (Nat.not_lt_zero _)
    obtain ⟨l₁, bucket, l₂, hl, hlen, hmod⟩ := List.exists_of_modify
      (fun bucket => bucket.modify j fun node : PerfevalNode =>
        { node with samples := node.samples + 1 }) hb
    have hbucket : hash.getD (hashMin key) [] = bucket := by
      rw [hl, List.getD_eq_getElem?_getD, List.getElem?_append_right (by omega), ← hlen,
        Nat.sub_self]
      rfl
    rw [hbucket] at hj ⊢
    obtain ⟨b₁, node, b₂, hb', hblen, hbmod⟩ := List.exists_of_modify
      (fun node : PerfevalNode => { node with samples := node.samples + 1 }) hj
    refine .inr ⟨l₁.flatten ++ b₁, node, b₂ ++ l₂.flatten, _, ?_, ?_, rfl, ?_, rfl, rfl⟩
    · rw [hl, hb']
      simp
    · rw [hmod, hbmod]
      simp
    · have hnode : bucket[j]? = some node := by
        rw [hb', List.getElem?_append_right (by omega), ← hblen, Nat.sub_self]
        rfl
      rw [hnode]
      simp

theorem count_none (h : pe.hashmap = none) : pe.count key = pe := by
  rw [PerformanceEvaluation.count, h]

theorem count_hashmap : (pe.count key).hashmap = none ↔ pe.hashmap = none := by
  cases h : pe.hashmap with
  | none => rw [count_none h, h]
  | some hash =>
    rcases count_cases key h with hc | ⟨_, _, _, _, _, _, hc, _⟩
    · simp [hc.1]
    · simp [hc]

theorem count_sampled (h : pe.hashmap ≠ none) :
    (pe.count key).sampledEvents = pe.sampledEvents + 1 := by
  obtain ⟨hash, hhash⟩ := Option.ne_none_iff_exists'.mp h
  rcases count_cases key hhash with ⟨_, _, _, hs⟩ | ⟨_, _, _, _, _, _, _, _, _, hs⟩
  · exact hs
  · exact hs

theorem Books.count (h : Books pe) : Books (pe.count key) := by
  cases hhash : pe.hashmap with
  | none => rwa [count_none hhash]
  | some hash =>
    obtain ⟨hn, hm, hs⟩ := h
    rw [PerformanceEvaluation.nodes, hhash, Option.getD_some] at hn hm
    rcases count_cases key hhash with ⟨h₁, h₂, h₃, h₄⟩ |
      ⟨xs, node, ys, hash', hold, hnew, h₁, h₂, h₃, h₄⟩
    · refine ⟨?_, ?_, by omega⟩
      · rw [PerformanceEvaluation.nodes, h₁, h₂, hn, Option.getD_some]
      · rw [PerformanceEvaluation.nodes, h₁, h₃, hm, Option.getD_some]
    · refine ⟨?_, ?_, by omega⟩
      · rw [PerformanceEvaluation.nodes, h₁, Option.getD_some, hnew, h₂, hn, hold]
        simp only [List.countP_append, List.countP_cons]
        by_cases hz : node.samples = 0
        · simp [hz]
          omega
        · simp [hz, Nat.pos_of_ne_zero hz]
      · rw [PerformanceEvaluation.nodes, h₁, Option.getD_some, hnew, h₃, hm, hold]
        simp only [List.map_append, List.map_cons, List.sum_append, List.sum_cons]
        omega

theorem nodes_reset : pe.reset.nodes = pe.nodes.map fun node => { node with samples := 0 } := by
  rw [PerformanceEvaluation.nodes, PerformanceEvaluation.nodes, PerformanceEvaluation.reset]
  cases pe.hashmap with
  | none => rfl
  | some hash => simp [List.map_flatten]

theorem cleared_reset : Cleared pe.reset := by
  refine ⟨rfl, rfl, rfl, fun node hnode => ?_⟩
  rw [nodes_reset, List.mem_map] at hnode
  obtain ⟨_, _, rfl⟩ := hnode
  rfl

theorem Cleared.books (h : Cleared pe) : Books pe := by
  refine ⟨?_, ?_, ?_⟩
  · rw [h.nrIns, eq_comm, List.countP_eq_zero]
    intro node hnode
    simp [h.nodes node hnode]
  · rw [h.matched, eq_comm, List.sum_eq_zero]
    intro n hn
    obtain ⟨node, hnode, rfl⟩ := List.mem_map.mp hn
    exact h.nodes node hnode
  · rw [h.matched]
    exact Nat.zero_le _

/-- Where nothing has matched there is no instance to divide by. -/
theorem Books.matched_zero (h : Books pe) : pe.matchedEvents = 0 ↔ pe.nrIns = 0 := by
  rw [h.nrIns, h.matched, List.countP_eq_zero, List.sum_eq_zero_iff_forall_eq_nat]
  simp

end Nodes

section Steps
variable {dev dev' dev₁ dev₂ : ProfDev} {i j : Fin 2} {flushed events : List PerfEvent}

/-- Between two calls. -/
structure Inv (dev : ProfDev) : Prop where
  books : ∀ i, Books (dev.perfeval i)
  interval : ∀ i, (dev.perfeval i).hashmap ≠ none → dev.interval ≠ 0

theorem Inv.sample (h : Inv dev) (event : PerfEvent) : Inv (perfevalSample dev event) :=
  ⟨fun i => (h.books i).count, fun i hi => h.interval i fun hn => hi (count_hashmap.mpr hn)⟩

theorem Inv.samples (h : Inv dev) (events : List PerfEvent) :
    Inv (events.foldl perfevalSample dev) := by
  induction events generalizing dev with
  | nil => exact h
  | cons event events ih => exact ih (h.sample event)

theorem Inv.close (h : Inv dev) (flushed : List PerfEvent) : Inv (profDevClose flushed dev) := by
  rw [profDevClose]
  split_ifs
  · exact h
  · exact (⟨h.books, h.interval⟩ : Inv { dev with inclose := true }).samples flushed

@[simp]
theorem resetDim_self : (resetDim i dev).perfeval i = (dev.perfeval i).reset :=
  Function.update_self ..

theorem resetDim_of_ne (h : j ≠ i) : (resetDim i dev).perfeval j = dev.perfeval j :=
  Function.update_of_ne h ..

theorem Inv.reset (h : Inv dev) (i : Fin 2) : Inv (resetDim i dev) := by
  constructor
  · intro j
    by_cases hj : j = i
    · rw [hj, resetDim_self]
      exact cleared_reset.books
    · rw [resetDim_of_ne hj]
      exact h.books j
  · intro j hj
    by_cases hji : j = i
    · rw [hji, resetDim_self] at hj
      refine h.interval i fun hn => hj ?_
      rw [PerformanceEvaluation.reset, hn]
      rfl
    · rw [resetDim_of_ne hji] at hj
      exact h.interval j hj

theorem samples_hashmap (i : Fin 2) :
    ((events.foldl perfevalSample dev).perfeval i).hashmap = none ↔
      (dev.perfeval i).hashmap = none := by
  induction events generalizing dev with
  | nil => exact Iff.rfl
  | cons event events ih => exact ih.trans count_hashmap

theorem samples_sampled (h : (dev.perfeval i).hashmap ≠ none) :
    ((events.foldl perfevalSample dev).perfeval i).sampledEvents =
      (dev.perfeval i).sampledEvents + events.length := by
  induction events generalizing dev with
  | nil => rfl
  | cons event events ih =>
    have hnext : ((perfevalSample dev event).perfeval i).hashmap ≠ none := fun hn =>
      h (count_hashmap.mp hn)
    rw [List.foldl_cons, ih hnext, List.length_cons, perfevalSample, count_sampled h]
    omega

/-- What one turn of the evaluation does where it does not divide by zero. -/
theorem evaluateDim_cases (h : evaluateDim flushed i dev = some dev') :
    ((dev.perfeval i).hashmap = none ∨ (dev.perfeval i).sampledEvents = 0) ∧ dev' = dev ∨
    ((dev.perfeval i).hashmap ≠ none ∧ (dev.perfeval i).sampledEvents ≠ 0) ∧
      dev' = resetDim i (if exceeds dev i then profDevClose flushed dev else dev) := by
  rw [evaluateDim] at h
  by_cases hidle : (dev.perfeval i).hashmap = none ∨ (dev.perfeval i).sampledEvents = 0
  · rw [if_pos hidle] at h
    exact .inl ⟨hidle, (Option.some.inj h).symm⟩
  · rw [if_neg hidle] at h
    by_cases hint : dev.interval = 0
    · rw [if_pos hint] at h
      cases h
    · rw [if_neg hint] at h
      by_cases hdiv : dev.samplingLimit ≠ 0 ∧ (dev.perfeval i).nrIns = 0
      · rw [if_pos hdiv] at h
        cases h
      · rw [if_neg hdiv] at h
        exact .inr ⟨not_or.mp hidle, (Option.some.inj h).symm⟩

/-- The only division by zero is that by the number of instances. -/
theorem evaluateDim_isSome (h : Inv dev) : (∃ dev', evaluateDim flushed i dev = some dev') ↔
    Matched dev i := by
  rw [evaluateDim]
  by_cases hidle : (dev.perfeval i).hashmap = none ∨ (dev.perfeval i).sampledEvents = 0
  · rw [if_pos hidle]
    refine iff_of_true ⟨dev, rfl⟩ fun _ hn hs => ?_
    exact absurd hidle (not_or.mpr ⟨hn, hs⟩)
  · obtain ⟨hn, hs⟩ := not_or.mp hidle
    rw [if_neg hidle, if_neg (h.interval i hn)]
    by_cases hdiv : dev.samplingLimit ≠ 0 ∧ (dev.perfeval i).nrIns = 0
    · rw [if_pos hdiv]
      exact iff_of_false nofun fun hm => hm hdiv.1 hn hs ((h.books i).matched_zero.mpr hdiv.2)
    · rw [if_neg hdiv]
      exact iff_of_true ⟨_, rfl⟩ fun hl _ _ hz => hdiv ⟨hl, (h.books i).matched_zero.mp hz⟩

theorem Inv.evaluateDim (h : Inv dev) (hd : evaluateDim flushed i dev = some dev') : Inv dev' := by
  rcases evaluateDim_cases hd with ⟨_, rfl⟩ | ⟨_, rfl⟩
  · exact h
  · refine Inv.reset ?_ i
    split_ifs
    · exact h.close flushed
    · exact h

theorem closed_perfeval (i : Fin 2) (flushed : List PerfEvent)
    (hj : (dev.perfeval j).hashmap ≠ none) :
    ((if exceeds dev i then profDevClose flushed dev else dev).perfeval j).hashmap ≠ none ∧
      ((if exceeds dev i then profDevClose flushed dev else dev).perfeval j).sampledEvents =
        (dev.perfeval j).sampledEvents +
          (if exceeds dev i = true ∧ dev.inclose = false then flushed.length else 0) := by
  by_cases he : exceeds dev i = true
  · rw [if_pos he, profDevClose]
    cases hc : dev.inclose with
    | true => simp [hj]
    | false =>
      rw [if_neg (by simp), if_pos ⟨he, rfl⟩]
      exact ⟨fun hn => hj ((@samples_hashmap { dev with inclose := true } flushed j).mp hn),
        @samples_sampled { dev with inclose := true } j flushed hj⟩
  · rw [if_neg he, if_neg fun h => he h.1]
    exact ⟨hj, rfl⟩

/-- A turn for one dimension adds to the other what is flushed, and takes nothing away. -/
theorem evaluateDim_other (hd : evaluateDim flushed i dev = some dev') (hji : j ≠ i)
    (hj : (dev.perfeval j).hashmap ≠ none) : (dev'.perfeval j).hashmap ≠ none ∧
      (dev'.perfeval j).sampledEvents = (dev.perfeval j).sampledEvents +
        (if (dev.perfeval i).hashmap ≠ none ∧ (dev.perfeval i).sampledEvents ≠ 0 ∧
          exceeds dev i = true ∧ dev.inclose = false then flushed.length else 0) := by
  rcases evaluateDim_cases hd with ⟨hidle, rfl⟩ | ⟨hbusy, rfl⟩
  · refine ⟨hj, ?_⟩
    rw [if_neg fun h => absurd hidle (not_or.mpr ⟨h.1, h.2.1⟩)]
    rfl
  · rw [resetDim_of_ne hji]
    have hclosed := closed_perfeval i flushed hj
    refine ⟨hclosed.1, hclosed.2.trans ?_⟩
    simp only [hbusy.1, hbusy.2, ne_eq, not_false_eq_true, true_and]

theorem evaluateDim_cleared (hd : evaluateDim flushed i dev = some dev')
    (hn : (dev.perfeval i).hashmap ≠ none) (hs : (dev.perfeval i).sampledEvents ≠ 0) :
    Cleared (dev'.perfeval i) := by
  rcases evaluateDim_cases hd with ⟨hidle, _⟩ | ⟨_, rfl⟩
  · exact absurd hidle (not_or.mpr ⟨hn, hs⟩)
  · rw [resetDim_self]
    exact cleared_reset

theorem evaluateDim_kept (hd : evaluateDim flushed i dev = some dev')
    (hn : (dev.perfeval i).hashmap ≠ none) : (dev'.perfeval i).hashmap ≠ none := by
  rcases evaluateDim_cases hd with ⟨_, rfl⟩ | ⟨_, rfl⟩
  · exact hn
  · rw [resetDim_self, PerformanceEvaluation.reset, ne_eq, Option.map_eq_none_iff]
    exact (closed_perfeval _ _ hn).1

end Steps

section Runs
variable {dev dev' dev₁ : ProfDev} {i : Fin 2} {flushed : List PerfEvent} {calls pre : List Call}
  {c : Call}

theorem run_concat : run (pre ++ [c]) dev = (run pre dev).bind fun dev' => step dev' c := by
  induction pre generalizing dev with
  | nil => simp [run]
  | cons c' pre ih =>
    rw [List.cons_append, run, run, Option.bind_assoc]
    congr 1
    funext dev'
    exact ih

theorem Inv.step (h : Inv dev) (hs : step dev c = some dev') : Inv dev' := by
  cases c with
  | sample event =>
    cases hs
    exact h.sample event
  | evaluate flushed =>
    obtain ⟨dev₁, h₁, h₂⟩ := Option.bind_eq_some_iff.mp hs
    exact (h.evaluateDim h₁).evaluateDim h₂

theorem Inv.run (h : Inv dev) (hr : run calls dev = some dev') : Inv dev' := by
  induction calls generalizing dev with
  | nil =>
    cases hr
    exact h
  | cons c calls ih =>
    obtain ⟨dev₁, h₁, h₂⟩ := Option.bind_eq_some_iff.mp hr
    exact ih (h.step h₁) h₂

/-- A node is added without samples. -/
theorem nodeAdd_zero {hash : List (List PerfevalNode)} {key : UInt32}
    (h : ∀ node ∈ hash.flatten, node.samples = 0) :
    ∀ node ∈ (perfevalNodeAdd hash key).flatten, node.samples = 0 := by
  intro node hnode
  by_cases hb : hashMin key < hash.length
  · obtain ⟨l₁, bucket, l₂, hl, _, hmod⟩ := List.exists_of_modify
      (fun bucket => (⟨key, 0⟩ : PerfevalNode) :: bucket) hb
    rw [perfevalNodeAdd, hmod] at hnode
    rw [hl] at h
    simp only [List.flatten_append, List.flatten_cons, List.mem_append, List.mem_cons] at hnode h
    rcases hnode with hnode | (rfl | hnode) | hnode
    · exact h node (.inl hnode)
    · rfl
    · exact h node (.inr (.inl hnode))
    · exact h node (.inr (.inr hnode))
  · rw [perfevalNodeAdd, List.modify_eq_self (Nat.le_of_not_lt hb)] at hnode
    exact h node hnode

theorem nodesAdd_zero {hash : List (List PerfevalNode)} (keys : List UInt32)
    (h : ∀ node ∈ hash.flatten, node.samples = 0) :
    ∀ node ∈ (keys.foldl perfevalNodeAdd hash).flatten, node.samples = 0 := by
  induction keys generalizing hash with
  | nil => exact h
  | cons key keys ih => exact ih (nodeAdd_zero h)

theorem cleared_initDim (keys : Option (List UInt32)) (memPos : Int) :
    Cleared (perfevalInitDim keys memPos) := by
  cases keys with
  | none => exact ⟨rfl, rfl, rfl, nofun⟩
  | some keys => exact ⟨rfl, rfl, rfl, nodesAdd_zero keys (by simp)⟩

theorem inv_init {interval samplingLimit : Int32} {cpus pids : Option (List UInt32)}
    {cpuPos tidPos : Int} {sources : List (Int × Int)}
    (h : perfevalInit interval samplingLimit cpus pids cpuPos tidPos sources = some dev) :
    Inv dev := by
  rw [perfevalInit] at h
  split_ifs at h with hint
  · cases h
    exact ⟨fun _ => (cleared_initDim none 0).books, fun _ hi => absurd rfl hi⟩
  · cases h
    refine ⟨fun i => ?_, fun _ _ => hint⟩
    dsimp only
    split_ifs
    · exact (cleared_initDim cpus cpuPos).books
    · exact (cleared_initDim pids (tidPos + 4)).books

theorem evaluate_isSome (h : Inv dev) (hr : Ready flushed dev) :
    ∃ dev', perfevalEvaluate flushed dev = some dev' := by
  obtain ⟨dev₁, h₁⟩ := (evaluateDim_isSome h).mpr hr.cpus
  obtain ⟨dev₂, h₂⟩ := (evaluateDim_isSome (h.evaluateDim h₁)).mpr (hr.pids dev₁ h₁)
  exact ⟨dev₂, by rw [perfevalEvaluate, h₁, Option.bind_some, h₂]⟩

/-- What the second dimension leaves of the first, which has just been cleared. -/
theorem cleared_first (h₁ : Cleared (dev₁.perfeval 0)) (hn : (dev₁.perfeval 0).hashmap ≠ none)
    (h₂ : evaluateDim flushed 1 dev₁ = some dev') :
    Cleared (dev'.perfeval 0) ↔ ((dev₁.perfeval 1).hashmap ≠ none →
      (dev₁.perfeval 1).sampledEvents ≠ 0 → exceeds dev₁ 1 = true → dev₁.inclose = false →
        flushed = []) := by
  constructor
  · intro hc hn₁ hs₁ he hi
    have hsum := (evaluateDim_other h₂ (j := 0) (by decide) hn).2
    rw [hc.sampled, h₁.sampled, if_pos ⟨hn₁, hs₁, he, hi⟩, Nat.zero_add] at hsum
    exact List.eq_nil_of_length_eq_zero hsum.symm
  · intro hq
    rcases evaluateDim_cases h₂ with ⟨_, rfl⟩ | ⟨⟨hn₁, hs₁⟩, rfl⟩
    · exact h₁
    · rw [resetDim_of_ne (by decide)]
      by_cases he : exceeds dev₁ 1 = true
      · rw [if_pos he, profDevClose]
        cases hi : dev₁.inclose with
        | true => exact h₁
        | false =>
          rw [hq hn₁ hs₁ he hi]
          exact h₁
      · rw [if_neg he]
        exact h₁

theorem evaluate_cleared (hr : Ready flushed dev) (h : perfevalEvaluate flushed dev = some dev')
    (hn : (dev.perfeval i).hashmap ≠ none) (hs : (dev.perfeval i).sampledEvents ≠ 0) :
    Cleared (dev'.perfeval i) := by
  obtain ⟨dev₁, h₁, h₂⟩ := Option.bind_eq_some_iff.mp h
  match i with
  | 0 =>
    exact (cleared_first (evaluateDim_cleared h₁ hn hs) (evaluateDim_kept h₁ hn) h₂).mpr (hr.quiet dev₁ h₁ hn hs)
  | 1 =>
    have hother := evaluateDim_other h₁ (j := 1) (by decide) hn
    exact evaluateDim_cleared h₂ hother.1 (by omega)

/-- The counters are right and no evaluation fails if and only if every evaluation with a limit has
a match wherever there are samples, and nothing is sampled between the two dimensions of it. -/
theorem sound_iff {interval samplingLimit : Int32} {cpus pids : Option (List UInt32)}
    {cpuPos tidPos : Int} {sources : List (Int × Int)} (calls : List Call)
    (hinit : perfevalInit interval samplingLimit cpus pids cpuPos tidPos sources = some dev) :
    Sound calls dev ↔ ∀ pre flushed, pre ++ [.evaluate flushed] <+: calls →
      ∀ dev', run pre dev = some dev' → Ready flushed dev' := by
  have hinv := inv_init hinit
  constructor
  · intro h pre flushed hpre dev' hrun
    have hinv' := hinv.run hrun
    obtain ⟨dev₂, hrun₂, _⟩ := h.books _ hpre
    rw [run_concat, hrun, Option.bind_some] at hrun₂
    obtain ⟨dev₁, h₁, h₂⟩ := Option.bind_eq_some_iff.mp hrun₂
    refine ⟨(evaluateDim_isSome hinv').mp ⟨dev₁, h₁⟩, fun d hd => ?_, fun d hd hn hs => ?_⟩
    · rw [h₁] at hd
      cases hd
      exact (evaluateDim_isSome (hinv'.evaluateDim h₁)).mp ⟨dev₂, h₂⟩
    · rw [h₁] at hd
      cases hd
      exact (cleared_first (evaluateDim_cleared h₁ hn hs) (evaluateDim_kept h₁ hn) h₂).mp
        (h.cleared pre flushed hpre dev' dev₂ hrun hrun₂ 0 hn hs)
  · intro h
    constructor
    · intro pre
      induction pre using List.reverseRecOn with
      | nil => exact fun _ => ⟨dev, rfl, hinv.books⟩
      | append_singleton pre c ih =>
        intro hpre
        obtain ⟨dev', hrun, _⟩ := ih ((List.prefix_append pre [c]).trans hpre)
        have hinv' := hinv.run hrun
        obtain ⟨dev₂, hstep⟩ : ∃ dev₂, step dev' c = some dev₂ := by
          cases c with
          | sample event => exact ⟨_, rfl⟩
          | evaluate flushed => exact evaluate_isSome hinv' (h pre flushed hpre dev' hrun)
        refine ⟨dev₂, ?_, (hinv'.step hstep).books⟩
        rw [run_concat, hrun, Option.bind_some, hstep]
    · intro pre flushed hpre dev' dev₂ hrun heval i hn hs
      exact evaluate_cleared (h pre flushed hpre dev' hrun) heval hn hs

/-- Cpu 0 is watched, with a limit of 100 samples per second. -/
def watchCpu0 : ProfDev where
  perfeval i := if i = 0 then perfevalInitDim (some [0]) 24 else perfevalInitDim none (4 + 4)
  interval := 1000
  samplingLimit := 100
  inclose := false

theorem sound_iff_cpu0 : Sound [.sample (.dev 0 7), .evaluate []] watchCpu0 := by
  refine (sound_iff _ (show perfevalInit 1000 100 (some [0]) none 24 4 [] = some watchCpu0 from
    rfl)).mpr ?_
  intro pre flushed hpre dev' hrun
  match pre with
  | [] => simp at hpre
  | [c] =>
    obtain ⟨rfl, rfl⟩ : c = .sample (.dev 0 7) ∧ flushed = [] := by simpa using hpre
    cases hrun
    refine ⟨fun _ _ _ => by decide, fun dev₁ h₁ => ?_, fun dev₁ h₁ _ _ _ _ _ _ => rfl⟩
    cases h₁
    exact fun _ hn => absurd rfl hn
  | c :: c' :: pre => simp at hpre

/-- All samples of the interval were taken on another cpu. -/
theorem unmatched_divides_by_zero :
    perfevalInit 1000 100 (some [0]) none 24 4 [] = some watchCpu0 ∧
      ¬ Sound [.sample (.dev 1 7), .evaluate []] watchCpu0 := by
  refine ⟨rfl, fun h => ?_⟩
  obtain ⟨dev', hrun, _⟩ := h.books _ (List.prefix_refl _)
  have hnone : (run [.sample (.dev 1 7), .evaluate []] watchCpu0).isSome = false := by decide
  rw [hrun] at hnone
  cases hnone

end Runs

end PerfProf.Perfeval
