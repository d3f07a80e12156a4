import PerfProf.ExprReads
import PerfProf.TpValue
import Mathlib.Data.List.GetD

/-! hrtimer.c: a sample of the timer carries the counters of all the events, and it is printed if an
expression over their increases says so. -/
namespace PerfProf.Hrtimer
open PerfProf.Expr PerfProf.ExprSymtab PerfProf.TpValue

section Model

/-- An event of `-e`; `dev` is one that stands for a profiler. -/
structure Event where
  name : List Char
  aliasName : Option (List Char)
  dev : Bool

/-- An entry of the `tp_list` with its place in the `evlist`, where the leader has 0. -/
structure Tp extends Event where
  evsel : Option Nat

/-- `tp->alias ? : tp->name`. -/
def Event.title (e : Event) : List Char := e.aliasName.getD e.name

/-- `perf_evlist__add` for each real tp. -/
def addEvsels (k : Nat) : List Event → List Tp
  | [] => []
  | e :: es => if e.dev then ⟨e, none⟩ :: addEvsels k es else ⟨e, some k⟩ :: addEvsels (k + 1) es

def realTps (events : List Event) : List Event := events.filter fun e => !e.dev

/-- The variables that `hrtimer_init` declares. -/
def declare (events : List Event) : List GlobalVarDeclare :=
  (realTps events).mapIdx (fun i e => ⟨e.title, i * 8, 8, 8⟩) ++
    [⟨"period".toList, (realTps events).length * 8, 8, 8⟩]

/-- `idToEvsel` is `perf_evlist__id_to_evsel`. The number of entries of the list and the size to be
loaded are an `int`. -/
structure HrtimerCtx where
  events : List Event
  idToEvsel : Nat → Option Nat
  int : events.length + 1 < 2 ^ 31

namespace HrtimerCtx

def tpList (ctx : HrtimerCtx) : List Tp := addEvsels 1 ctx.events

def nrRealTp (ctx : HrtimerCtx) : Nat := (realTps ctx.events).length

end HrtimerCtx

/-- An entry of a group sample. -/
structure Ctnr where
  value : BitVec 64
  id : Nat

structure Sample where
  ins : Nat
  groups : List Ctnr

/-- What is kept from sample to sample; `counters` are those of all instances. -/
structure State where
  counters : Nat → BitVec 64
  insCounters : List (BitVec 64)
  prog : Program

structure Printed where
  cpuClock : BitVec 64
  vars : List (List Char × Option (BitVec 64))
deriving DecidableEq

structure Scan where
  counters : Nat → BitVec 64
  insCounters : List (BitVec 64)
  j : Nat
  cpuClock : BitVec 64

/-- The loop over `groups.ctnr`; `jcounter` is where the counters of the instance start. -/
def readCtnr (ctx : HrtimerCtx) (jcounter : Nat) (s : Scan) (c : Ctnr) : Scan :=
  let n := ctx.nrRealTp
  match ctx.idToEvsel c.id with
  | none => s
  | some 0 =>
    let cpuClock := c.value - s.counters (jcounter + n)
    { s with
      counters := Function.update s.counters (jcounter + n) c.value
      insCounters := s.insCounters.set n cpuClock
      cpuClock := cpuClock }
  | some evsel =>
    if ctx.tpList.any fun tp => !tp.dev && tp.evsel == some evsel then
      let counter := c.value - s.counters (jcounter + s.j)
      { s with
        counters := Function.update s.counters (jcounter + s.j) c.value
        insCounters := s.insCounters.set s.j counter
        j := s.j + 1 }
    else s

/-- The bytes of an array of counters. -/
def byteOf (counters : List (BitVec 64)) (i : Nat) : UInt8 :=
  valueByte (counters.getD (i / 8) 0) (i % 8)

/-- `BREAK` -/
def breakSample : Long := 0

/-- `PRINT` -/
def printSample : Long := 1

variable (lib : Library) (fuel : Nat)

/-- `__analyzer`; `expr_run` may change the variables. -/
def analyzer (prog : Program) (nrTp : Nat) (counters : List (BitVec 64)) : Option (Program × Long) :=
  let raw : Raw := ⟨byteOf counters, Int32.ofNat (nrTp + 1)⟩
  if prog.loadRet raw ≠ 0 then some (prog, breakSample)
  else match exprRun lib prog.insn fuel (prog.loaded raw) with
    | some (d, some value) =>
      some ({ prog with mem := fun i => UInt8.ofBitVec (d.bytes.getD i.toNat 0) },
        (value.setWidth 32).signExtend 64)
    | _ => none

/-- What is printed of the variables. -/
def vars (ctx : HrtimerCtx) (insCounters : List (BitVec 64)) : List (List Char × Option (BitVec 64)) :=
  (ctx.tpList.zipIdx.filter fun tp => !tp.1.dev).map fun tp => (tp.1.title, insCounters[tp.2]?)

/-- `hrtimer_sample` without `--verbose`. -/
def hrtimerSample (ctx : HrtimerCtx) (st : State) (sample : Sample) : Option (State × Option Printed) :=
  let n := ctx.nrRealTp
  let s := sample.groups.foldl (readCtnr ctx (sample.ins * (n + 1))) ⟨st.counters, st.insCounters, 0, 0⟩
  let result := if sample.groups.length = n + 1 then analyzer lib fuel st.prog n s.insCounters
    else some (st.prog, breakSample)
  result.map fun (prog, value) =>
    (⟨s.counters, s.insCounters, prog⟩,
      if value = printSample then some ⟨s.cpuClock, vars ctx s.insCounters⟩ else none)

/-- The samples one after the other. -/
def hrtimerSamples (ctx : HrtimerCtx) : State → List Sample → Option (State × List (Option Printed))
  | st, [] => some (st, [])
  | st, sample :: samples => do
    let (st, printed) ← hrtimerSample lib fuel ctx st sample
    let (st, rest) ← hrtimerSamples ctx st samples
    some (st, printed :: rest)

/-- What `expr_compile` leaves. -/
structure Compiled (data str : Long) (text : List Char) (declare : List GlobalVarDeclare)
    (prog : Program) : Prop where
  accepted : ∃ held, exprCompile held data str text declare = .ok ⟨prog.insn, prog.datasize⟩
  data : prog.data = data
  mem : ∀ i, prog.mem i = 0

/-- After `hrtimer_init`; `ins_counters` is what `malloc` gives. -/
structure HrtimerInit (ctx : HrtimerCtx) (data str : Long) (expression : List Char) (st : State) :
    Prop where
  prog : Compiled data str expression (declare ctx.events) st.prog
  counters : ∀ i, st.counters i = 0
  insCounters : st.insCounters.length = ctx.nrRealTp + 1

end Model

section Spec

/-- The counter at a place of the group. -/
def Sample.counter (s : Sample) (k : Nat) : BitVec 64 := (s.groups.map Ctnr.value).getD k 0

/-- The counter in the last sample of the instance. -/
def previous (history : List Sample) (ins k : Nat) : BitVec 64 :=
  match history.reverse.find? fun s => s.ins == ins with
  | none => 0
  | some s => s.counter k

/-- Where a variable stands in the group: `period` is the last one, and the leader comes first. -/
def place (n k : Nat) : Nat := if k = n then 0 else k + 1

/-- The increases of the counters since the last sample of the instance. -/
def increases (n : Nat) (history : List Sample) (s : Sample) : List (BitVec 64) :=
  (List.range (n + 1)).map fun k => s.counter (place n k) - previous history s.ins (place n k)

def allIncreases (n : Nat) (history : List Sample) : List Sample → List (List (BitVec 64))
  | [] => []
  | s :: samples => increases n history s :: allIncreases n (history ++ [s]) samples

/-- Every member is there, in the order of the group. -/
def Whole (ctx : HrtimerCtx) (s : Sample) : Prop :=
  s.groups.map (fun c => ctx.idToEvsel c.id) = (List.range (ctx.nrRealTp + 1)).map some

/-- The variables of a program with these values. -/
def withValues (prog : Program) (values : List (BitVec 64)) : Data where
  base := prog.data
  bytes := (List.range prog.datasize).map fun i => (byteOf values i).toBitVec

def Evaluates (lib : Library) (prog : Program) (values : List (BitVec 64)) (value : Long) : Prop :=
  ∃ fuel d, exprRun lib prog.insn fuel (withValues prog values) = some (d, some value)

/-- What is to be printed of a sample: the names with the increases. -/
def shown (ctx : HrtimerCtx) (values : List (BitVec 64)) : Printed where
  cpuClock := values.getD ctx.nrRealTp 0
  vars := ((realTps ctx.events).map Event.title).zip (values.map some)

/-- With enough fuel a sample is printed if and only if the value of the expression is not zero. -/
def PrintsRight (lib : Library) (ctx : HrtimerCtx) (st : State) (samples : List Sample) : Prop :=
  ∀ values, List.Forall₂ (Evaluates lib st.prog) (allIncreases ctx.nrRealTp [] samples) values →
    ∃ enough, ∀ fuel, enough ≤ fuel → ∃ st', hrtimerSamples lib fuel ctx st samples =
      some (st', List.zipWith (fun vars value => if value ≠ 0 then some (shown ctx vars) else none)
        (allIncreases ctx.nrRealTp [] samples) values)

/-- The expression reads no byte behind the loaded ones, unless it is what the memory holds there,
where the terminator is one of them. -/
def ReadsLoaded (lib : Library) (prog : Program) (values : List (BitVec 64)) : Prop :=
  ∀ i, RunReads lib prog.insn (withValues prog values) i → values.length ≤ i →
    byteOf values i = if i = values.length then 0 else prog.mem i

/-- So it is at every sample, with the memory that the samples before it leave. -/
def AllReadLoaded (lib : Library) (ctx : HrtimerCtx) (history : List Sample) (st : State) :
    List Sample → Prop
  | [] => True
  | s :: samples => ReadsLoaded lib st.prog (increases ctx.nrRealTp history s) ∧
    ∀ fuel st' printed, hrtimerSample lib fuel ctx st s = some (st', printed) →
      AllReadLoaded lib ctx (history ++ [s]) st' samples

/-- No profiler stands before an event. -/
def ProfilersLast (events : List Event) : Prop :=
  events = realTps events ++ events.filter Event.dev

end Spec

section Group

variable {ctx : HrtimerCtx}

theorem addEvsels_any (k : Nat) (events : List Event) (e : Nat) :
    ((addEvsels k events).any fun tp => !tp.dev && tp.evsel == some e) = true ↔
      k ≤ e ∧ e < k + (realTps events).length := by
  induction events generalizing k with
  | nil => simp [addEvsels, realTps]
  | cons event events ih =>
    cases hdev : event.dev with
    | true => simpa [addEvsels, realTps, hdev] using ih k
    | false =>
      have htail := ih (k + 1)
      simp only [realTps] at htail
      simp only [addEvsels, realTps, hdev, Bool.false_eq_true, if_false, List.any_cons, Bool.or_eq_true,
        htail, List.filter_cons, Bool.not_false, if_true, List.length_cons]
      simp
      omega

/-- What the loop does with the counters of some events. -/
structure Scanned (jcounter : Nat) (cs : List Ctnr) (s s' : Scan) : Prop where
  j : s'.j = s.j + cs.length
  cpuClock : s'.cpuClock = s.cpuClock
  length : s'.insCounters.length = s.insCounters.length
  counter : ∀ i, s'.counters i = if jcounter + s.j ≤ i ∧ i < jcounter + s.j + cs.length then
    (cs.map Ctnr.value).getD (i - (jcounter + s.j)) 0 else s.counters i
  ins : ∀ i, i < s.insCounters.length → s'.insCounters.getD i 0 =
    if s.j ≤ i ∧ i < s.j + cs.length then
      (cs.map Ctnr.value).getD (i - s.j) 0 - s.counters (jcounter + i) else s.insCounters.getD i 0

/-- One counter of an event. -/
def Scan.event (jcounter : Nat) (s : Scan) (c : Ctnr) : Scan :=
  { s with
    counters := Function.update s.counters (jcounter + s.j) c.value
    insCounters := s.insCounters.set s.j (c.value - s.counters (jcounter + s.j))
    j := s.j + 1 }

theorem readCtnr_event (jcounter : Nat) (s : Scan) {c : Ctnr} {e : Nat}
    (hid : ctx.idToEvsel c.id = some (e + 1)) (he : e < ctx.nrRealTp) :
    readCtnr ctx jcounter s c = s.event jcounter c := by
  have hany : (ctx.tpList.any fun tp => !tp.dev && tp.evsel == some (e + 1)) = true := by
    rw [HrtimerCtx.tpList, addEvsels_any]
    unfold HrtimerCtx.nrRealTp at he
    omega
  simp only [readCtnr, hid, if_pos hany]
  rfl

theorem event_j (jcounter : Nat) (s : Scan) (c : Ctnr) : (s.event jcounter c).j = s.j + 1 := rfl

theorem event_counters (jcounter : Nat) (s : Scan) (c : Ctnr) : (s.event jcounter c).counters =
    Function.update s.counters (jcounter + s.j) c.value := rfl

theorem event_insCounters (jcounter : Nat) (s : Scan) (c : Ctnr) : (s.event jcounter c).insCounters =
    s.insCounters.set s.j (c.value - s.counters (jcounter + s.j)) := rfl

theorem Scanned.cons {jcounter : Nat} {c : Ctnr} {cs : List Ctnr} {s s' : Scan}
    (h : Scanned jcounter cs (s.event jcounter c) s') : Scanned jcounter (c :: cs) s s' where
  j := by
    rw [h.j, event_j, List.length_cons]
    omega
  cpuClock := h.cpuClock
  length := by rw [h.length, event_insCounters, List.length_set]
  counter i := by
    rw [h.counter, event_j, event_counters, List.length_cons, List.map_cons]
    by_cases hi : i = jcounter + s.j
    · subst hi
      rw [if_neg (by omega), Function.update_self, if_pos (by omega), Nat.sub_self]
      rfl
    · rw [Function.update_of_ne hi]
      by_cases hin : jcounter + (s.j + 1) ≤ i ∧ i < jcounter + (s.j + 1) + cs.length
      · rw [if_pos hin, if_pos (by omega)]
        have hplace : i - (jcounter + s.j) = i - (jcounter + (s.j + 1)) + 1 := by omega
        rw [hplace, List.getD_cons_succ]
      · rw [if_neg hin, if_neg (by omega)]
  ins i hi := by
    rw [h.ins i (by rw [event_insCounters, List.length_set]; exact hi), event_j, event_counters,
      event_insCounters, List.length_cons, List.map_cons]
    by_cases hj : i = s.j
    · subst hj
      rw [if_neg (by omega), if_pos (by omega), Nat.sub_self]
      simp [List.getD_eq_getElem?_getD, hi]
    · by_cases hin : s.j + 1 ≤ i ∧ i < s.j + 1 + cs.length
      · rw [if_pos hin, if_pos (by omega), Function.update_of_ne (by omega)]
        have hplace : i - s.j = i - (s.j + 1) + 1 := by omega
        rw [hplace, List.getD_cons_succ]
      · rw [if_neg hin, if_neg (by omega)]
        simp [List.getD_eq_getElem?_getD, List.getElem?_set_ne (Ne.symm hj)]

theorem scan_events (jcounter : Nat) (cs : List Ctnr) (s : Scan)
    (hids : cs.map (fun c => ctx.idToEvsel c.id) = (List.range cs.length).map fun i => some (s.j + i + 1))
    (hin : s.j + cs.length ≤ ctx.nrRealTp) : Scanned jcounter cs s (cs.foldl (readCtnr ctx jcounter) s) := by
  induction cs generalizing s with
  | nil =>
    refine ⟨rfl, rfl, rfl, fun i => ?_, fun i _ => ?_⟩
    · rw [if_neg (by simp)]
      rfl
    · rw [if_neg (by simp)]
      rfl
  | cons c cs ih =>
    rw [List.length_cons, List.range_succ_eq_map, List.map_cons, List.map_cons, List.map_map] at hids
    injection hids with hid hrest
    rw [List.length_cons] at hin
    rw [List.foldl_cons, readCtnr_event jcounter s hid (by omega)]
    apply Scanned.cons
    apply ih
    · rw [hrest]
      apply List.map_congr_left
      intro i _
      rw [Function.comp_apply, event_j]
      congr 1
      omega
    · rw [event_j]
      omega

theorem previous_concat (history : List Sample) (s : Sample) (ins k : Nat) :
    previous (history ++ [s]) ins k = if s.ins = ins then s.counter k else previous history ins k := by
  unfold previous
  rw [List.reverse_append, List.reverse_singleton, List.singleton_append, List.find?_cons]
  by_cases h : s.ins = ins
  · simp [h]
  · simp [h, beq_eq_false_iff_ne.mpr h]

/-- The counters are those of the last samples. -/
def Tracks (n : Nat) (history : List Sample) (counters : Nat → BitVec 64) : Prop :=
  ∀ ins k, k ≤ n → counters (ins * (n + 1) + k) = previous history ins (place n k)

theorem slot_ne {n a b k l : Nat} (hk : k ≤ n) (hl : l ≤ n) (hab : a ≠ b) :
    a * (n + 1) + k ≠ b * (n + 1) + l := by
  rcases Nat.lt_or_gt_of_ne hab with h | h
  · have := Nat.mul_le_mul_right (n + 1) (Nat.succ_le_of_lt h)
    rw [Nat.succ_mul] at this
    omega
  · have := Nat.mul_le_mul_right (n + 1) (Nat.succ_le_of_lt h)
    rw [Nat.succ_mul] at this
    omega

/-- What the loop leaves after a sample with all members. -/
structure Took (n : Nat) (history : List Sample) (s : Sample) (r : Scan) : Prop where
  tracks : Tracks n (history ++ [s]) r.counters
  insCounters : r.insCounters = increases n history s
  cpuClock : r.cpuClock = (increases n history s).getD n 0

theorem whole_groups {s : Sample} (h : Whole ctx s) : ∃ c cs, s.groups = c :: cs ∧
    cs.length = ctx.nrRealTp ∧ ctx.idToEvsel c.id = some 0 ∧
    cs.map (fun c => ctx.idToEvsel c.id) = (List.range cs.length).map fun i => some (0 + i + 1) := by
  unfold Whole at h
  have hlen := congrArg List.length h
  rw [List.range_succ_eq_map, List.map_cons, List.map_map] at h
  cases hgroups : s.groups with
  | nil =>
    rw [hgroups] at h
    cases h
  | cons c cs =>
    rw [hgroups] at h hlen
    injection h with hid hrest
    have hcs : cs.length = ctx.nrRealTp := by simpa using hlen
    refine ⟨c, cs, rfl, hcs, hid, ?_⟩
    rw [hrest, hcs]
    apply List.map_congr_left
    intro i _
    simp

/-- The counter of the leader, which comes first. -/
def startScan (n jcounter : Nat) (counters : Nat → BitVec 64) (insCounters : List (BitVec 64))
    (c : Ctnr) : Scan where
  counters := Function.update counters (jcounter + n) c.value
  insCounters := insCounters.set n (c.value - counters (jcounter + n))
  j := 0
  cpuClock := c.value - counters (jcounter + n)

theorem readCtnr_leader (jcounter : Nat) (counters : Nat → BitVec 64) (insCounters : List (BitVec 64))
    {c : Ctnr} (hid : ctx.idToEvsel c.id = some 0) :
    readCtnr ctx jcounter ⟨counters, insCounters, 0, 0⟩ c =
      startScan ctx.nrRealTp jcounter counters insCounters c := by
  simp only [readCtnr, hid]
  rfl

theorem took_whole {s : Sample} {history : List Sample} {st : State} (hwhole : Whole ctx s)
    (htracks : Tracks ctx.nrRealTp history st.counters)
    (hlen : st.insCounters.length = ctx.nrRealTp + 1) :
    Took ctx.nrRealTp history s (s.groups.foldl (readCtnr ctx (s.ins * (ctx.nrRealTp + 1)))
      ⟨st.counters, st.insCounters, 0, 0⟩) := by
  obtain ⟨c, cs, hgroups, hcs, hid, hids⟩ := whole_groups hwhole
  have hcounter (k : Nat) (hk : k < ctx.nrRealTp) :
      s.counter (place ctx.nrRealTp k) = (cs.map Ctnr.value).getD k 0 := by
    rw [place, if_neg (by omega), Sample.counter, hgroups, List.map_cons, List.getD_cons_succ]
  have hleader : s.counter (place ctx.nrRealTp ctx.nrRealTp) = c.value := by
    rw [place, if_pos rfl, Sample.counter, hgroups, List.map_cons, List.getD_cons_zero]
  rw [hgroups, List.foldl_cons, readCtnr_leader _ _ _ hid]
  have hscan := scan_events (s.ins * (ctx.nrRealTp + 1)) cs
    (startScan ctx.nrRealTp (s.ins * (ctx.nrRealTp + 1)) st.counters st.insCounters c) hids
    (by simp [startScan, hcs])
  generalize cs.foldl _ _ = r at hscan
  have hown (k : Nat) (hk : k ≤ ctx.nrRealTp) := htracks s.ins k hk
  generalize ctx.nrRealTp = n at *
  refine ⟨?_, ?_, ?_⟩
  · intro ins k hk
    rw [previous_concat, hscan.counter]
    by_cases hins : s.ins = ins
    · subst hins
      rw [if_pos rfl]
      by_cases hkn : k = n
      · subst hkn
        rw [hleader, if_neg (by simp [startScan, hcs])]
        exact Function.update_self ..
      · rw [hcounter k (by omega), if_pos (by simp [startScan]; omega)]
        congr 1
        simp [startScan]
    · rw [if_neg hins, ← htracks ins k hk, if_neg]
      · exact Function.update_of_ne (slot_ne hk (Nat.le_refl n) (Ne.symm hins)) ..
      · simp only [startScan, hcs]
        intro hin
        have hne := slot_ne (k := k) (l := ins * (n + 1) + k - s.ins * (n + 1)) hk (by omega) (Ne.symm hins)
        omega
  · have hlen' : r.insCounters.length = n + 1 := by simp [hscan.length, startScan, hlen]
    apply List.ext_getElem
    · simp [hlen', increases]
    · intro i hi _
      rw [← List.getD_eq_getElem _ 0 hi, hscan.ins i (by simp [startScan, hlen]; omega)]
      simp only [increases, List.getElem_map, List.getElem_range]
      by_cases hin : i = n
      · subst hin
        rw [if_neg (by simp [startScan, hcs]), hleader, ← hown i (Nat.le_refl i)]
        simp [startScan, List.getD_eq_getElem?_getD, hlen]
      · rw [if_pos (by simp [startScan, hcs]; omega), hcounter i (by omega), ← hown i (by omega)]
        simp only [startScan, Nat.sub_zero]
        rw [Function.update_of_ne (by omega)]
  · rw [hscan.cpuClock]
    simp [startScan, increases, List.getD_eq_getElem?_getD, hown n (Nat.le_refl n), hleader]

end Group

section Analyzer

variable {lib : Library} {prog : Program} {values : List (BitVec 64)} {value : Long} {n : Nat}

theorem compile_datasize {held : List (List Char × Symbol)} {data str : Long} {text : List Char}
    {declare : List GlobalVarDeclare} {prog : Prog}
    (h : exprCompile held data str text declare = .ok prog) :
    prog.datasize = datasize declare := by
  unfold exprCompile at h
  cases htab : symtab held data declare with
  | none =>
    rw [htab] at h
    cases h
  | some tab =>
    rw [htab] at h
    cases hexprs : exprs ((tokens tab str (text.length + 1) ⟨text, 0, 0⟩).length + 1)
      ⟨tokens tab str (text.length + 1) ⟨text, 0, 0⟩, ⟨[0], []⟩, 0⟩ with
    | error e =>
      simp only [hexprs] at h
      cases h
    | ok s =>
      simp only [hexprs] at h
      cases h
      rfl

/-- There is room for all the variables. -/
theorem datasize_declare (events : List Event) :
    8 * ((realTps events).length + 1) ≤ datasize (declare events) := by
  unfold datasize declare
  rw [List.map_append, List.foldl_append]
  generalize List.foldl max 0 _ = m
  simp only [List.map_cons, List.map_nil, List.foldl_cons, List.foldl_nil]
  have hend := Nat.le_max_right m ((realTps events).length * 8 + 8)
  generalize max m ((realTps events).length * 8 + 8) = k at hend
  cases k with
  | zero => omega
  | succ k => exact (by omega : 8 * ((realTps events).length + 1) ≤ 256 * ((k + 1 + 255) / 256))

theorem loaded_bytes (raw : Raw) : (prog.loaded raw).bytes = (List.range prog.datasize).map
    fun i : Nat => (stored prog.mem (exprLoadData prog.toExprProg raw.data raw.size).2 i).toBitVec := by
  unfold Program.loaded
  simp [← List.map_eq_flatMap]

theorem exprRun_mono {insn : List Long} {data : Data} {m k : Nat} {out : Data × Exit}
    (h : exprRun lib insn m data = some out) (hk : m ≤ k) : exprRun lib insn k data = some out := by
  obtain ⟨r, hr, rfl⟩ := Option.map_eq_some_iff.mp h
  rw [exprRun, Loop.iterate_mono hr hk]
  rfl

theorem analyzer_mono {m k : Nat} {out : Program × Long} (h : analyzer lib m prog n values = some out)
    (hk : m ≤ k) : analyzer lib k prog n values = some out := by
  unfold analyzer at h ⊢
  by_cases hret : prog.loadRet ⟨byteOf values, Int32.ofNat (n + 1)⟩ ≠ 0
  · simpa only [if_pos hret] using h
  · simp only [if_neg hret] at h ⊢
    cases hrun : exprRun lib prog.insn m (prog.loaded ⟨byteOf values, Int32.ofNat (n + 1)⟩) with
    | none =>
      rw [hrun] at h
      cases h
    | some r =>
      rw [exprRun_mono hrun hk]
      rwa [hrun] at h

theorem hrtimerSample_mono {ctx : HrtimerCtx} {st : State} {s : Sample} {m k : Nat}
    {out : State × Option Printed} (h : hrtimerSample lib m ctx st s = some out) (hk : m ≤ k) :
    hrtimerSample lib k ctx st s = some out := by
  unfold hrtimerSample at h ⊢
  by_cases hwhole : s.groups.length = ctx.nrRealTp + 1
  · simp only [if_pos hwhole] at h ⊢
    obtain ⟨r, hr, hout⟩ := Option.map_eq_some_iff.mp h
    rw [analyzer_mono hr hk, Option.map_some, hout]
  · simpa only [if_neg hwhole] using h

/-- What the copy of `nr_tp + 1` bytes leaves of the variables. -/
theorem loaded_alike (hlen : values.length = n + 1) (hint : n + 1 < 2 ^ 31)
    (hfit : 8 * (n + 1) ≤ prog.datasize) (hreads : ReadsLoaded lib prog values) :
    prog.loadRet ⟨byteOf values, Int32.ofNat (n + 1)⟩ = 0 ∧
      (withValues prog values).Alike (RunReads lib prog.insn (withValues prog values))
        (prog.loaded ⟨byteOf values, Int32.ofNat (n + 1)⟩) := by
  have hsize : (Int32.ofNat (n + 1)).toInt = (n + 1 : Nat) := Int32.toInt_ofNat_of_lt hint
  have hload : exprLoadData prog.toExprProg (byteOf values) (Int32.ofNat (n + 1)) =
      (0, [{ start := 0, len := sizeT (n + 1 : Nat), byte := byteOf values },
        { start := (n + 1 : Nat), len := 1, byte := fun _ => 0 }]) := by
    rw [exprLoadData, hsize, if_neg (by omega)]
  have hcopy : (sizeT (n + 1 : Nat) : Int) = (n + 1 : Nat) := sizeT_eq (by omega) (by omega)
  refine ⟨by rw [Program.loadRet, hload], rfl, by simp [Program.loaded, withValues], ?_⟩
  intro i hi
  by_cases hin : i < prog.datasize
  · have hstored : stored prog.mem
        (exprLoadData prog.toExprProg (byteOf values) (Int32.ofNat (n + 1))).2 i = byteOf values i := by
      have hread := hreads i hi
      rw [hlen] at hread
      simp only [hload, stored, List.foldl_cons, List.foldl_nil, Store.apply, Store.Covers, hcopy]
      by_cases hcopied : i < n + 1
      · rw [if_neg (by omega), if_pos (by omega)]
        congr 1
      · have hread := hread (by omega)
        by_cases hend : i = n + 1
        · rw [if_pos (by omega), hread, if_pos hend]
        · rw [if_neg (by omega), if_neg (by omega), hread, if_neg hend]
    rw [loaded_bytes, withValues, List.getElem?_map, List.getElem?_map, List.getElem?_range hin,
      Option.map_some, Option.map_some, hstored]
  · rw [List.getElem?_eq_none (by rw [loaded_bytes]; simp; omega),
      List.getElem?_eq_none (by simp [withValues]; omega)]

/-- The value that is compared with `PRINT` is the low half of the value of the expression. -/
theorem analyzer_of_evaluates (hlen : values.length = n + 1) (hint : n + 1 < 2 ^ 31)
    (hfit : 8 * (n + 1) ≤ prog.datasize) (hreads : ReadsLoaded lib prog values)
    (heval : Evaluates lib prog values value) :
    ∃ enough mem, ∀ fuel, enough ≤ fuel → analyzer lib fuel prog n values =
      some ({ prog with mem := mem }, (value.setWidth 32).signExtend 64) := by
  obtain ⟨hret, halike⟩ := loaded_alike hlen hint hfit hreads
  obtain ⟨enough, d, hrun⟩ := heval
  obtain ⟨d', hrun', -⟩ := exprRun_alike halike (fun _ hi => hi) hrun
  refine ⟨enough, fun i => UInt8.ofBitVec (d'.bytes.getD i.toNat 0), fun fuel hfuel => ?_⟩
  simp only [analyzer, hret, ne_eq, not_true_eq_false, if_false, exprRun_mono hrun' hfuel]

theorem printSample_iff : (value.setWidth 32).signExtend 64 = printSample ↔ value.setWidth 32 = 1 := by
  constructor
  · intro h
    have hback : ((value.setWidth 32).signExtend 64).setWidth 32 = value.setWidth 32 := by
      ext i hi
      simp [BitVec.getLsbD_signExtend, hi]
      omega
    rw [← hback, h]
    rfl
  · intro h
    rw [h]
    rfl

end Analyzer

section Run

variable {lib : Library} {ctx : HrtimerCtx} {prog : Program} {history samples : List Sample} {s : Sample}
  {st : State} {value : Long}

/-- The state between two samples. -/
structure Ready (ctx : HrtimerCtx) (prog : Program) (history : List Sample) (st : State) : Prop where
  tracks : Tracks ctx.nrRealTp history st.counters
  insCounters : st.insCounters.length = ctx.nrRealTp + 1
  prog : ∃ mem, st.prog = { prog with mem := mem }

/-- What is printed of a sample, with the value of the expression. -/
def outcome (ctx : HrtimerCtx) (values : List (BitVec 64)) (value : Long) : Option Printed :=
  if value.setWidth 32 = 1 then some ⟨values.getD ctx.nrRealTp 0, vars ctx values⟩ else none

theorem nrRealTp_lt (ctx : HrtimerCtx) : ctx.nrRealTp + 1 < 2 ^ 31 := by
  have hle : ctx.nrRealTp ≤ ctx.events.length := List.length_filter_le _ _
  have hint := ctx.int
  omega

theorem increases_length (n : Nat) : (increases n history s).length = n + 1 := by
  simp [increases]

theorem hrtimerSample_ready (hfit : 8 * (ctx.nrRealTp + 1) ≤ prog.datasize)
    (hready : Ready ctx prog history st) (hwhole : Whole ctx s)
    (hreads : ReadsLoaded lib st.prog (increases ctx.nrRealTp history s))
    (heval : Evaluates lib prog (increases ctx.nrRealTp history s) value) :
    ∃ enough st', Ready ctx prog (history ++ [s]) st' ∧ ∀ fuel, enough ≤ fuel →
      hrtimerSample lib fuel ctx st s =
        some (st', outcome ctx (increases ctx.nrRealTp history s) value) := by
  obtain ⟨mem, hprog⟩ := hready.prog
  have htook := took_whole hwhole hready.tracks hready.insCounters
  have hgroups : s.groups.length = ctx.nrRealTp + 1 := by simpa using congrArg List.length hwhole
  have hfit' : 8 * (ctx.nrRealTp + 1) ≤ st.prog.datasize := by rw [hprog]; exact hfit
  have heval' : Evaluates lib st.prog (increases ctx.nrRealTp history s) value := by rw [hprog]; exact heval
  obtain ⟨enough, mem', hrun⟩ :=
    analyzer_of_evaluates (increases_length _) (nrRealTp_lt ctx) hfit' hreads heval'
  dsimp only [hrtimerSample]
  simp only [if_pos hgroups]
  generalize s.groups.foldl _ _ = r at htook ⊢
  refine ⟨enough, ⟨r.counters, r.insCounters, { st.prog with mem := mem' }⟩, ⟨htook.tracks, ?_, mem', ?_⟩, ?_⟩
  · rw [htook.insCounters, increases_length]
  · rw [hprog]
  · intro fuel hfuel
    rw [htook.insCounters, hrun fuel hfuel, Option.map_some, htook.cpuClock]
    simp only [printSample_iff]
    rfl

/-- From sample to sample. -/
theorem hrtimerSamples_ready (hfit : 8 * (ctx.nrRealTp + 1) ≤ prog.datasize)
    (hready : Ready ctx prog history st) (hwhole : ∀ s ∈ samples, Whole ctx s)
    (hreads : AllReadLoaded lib ctx history st samples) {values : List Long}
    (heval : List.Forall₂ (Evaluates lib prog) (allIncreases ctx.nrRealTp history samples) values) :
    ∃ enough st', ∀ fuel, enough ≤ fuel → hrtimerSamples lib fuel ctx st samples =
      some (st', List.zipWith (outcome ctx) (allIncreases ctx.nrRealTp history samples) values) := by
  induction samples generalizing history st values with
  | nil => exact ⟨0, st, fun _ _ => by cases heval; rfl⟩
  | cons s samples ih =>
    cases heval with
    | cons hvalue hvalues =>
      obtain ⟨enough, st', hready', hsample⟩ := hrtimerSample_ready hfit hready (hwhole s (by simp))
        hreads.1 hvalue
      obtain ⟨enough', st'', hrest⟩ := ih hready' (fun t ht => hwhole t (by simp [ht]))
        (hreads.2 enough st' _ (hsample enough (Nat.le_refl _))) hvalues
      refine ⟨max enough enough', st'', fun fuel hfuel => ?_⟩
      rw [hrtimerSamples, hsample fuel (by omega), Option.bind_eq_bind, Option.bind_some]
      dsimp only
      rw [hrest fuel (by omega)]
      rfl

end Run

section Main

variable {lib : Library} {ctx : HrtimerCtx}

theorem addEvsels_events (k : Nat) (events : List Event) : (addEvsels k events).map Tp.toEvent = events := by
  induction events generalizing k with
  | nil => rfl
  | cons e events ih =>
    cases hdev : e.dev with
    | true => simp [addEvsels, hdev, ih]
    | false => simp [addEvsels, hdev, ih]

theorem vars_events (values : List (BitVec 64)) : vars ctx values =
    (ctx.events.zipIdx.filter fun e => !e.1.dev).map fun e => (e.1.title, values[e.2]?) := by
  have hevents : ctx.events = ctx.tpList.map Tp.toEvent := (addEvsels_events 1 ctx.events).symm
  rw [hevents, List.zipIdx_map, List.filter_map, List.map_map]
  rfl

theorem zipIdx_filter {events profilers : List Event} (hreal : ∀ e ∈ events, e.dev = false)
    (hdev : ∀ e ∈ profilers, e.dev = true) :
    ((events ++ profilers).zipIdx.filter fun e => !e.1.dev) = events.zipIdx := by
  rw [List.zipIdx_append, List.filter_append]
  have hkept : (events.zipIdx.filter fun e => !e.1.dev) = events.zipIdx := by
    apply List.filter_eq_self.mpr
    intro e he
    simp [hreal e.1 (List.fst_mem_of_mem_zipIdx he)]
  have hdropped : ((profilers.zipIdx (0 + events.length)).filter fun e => !e.1.dev) = [] := by
    apply List.filter_eq_nil_iff.mpr
    intro e he
    simp [hdev e.1 (List.fst_mem_of_mem_zipIdx he)]
  rw [hkept, hdropped, List.append_nil]

/-- The printed counters are those of the names if no profiler stands before an event. -/
theorem vars_profilersLast (h : ProfilersLast ctx.events) {values : List (BitVec 64)}
    (hlen : values.length = ctx.nrRealTp + 1) :
    vars ctx values = ((realTps ctx.events).map Event.title).zip (values.map some) := by
  have hfilter := @zipIdx_filter (realTps ctx.events) (ctx.events.filter Event.dev)
    (fun e he => by simpa using (List.mem_filter.mp he).2) (fun e he => (List.mem_filter.mp he).2)
  rw [← h] at hfilter
  rw [vars_events, hfilter]
  unfold HrtimerCtx.nrRealTp at hlen
  apply List.ext_getElem
  · simp [hlen]
  · intro i hi hi'
    have hi : i < (realTps ctx.events).length := by simpa using hi
    simp [List.getElem?_eq_getElem (by omega : i < values.length)]

theorem outcome_eq_iff (h : ProfilersLast ctx.events) {values : List (BitVec 64)} (value : Long)
    (hlen : values.length = ctx.nrRealTp + 1) :
    (if value ≠ 0 then some (shown ctx values) else none) = outcome ctx values value ↔
      value = 0 ∨ value.setWidth 32 = 1 := by
  have hshown : (⟨values.getD ctx.nrRealTp 0, vars ctx values⟩ : Printed) = shown ctx values := by
    rw [vars_profilersLast h hlen]
    rfl
  unfold outcome
  rw [hshown]
  by_cases h0 : value = 0
  · subst h0
    simp
  · rw [if_pos h0]
    by_cases h1 : value.setWidth 32 = 1
    · rw [if_pos h1]
      exact iff_of_true rfl (.inr h1)
    · rw [if_neg h1]
      exact iff_of_false nofun (not_or.mpr ⟨h0, h1⟩)

theorem outcomes_eq_iff (h : ProfilersLast ctx.events) {P : List (BitVec 64) → Long → Prop}
    {incs : List (List (BitVec 64))} {values : List Long} (hvalues : List.Forall₂ P incs values)
    (hlen : ∀ inc ∈ incs, inc.length = ctx.nrRealTp + 1) :
    List.zipWith (fun vars value => if value ≠ 0 then some (shown ctx vars) else none) incs values =
        List.zipWith (outcome ctx) incs values ↔
      ∀ value ∈ values, value = 0 ∨ value.setWidth 32 = 1 := by
  induction hvalues with
  | nil => simp
  | cons _ _ ih =>
    rw [List.zipWith_cons_cons, List.zipWith_cons_cons, List.cons.injEq,
      outcome_eq_iff h _ (hlen _ List.mem_cons_self), ih fun inc hinc => hlen inc (List.mem_cons_of_mem _ hinc)]
    simp

theorem allIncreases_length {n : Nat} {history samples : List Sample} :
    ∀ inc ∈ allIncreases n history samples, inc.length = n + 1 := by
  induction samples generalizing history with
  | nil => simp [allIncreases]
  | cons s samples ih =>
    intro inc hinc
    rw [allIncreases, List.mem_cons] at hinc
    cases hinc with
    | inl heq => rw [heq, increases_length]
    | inr hrest => exact ih inc hrest

/-- The program that `expr_compile` leaves of an expression over the counters of some events. -/
def progOf (events : List Event) (expression : String) : Program where
  symtab := []
  data := 4096
  datasize := datasize (declare events)
  insn := match exprCompile [] 4096 8192 expression.toList (declare events) with
    | .ok prog => prog.insn
    | .error _ => []
  mem := fun _ => 0

def startOf (events : List Event) (expression : String) : State where
  counters := fun _ => 0
  insCounters := List.replicate ((realTps events).length + 1) 0
  prog := progOf events expression

def schedSwitch : Event := ⟨"sched_switch".toList, none, false⟩

def schedWakeup : Event := ⟨"sched_wakeup".toList, none, false⟩

def oneEvent : HrtimerCtx := ⟨[schedSwitch], some, by decide⟩

def twoEvents : HrtimerCtx := ⟨[schedSwitch, schedWakeup], some, by decide⟩

end Main

end PerfProf.Hrtimer
