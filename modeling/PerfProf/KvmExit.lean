import Mathlib.Data.List.Nodup
import Mathlib.Data.Nat.Find
import PerfProf.LatencyDist

/-! kvm-exit.c: the delay from a kvm_exit to the kvm_entry of its thread. The exit is kept for its CPU
until an entry of the thread takes it; meanwhile the thread may have been elsewhere. -/
namespace PerfProf.KvmExit
open PerfProf.LatencyDist

section Model

def KVM_ISA_VMX : Nat := 1

def KVM_ISA_SVM : Nat := 2

def KVM_ISA_ARM : Nat := 3

def EXIT_REASON_HLT : Nat := 12

def SVM_EXIT_HLT : Nat := 0x078

def ARM_EXIT_HLT : Nat := 0x01

def START_OF_KERNEL : Nat := 0xffff000000000000

/-- The raw data of a kvm_exit: its size, and what the three layouts have at offsets 8, 12, 16 and 24. -/
structure TraceKvmExit where
  size : Nat
  word8 : Nat
  word12 : Nat
  guestRip : Nat
  isa : Nat
deriving DecidableEq

inductive Raw where
  | kvmExit (e : TraceKvmExit)
  | kvmEntry
deriving DecidableEq

/-- `struct sample_type_raw`, and the instance the event comes from, a CPU. -/
structure Sample where
  tid : Nat
  time : Nat
  time_lt : time < 2 ^ 64
  ins : Nat
  raw : Raw
deriving DecidableEq

/-- What `__exit_reason` sets. -/
structure ExitReason where
  exitReason : Nat
  isa : Nat
  guestRip : Nat
deriving DecidableEq

/-- `__exit_reason`; an entry leaves the caller's values. -/
def exitReason : Raw → Option ExitReason
  | .kvmEntry => some ⟨2 ^ 32 - 1, KVM_ISA_VMX, 0⟩
  | .kvmExit e =>
    if e.size = 28 then some ⟨e.word12, KVM_ISA_VMX, e.guestRip⟩
    else if e.size = 52 ∨ e.size = 60 then some ⟨e.word8, e.isa, e.guestRip⟩
    else none

structure Env where
  perins : Bool
  greaterThan : Nat

/-- What is recorded for two samples, with their numbers in the order of delivery. -/
structure Latency where
  exitNr : Nat
  entryNr : Nat
  input : Input
  kernel : Bool
  printed : Bool

/-- `__process_fast` -/
def processFast (env : Env) (kvmExit kvmEntry : Sample × Nat) (ins : Nat) : Option Latency :=
  (exitReason kvmExit.1.raw).map fun r =>
    let hlt := if r.isa = KVM_ISA_ARM then ARM_EXIT_HLT
      else if r.isa = KVM_ISA_SVM then SVM_EXIT_HLT else EXIT_REASON_HLT
    let delta := (kvmEntry.1.time + 2 ^ 64 - kvmExit.1.time) % 2 ^ 64
    { exitNr := kvmExit.2
      entryNr := kvmEntry.2
      input := ⟨if env.perins then ins else 0, r.isa <<< 32 ||| r.exitReason, delta, env.greaterThan,
        Nat.mod_lt _ (by decide)⟩
      kernel := r.guestRip ≥ START_OF_KERNEL
      printed := env.greaterThan ≠ 0 ∧ r.exitReason ≠ hlt ∧ delta > env.greaterThan }

/-- `perins_kvm_exit` where `perins_kvm_exit_valid` is set, and what has been recorded. -/
structure State where
  perinsKvmExit : Nat → Option (Sample × Nat)
  log : List Latency

/-- `kvm_exit_sample` -/
def kvmExitSample (env : Env) (s : State) (raw : Sample × Nat) : State :=
  match raw.1.raw with
  | .kvmExit _ => match exitReason raw.1.raw with
    | none => s
    | some _ => { s with perinsKvmExit := Function.update s.perinsKvmExit raw.1.ins (some raw) }
  | .kvmEntry => match s.perinsKvmExit raw.1.ins with
    | none => s
    | some kvmExit =>
      if raw.1.tid = kvmExit.1.tid ∧ raw.1.time > kvmExit.1.time then
        { perinsKvmExit := Function.update s.perinsKvmExit raw.1.ins none
          log := s.log ++ (processFast env kvmExit raw raw.1.ins).toList }
      else s

/-- The events are numbered as they are delivered. -/
def run (env : Env) (events : List Sample) : State :=
  events.zipIdx.foldl (kvmExitSample env) ⟨fun _ => none, []⟩

end Model

section Spec

def Sample.isExit (x : Sample) : Bool := match x.raw with
  | .kvmExit _ => true
  | .kvmEntry => false

/-- An exit with raw data of one of the layouts. -/
def Sample.known (x : Sample) : Bool := x.isExit && (exitReason x.raw).isSome

/-- The event `k` is the next one of the thread of the event `i`. -/
structure Next (events : List Sample) (i k : Nat) (x y : Sample) : Prop where
  lt : i < k
  first : events[i]? = some x
  second : events[k]? = some y
  tid_eq : y.tid = x.tid
  between : ∀ m z, i < m → m < k → events[m]? = some z → z.tid ≠ x.tid

/-- Exits and entries of a thread take turns. -/
def Alternates (events : List Sample) : Prop := ∀ i k x y, Next events i k x y → y.isExit = !x.isExit

/-- Each latency that is recorded is that of an exit and the next entry of its thread, and there is one
at most for an exit. -/
structure Real (env : Env) (events : List Sample) : Prop where
  next : ∀ lat ∈ (run env events).log, ∃ x y, Next events lat.exitNr lat.entryNr x y ∧
    x.isExit = true ∧ y.isExit = false ∧ lat.input.lat = y.time - x.time
  once : ((run env events).log.map (·.exitNr)).Nodup

/-- The exit `i` of a thread, the next event `k` of the thread not a later one on the same CPU, and an
entry `j` of the thread that is on that CPU, before any other exit there. -/
structure Stale (events : List Sample) (i k j : Nat) (x y z : Sample) : Prop where
  known : x.known = true
  next : Next events i k x y
  apart : y.ins ≠ x.ins ∨ y.time ≤ x.time
  lt : k < j
  back : events[j]? = some z
  entry : z.isExit = false
  tid_eq : z.tid = x.tid
  ins_eq : z.ins = x.ins
  time_lt : x.time < z.time
  kept : ∀ m w, i < m → m < j → events[m]? = some w → w.ins = x.ins → w.known = false

end Spec

section Slots
variable {env : Env} {events pre : List Sample} {s x y z : Sample} {c i j k : Nat} {lat : Latency}

/-- The entry takes the exit if that is what its CPU has kept. -/
def Takes (x z : Sample) : Prop := z.isExit = false ∧ z.ins = x.ins ∧ z.tid = x.tid ∧ x.time < z.time

/-- The exit `i` is the last one on its CPU, and no entry has taken it. -/
structure Pending (events : List Sample) (c i : Nat) (x : Sample) : Prop where
  exit : events[i]? = some x
  ins_eq : x.ins = c
  known : x.known = true
  last : ∀ m z, i < m → events[m]? = some z → ¬ Takes x z ∧ (z.ins = c → z.known = false)

theorem run_concat (pre : List Sample) (s : Sample) :
    run env (pre ++ [s]) = kvmExitSample env (run env pre) (s, pre.length) := by
  rw [run, List.zipIdx_append, List.foldl_append, Nat.zero_add]
  rfl

theorem lt_of_getElem? (h : pre[i]? = some x) : i < pre.length :=
  (List.getElem?_eq_some_iff.mp h).1

theorem getElem?_concat : (pre ++ [s])[i]? = some x ↔ pre[i]? = some x ∨ i = pre.length ∧ s = x := by
  rcases Nat.lt_trichotomy i pre.length with hlt | rfl | hgt
  · rw [List.getElem?_append_left hlt]
    exact ⟨Or.inl, fun h => h.resolve_right fun heq => absurd heq.1 (Nat.ne_of_lt hlt)⟩
  · rw [List.getElem?_concat_length, Option.some.injEq]
    exact ⟨fun heq => Or.inr ⟨rfl, heq⟩,
      fun h => (h.resolve_left fun hsome => absurd (lt_of_getElem? hsome) (lt_irrefl _)).2⟩
  · refine iff_of_false (fun hsome => ?_) fun h => ?_
    · have hlt := lt_of_getElem? hsome
      rw [List.length_append, List.length_singleton] at hlt
      omega
    · rcases h with hsome | ⟨heq, -⟩
      · exact absurd (lt_of_getElem? hsome) (Nat.not_lt_of_gt hgt)
      · omega

/-- What one more event does to the exits that are kept. -/
theorem pending_concat : Pending (pre ++ [s]) c i x ↔
    (i = pre.length ∧ s = x ∧ s.ins = c ∧ s.known = true) ∨
      Pending pre c i x ∧ ¬ Takes x s ∧ (s.ins = c → s.known = false) := by
  constructor
  · intro ⟨hexit, hins, hknown, hlast⟩
    rcases getElem?_concat.mp hexit with hexit | ⟨hi, rfl⟩
    · right
      refine ⟨⟨hexit, hins, hknown, fun m z him hz => hlast m z him (getElem?_concat.mpr (Or.inl hz))⟩, ?_⟩
      exact hlast pre.length s (lt_of_getElem? hexit) (getElem?_concat.mpr (Or.inr ⟨rfl, rfl⟩))
    · exact Or.inl ⟨hi, rfl, hins, hknown⟩
  · rintro (⟨rfl, rfl, hins, hknown⟩ | ⟨⟨hexit, hins, hknown, hlast⟩, hs⟩)
    · refine ⟨getElem?_concat.mpr (Or.inr ⟨rfl, rfl⟩), hins, hknown, fun m z him hz => ?_⟩
      have hlt := lt_of_getElem? hz
      rw [List.length_append, List.length_singleton] at hlt
      omega
    · refine ⟨getElem?_concat.mpr (Or.inl hexit), hins, hknown, fun m z him hz => ?_⟩
      rcases getElem?_concat.mp hz with hz | ⟨-, rfl⟩
      · exact hlast m z him hz
      · exact hs

theorem Pending.unique (h : Pending pre c i x) (h' : Pending pre c j y) : i = j ∧ x = y := by
  have heq : i = j := by
    rcases Nat.lt_trichotomy i j with hlt | heq | hgt
    · have hnot := (h.last j y hlt h'.exit).2 h'.ins_eq
      rw [h'.known] at hnot
      cases hnot
    · exact heq
    · have hnot := (h'.last i x hgt h.exit).2 h.ins_eq
      rw [h.known] at hnot
      cases hnot
  subst heq
  exact ⟨rfl, Option.some.inj (h.exit.symm.trans h'.exit)⟩

/-- The exits that are kept are the pending ones. -/
def Keeps (st : State) (pre : List Sample) : Prop :=
  ∀ c i x, st.perinsKvmExit c = some (x, i) ↔ Pending pre c i x

theorem kvmExitSample_exit {st : State} (hexit : s.isExit = true) : kvmExitSample env st (s, i) =
    if s.known then { st with perinsKvmExit := Function.update st.perinsKvmExit s.ins (some (s, i)) } else st := by
  unfold Sample.isExit at hexit
  unfold kvmExitSample Sample.known Sample.isExit
  cases hraw : s.raw with
  | kvmEntry =>
    rw [hraw] at hexit
    cases hexit
  | kvmExit e =>
    dsimp only
    rw [Bool.true_and]
    cases exitReason (.kvmExit e) <;> rfl

theorem kvmExitSample_entry {st : State} (hentry : s.isExit = false) : kvmExitSample env st (s, i) =
    match st.perinsKvmExit s.ins with
    | none => st
    | some kvmExit =>
      if s.tid = kvmExit.1.tid ∧ s.time > kvmExit.1.time then
        { perinsKvmExit := Function.update st.perinsKvmExit s.ins none
          log := st.log ++ (processFast env kvmExit (s, i) s.ins).toList }
      else st := by
  unfold Sample.isExit at hentry
  unfold kvmExitSample
  cases hraw : s.raw with
  | kvmEntry => rfl
  | kvmExit e =>
    rw [hraw] at hentry
    cases hentry

/-- The latency of an entry that takes the exit its CPU has kept. -/
def Recorded (env : Env) (events : List Sample) (lat : Latency) : Prop :=
  ∃ j y i x, events[j]? = some y ∧ Pending (events.take j) y.ins i x ∧ Takes x y ∧
    processFast env (x, i) (y, j) y.ins = some lat

theorem recorded_concat : Recorded env (pre ++ [s]) lat ↔ Recorded env pre lat ∨
    ∃ i x, Pending pre s.ins i x ∧ Takes x s ∧ processFast env (x, i) (s, pre.length) s.ins = some lat := by
  constructor
  · intro ⟨j, y, i, x, hj, hpending, htakes, hlat⟩
    rcases getElem?_concat.mp hj with hj | ⟨rfl, rfl⟩
    · rw [List.take_append_of_le_length (Nat.le_of_lt (lt_of_getElem? hj))] at hpending
      exact Or.inl ⟨j, y, i, x, hj, hpending, htakes, hlat⟩
    · rw [List.take_left] at hpending
      exact Or.inr ⟨i, x, hpending, htakes, hlat⟩
  · rintro (⟨j, y, i, x, hj, hpending, htakes, hlat⟩ | ⟨i, x, hpending, htakes, hlat⟩)
    · have htake : (pre ++ [s]).take j = pre.take j := List.take_append_of_le_length (Nat.le_of_lt (lt_of_getElem? hj))
      rw [← htake] at hpending
      exact ⟨j, y, i, x, getElem?_concat.mpr (Or.inl hj), hpending, htakes, hlat⟩
    · refine ⟨pre.length, s, i, x, getElem?_concat.mpr (Or.inr ⟨rfl, rfl⟩), ?_, htakes, hlat⟩
      rw [List.take_left]
      exact hpending

theorem processFast_exitNr (h : processFast env (x, i) (y, j) c = some lat) : lat.exitNr = i := by
  obtain ⟨r, -, rfl⟩ := Option.map_eq_some_iff.mp h
  rfl

/-- The state after these events. -/
structure Tracks (env : Env) (st : State) (pre : List Sample) : Prop where
  keeps : Keeps st pre
  logged : ∀ lat, lat ∈ st.log ↔ Recorded env pre lat
  once : (st.log.map (·.exitNr)).Nodup

/-- No exit is pending any more that has been recorded. -/
theorem Recorded.taken (h : Recorded env pre lat) : ¬ Pending pre c lat.exitNr x := by
  intro hpending
  obtain ⟨j, y, i, x', hj, hbefore, htakes, hlat⟩ := h
  rw [processFast_exitNr hlat] at hpending
  have hexit := hbefore.exit
  rw [List.getElem?_take] at hexit
  split_ifs at hexit with hij
  · have heq : x' = x := Option.some.inj (hexit.symm.trans hpending.exit)
    exact (hpending.last j y hij hj).1 (heq ▸ htakes)

/-- One more exit. -/
theorem Tracks.exit {st : State} (h : Tracks env st pre) (hexit : s.isExit = true) :
    Tracks env (kvmExitSample env st (s, pre.length)) (pre ++ [s]) := by
  have hnot (x : Sample) : ¬ Takes x s := fun htakes => by
    rw [htakes.1] at hexit
    cases hexit
  have hlogged (lat : Latency) : lat ∈ st.log ↔ Recorded env (pre ++ [s]) lat := by
    rw [recorded_concat, ← h.logged]
    exact ⟨Or.inl, fun hor => hor.resolve_right fun ⟨_, x, _, htakes, _⟩ => hnot x htakes⟩
  rw [kvmExitSample_exit hexit]
  by_cases hknown : s.known = true
  · rw [if_pos hknown]
    refine ⟨fun c i x => ?_, hlogged, h.once⟩
    dsimp only
    rw [pending_concat]
    by_cases hc : c = s.ins
    · subst hc
      rw [Function.update_self, Option.some.injEq, Prod.mk.injEq]
      constructor
      · exact fun ⟨hx, hi⟩ => Or.inl ⟨hi.symm, hx, rfl, hknown⟩
      · rintro (⟨hi, hx, -⟩ | ⟨-, -, hno⟩)
        · exact ⟨hx, hi.symm⟩
        · rw [hno rfl] at hknown
          cases hknown
    · rw [Function.update_of_ne hc, h.keeps]
      constructor
      · exact fun hpending => Or.inr ⟨hpending, hnot x, fun heq => absurd heq.symm hc⟩
      · rintro (⟨-, -, heq, -⟩ | ⟨hpending, -⟩)
        · exact absurd heq.symm hc
        · exact hpending
  · rw [if_neg hknown]
    refine ⟨fun c i x => ?_, hlogged, h.once⟩
    rw [pending_concat, h.keeps]
    constructor
    · exact fun hpending => Or.inr ⟨hpending, hnot x, fun _ => Bool.eq_false_iff.mpr hknown⟩
    · rintro (⟨-, -, -, heq⟩ | ⟨hpending, -⟩)
      · exact absurd heq hknown
      · exact hpending

theorem known_entry (hentry : s.isExit = false) : s.known = false := by
  rw [Sample.known, hentry, Bool.false_and]

/-- One more entry. -/
theorem Tracks.entry {st : State} (h : Tracks env st pre) (hentry : s.isExit = false) :
    Tracks env (kvmExitSample env st (s, pre.length)) (pre ++ [s]) := by
  have hconcat (c i : Nat) (x : Sample) : Pending (pre ++ [s]) c i x ↔ Pending pre c i x ∧ ¬ Takes x s := by
    rw [pending_concat, known_entry hentry]
    constructor
    · rintro (⟨-, -, -, hno⟩ | ⟨hp, hn, -⟩)
      · cases hno
      · exact ⟨hp, hn⟩
    · rintro ⟨hp, hn⟩
      exact Or.inr ⟨hp, hn, fun _ => rfl⟩
  rw [kvmExitSample_entry hentry]
  cases hslot : st.perinsKvmExit s.ins with
  | none =>
    have hnone (i : Nat) (x : Sample) : ¬ Pending pre s.ins i x := fun hpending => by
      rw [← h.keeps, hslot] at hpending
      cases hpending
    refine ⟨fun c i x => ?_, fun lat => ?_, h.once⟩
    · rw [hconcat, h.keeps]
      refine ⟨fun hpending => ⟨hpending, fun htakes => ?_⟩, And.left⟩
      have hins : c = s.ins := hpending.ins_eq.symm.trans htakes.2.1.symm
      exact hnone i x (hins ▸ hpending)
    · rw [recorded_concat, ← h.logged]
      exact ⟨Or.inl, fun hor => hor.resolve_right fun ⟨i, x, hpending, _⟩ => hnone i x hpending⟩
  | some kvmExit =>
    obtain ⟨x₀, i₀⟩ := kvmExit
    have hpend : Pending pre s.ins i₀ x₀ := (h.keeps _ _ _).mp hslot
    have htakes : s.tid = x₀.tid ∧ s.time > x₀.time ↔ Takes x₀ s :=
      ⟨fun ⟨htid, htime⟩ => ⟨hentry, hpend.ins_eq.symm, htid, htime⟩, fun ⟨_, _, htid, htime⟩ => ⟨htid, htime⟩⟩
    dsimp only
    by_cases htake : s.tid = x₀.tid ∧ s.time > x₀.time
    · rw [if_pos htake]
      have ht := htakes.mp htake
      obtain ⟨lat₀, hlat₀⟩ : ∃ lat₀, processFast env (x₀, i₀) (s, pre.length) s.ins = some lat₀ := by
        have hknown := hpend.known
        rw [Sample.known, Bool.and_eq_true] at hknown
        obtain ⟨r, hr⟩ := Option.isSome_iff_exists.mp hknown.2
        exact ⟨_, Option.map_eq_some_iff.mpr ⟨r, hr, rfl⟩⟩
      rw [hlat₀, Option.toList_some]
      refine ⟨fun c i x => ?_, fun lat => ?_, ?_⟩
      · rw [hconcat]
        dsimp only
        by_cases hc : c = s.ins
        · subst hc
          rw [Function.update_self]
          refine iff_of_false (fun hstored => by cases hstored) ?_
          rintro ⟨hpending, hno⟩
          obtain ⟨-, rfl⟩ := hpending.unique hpend
          exact hno ht
        · rw [Function.update_of_ne hc, h.keeps]
          refine ⟨fun hpending => ⟨hpending, fun ht' => ?_⟩, And.left⟩
          exact hc (hpending.ins_eq.symm.trans ht'.2.1.symm)
      · rw [recorded_concat, ← h.logged, List.mem_append, List.mem_singleton]
        refine or_congr Iff.rfl ⟨fun heq => ⟨i₀, x₀, hpend, ht, heq ▸ hlat₀⟩, fun ⟨i, x, hpending, _, hlat⟩ => ?_⟩
        obtain ⟨rfl, rfl⟩ := hpending.unique hpend
        exact Option.some.inj (hlat.symm.trans hlat₀)
      · rw [List.map_append, List.map_singleton, List.nodup_append]
        refine ⟨h.once, List.nodup_singleton _, fun n hn m hm heq => ?_⟩
        obtain ⟨lat, hlat, rfl⟩ := List.mem_map.mp hn
        have hnr := heq.trans ((List.mem_singleton.mp hm).trans (processFast_exitNr hlat₀))
        exact ((h.logged lat).mp hlat).taken (hnr ▸ hpend)
    · rw [if_neg htake]
      have hnot := mt htakes.mpr htake
      refine ⟨fun c i x => ?_, fun lat => ?_, h.once⟩
      · rw [hconcat, h.keeps]
        refine ⟨fun hpending => ⟨hpending, fun ht => ?_⟩, And.left⟩
        have hins : c = s.ins := hpending.ins_eq.symm.trans ht.2.1.symm
        obtain ⟨-, rfl⟩ := (hins ▸ hpending : Pending pre s.ins i x).unique hpend
        exact hnot ht
      · rw [recorded_concat, ← h.logged]
        refine ⟨Or.inl, fun hor => hor.resolve_right fun ⟨i, x, hpending, ht, _⟩ => ?_⟩
        obtain ⟨-, rfl⟩ := hpending.unique hpend
        exact hnot ht

theorem run_tracks (env : Env) (events : List Sample) : Tracks env (run env events) events := by
  induction events using List.reverseRecOn with
  | nil =>
    refine ⟨fun c i x => iff_of_false nofun fun h => ?_, fun lat => iff_of_false nofun ?_, List.nodup_nil⟩
    · cases h.exit
    · rintro ⟨j, y, i, x, hj, -⟩
      cases hj
  | append_singleton pre s ih =>
    rw [run_concat]
    cases hexit : s.isExit with
    | true => exact ih.exit hexit
    | false => exact ih.entry hexit

end Slots

section Pairs
variable {env : Env} {events : List Sample} {x y z : Sample} {i j k : Nat} {lat : Latency}

theorem processFast_lat (h : processFast env (x, i) (y, j) k = some lat) (htime : x.time < y.time) :
    lat.exitNr = i ∧ lat.entryNr = j ∧ lat.input.lat = y.time - x.time := by
  obtain ⟨r, -, rfl⟩ := Option.map_eq_some_iff.mp h
  have hx := x.time_lt
  have hy := y.time_lt
  refine ⟨rfl, rfl, ?_⟩
  dsimp only
  omega

theorem Pending.lt (h : Pending (events.take j) k i x) : i < j := by
  have hlt := lt_of_getElem? h.exit
  rw [List.length_take] at hlt
  omega

theorem Pending.getElem? (h : Pending (events.take j) k i x) : events[i]? = some x := by
  have hexit := h.exit
  rw [List.getElem?_take, if_pos h.lt] at hexit
  exact hexit

/-- An exit is pending until it is taken, if no other one comes to its CPU. -/
theorem pending_take (hx : events[i]? = some x) (hknown : x.known = true) (hij : i < j)
    (hkept : ∀ m w, i < m → m < j → events[m]? = some w → w.ins = x.ins → w.known = false)
    (hnot : ∀ m w, i < m → m < j → events[m]? = some w → ¬ Takes x w) : Pending (events.take j) x.ins i x := by
  refine ⟨by rw [List.getElem?_take, if_pos hij, hx], rfl, hknown, fun m w him hw => ?_⟩
  rw [List.getElem?_take] at hw
  split_ifs at hw with hmj
  exact ⟨hnot m w him hmj hw, hkept m w him hmj hw⟩

/-- A stale exit is taken by an entry that is not the next one of its thread. -/
theorem Stale.not_real (h : Stale events i k j x y z) : ¬ Real env events := by
  intro hreal
  have hij : i < j := Nat.lt_trans h.next.lt h.lt
  -- the first entry that takes it
  have hex : ∃ m, i < m ∧ ∃ w, events[m]? = some w ∧ Takes x w :=
    ⟨j, hij, z, h.back, h.entry, h.ins_eq, h.tid_eq, h.time_lt⟩
  classical obtain ⟨m, ⟨him, w, hw, htakes⟩, hmin⟩ := Nat.findX hex
  have hmj : m ≤ j := by
    by_contra hgt
    exact hmin j (not_le.mp hgt) ⟨hij, z, h.back, h.entry, h.ins_eq, h.tid_eq, h.time_lt⟩
  have hpending : Pending (events.take m) w.ins i x := by
    rw [htakes.2.1]
    refine pending_take h.next.first h.known him (fun n v hin hnm hv => ?_) fun n v hin hnm hv ht => ?_
    · exact h.kept n v hin (Nat.lt_of_lt_of_le hnm hmj) hv
    · exact hmin n hnm ⟨hin, v, hv, ht⟩
  obtain ⟨lat, hlat⟩ : ∃ lat, processFast env (x, i) (w, m) w.ins = some lat := by
    have hknown := h.known
    rw [Sample.known, Bool.and_eq_true] at hknown
    obtain ⟨r, hr⟩ := Option.isSome_iff_exists.mp hknown.2
    exact ⟨_, Option.map_eq_some_iff.mpr ⟨r, hr, rfl⟩⟩
  obtain ⟨hi, hm, -⟩ := processFast_lat hlat htakes.2.2.2
  have hlogged := ((run_tracks env events).logged lat).mpr ⟨m, w, i, x, hw, hpending, htakes, hlat⟩
  obtain ⟨x', w', hnext, -⟩ := hreal.next lat hlogged
  rw [hi, hm] at hnext
  have hx : x' = x := Option.some.inj (hnext.first.symm.trans h.next.first)
  subst hx
  -- the next event of the thread is that one, and it takes nothing
  have hkm : k = m := by
    rcases Nat.lt_trichotomy k m with hlt | heq | hgt
    · exact absurd h.next.tid_eq (hnext.between k y h.next.lt hlt h.next.second)
    · exact heq
    · exact absurd hnext.tid_eq (h.next.between m w' him hgt hnext.second)
  subst hkm
  have hy : y = w := Option.some.inj (h.next.second.symm.trans hw)
  subst hy
  rcases h.apart with hne | hle
  · exact hne htakes.2.1
  · exact absurd htakes.2.2.2 (not_lt.mpr hle)

/-- An entry that takes an exit is the next event of the thread if no exit is stale. -/
theorem next_of_pending (halt : Alternates events) (hfresh : ∀ i k j x y z, ¬ Stale events i k j x y z)
    (hj : events[j]? = some z) (hpending : Pending (events.take j) z.ins i x) (htakes : Takes x z) :
    Next events i j x z := by
  obtain ⟨hentry, hins, htid, htime⟩ := htakes
  refine ⟨hpending.lt, hpending.getElem?, hj, htid, fun m w him hmj hw heq => ?_⟩
  -- the first event of the thread after the exit
  have hex : ∃ k, i < k ∧ ∃ y, events[k]? = some y ∧ y.tid = x.tid := ⟨m, him, w, hw, heq⟩
  classical obtain ⟨k, ⟨hik, y, hy, hytid⟩, hmin⟩ := Nat.findX hex
  have hkj : k < j := by
    refine Nat.lt_of_le_of_lt ?_ hmj
    by_contra hgt
    exact hmin m (not_le.mp hgt) ⟨him, w, hw, heq⟩
  have hnext : Next events i k x y :=
    ⟨hik, hpending.getElem?, hy, hytid, fun n v hin hnk hv hvtid => hmin n hnk ⟨hin, v, hv, hvtid⟩⟩
  have hexit : x.isExit = true := (Bool.and_eq_true_iff.mp hpending.known).1
  have hyentry : y.isExit = false := by rw [halt i k x y hnext, hexit, Bool.not_true]
  have htake (n : Nat) (hn : n < j) : (events.take j)[n]? = events[n]? := by rw [List.getElem?_take, if_pos hn]
  refine hfresh i k j x y z ⟨hpending.known, hnext, ?_, hkj, hj, hentry, htid, hins, htime, ?_⟩
  · by_contra hboth
    push Not at hboth
    exact (hpending.last k y hik ((htake k hkj).trans hy)).1 ⟨hyentry, hboth.1, hytid, hboth.2⟩
  · intro n v hin hnj hv hvins
    exact (hpending.last n v hin ((htake n hnj).trans hv)).2 (hvins.trans hins.symm)

/-- The latencies are real ones exactly if no thread comes back to an old exit of its own. -/
theorem real_iff (env : Env) (halt : Alternates events) :
    Real env events ↔ ∀ i k j x y z, ¬ Stale events i k j x y z := by
  constructor
  · exact fun hreal i k j x y z hstale => hstale.not_real hreal
  · intro hfresh
    have htracks := run_tracks env events
    refine ⟨fun lat hlat => ?_, htracks.once⟩
    obtain ⟨j, y, i, x, hj, hpending, htakes, hfast⟩ := (htracks.logged lat).mp hlat
    obtain ⟨hi, hj', hdelta⟩ := processFast_lat hfast htakes.2.2.2
    have hexit : x.isExit = true := (Bool.and_eq_true_iff.mp hpending.known).1
    refine ⟨x, y, ?_, hexit, htakes.1, hdelta⟩
    rw [hi, hj']
    exact next_of_pending halt hfresh hj hpending htakes

end Pairs

section Runs

def cpuidExit (time ins : Nat) (h : time < 2 ^ 64) : Sample := ⟨7, time, h, ins, .kvmExit ⟨52, 10, 0, 0, 1⟩⟩

def entry (time ins : Nat) (h : time < 2 ^ 64) : Sample := ⟨7, time, h, ins, .kvmEntry⟩

/-- Events of one thread, exit and entry in turn. -/
theorem alternates_of_thread {events : List Sample} (htid : ∀ x ∈ events, x.tid = 7)
    (hturn : ∀ i < events.length, ∀ x ∈ events[i]?, ∀ y ∈ events[i + 1]?, y.isExit = !x.isExit) :
    Alternates events := by
  intro i k x y ⟨hlt, hx, hy, _, hbetween⟩
  have hxtid := htid x (List.mem_of_getElem? hx)
  have hnext : k = i + 1 := by
    by_contra hne
    have hk := lt_of_getElem? hy
    have hmid : events[i + 1]? = some events[i + 1] := List.getElem?_eq_getElem (by omega)
    refine hbetween (i + 1) _ (Nat.lt_succ_self i) (by omega) hmid ?_
    rw [hxtid]
    exact htid _ (List.mem_of_getElem? hmid)
  subst hnext
  exact hturn i (lt_of_getElem? hx) x hx y hy

/-- An exit and the next entry on the same CPU. -/
def stayed : List Sample := [cpuidExit 1 0 (by decide), entry 4 0 (by decide)]

theorem stayed_real : Real ⟨false, 0⟩ stayed := by
  refine (real_iff ⟨false, 0⟩ (alternates_of_thread (by decide) (by decide))).mpr ?_
  intro i k j x y z hstale
  have hj : j < 2 := lt_of_getElem? hstale.back
  have hik := hstale.next.lt
  have hkj := hstale.lt
  omega

/-- The thread enters on another CPU, exits there, and enters on the first one again. -/
def migrated : List Sample :=
  [cpuidExit 1 0 (by decide), entry 2 1 (by decide), cpuidExit 3 1 (by decide), entry 4 0 (by decide)]

/-- The exit at 1 is recorded with the entry at 4. -/
theorem migrated_not_real : Alternates migrated ∧ ¬ Real ⟨false, 0⟩ migrated := by
  refine ⟨alternates_of_thread (by decide) (by decide), fun hreal => ?_⟩
  have hlog : (run ⟨false, 0⟩ migrated).log.map (fun lat => (lat.exitNr, lat.entryNr)) = [(0, 3)] := by decide
  obtain ⟨lat, hlat, hpair⟩ := List.mem_map.mp (hlog ▸ List.mem_singleton.mpr rfl)
  obtain ⟨hi, hj⟩ := Prod.mk.inj hpair
  obtain ⟨x, y, hnext, -⟩ := hreal.next lat hlat
  rw [hi, hj] at hnext
  refine hnext.between 1 (entry 2 1 (by decide)) (by decide) (by decide) rfl ?_
  rw [← Option.some.inj hnext.first]
  rfl

end Runs

end PerfProf.KvmExit
