import Mathlib.Data.List.Induction
import Mathlib.Data.List.TakeDrop
import Mathlib.Logic.Function.Basic

/-! monitor.c: `perf_event_process_record` counts the samples of a device and closes it after `-N` of
them. A record can bring about further calls, in the functions of the profiler and in the flush of
a close. -/
namespace PerfProf.SampleLimit

section Model

/-- A sample: `time` is its time after `perf_event_convert`, and `filter` what `ftrace_filter` of a
device says about it. -/
structure Sample where
  id : Nat
  time : Nat
  filter : Nat → Int

/-- `event->header.type`; `other` are the known types that only have a function of the profiler. -/
inductive Event where
  | sample (s : Sample)
  | dev (source : Nat) (s : Sample)
  | other
  | unknown

/-- `sample` tells whether there is a `prof->sample`. -/
structure ProfDev where
  exitN : Int
  sampledEvents : Int
  sample : Bool
  ftraceFilter : Bool
  sampleTime : Bool
  enabledAfter : Nat
  target : Option Nat
  inclose : Bool

/-- A call of `perf_event_process_record` with the calls that the function of the profiler makes
and those in the flush, should it come to a close; a call of `prof_dev_close` from elsewhere; and
changes of `enabled_after` and of the target. -/
inductive Call where
  | process (dev : Nat) (event : Event) (handler closing : List Call)
  | close (dev : Nat) (closing : List Call)
  | enable (dev : Nat) (enabledAfter : Nat)
  | forward (dev : Nat) (target : Option Nat)

/-- What happens: a sample arrives, which passes both tests or not, it is handed to `prof->sample`,
this returns, the limit makes a call of `prof_dev_close`, and the close starts. -/
inductive Entry where
  | arrived (dev : Nat) (s : Sample) (pass : Bool)
  | sampled (dev : Nat) (s : Sample)
  | returned (dev : Nat)
  | closing (dev : Nat)
  | closed (dev : Nat)

structure State where
  devs : Nat → ProfDev
  log : List Entry

namespace State

def set (st : State) (d : Nat) (dev : ProfDev) : State :=
  { st with devs := Function.update st.devs d dev }

def write (st : State) (e : Entry) : State := { st with log := st.log ++ [e] }

/-- `dev->inclose = true`. -/
def shut (st : State) (d : Nat) : State :=
  (st.write (.closed d)).set d { st.devs d with inclose := true }

/-- `++dev->sampled_events`, if there is a limit. -/
def count (st : State) (d : Nat) : State :=
  if (st.devs d).exitN = 0 then st
  else st.set d { st.devs d with sampledEvents := (st.devs d).sampledEvents + 1 }

/-- At `__break`. -/
def uncount (st : State) (d : Nat) : State :=
  if 0 < (st.devs d).sampledEvents then
    st.set d { st.devs d with sampledEvents := (st.devs d).sampledEvents - 1 }
  else st

/-- The sample is within the limit. -/
def within (st : State) (d : Nat) : Bool :=
  decide ((st.devs d).exitN = 0 ∨ (st.devs d).sampledEvents ≤ (st.devs d).exitN)

/-- The limit has been reached. -/
def reached (st : State) (d : Nat) : Bool :=
  decide ((st.devs d).exitN ≠ 0 ∧ (st.devs d).exitN ≤ (st.devs d).sampledEvents)

/-- The sample gets past `ftrace_filter` and `enabled_after`. -/
def passes (st : State) (d : Nat) (s : Sample) : Bool :=
  !((st.devs d).ftraceFilter && decide (s.filter d ≤ 0)) &&
    !((st.devs d).sampleTime && decide (s.time < (st.devs d).enabledAfter))

/-- `prof_dev_close`; `flush` is what happens in it. -/
def close (flush : State → State) (st : State) (d : Nat) : State :=
  if (st.devs d).inclose then st else flush (st.shut d)

/-- The second test of the limit. -/
def limit (flush : State → State) (st : State) (d : Nat) : State :=
  if st.reached d then (st.write (.closing d)).close flush d else st

/-- `PERF_RECORD_SAMPLE`; `handler` is what happens in `prof->sample`. -/
def sample (handler flush : State → State) (st : State) (d : Nat) (s : Sample) : State :=
  let pass := !(st.devs d).sample || st.passes d s
  let st := (st.write (.arrived d s pass)).count d
  if st.within d then
    if (st.devs d).sample then
      if pass then ((handler (st.write (.sampled d s))).write (.returned d)).limit flush d
      else st.uncount d
    else st.limit flush d
  else st.limit flush d

end State

/-- The device that a record is for, after forwarding upward and returning down; none if it is
dropped. -/
def route (devs : Nat → ProfDev) (d : Nat) (event : Event) : Option (Nat × Event) :=
  match (devs d).target, event with
  | some target, .sample s =>
    if s.time < (devs d).enabledAfter then none else some (target, .dev d s)
  | some target, .dev source s => some (target, .dev source s)
  | none, .dev source s => some (source, .sample s)
  | _, event => some (d, event)

mutual

def exec : Call → State → State
  | .process d event handler closing, st =>
    match route st.devs d event with
    | none => st
    | some (d, .sample s) => st.sample (execAll handler) (execAll closing) d s
    | some (d, .dev _ s) => st.sample (execAll handler) (execAll closing) d s
    | some (_, .other) => execAll handler st
    | some (d, .unknown) => (st.count d).limit (execAll closing) d
  | .close d closing, st => st.close (execAll closing) d
  | .enable d enabledAfter, st => st.set d { st.devs d with enabledAfter := enabledAfter }
  | .forward d target, st => st.set d { st.devs d with target := target }

def execAll : List Call → State → State
  | [], st => st
  | c :: calls, st => execAll calls (exec c st)

end

def Event.Known : Event → Prop
  | .unknown => False
  | _ => True

mutual

/-- The records are of known types. -/
def Call.Known : Call → Prop
  | .process _ event handler closing => event.Known ∧ KnownAll handler ∧ KnownAll closing
  | .close _ closing => KnownAll closing
  | .enable _ _ | .forward _ _ => True

def KnownAll : List Call → Prop
  | [] => True
  | c :: calls => c.Known ∧ KnownAll calls

end

/-- The samples of the device that pass both tests. -/
def passing (d : Nat) (log : List Entry) : List Sample :=
  log.filterMap fun
    | .arrived d' s pass => if d' = d ∧ pass = true then some s else none
    | _ => none

def delivered (d : Nat) (log : List Entry) : List Sample :=
  log.filterMap fun
    | .sampled d' s => if d' = d then some s else none
    | _ => none

/-- How many calls of `prof->sample` have returned. -/
def returns (d : Nat) (log : List Entry) : Nat :=
  log.countP fun
    | .returned d' => d' == d
    | _ => false

/-- No sample comes in while `prof->sample` runs, unless the device is being closed. -/
def ReentersInClose (d : Nat) (log : List Entry) : Prop :=
  ∀ pre s mid s' pass post, log = pre ++ .sampled d s :: mid ++ .arrived d s' pass :: post →
    Entry.returned d ∈ mid ∨ Entry.closed d ∈ pre ++ mid

end Model

section Log

variable {d N : Nat} {log : List Entry}

theorem delivered_concat (e : Entry) : delivered d (log ++ [e]) = delivered d log ++ delivered d [e] :=
  List.filterMap_append

theorem passing_concat (e : Entry) : passing d (log ++ [e]) = passing d log ++ passing d [e] :=
  List.filterMap_append

theorem returns_concat (e : Entry) : returns d (log ++ [e]) = returns d log + returns d [e] :=
  List.countP_append

/-- The entry is one of the samples of the device. -/
def Entry.OfSample (d : Nat) : Entry → Prop
  | .arrived d' _ _ | .sampled d' _ | .returned d' => d' = d
  | .closing _ | .closed _ => False

theorem delivered_other {e : Entry} (he : ¬ e.OfSample d) : delivered d [e] = [] := by
  cases e <;> simp_all [delivered, Entry.OfSample]

theorem passing_other {e : Entry} (he : ¬ e.OfSample d) : passing d [e] = [] := by
  cases e <;> simp_all [passing, Entry.OfSample]

theorem returns_other {e : Entry} (he : ¬ e.OfSample d) : returns d [e] = 0 := by
  cases e <;> simp_all [returns, Entry.OfSample]

@[simp] theorem delivered_arrived (s : Sample) (pass : Bool) : delivered d [.arrived d s pass] = [] := rfl

@[simp] theorem delivered_sampled (s : Sample) : delivered d [.sampled d s] = [s] := by
  simp [delivered]

@[simp] theorem delivered_returned : delivered d [.returned d] = [] := rfl

@[simp] theorem passing_arrived (s : Sample) (pass : Bool) :
    passing d [.arrived d s pass] = if pass then [s] else [] := by
  cases pass <;> simp [passing]

@[simp] theorem passing_sampled (s : Sample) : passing d [.sampled d s] = [] := rfl

@[simp] theorem passing_returned : passing d [.returned d] = [] := rfl

@[simp] theorem returns_arrived (s : Sample) (pass : Bool) : returns d [.arrived d s pass] = 0 := rfl

@[simp] theorem returns_sampled (s : Sample) : returns d [.sampled d s] = 0 := rfl

@[simp] theorem returns_returned : returns d [.returned d] = 1 := by
  simp [returns]

/-- Every entry stands in `P` to those before it. -/
def Each (P : List Entry → Entry → Prop) (log : List Entry) : Prop :=
  ∀ pre e post, log = pre ++ e :: post → P pre e

theorem each_concat {P : List Entry → Entry → Prop} {e : Entry} (h : Each P log) (he : P log e) :
    Each P (log ++ [e]) := by
  intro pre e' post hlog
  rcases List.eq_nil_or_concat post with rfl | ⟨post, last, rfl⟩
  · obtain ⟨rfl, hlast⟩ := List.append_inj' hlog rfl
    cases hlast
    exact he
  · have hlog' : log ++ [e] = (pre ++ e' :: post) ++ [last] := by simpa using hlog
    obtain ⟨rfl, -⟩ := List.append_inj' hlog' rfl
    exact h pre e' post rfl

/-- What an entry says of those before it. -/
structure Fits (d N : Nat) (pre : List Entry) (e : Entry) : Prop where
  sampled : ∀ s, e = .sampled d s → ∃ s' pass, pre.getLast? = some (.arrived d s' pass)
  returned : e = .returned d → returns d pre < (delivered d pre).length
  closing : e = .closing d → (delivered d pre).length = N ∧
    ((∃ s pass, pre.getLast? = some (.arrived d s pass)) ∨ pre.getLast? = some (.returned d))
  after : pre.getLast? = some (.returned d) → (delivered d pre).length = N → e = .closing d

end Log

section Invariant

variable {d N k : Nat} {st : State}

/-- `k` calls of `prof->sample` are running. -/
structure Kept (d N k : Nat) (st : State) : Prop where
  exitN : (st.devs d).exitN = N
  sample : (st.devs d).sample = true
  taken : delivered d st.log = (passing d st.log).take N
  counts : (passing d st.log).length < N → (st.devs d).sampledEvents = (passing d st.log).length
  full : N ≤ (passing d st.log).length → N ≤ (st.devs d).sampledEvents
  running : returns d st.log + k = (delivered d st.log).length
  fits : Each (Fits d N) st.log

/-- The last entry is not waiting for a close. -/
structure Settled (d N k : Nat) (st : State) : Prop extends Kept d N k st where
  settled : st.log.getLast? = some (.returned d) → (delivered d st.log).length ≠ N

theorem Kept.length_delivered (h : Kept d N k st) :
    (delivered d st.log).length = min N (passing d st.log).length := by
  simp [h.taken]

theorem Kept.reached (h : Kept d N k st) (hN : 0 < N) :
    st.reached d = true ↔ (delivered d st.log).length = N := by
  have hlen := h.length_delivered
  have hcounts := h.counts
  have hfull := h.full
  simp only [State.reached, h.exitN, decide_eq_true_eq]
  omega

theorem Kept.congr (h : Kept d N k st) {st' : State} (hlog : st'.log = st.log)
    (hexit : (st'.devs d).exitN = (st.devs d).exitN) (hsample : (st'.devs d).sample = (st.devs d).sample)
    (hcount : (st'.devs d).sampledEvents = (st.devs d).sampledEvents) : Kept d N k st' where
  exitN := by rw [hexit, h.exitN]
  sample := by rw [hsample, h.sample]
  taken := by rw [hlog, h.taken]
  counts := by rw [hlog, hcount]; exact h.counts
  full := by rw [hlog, hcount]; exact h.full
  running := by rw [hlog, h.running]
  fits := by rw [hlog]; exact h.fits

/-- A change of a device that is not of its count. -/
theorem Settled.set (h : Settled d N k st) {d' : Nat} {dev : ProfDev}
    (hdev : d' = d → dev.exitN = (st.devs d).exitN ∧ dev.sample = (st.devs d).sample ∧
      dev.sampledEvents = (st.devs d).sampledEvents) : Settled d N k (st.set d' dev) := by
  refine ⟨?_, h.settled⟩
  by_cases hd : d' = d
  · obtain ⟨hexit, hsample, hcount⟩ := hdev hd
    subst hd
    refine h.toKept.congr ?_ ?_ ?_ ?_ <;> simp [State.set, hexit, hsample, hcount]
  · refine h.toKept.congr ?_ ?_ ?_ ?_ <;> simp [State.set, Function.update_of_ne (Ne.symm hd)]

theorem Settled.count_other (h : Settled d N k st) {d' : Nat} (hd : d' ≠ d) :
    Settled d N k (st.count d') := by
  unfold State.count
  split
  · exact h
  · exact h.set fun heq => absurd heq hd

theorem Settled.uncount_other (h : Settled d N k st) {d' : Nat} (hd : d' ≠ d) :
    Settled d N k (st.uncount d') := by
  unfold State.uncount
  split
  · exact h.set fun heq => absurd heq hd
  · exact h

/-- An entry that is not a sample of the device. -/
theorem Kept.write (h : Kept d N k st) {e : Entry} (he : ¬ e.OfSample d) (hfits : Fits d N st.log e) :
    Settled d N k (st.write e) where
  exitN := h.exitN
  sample := h.sample
  taken := by simp [State.write, delivered_concat, passing_concat, delivered_other he, passing_other he, h.taken]
  counts := by simpa [State.write, passing_concat, passing_other he] using h.counts
  full := by simpa [State.write, passing_concat, passing_other he] using h.full
  running := by
    simpa [State.write, delivered_concat, returns_concat, delivered_other he, returns_other he] using h.running
  fits := each_concat h.fits hfits
  settled := by
    intro hlast
    have : e = .returned d := by simpa [State.write] using hlast
    subst this
    exact absurd rfl he

theorem Settled.fits_other (h : Settled d N k st) {e : Entry} (he : ¬ e.OfSample d)
    (hclosing : e ≠ .closing d) : Fits d N st.log e where
  sampled s heq := by subst heq; exact absurd rfl he
  returned heq := by subst heq; exact absurd rfl he
  closing heq := absurd heq hclosing
  after hlast hfull := absurd hfull (h.settled hlast)

theorem Settled.shut (h : Settled d N k st) (d' : Nat) : Settled d N k (st.shut d') := by
  have hwrite : Settled d N k (st.write (.closed d')) := by
    apply h.toKept.write id
    exact h.fits_other id nofun
  unfold State.shut
  apply hwrite.set
  intro heq
  subst heq
  exact ⟨rfl, rfl, rfl⟩

end Invariant

section Step

variable {d N : Nat} {handler flush : State → State}

theorem Settled.close {k : Nat} {st : State} (hflush : ∀ k st, Settled d N k st → Settled d N k (flush st))
    (h : Settled d N k st) (d' : Nat) : Settled d N k (st.close flush d') := by
  unfold State.close
  split
  · exact h
  · exact hflush k _ (h.shut d')

theorem Settled.limit_other {k : Nat} {st : State}
    (hflush : ∀ k st, Settled d N k st → Settled d N k (flush st)) (h : Settled d N k st)
    {d' : Nat} (hd : d' ≠ d) : Settled d N k (st.limit flush d') := by
  unfold State.limit
  split
  · have hwrite : Settled d N k (st.write (.closing d')) := by
      apply h.toKept.write id
      apply h.fits_other id
      intro heq
      exact hd (Entry.closing.inj heq)
    exact hwrite.close hflush d'
  · exact h

/-- After a sample of the device that was not let through, or after the return of one that was. -/
theorem Kept.limit {k : Nat} {st : State} (hN : 0 < N)
    (hflush : ∀ k st, Settled d N k st → Settled d N k (flush st)) (h : Kept d N k st)
    (hlast : (∃ s pass, st.log.getLast? = some (.arrived d s pass)) ∨ st.log.getLast? = some (.returned d)) :
    Settled d N k (st.limit flush d) := by
  unfold State.limit
  by_cases hr : st.reached d = true
  · have hfull := (h.reached hN).mp hr
    rw [if_pos hr]
    have hwrite : Settled d N k (st.write (.closing d)) := by
      apply h.write id
      exact ⟨nofun, nofun, fun _ => ⟨hfull, hlast⟩, fun _ _ => rfl⟩
    exact hwrite.close hflush d
  · rw [if_neg hr]
    exact ⟨h, fun _ hfull => hr ((h.reached hN).mpr hfull)⟩

/-- Another device takes a sample. -/
theorem Settled.sample_other {k : Nat} {st : State}
    (hhandler : ∀ k st, Settled d N k st → Settled d N k (handler st))
    (hflush : ∀ k st, Settled d N k st → Settled d N k (flush st)) (h : Settled d N k st)
    {d' : Nat} (hd : d' ≠ d) (s : Sample) : Settled d N k (st.sample handler flush d' s) := by
  have hwrite {st : State} (h : Settled d N k st) {e : Entry} (he : ¬ e.OfSample d)
      (hclosing : e ≠ .closing d) : Settled d N k (st.write e) :=
    h.toKept.write he (h.fits_other he hclosing)
  have harrived := (hwrite h (e := .arrived d' s (!(st.devs d').sample || st.passes d' s)) hd nofun).count_other hd
  dsimp only [State.sample]
  split
  · split
    · split
      · have hsampled := hwrite harrived (e := .sampled d' s) hd nofun
        exact (hwrite (hhandler k _ hsampled) (e := .returned d') hd nofun).limit_other hflush hd
      · exact harrived.uncount_other hd
    · exact harrived.limit_other hflush hd
  · exact harrived.limit_other hflush hd

theorem arrived_fits {k : Nat} {st : State} (h : Settled d N k st) (s : Sample) (pass : Bool) :
    Fits d N st.log (.arrived d s pass) where
  sampled := nofun
  returned := nofun
  closing := nofun
  after hlast hfull := absurd hfull (h.settled hlast)

/-- What there is before the first test of the limit. -/
structure Arrived (d : Nat) (st : State) (s : Sample) (pass : Bool) (st' : State) : Prop where
  log : st'.log = st.log ++ [.arrived d s pass]
  exitN : (st'.devs d).exitN = (st.devs d).exitN
  sample : (st'.devs d).sample = (st.devs d).sample
  count : (st'.devs d).sampledEvents = (st.devs d).sampledEvents + 1

theorem arrived_count {k : Nat} {st : State} (hN : 0 < N) (h : Settled d N k st) (s : Sample) (pass : Bool) :
    Arrived d st s pass ((st.write (.arrived d s pass)).count d) := by
  have hexit : ((st.write (.arrived d s pass)).devs d).exitN ≠ 0 := by
    have := h.exitN
    simp only [State.write]
    omega
  unfold State.count
  rw [if_neg hexit]
  constructor <;> simp [State.set, State.write]

theorem Settled.within {k : Nat} {st st' : State} {s : Sample} {pass : Bool} (hN : 0 < N)
    (h : Settled d N k st) (ha : Arrived d st s pass st') :
    st'.within d = true ↔ (passing d st.log).length < N := by
  have hexit := h.exitN
  have hcounts := h.counts
  have hfull := h.full
  simp only [State.within, ha.exitN, ha.count, decide_eq_true_eq]
  omega

/-- A sample that passes and is within the limit is handed over. -/
theorem Settled.deliver {k : Nat} {st st' : State} {s : Sample} (h : Settled d N k st)
    (ha : Arrived d st s true st') (hlt : (passing d st.log).length < N) :
    Settled d N (k + 1) (st'.write (.sampled d s)) := by
  have hlog : (st'.write (.sampled d s)).log = st.log ++ [.arrived d s true] ++ [.sampled d s] := by
    rw [← ha.log]
    rfl
  have hdelivered : delivered d (st'.write (.sampled d s)).log = delivered d st.log ++ [s] := by
    simp only [hlog, delivered_concat, delivered_arrived, delivered_sampled, List.append_nil]
  have hpassing : passing d (st'.write (.sampled d s)).log = passing d st.log ++ [s] := by
    simp only [hlog, passing_concat, passing_arrived, passing_sampled, if_true, List.append_nil]
  have hreturns : returns d (st'.write (.sampled d s)).log = returns d st.log := by
    simp only [hlog, returns_concat, returns_arrived, returns_sampled, Nat.add_zero]
  have hcount : ((st'.write (.sampled d s)).devs d).sampledEvents = (passing d st.log).length + 1 := by
    rw [← h.counts hlt]
    exact ha.count
  have hrunning := h.running
  refine ⟨⟨ha.exitN.trans h.exitN, ha.sample.trans h.sample, ?_, ?_, ?_, ?_, ?_⟩, ?_⟩
  · rw [hdelivered, hpassing, h.taken, List.take_of_length_le (by omega), List.take_of_length_le]
    simpa using Nat.succ_le_of_lt hlt
  · simp [hcount, hpassing]
  · simp only [hcount, hpassing, List.length_append, List.length_singleton]
    omega
  · simp only [hreturns, hdelivered, List.length_append, List.length_singleton]
    omega
  · rw [hlog]
    apply each_concat (each_concat h.fits (arrived_fits h s true))
    exact ⟨fun s' _ => ⟨s, true, by simp⟩, nofun, nofun, by simp⟩
  · simp [hlog]

/-- A sample over the limit. -/
theorem Settled.over {k : Nat} {st st' : State} {s : Sample} {pass : Bool} (h : Settled d N k st)
    (ha : Arrived d st s pass st') (hle : N ≤ (passing d st.log).length) : Kept d N k st' where
  exitN := by rw [ha.exitN, h.exitN]
  sample := by rw [ha.sample, h.sample]
  taken := by
    rw [ha.log, delivered_concat, passing_concat, h.taken, List.take_append_of_le_length hle]
    simp
  counts hlt := by
    rw [ha.log, passing_concat, List.length_append] at hlt
    omega
  full _ := by
    have hfull := h.full hle
    rw [ha.count]
    omega
  running := by
    simpa [ha.log, delivered_concat, returns_concat] using h.running
  fits := by
    rw [ha.log]
    exact each_concat h.fits (arrived_fits h s pass)

/-- A sample that does not pass leaves the count as it was. -/
theorem Settled.reject {k : Nat} {st st' : State} {s : Sample} (h : Settled d N k st)
    (ha : Arrived d st s false st') (hlt : (passing d st.log).length < N) :
    Settled d N k (st'.uncount d) := by
  have hcount := ha.count
  rw [h.counts hlt] at hcount
  unfold State.uncount
  rw [if_pos (by omega)]
  refine ⟨⟨?_, ?_, ?_, ?_, ?_, ?_, ?_⟩, ?_⟩
  · simp [State.set, ha.exitN, h.exitN]
  · simp [State.set, ha.sample, h.sample]
  · simp [State.set, ha.log, delivered_concat, passing_concat, h.taken]
  · simp [State.set, ha.log, passing_concat, hcount]
  · simp [State.set, ha.log, passing_concat, hcount]
  · simpa [State.set, ha.log, delivered_concat, returns_concat] using h.running
  · simp only [State.set, ha.log]
    exact each_concat h.fits (arrived_fits h s false)
  · simp [State.set, ha.log]

/-- `prof->sample` comes back. -/
theorem Settled.return {k : Nat} {st : State} (h : Settled d N (k + 1) st) :
    Kept d N k (st.write (.returned d)) where
  exitN := h.exitN
  sample := h.sample
  taken := by simp [State.write, delivered_concat, passing_concat, h.taken]
  counts := by simpa [State.write, passing_concat] using h.counts
  full := by simpa [State.write, passing_concat] using h.full
  running := by
    have hrunning := h.running
    simp [State.write, delivered_concat, returns_concat]
    omega
  fits := by
    have hrunning := h.running
    apply each_concat h.fits
    refine ⟨nofun, fun _ => by omega, nofun, fun hlast hfull => absurd hfull (h.settled hlast)⟩

/-- The device takes a sample. -/
theorem Settled.sample_same {k : Nat} {st : State} (hN : 0 < N)
    (hhandler : ∀ k st, Settled d N k st → Settled d N k (handler st))
    (hflush : ∀ k st, Settled d N k st → Settled d N k (flush st)) (h : Settled d N k st) (s : Sample) :
    Settled d N k (st.sample handler flush d s) := by
  have ha := arrived_count hN h s (!(st.devs d).sample || st.passes d s)
  have hsample := ha.sample.trans h.sample
  have hwithin := h.within hN ha
  dsimp only [State.sample]
  by_cases hlt : (passing d st.log).length < N
  · rw [if_pos (hwithin.mpr hlt), if_pos hsample]
    cases hpass : !(st.devs d).sample || st.passes d s with
    | true =>
      rw [hpass] at ha
      rw [if_pos rfl]
      have hdone := hhandler (k + 1) _ (h.deliver ha hlt)
      exact hdone.return.limit hN hflush (.inr (by simp [State.write]))
    | false =>
      rw [hpass] at ha
      rw [if_neg Bool.false_ne_true]
      exact h.reject ha hlt
  · rw [if_neg (mt hwithin.mp hlt)]
    have hover := h.over ha (by omega)
    exact hover.limit hN hflush (.inl ⟨s, _, by rw [ha.log, List.getLast?_concat]⟩)

theorem Settled.process {k : Nat} {st : State} (hN : 0 < N)
    (hhandler : ∀ k st, Settled d N k st → Settled d N k (handler st))
    (hflush : ∀ k st, Settled d N k st → Settled d N k (flush st)) (h : Settled d N k st) (d' : Nat)
    (s : Sample) : Settled d N k (st.sample handler flush d' s) := by
  by_cases hd : d' = d
  · subst hd
    exact h.sample_same hN hhandler hflush s
  · exact h.sample_other hhandler hflush hd s

theorem route_known {devs : Nat → ProfDev} {d d' : Nat} {event event' : Event}
    (h : route devs d event = some (d', event')) (hknown : event.Known) : event'.Known := by
  unfold route at h
  split at h
  · split at h
    · cases h
    · cases h
      trivial
  · cases h
    trivial
  · cases h
    trivial
  · cases h
    exact hknown

mutual

theorem exec_settled (hN : 0 < N) (c : Call) (hknown : c.Known) (k : Nat) (st : State)
    (h : Settled d N k st) : Settled d N k (exec c st) := by
  cases c with
  | process d' event handler closing =>
    obtain ⟨hevent, hhandler, hclosing⟩ := hknown
    have hrun := execAll_settled hN handler hhandler
    have hflush := execAll_settled hN closing hclosing
    unfold exec
    cases hroute : route st.devs d' event with
    | none => exact h
    | some found =>
      obtain ⟨target, event'⟩ := found
      have hevent' := route_known hroute hevent
      cases event' with
      | sample s => exact h.process hN hrun hflush target s
      | dev source s => exact h.process hN hrun hflush target s
      | other => exact hrun k st h
      | unknown => exact absurd hevent' id
  | close d' closing =>
    unfold exec
    exact h.close (execAll_settled hN closing hknown) d'
  | enable d' enabledAfter =>
    unfold exec
    exact h.set (by rintro rfl; exact ⟨rfl, rfl, rfl⟩)
  | forward d' target =>
    unfold exec
    exact h.set (by rintro rfl; exact ⟨rfl, rfl, rfl⟩)

theorem execAll_settled (hN : 0 < N) (calls : List Call) (hknown : KnownAll calls) (k : Nat) (st : State)
    (h : Settled d N k st) : Settled d N k (execAll calls st) := by
  cases calls with
  | nil => exact h
  | cons c calls =>
    unfold execAll
    exact execAll_settled hN calls hknown.2 k _ (exec_settled hN c hknown.1 k st h)

end

end Step

section Main

variable {d N : Nat} {log : List Entry}

/-- None of the calls of `prof->sample` is running. -/
def Idle (d : Nat) (pre : List Entry) : Prop := (delivered d pre).length = returns d pre

/-- One is running, and nothing has come in since. -/
def Busy (d : Nat) (pre : List Entry) : Prop :=
  ∃ before s mid, pre = before ++ .sampled d s :: mid ∧ Idle d before ∧ ∀ e ∈ mid, ¬ e.OfSample d

/-- Entries that are no sample of the device leave both counts as they were. -/
theorem counts_append {pre mid : List Entry} (hmid : ∀ e ∈ mid, ¬ e.OfSample d) :
    delivered d (pre ++ mid) = delivered d pre ∧ returns d (pre ++ mid) = returns d pre := by
  induction mid using List.reverseRecOn with
  | nil => simp
  | append_singleton mid e ih =>
    have he : ¬ e.OfSample d := hmid e (by simp)
    obtain ⟨hdelivered, hreturns⟩ := ih fun e' he' => hmid e' (by simp [he'])
    rw [← List.append_assoc, delivered_concat, returns_concat, delivered_other he, returns_other he,
      hdelivered, hreturns]
    simp

theorem Busy.count {pre : List Entry} (h : Busy d pre) : (delivered d pre).length = returns d pre + 1 := by
  obtain ⟨before, s, mid, rfl, hbefore, hmid⟩ := h
  obtain ⟨hdelivered, hreturns⟩ := @counts_append d (before ++ [.sampled d s]) mid hmid
  have hidle : (delivered d before).length = returns d before := hbefore
  have hsplit : before ++ .sampled d s :: mid = before ++ [.sampled d s] ++ mid := by simp
  rw [hsplit, hdelivered, hreturns, delivered_concat, returns_concat]
  simp [hidle]

theorem Busy.last {pre : List Entry} (h : Busy d pre) : ∃ e, pre.getLast? = some e ∧
    ((∃ s, e = .sampled d s) ∨ ¬ e.OfSample d) := by
  obtain ⟨before, s, mid, rfl, -, hmid⟩ := h
  cases mid using List.reverseRecOn with
  | nil => exact ⟨.sampled d s, List.getLast?_concat, .inl ⟨s, rfl⟩⟩
  | append_singleton mid e =>
    have hsplit : before ++ .sampled d s :: (mid ++ [e]) = before ++ .sampled d s :: mid ++ [e] := by simp
    exact ⟨e, by rw [hsplit, List.getLast?_concat], .inr (hmid e (by simp))⟩

/-- Before the close a call of `prof->sample` has come back when the next sample comes in. -/
theorem idle_or_busy (hfits : Each (Fits d N) log) (hre : ReentersInClose d log) (pre post : List Entry)
    (hlog : log = pre ++ post) (hopen : .closed d ∉ pre) : Idle d pre ∨ Busy d pre := by
  induction pre using List.reverseRecOn generalizing post with
  | nil => exact .inl rfl
  | append_singleton pre e ih =>
    have hlog' : log = pre ++ e :: post := by simpa using hlog
    have hfit := hfits pre e post hlog'
    have hih := ih (e :: post) hlog' fun hmem => hopen (by simp [hmem])
    by_cases he : e.OfSample d
    · cases e with
      | arrived d' s pass =>
        cases he
        cases hih with
        | inl hidle =>
          have hidle : (delivered d pre).length = returns d pre := hidle
          exact .inl (by simp [Idle, delivered_concat, returns_concat, hidle])
        | inr hbusy =>
          obtain ⟨before, s', mid, rfl, -, hmid⟩ := hbusy
          cases hre before s' mid s pass post hlog' with
          | inl hreturned => exact absurd rfl (hmid _ hreturned)
          | inr hclosed =>
            apply absurd _ hopen
            simp only [List.mem_append, List.mem_cons] at hclosed ⊢
            tauto
      | sampled d' s =>
        cases he
        obtain ⟨s', pass, hlast⟩ := hfit.sampled s rfl
        cases hih with
        | inl hidle => exact .inr ⟨pre, s, [], rfl, hidle, by simp⟩
        | inr hbusy =>
          obtain ⟨e, hlast', he⟩ := hbusy.last
          cases hlast.symm.trans hlast'
          simp [Entry.OfSample] at he
      | returned d' =>
        cases he
        have hlt := hfit.returned rfl
        cases hih with
        | inl hidle => exact absurd hlt (by rw [hidle]; exact Nat.lt_irrefl _)
        | inr hbusy => exact .inl (by simp [Idle, delivered_concat, returns_concat, hbusy.count])
      | closing d' => exact absurd he id
      | closed d' => exact absurd he id
    · cases hih with
      | inl hidle =>
        obtain ⟨hdelivered, hreturns⟩ := @counts_append d pre [e] (by simpa using he)
        have hidle : (delivered d pre).length = returns d pre := hidle
        exact .inl (by simp [Idle, hdelivered, hreturns, hidle])
      | inr hbusy =>
        obtain ⟨before, s, mid, rfl, hbefore, hmid⟩ := hbusy
        refine .inr ⟨before, s, mid ++ [e], by simp, hbefore, ?_⟩
        intro e' he'
        cases List.mem_append.mp he' with
        | inl h => exact hmid e' h
        | inr h => rw [List.mem_singleton.mp h]; exact he

/-- The close comes when no call of `prof->sample` is running, unless the device is being closed. -/
theorem closing_idle (hfits : Each (Fits d N) log) (hre : ReentersInClose d log) (pre post : List Entry)
    (hlog : log = pre ++ .closing d :: post) : .closed d ∈ pre ∨ returns d pre = N := by
  by_cases hclosed : .closed d ∈ pre
  · exact .inl hclosed
  · right
    obtain ⟨hfull, hlast⟩ := (hfits pre _ post hlog).closing rfl
    cases idle_or_busy hfits hre pre _ hlog hclosed with
    | inl hidle => exact hidle.symm.trans hfull
    | inr hbusy =>
      obtain ⟨e, hlast', he⟩ := hbusy.last
      rw [hlast'] at hlast
      simp only [Option.some.injEq] at hlast
      rcases hlast with ⟨s, pass, rfl⟩ | rfl
      · simp [Entry.OfSample] at he
      · simp [Entry.OfSample] at he

/-- With `-N` a device gets the first `N` samples that pass both tests and no other. When a sample is
done that makes `N`, `prof_dev_close` comes next, and it does not come before. -/
theorem limit_exact (calls : List Call) (devs : Nat → ProfDev) (d N : Nat) (hN : 0 < N)
    (hexit : (devs d).exitN = N) (hcount : (devs d).sampledEvents = 0) (hsample : (devs d).sample = true)
    (hknown : KnownAll calls) :
    let log := (execAll calls ⟨devs, []⟩).log
    delivered d log = (passing d log).take N ∧
    (∀ pre post, log = pre ++ .returned d :: post → (delivered d pre).length = N →
      post.head? = some (.closing d)) ∧
    (∀ pre post, log = pre ++ .closing d :: post →
      (delivered d pre).length = N ∧ delivered d post = []) ∧
    (ReentersInClose d log → ∀ pre post, log = pre ++ .closing d :: post →
      .closed d ∈ pre ∨ returns d pre = N) := by
  have hstart : Settled d N 0 ⟨devs, []⟩ := by
    refine ⟨⟨hexit, hsample, by simp [delivered, passing], fun _ => hcount, ?_, rfl, ?_⟩, nofun⟩
    · intro hle
      exact absurd hle (by simp [passing]; omega)
    · intro pre e post hlog
      simp at hlog
  have hrun := execAll_settled hN calls hknown 0 _ hstart
  intro log
  refine ⟨hrun.taken, ?_, ?_, fun hre pre post hlog => closing_idle hrun.fits hre pre post hlog⟩
  · intro pre post hlog hfull
    have hdone : (delivered d (pre ++ [.returned d])).length = N := by simpa [delivered_concat] using hfull
    cases post with
    | nil =>
      have hlast : log.getLast? = some (.returned d) := by rw [hlog, List.getLast?_concat]
      exact absurd (hlog ▸ hdone : (delivered d log).length = N) (hrun.settled hlast)
    | cons e post =>
      have hfit := hrun.fits (pre ++ [.returned d]) e post (by simpa using hlog)
      simp [hfit.after List.getLast?_concat hdone]
  · intro pre post hlog
    have hfull := ((hrun.fits pre _ post hlog).closing rfl).1
    refine ⟨hfull, ?_⟩
    have hle : (delivered d log).length ≤ N := by
      rw [hrun.taken]
      exact List.length_take_le _ _
    have hsplit : log = pre ++ [.closing d] ++ post := by simpa using hlog
    have : (delivered d log).length = N + (delivered d post).length := by
      rw [hsplit]
      simp [delivered, List.filterMap_append] at hfull ⊢
      omega
    exact List.length_eq_zero_iff.mp (by omega)

/-- The second sample comes in the flush of the close that the first one brings about. -/
theorem limit_exact_flush :
    let calls := [Call.process 0 (.sample ⟨1, 5, fun _ => 1⟩) []
      [.process 0 (.sample ⟨2, 6, fun _ => 1⟩) [] []]]
    let log := (execAll calls ⟨fun _ => ⟨1, 0, true, true, true, 0, none, false⟩, []⟩).log
    delivered 0 log = (passing 0 log).take 1 ∧
    (∀ pre post, log = pre ++ .returned 0 :: post → (delivered 0 pre).length = 1 →
      post.head? = some (.closing 0)) ∧
    (∀ pre post, log = pre ++ .closing 0 :: post →
      (delivered 0 pre).length = 1 ∧ delivered 0 post = []) ∧
    (ReentersInClose 0 log → ∀ pre post, log = pre ++ .closing 0 :: post →
      .closed 0 ∈ pre ∨ returns 0 pre = 1) :=
  limit_exact _ (fun _ => ⟨1, 0, true, true, true, 0, none, false⟩) 0 1 Nat.one_pos rfl rfl rfl
    ⟨⟨trivial, trivial, ⟨trivial, trivial, trivial⟩, trivial⟩, trivial⟩

end Main

end PerfProf.SampleLimit
