import PerfProf.OrderOnce

/-! Whose loss is reported. The merge keeps the last `PERF_RECORD_LOST` in one local variable
for all ring buffers and gives it to the ring buffer whose next sample it reads. `Watched`
runs note what each step shows of a ring buffer; `expected` says which calls of
`prof->lost` that calls for. -/
namespace PerfProf.OrderProcess
open PerfProf.Heap PerfProf.Loop PerfProf.Ring

/-- One call of `prof->lost`; `from_` is the last loss record it stands for. -/
structure LostCall where
  from_ : Nat × Nat
  dev : Nat
  ins : Nat
  lost : Nat
  first : Nat
  last : Nat
deriving DecidableEq

def Handed.lostCall : Handed → Option LostCall
  | .lost from_ dev _ n ins first last => some ⟨from_, dev, ins, n, first, last⟩
  | _ => none

def lostCalls (log : List Handed) : List LostCall := log.filterMap Handed.lostCall

/-- What a step shows of ring buffer `i`: a sample is processed, a loss record for
`prof->lost` is read at `pos`, or a sample is read and becomes the heap event. Times are
heap times. -/
inductive Seen where
  | processed (i time : Nat)
  | loss (i pos lost : Nat)
  | next (i time : Nat)
deriving DecidableEq

/-- What the next record of ring buffer `i` shows; `s'` is the state after the step. -/
def Order.readSeen (c : Config) (s : Order) (i : Nat) (s' : Order) : List Seen :=
  match s.readNext i with
  | (_, none) => []
  | (s, some (r, _)) =>
    match r.sample? with
    | some _ => [.next i (s'.maps i).time]
    | none =>
      match s.lostFor c i r with
      | some l => [.loss i l.from_.2 l.lost]
      | none => []

def look (c : Config) (k : Call) (s' : Order) : List Seen :=
  match k.pc with
  | .top =>
    match k.s.heap with
    | .mmap i :: _ =>
      if k.frame.targetTime < (k.s.maps i).time ∨ (k.s.lostWait c i).2 then []
      else [.processed i (s'.maps i).time]
    | _ => []
  | .mmapRetry i _ _ => k.s.readSeen c i s'
  | .consume i needBreak => (consumeTail c k i needBreak).1.readSeen c i s'
  | _ => []

/-- The runs all of whose steps satisfy `ok`, with what they have shown. -/
inductive Watched (c : Config) (H : MinHeap HeapId) (ok : Call → Bool) (s₀ : Order) :
    Point → List Seen → Prop where
  | boot : Watched c H ok s₀ (.idle s₀) []
  | call {s : Order} {τ : List Seen} (targetMap : Option Nat) (targetTm : Nat)
      (h : Watched c H ok s₀ (.idle s) τ) :
      Watched c H ok s₀ (orderStart c s targetMap targetTm) τ
  | step {k k' : Call} {τ : List Seen} (h : Watched c H ok s₀ (.inside k) τ) (hk : ok k = true)
      (hp : orderPass c H k = .again k') : Watched c H ok s₀ (.inside k') (τ ++ look c k k'.s)
  | ret {k k' : Call} {τ : List Seen} (h : Watched c H ok s₀ (.inside k) τ) (hk : ok k = true)
      (hp : orderPass c H k = .done k' ()) : Watched c H ok s₀ (.idle k'.s) (τ ++ look c k k'.s)

/-- The books of the losses: for each ring buffer the time of the last sample processed and
the losses since, and the calls due so far. -/
structure Due where
  last : Nat → Nat
  lost : Nat → Nat
  from_ : Nat → Nat
  calls : List LostCall

def Due.start : Due := ⟨fun _ => 0, fun _ => 0, fun _ => 0, []⟩

/-- A loss waits for the next sample of its own ring buffer; losses that wait are added up. -/
def Due.see (c : Config) (d : Due) : Seen → Due
  | .processed i time => { d with last := Function.update d.last i time }
  | .loss i pos n => { d with
      lost := Function.update d.lost i (d.lost i + n), from_ := Function.update d.from_ i pos }
  | .next i time =>
    if d.lost i = 0 then d
    else { d with
      lost := Function.update d.lost i 0
      calls := d.calls ++ [⟨(i, d.from_ i), c.dev (.mmap i), c.ins i, d.lost i,
        heapclockToEvclock c (d.last i), heapclockToEvclock c time⟩] }

def due (c : Config) (τ : List Seen) : Due := τ.foldl (Due.see c) .start

/-- The calls of `prof->lost` that a run owes. -/
def expected (c : Config) (τ : List Seen) : List LostCall := (due c τ).calls

/-- The next record of ring buffer `i` is there and is not another loss for `prof->lost`. -/
def Order.followed (c : Config) (s : Order) (i : Nat) : Bool :=
  match s.readNext i with
  | (_, none) => false
  | (s, some (r, _)) => (s.lostFor c i r).isNone

/-- While a loss is kept back, its ring buffer neither runs empty nor shows another loss. -/
def prompt (c : Config) (k : Call) : Bool :=
  match k.pc with
  | .mmapRetry i lost _ => lost.lost = 0 || k.s.followed c i
  | .consume i needBreak => k.frame.lost.lost = 0 || (consumeTail c k i needBreak).1.followed c i
  | _ => true

section Ledger

/-- What the loss reports depend on. -/
structure Ledger where
  calls : List LostCall
  mono : Nat → Nat
  time : Nat → Nat

def Order.ledger (s : Order) : Ledger :=
  ⟨lostCalls s.log, fun i => (s.maps i).eventMonoTime, fun i => (s.maps i).time⟩

theorem ledger_updMap (s : Order) (i : Nat) (f : MmapEvent → MmapEvent) :
    (s.updMap i f).ledger = { s.ledger with
      mono := Function.update s.ledger.mono i (f (s.maps i)).eventMonoTime
      time := Function.update s.ledger.time i (f (s.maps i)).time } := by
  have hmaps : ∀ (g : MmapEvent → Nat), (fun j => g (Function.update s.maps i (f (s.maps i)) j)) =
      Function.update (fun j => g (s.maps j)) i (g (f (s.maps i))) := by
    intro g
    funext j
    by_cases hj : j = i
    · subst hj
      rw [Function.update_self, Function.update_self]
    · rw [Function.update_of_ne hj, Function.update_of_ne hj]
  simp only [Order.ledger, Order.updMap, hmaps]

theorem ledger_keep (s : Order) (i : Nat) (f : MmapEvent → MmapEvent)
    (hm : (f (s.maps i)).eventMonoTime = (s.maps i).eventMonoTime)
    (ht : (f (s.maps i)).time = (s.maps i).time) : (s.updMap i f).ledger = s.ledger := by
  have hm' : Function.update s.ledger.mono i (s.maps i).eventMonoTime = s.ledger.mono :=
    Function.update_eq_self i s.ledger.mono
  have ht' : Function.update s.ledger.time i (s.maps i).time = s.ledger.time :=
    Function.update_eq_self i s.ledger.time
  rw [ledger_updMap, hm, ht, hm', ht']

@[simp] theorem ledger_updRing (s : Order) (i : Nat) (f : PerfMmap → PerfMmap) :
    (s.updRing i f).ledger = s.ledger :=
  ledger_keep s i _ rfl rfl

@[simp] theorem ledger_updDev (s : Order) (d : Nat) (f : DevOrder → DevOrder) :
    (s.updDev d f).ledger = s.ledger := rfl

@[simp] theorem ledger_updStream (s : Order) (j : Nat) (f : StreamEvent → StreamEvent) :
    (s.updStream j f).ledger = s.ledger := rfl

@[simp] theorem ledger_setHeap (s : Order) (heap : List HeapId) :
    (s.setHeap heap).ledger = s.ledger := rfl

@[simp] theorem ledger_tick (s : Order) : s.tick.ledger = s.ledger := by
  have hout : ∀ (batch : List (Nat × Record)) (s : Order),
      (s.kernelOutput batch).ledger = s.ledger := by
    intro batch
    induction batch with
    | nil => intro s; rfl
    | cons b rest ih => intro s; rw [Order.kernelOutput, ih, ledger_updRing]
  cases ha : s.arrivals with
  | nil => simp only [Order.tick, ha]
  | cons batch rest =>
    simp only [Order.tick, ha, hout]
    rfl

@[simp] theorem ledger_readNext (s : Order) (i : Nat) : (s.readNext i).1.ledger = s.ledger := by
  simp only [Order.readNext, ledger_updRing, ledger_tick]

@[simp] theorem ledger_mmapConsume (s : Order) (i : Nat) :
    (s.mmapConsume i).ledger = s.ledger := by
  simp only [Order.mmapConsume, ledger_updRing, ledger_tick]

@[simp] theorem ledger_hand (s : Order) (h : Handed) :
    (s.hand h).ledger = { s.ledger with calls := s.ledger.calls ++ h.lostCall.toList } := by
  cases hc : h.lostCall <;> simp [Order.ledger, Order.hand, lostCalls, hc]

@[simp] theorem ledger_countLost (c : Config) (s : Order) (i : Nat) (r : Record) :
    (s.countLost c i r).ledger = s.ledger := by
  unfold Order.countLost
  split
  · rfl
  · rfl

@[simp] theorem ledger_processRecord (c : Config) (s : Order) (i : Nat) (r : Record) (w : Bool) :
    (s.processRecord c i r w).ledger = s.ledger := by
  rw [Order.processRecord, ledger_hand]
  simp [Handed.lostCall]

@[simp] theorem ledger_consumeTail (c : Config) (k : Call) (i : Nat) (nb : Bool) :
    (consumeTail c k i nb).1.ledger = k.s.ledger := by
  have hd : (k.s.consumeDeferred c i).ledger = k.s.ledger := by
    simp only [Order.consumeDeferred]
    split
    · exact ledger_mmapConsume k.s i
    · rfl
  simp only [consumeTail]
  split
  · exact hd
  · exact hd

@[simp] theorem ledger_lostWait (c : Config) (s : Order) (i : Nat) :
    (s.lostWait c i).1.ledger = s.ledger := by
  simp only [Order.lostWait]
  split
  · split
    · exact ledger_keep s i _ rfl rfl
    · rw [ledger_updDev]
      exact ledger_keep s i _ rfl rfl
  · split
    · split
      · exact ledger_tick s
      · rw [ledger_updDev, ledger_keep _ i _ rfl rfl]
        exact ledger_tick s
    · rw [ledger_keep _ i _ rfl rfl, ledger_tick]

@[simp] theorem ledger_unwind (s : Order) (heap : List HeapId) :
    (s.unwind heap).ledger = s.ledger := by
  induction heap generalizing s with
  | nil => rfl
  | cons e rest ih =>
    cases e with
    | mmap i => rw [Order.unwind, ih, ledger_mmapConsume, ledger_updRing]
    | stream j => rw [Order.unwind, ih, ledger_updStream]

@[simp] theorem ledger_stop (s : Order) (reason : BreakReason) :
    (s.stop reason).ledger = s.ledger := by
  rw [Order.stop, ledger_unwind]
  rfl

@[simp] theorem ledger_popTime (c : Config) (s : Order) (e : HeapId) (t ins : Nat) :
    (s.popTime c e t ins).ledger = s.ledger := by
  simp only [Order.popTime]
  split <;> split <;> rfl

theorem ledger_loadSample (c : Config) (s : Order) (i : Nat) (r : Record) (t : Nat) (w : Bool) :
    (s.loadSample c i r t w).ledger =
      { s.ledger with time := Function.update s.ledger.time i (heapclock c t) } := by
  have hm : Function.update s.ledger.mono i (s.maps i).eventMonoTime = s.ledger.mono :=
    Function.update_eq_self i s.ledger.mono
  rw [Order.loadSample, ledger_updMap, hm]

theorem ledger_fixOutOfOrder (c : Config) (s : Order) (i t : Nat) :
    (s.fixOutOfOrder c i t).ledger =
      { s.ledger with time := Function.update s.ledger.time i t } := by
  have hm : Function.update s.ledger.mono i (s.maps i).eventMonoTime = s.ledger.mono :=
    Function.update_eq_self i s.ledger.mono
  rw [Order.fixOutOfOrder, ledger_updDev, ledger_updMap, hm]

/-- The call for a loss `lost` that is reported at the heap event of ring buffer `i`. -/
def Ledger.call (c : Config) (l : Ledger) (i : Nat) (lost : Lost) : LostCall :=
  ⟨lost.from_, c.dev (.mmap i), c.ins i, lost.lost, heapclockToEvclock c (l.mono i),
    heapclockToEvclock c (l.time i)⟩

theorem ledger_reportLost (c : Config) (s : Order) (i : Nat) (lost : Lost) :
    (s.reportLost c i lost).ledger = if lost.lost = 0 then s.ledger
      else { s.ledger with calls := s.ledger.calls ++ [s.ledger.call c i lost] } := by
  by_cases h0 : lost.lost = 0
  · rw [Order.reportLost, if_neg (by simp [h0]), if_pos h0]
  · rw [Order.reportLost, if_pos h0, if_neg h0, ledger_hand]
    rfl

/-- Processing the event at the root sets both times of its ring buffer. -/
theorem ledger_processRoot (c : Config) (s : Order) (i : Nat) :
    ∃ t, (s.processRoot c i).ledger = { s.ledger with
      mono := Function.update s.ledger.mono i t, time := Function.update s.ledger.time i t } := by
  simp only [Order.processRoot, ledger_processRecord, ledger_popTime]
  split
  · refine ⟨(s.maps i).eventMonoTime, ?_⟩
    have hm : Function.update s.ledger.mono i (s.maps i).eventMonoTime = s.ledger.mono :=
      Function.update_eq_self i s.ledger.mono
    rw [ledger_fixOutOfOrder, hm]
  · exact ⟨(s.maps i).time, ledger_updMap s i _⟩

@[simp] theorem ledger_streamInit (s : Order) (j : Nat) : (s.streamInit j).1.ledger = s.ledger := by
  have hread : (s.readStream j).1.ledger = s.ledger := by
    unfold Order.readStream
    split
    · rfl
    · rfl
    · rfl
  unfold Order.streamInit
  generalize s.readStream j = r at hread
  obtain ⟨t, _ | r⟩ := r
  · exact hread
  · cases hk : r.kind with
    | sample time => simpa only [hk, ledger_updStream] using hread
    | orderTime time => simpa only [hk, ledger_updStream] using hread
    | other type => simpa only [hk, ledger_hand, Handed.lostCall, Option.toList_none,
        List.append_nil] using hread

end Ledger

section Account
variable {c : Config} {H : MinHeap HeapId}

/-- The only loss that waits is `lost`, and it is one of ring buffer `i`. -/
def Due.Waits (d : Due) (i : Nat) (lost : Lost) : Prop :=
  (∀ j, d.lost j = if j = i then lost.lost else 0) ∧
    (lost.lost ≠ 0 → lost.from_ = (i, d.from_ i))

/-- The calls made so far are those due, and the times noted are those of the samples
processed last. -/
structure Due.Books (d : Due) (l : Ledger) : Prop where
  calls : d.calls = l.calls
  last : d.last = l.mono

/-- What holds at a program point of a run that reports every loss in time. -/
def Accounted (k : Call) (d : Due) : Prop :=
  d.Books k.s.ledger ∧
  match k.pc with
  | .mmapRetry i lost _ => k.frame.lost.lost = 0 ∧ d.Waits i lost
  | .consume i _ => d.Waits i k.frame.lost
  | _ => k.frame.lost.lost = 0 ∧ ∀ j, d.lost j = 0

def AccountedPass (d : Due) : Pass Call Unit → Prop
  | .again k => Accounted k d
  | .done k _ => d.Books k.s.ledger ∧ ∀ j, d.lost j = 0

theorem Due.Waits.none {d : Due} {i : Nat} {lost : Lost} (h : d.Waits i lost) (h0 : lost.lost = 0)
    (j : Nat) : d.lost j = 0 := by
  rw [h.1 j, h0, ite_self]

theorem Due.waits_of_none {d : Due} (h : ∀ j, d.lost j = 0) (i : Nat) {lost : Lost}
    (h0 : lost.lost = 0) : d.Waits i lost := by
  refine ⟨fun j => ?_, fun hne => absurd h0 hne⟩
  rw [h j, h0, ite_self]

/-- A loss read while none waits. -/
theorem Due.Waits.loss {d : Due} {i : Nat} {lost l : Lost} (h : d.Waits i lost)
    (h0 : lost.lost = 0) (hl : l.from_.1 = i) :
    (d.see c (.loss i l.from_.2 l.lost)).Waits i l := by
  refine ⟨fun j => ?_, fun _ => ?_⟩
  · simp only [Due.see, h.none h0, Nat.zero_add]
    by_cases hj : j = i
    · subst hj
      rw [Function.update_self, if_pos rfl]
    · rw [Function.update_of_ne hj, if_neg hj, h.none h0]
  · simp only [Due.see, Function.update_self]
    rw [← hl]

/-- The next sample of the ring buffer settles the loss. -/
theorem Due.Waits.next {d : Due} {i : Nat} {lost : Lost} {s : Order} (h : d.Waits i lost)
    (hb : d.Books s.ledger) :
    (d.see c (.next i (s.maps i).time)).Books (s.reportLost c i lost).ledger ∧
      ∀ j, (d.see c (.next i (s.maps i).time)).lost j = 0 := by
  have hi : d.lost i = lost.lost := by
    rw [h.1 i, if_pos rfl]
  rw [ledger_reportLost, Due.see, hi]
  by_cases h0 : lost.lost = 0
  · rw [if_pos h0, if_pos h0]
    exact ⟨hb, h.none h0⟩
  · rw [if_neg h0, if_neg h0]
    refine ⟨⟨?_, hb.last⟩, fun j => ?_⟩
    · simp only [hb.calls, hb.last, Ledger.call, h.2 h0]
      rfl
    · by_cases hj : j = i
      · subst hj
        exact Function.update_self ..
      · simp only [Function.update_of_ne hj]
        rw [h.1 j, if_neg hj]

theorem lostFor_countLost (s : Order) (i : Nat) (r : Record) :
    (s.countLost c i r).lostFor c i r = s.lostFor c i r := by
  unfold Order.countLost
  split
  · rfl
  · rfl

theorem lostFor_from {s : Order} {i : Nat} {r : Record} {l : Lost}
    (h : s.lostFor c i r = some l) : l.from_.1 = i := by
  unfold Order.lostFor at h
  split at h
  · split at h
    · cases h
      rfl
    · cases h
  · cases h

def passOrder : Pass Call Unit → Order
  | .again k => k.s
  | .done k _ => k.s

theorem leave_ledger (k : Call) (s : Order) (nb : Bool) :
    (passOrder (leave k s nb)).ledger = s.ledger := by
  cases nb with
  | true => exact ledger_unwind s s.heap
  | false => rfl

/-- Reporting a loss and leaving the iteration do not touch the heap event of `i`. -/
theorem leave_time (k : Call) (s : Order) (i : Nat) (lost : Lost) (nb : Bool) :
    ((passOrder (leave k (s.reportLost c i lost) nb)).maps i).time = (s.maps i).time := by
  have hl : (passOrder (leave k (s.reportLost c i lost) nb)).ledger.time i = s.ledger.time i := by
    rw [leave_ledger, ledger_reportLost]
    split
    · rfl
    · rfl
  exact hl

theorem leave_accounted {k : Call} {s : Order} {nb : Bool} {d : Due} (hb : d.Books s.ledger)
    (hf : k.frame.lost.lost = 0) (hd : ∀ j, d.lost j = 0) :
    AccountedPass d (leave k s nb) := by
  cases nb with
  | true => exact ⟨by simpa using hb, hd⟩
  | false => exact ⟨hb, hf, hd⟩

theorem consumePass_accounted {k : Call} {i : Nat} {nb : Bool} {d : Due}
    (hpc : k.pc = .consume i nb) (h : Accounted k d) (hok : prompt c k = true) :
    AccountedPass ((look c k (passOrder (consumePass c H k i nb))).foldl (Due.see c) d)
      (consumePass c H k i nb) := by
  simp only [Accounted, prompt, look, hpc] at h hok ⊢
  obtain ⟨hb, hw⟩ := h
  have hledger := ledger_consumeTail c k i nb
  simp only [consumePass, Order.readSeen, Order.followed] at hok ⊢
  generalize consumeTail c k i nb = t at hledger hok
  obtain ⟨s, nb'⟩ := t
  have hread := ledger_readNext s i
  simp only at hledger hread hok ⊢
  rw [hledger] at hread
  generalize s.readNext i = out at hread hok
  obtain ⟨s₁, _ | ⟨r, w⟩⟩ := out
  · -- the ring buffer has run empty, so no loss waits
    have h0 : k.frame.lost.lost = 0 := by simpa using hok
    refine leave_accounted ?_ h0 (hw.none h0)
    simp only [ledger_setHeap, ledger_updRing]
    rw [hread]
    exact hb
  · cases hs : r.sample? with
    | some t =>
      simp only [hs, List.foldl_cons, List.foldl_nil]
      have hload : d.Books ((s₁.loadSample c i r t w).setHeap
          (H.siftDown (s₁.loadSample c i r t w).time (s₁.loadSample c i r t w).heap)).ledger := by
        rw [ledger_setHeap, ledger_loadSample, hread]
        exact ⟨hb.calls, hb.last⟩
      generalize (s₁.loadSample c i r t w).setHeap _ = s₂ at hload
      rw [leave_time]
      obtain ⟨hbooks, hnone⟩ := hw.next (c := c) hload
      exact leave_accounted hbooks rfl hnone
    | none =>
      simp only [hs, lostFor_countLost]
      cases hl : s₁.lostFor c i r with
      | some l =>
        have h0 : k.frame.lost.lost = 0 := by simpa [hl] using hok
        refine ⟨?_, hw.loss (c := c) h0 (lostFor_from hl)⟩
        simp only [List.foldl_cons, List.foldl_nil, ledger_countLost]
        rw [hread]
        exact ⟨hb.calls, hb.last⟩
      | none =>
        refine ⟨?_, hw⟩
        simp only [List.foldl_nil, ledger_processRecord, ledger_countLost]
        rw [hread]
        exact hb

theorem mmapRetry_accounted {k : Call} {i : Nat} {lost : Lost} {todo : List HeapId} {d : Due}
    (hpc : k.pc = .mmapRetry i lost todo) (h : Accounted k d) (hok : prompt c k = true) :
    Accounted ⟨(k.s.mmapRetry c i lost todo).1, (k.s.mmapRetry c i lost todo).2, k.frame⟩
      ((look c k (k.s.mmapRetry c i lost todo).1).foldl (Due.see c) d) := by
  simp only [Accounted, prompt, look, hpc] at h hok ⊢
  obtain ⟨hb, hf, hw⟩ := h
  have hread := ledger_readNext k.s i
  simp only [Order.mmapRetry, Order.readSeen, Order.followed] at hok ⊢
  generalize k.s.readNext i = out at hread hok
  obtain ⟨s₁, _ | ⟨r, w⟩⟩ := out
  · have h0 : lost.lost = 0 := by simpa using hok
    refine ⟨?_, hf, hw.none h0⟩
    simp only [List.foldl_nil, ledger_updRing]
    rw [hread]
    exact hb
  · cases hs : r.sample? with
    | some t =>
      simp only [hs, List.foldl_cons, List.foldl_nil, Order.enterHeap, ledger_setHeap]
      have hload : d.Books (s₁.loadSample c i r t w).ledger := by
        rw [ledger_loadSample, hread]
        exact ⟨hb.calls, hb.last⟩
      generalize s₁.loadSample c i r t w = s₂ at hload
      have hfix : d.Books (if (s₂.maps i).time < s₂.heapPoppedTime then
          s₂.fixOutOfOrder c i s₂.heapPoppedTime else s₂).ledger := by
        split
        · rw [ledger_fixOutOfOrder]
          exact ⟨hload.calls, hload.last⟩
        · exact hload
      generalize (if (s₂.maps i).time < s₂.heapPoppedTime then
        s₂.fixOutOfOrder c i s₂.heapPoppedTime else s₂) = s₃ at hfix
      have htime : (((s₃.reportLost c i lost).setHeap
          ((s₃.reportLost c i lost).heap ++ [.mmap i])).maps i).time = (s₃.maps i).time := by
        unfold Order.reportLost
        split
        · rfl
        · rfl
      rw [htime]
      obtain ⟨hbooks, hnone⟩ := hw.next (c := c) hfix
      exact ⟨hbooks, hf, hnone⟩
    | none =>
      simp only [hs, lostFor_countLost]
      cases hl : s₁.lostFor c i r with
      | some l =>
        have h0 : lost.lost = 0 := by simpa [hl] using hok
        refine ⟨?_, hf, hw.loss (c := c) h0 (lostFor_from hl)⟩
        simp only [List.foldl_cons, List.foldl_nil, ledger_mmapConsume, ledger_countLost]
        rw [hread]
        exact ⟨hb.calls, hb.last⟩
      | none =>
        refine ⟨?_, hf, hw⟩
        simp only [List.foldl_nil, ledger_mmapConsume, ledger_processRecord, ledger_countLost]
        rw [hread]
        exact hb

theorem topPass_accounted {k : Call} {d : Due} (hpc : k.pc = .top) (h : Accounted k d) :
    AccountedPass ((look c k (passOrder (topPass c k))).foldl (Due.see c) d) (topPass c k) := by
  simp only [Accounted, look, hpc] at h ⊢
  obtain ⟨hb, hf, hd⟩ := h
  unfold topPass
  cases hheap : k.s.heap with
  | nil => exact ⟨by simpa [hheap] using hb, hd⟩
  | cons e rest =>
    cases e with
    | stream j =>
      refine ⟨?_, hf, hd⟩
      simpa [hheap, Handed.lostCall] using hb
    | mmap i =>
      simp only
      by_cases htt : k.frame.targetTime < (k.s.maps i).time
      · simp only [htt, if_true, true_or, List.foldl_nil]
        exact ⟨by simpa using hb, hd⟩
      · simp only [htt, if_false, false_or]
        have hlw := ledger_lostWait c k.s i
        generalize k.s.lostWait c i = out at hlw
        obtain ⟨s₁, wait⟩ := out
        cases wait with
        | true => exact ⟨by simpa [hlw] using hb, hd⟩
        | false =>
          obtain ⟨t, ht⟩ := ledger_processRoot c s₁ i
          have htime : ((s₁.processRoot c i).maps i).time = t := by
            have hl : (s₁.processRoot c i).ledger.time i = t := by
              rw [ht]
              exact Function.update_self ..
            exact hl
          simp only [passOrder, htime, Bool.false_eq_true, if_false, List.foldl_cons,
            List.foldl_nil]
          refine ⟨?_, Due.waits_of_none hd i hf⟩
          rw [ht, hlw]
          refine ⟨hb.calls, ?_⟩
          simp only [Due.see, hb.last]

theorem heapInitPass_accounted {k : Call} {todo : List HeapId} {d : Due}
    (hb : d.Books k.s.ledger) (hf : k.frame.lost.lost = 0) (hd : ∀ j, d.lost j = 0) :
    AccountedPass d (heapInitPass H k todo) := by
  cases todo with
  | nil => exact ⟨hb, hf, hd⟩
  | cons e todo =>
    cases e with
    | mmap i =>
      simp only [heapInitPass]
      refine ⟨by simpa using hb, ?_⟩
      split_ifs
      · exact ⟨hf, Due.waits_of_none hd i rfl⟩
      · exact ⟨hf, hd⟩
    | stream j =>
      simp only [heapInitPass]
      split
      · exact ⟨by simpa using hb, hf, hd⟩
      · exact ⟨hb, hf, hd⟩

theorem streamStep_accounted {k : Call} {d : Due}
    (hpc : (∃ j todo, k.pc = .streamRetry j todo) ∨ ∃ j, k.pc = .streamNext j)
    (h : Accounted k d) : AccountedPass d (orderPass c H k) := by
  rcases hpc with ⟨j, todo, hpc⟩ | ⟨j, hpc⟩
  all_goals
    simp only [Accounted, hpc] at h
    obtain ⟨hb, hf, hd⟩ := h
    have hs := ledger_streamInit k.s j
    simp only [orderPass, hpc]
    generalize k.s.streamInit j = out at hs
    obtain ⟨s₁, _ | _ | _⟩ := out
    · exact ⟨by simpa [hs] using hb, hd⟩
    · exact ⟨by simpa [hs] using hb, hf, hd⟩
    · exact ⟨by simpa [hs] using hb, hf, hd⟩

/-- One step keeps the account, provided the loss kept back does not get lost. -/
theorem orderPass_accounted {k : Call} {d : Due} (h : Accounted k d) (hok : prompt c k = true) :
    AccountedPass ((look c k (passOrder (orderPass c H k))).foldl (Due.see c) d)
      (orderPass c H k) := by
  cases hpc : k.pc with
  | heapInit todo =>
    simp only [Accounted, hpc] at h
    simp only [look, orderPass, hpc]
    exact heapInitPass_accounted h.1 h.2.1 h.2.2
  | mmapRetry i lost todo =>
    have hm := mmapRetry_accounted hpc h hok
    simp only [orderPass, hpc, passOrder]
    exact hm
  | streamRetry j todo =>
    simp only [look, hpc, List.foldl_nil]
    exact streamStep_accounted (.inl ⟨j, todo, hpc⟩) h
  | top =>
    have ht := topPass_accounted (c := c) hpc h
    simpa only [orderPass, hpc] using ht
  | streamNext j =>
    simp only [look, hpc, List.foldl_nil]
    exact streamStep_accounted (.inr ⟨j, hpc⟩) h
  | consume i nb =>
    have hc := consumePass_accounted (H := H) hpc h hok
    simpa only [orderPass, hpc] using hc

def Point.Accounted (d : Due) : Point → Prop
  | .idle s => d.Books s.ledger ∧ ∀ j, d.lost j = 0
  | .inside k => OrderProcess.Accounted k d

theorem orderStart_accounted {s : Order} {d : Due} (h : d.Books s.ledger) (hd : ∀ j, d.lost j = 0)
    (targetMap : Option Nat) (targetTm : Nat) :
    (orderStart c s targetMap targetTm).Accounted d := by
  unfold orderStart
  simp only
  split
  · exact ⟨h, hd⟩
  · cases targetMap with
    | none => exact ⟨h, rfl, hd⟩
    | some i =>
      simp only
      split
      · split
        · exact ⟨by simpa using h, hd⟩
        · refine ⟨?_, rfl, hd⟩
          change d.Books (Order.ledger (Order.tick _))
          rw [ledger_tick, ledger_updRing, ledger_tick]
          exact h
      · exact ⟨by simpa using h, hd⟩

theorem due_append (τ σ : List Seen) : due c (τ ++ σ) = σ.foldl (Due.see c) (due c τ) := by
  rw [due, List.foldl_append]
  rfl

theorem Watched.accounted {s₀ : Order} (hb : Boot s₀) {p : Point} {τ : List Seen}
    (h : Watched c H (prompt c) s₀ p τ) : p.Accounted (due c τ) := by
  induction h with
  | boot =>
    refine ⟨⟨?_, ?_⟩, fun _ => rfl⟩
    · simp [due, Due.start, Order.ledger, hb.log, lostCalls]
    · funext i
      exact ((hb.maps i).2.2.2.2.2).symm
  | call targetMap targetTm _ ih => exact orderStart_accounted ih.1 ih.2 targetMap targetTm
  | step _ hk hp ih =>
    have := orderPass_accounted (H := H) ih hk
    rw [hp] at this
    rw [due_append]
    exact this
  | ret _ hk hp ih =>
    have := orderPass_accounted (H := H) ih hk
    rw [hp] at this
    rw [due_append]
    exact this

end Account

/-- Loss attribution. In every run in which a loss that is kept back is followed at once by a
record of its ring buffer that is not another loss, the calls of `prof->lost` are those
that the losses, the samples and their times call for. -/
theorem lost_attributed (c : Config) (H : MinHeap HeapId) {s₀ : Order} (hb : Boot s₀) {p : Point}
    {τ : List Seen} (h : Watched c H (prompt c) s₀ p τ) :
    lostCalls p.order.log = expected c τ := by
  have hacc := h.accounted hb
  cases p with
  | idle s => exact hacc.1.calls.symm
  | inside k => exact hacc.1.calls.symm

section Runs
variable {c : Config} {H : MinHeap HeapId} {ok : Call → Bool}

/-- A whole call, with what it shows. -/
def watch (c : Config) (H : MinHeap HeapId) (ok : Call → Bool) :
    Nat → Call → List Seen → Option (Order × List Seen)
  | 0, _, _ => none
  | n+1, k, τ =>
    if ok k then
      match orderPass c H k with
      | .again k' => watch c H ok n k' (τ ++ look c k k'.s)
      | .done k' _ => some (k'.s, τ ++ look c k k'.s)
    else none

theorem Watched.of_watch {s₀ s : Order} {k : Call} {n : Nat} {τ τ' : List Seen}
    (h : Watched c H ok s₀ (.inside k) τ) (hw : watch c H ok n k τ = some (s, τ')) :
    Watched c H ok s₀ (.idle s) τ' := by
  induction n generalizing k τ with
  | zero => cases hw
  | succ n ih =>
    rw [watch] at hw
    split at hw
    · next hk =>
      cases hp : orderPass c H k with
      | again k' =>
        rw [hp] at hw
        exact ih (.step h hk hp) hw
      | done k' u =>
        rw [hp] at hw
        cases hw
        exact .ret h hk hp
    · cases hw

theorem Watched.firstCall (ok : Call → Bool) {s : Order} {β : Type} {f : Order × List Seen → β} {x : β}
    (hs : s.inprocess = false) (n : Nat)
    (h : (watch c H ok n (OrderProcess.firstCall c s) []).map f = some x) :
    ∃ s' τ, Watched c H ok s (.idle s') τ ∧ f (s', τ) = x := by
  have hstart : orderStart c s none 0 = .inside (OrderProcess.firstCall c s) := by
    simp only [orderStart, hs]
    rfl
  have hw : Watched c H ok s (.inside (OrderProcess.firstCall c s)) [] := by
    rw [← hstart]
    exact .call none 0 .boot
  obtain ⟨⟨s', τ⟩, hk, hx⟩ := Option.map_eq_some_iff.mp h
  exact ⟨s', τ, hw.of_watch hk, hx⟩

end Runs

/-- A loss, a throttle record and a sample: one call, for the time between the samples. -/
theorem lost_attributed_one_call :
    ∃ s τ, Watched twoMaps sorted (prompt twoMaps) lossThenThrottle (.idle s) τ ∧
      lostCalls s.log = expected twoMaps τ ∧ expected twoMaps τ = [⟨(0, 16), 0, 0, 2, 30, 40⟩] := by
  obtain ⟨s, τ, hw, hx⟩ := Watched.firstCall (c := twoMaps) (H := sorted) (prompt twoMaps)
    (s := lossThenThrottle) (f := fun out => expected twoMaps out.2)
    (x := [⟨(0, 16), 0, 0, 2, 30, 40⟩]) rfl 40 (by decide +kernel)
  have hsize : ∀ i, extent (if i = 0 then [record (.sample 30), record (.lost 1 2),
      record (.other 5), record (.sample 40)] else []) ≤ 4096 := by
    intro i
    by_cases hi : i = 0
    · simp [hi, extent, record]
    · simp [hi, extent]
  exact ⟨s, τ, hw, lost_attributed twoMaps sorted (freshOrder_boot _ [] hsize) hw, hx⟩

/-- Ring buffer 0 ends in a loss of 5; the merge gives it to ring buffer 1, for the time
between two samples of that one. -/
def lossAtEnd : Order :=
  freshOrder (fun i => if i = 0 then [record (.sample 10), record (.lost 1 5)]
    else if i = 1 then [record (.sample 20), record (.sample 30)] else []) []

theorem loss_given_to_other_ring :
    ∃ s τ, Watched twoMaps sorted (fun _ => true) lossAtEnd (.idle s) τ ∧
      lostCalls s.log = [⟨(0, 16), 0, 1, 5, 20, 30⟩] ∧ expected twoMaps τ = [] := by
  obtain ⟨s, τ, hw, hx⟩ := Watched.firstCall (c := twoMaps) (H := sorted) (fun _ => true)
    (s := lossAtEnd) (f := fun out => (lostCalls out.1.log, expected twoMaps out.2))
    (x := ([⟨(0, 16), 0, 1, 5, 20, 30⟩], [])) rfl 40 (by decide +kernel)
  obtain ⟨h1, h2⟩ := Prod.mk.inj hx
  exact ⟨s, τ, hw, h1, h2⟩

end PerfProf.OrderProcess
