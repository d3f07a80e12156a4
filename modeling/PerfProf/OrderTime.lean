import PerfProf.OrderProcess

/-! Time order of the merge. A heap element is either not earlier than what was popped
last, or comes from the ring buffer that popped last and will be moved up to that
time; so nothing is ever handed on before what was handed on already. -/
namespace PerfProf.OrderProcess
open PerfProf.Heap PerfProf.Loop PerfProf.Ring

def Handed.sampleTime : Handed → Option Nat
  | .record _ _ r _ _ => r.sample?
  | _ => none

/-- The times of the samples handed to `perf_event_process_record`. -/
def sampleTimes (log : List Handed) : List Nat := log.filterMap Handed.sampleTime

/- What the time order depends on. -/
structure View where
  key : HeapId → Nat
  event : Nat → Record
  mono : Nat → Nat
  popped : Nat
  unordered : Nat → Nat
  times : List Nat
  heap : List HeapId

def Order.view (s : Order) : View where
  key := s.time
  event := fun i => (s.maps i).event
  mono := fun i => (s.maps i).eventMonoTime
  popped := s.heapPoppedTime
  unordered := fun d => (s.devs d).nrUnorderedEvents
  times := sampleTimes s.log
  heap := s.heap

section Frame

theorem view_updMap (s : Order) (i : Nat) (f : MmapEvent → MmapEvent)
    (he : (f (s.maps i)).event = (s.maps i).event) (ht : (f (s.maps i)).time = (s.maps i).time)
    (hm : (f (s.maps i)).eventMonoTime = (s.maps i).eventMonoTime) :
    (s.updMap i f).view = s.view := by
  have hmaps : ∀ {β : Type} (g : MmapEvent → β), g (f (s.maps i)) = g (s.maps i) →
      ∀ j, g (Function.update s.maps i (f (s.maps i)) j) = g (s.maps j) := by
    intro β g hg j
    by_cases hj : j = i
    · subst hj
      rw [Function.update_self, hg]
    · rw [Function.update_of_ne hj]
  simp only [Order.view, Order.updMap, View.mk.injEq, and_true]
  refine ⟨?_, funext (hmaps _ he), funext (hmaps _ hm)⟩
  funext e
  cases e with
  | mmap j => exact hmaps MmapEvent.time ht j
  | stream j => rfl

@[simp] theorem view_updRing (s : Order) (i : Nat) (f : PerfMmap → PerfMmap) :
    (s.updRing i f).view = s.view :=
  view_updMap s i _ rfl rfl rfl

theorem view_updDev (s : Order) (d : Nat) (f : DevOrder → DevOrder)
    (h : (f (s.devs d)).nrUnorderedEvents = (s.devs d).nrUnorderedEvents) :
    (s.updDev d f).view = s.view := by
  simp only [Order.view, Order.updDev, View.mk.injEq, true_and, and_true]
  refine ⟨rfl, ?_⟩
  funext j
  by_cases hj : j = d
  · subst hj
    rw [Function.update_self, h]
  · rw [Function.update_of_ne hj]

@[simp] theorem view_countLost (c : Config) (s : Order) (i : Nat) (r : Record) :
    (s.countLost c i r).view = s.view := by
  unfold Order.countLost
  split
  · exact view_updDev s _ _ rfl
  · rfl

@[simp] theorem view_kernelOutput (s : Order) (batch : List (Nat × Record)) :
    (s.kernelOutput batch).view = s.view := by
  induction batch generalizing s with
  | nil => rfl
  | cons b rest ih => rw [Order.kernelOutput, ih, view_updRing]

@[simp] theorem view_tick (s : Order) : s.tick.view = s.view := by
  cases ha : s.arrivals with
  | nil => simp only [Order.tick, ha]
  | cons batch rest =>
    simp only [Order.tick, ha, view_kernelOutput]
    rfl

@[simp] theorem view_readNext (s : Order) (i : Nat) : (s.readNext i).1.view = s.view := by
  simp only [Order.readNext, view_updRing, view_tick]

@[simp] theorem view_mmapConsume (s : Order) (i : Nat) : (s.mmapConsume i).view = s.view := by
  simp only [Order.mmapConsume, view_updRing, view_tick]

theorem view_hand (s : Order) (h : Handed) :
    (s.hand h).view = { s.view with times := s.view.times ++ h.sampleTime.toList } := by
  cases ht : h.sampleTime <;> simp [Order.view, Order.hand, sampleTimes, ht] <;> rfl

theorem view_processRecord (c : Config) (s : Order) (i : Nat) (r : Record) (w : Bool) :
    (s.processRecord c i r w).view =
      { s.view with times := s.view.times ++ r.sample?.toList } :=
  view_hand s _

theorem view_processOther (c : Config) (s : Order) (i : Nat) {r : Record} (w : Bool)
    (h : r.sample? = none) : (s.processRecord c i r w).view = s.view := by
  rw [view_processRecord, h, Option.toList_none, List.append_nil]

@[simp] theorem view_reportLost (c : Config) (s : Order) (i : Nat) (lost : Lost) :
    (s.reportLost c i lost).view = s.view := by
  by_cases hl : lost.lost ≠ 0
  · rw [Order.reportLost, if_pos hl, view_hand]
    simp [Handed.sampleTime]
  · rw [Order.reportLost, if_neg hl]

@[simp] theorem view_consumeDeferred (c : Config) (s : Order) (i : Nat) :
    (s.consumeDeferred c i).view = s.view := by
  simp only [Order.consumeDeferred]
  split
  · exact view_mmapConsume s i
  · rfl

theorem view_lostWait (c : Config) (s : Order) (i : Nat) : (s.lostWait c i).1.view = s.view := by
  simp only [Order.lostWait]
  split
  · split
    · rw [view_updMap] <;> rfl
    · rw [view_updDev, view_updMap] <;> rfl
  · split
    · split
      · exact view_tick s
      · rw [view_updDev, view_updMap]
        · exact view_tick s
        all_goals rfl
    · rw [view_updMap, view_tick] <;> rfl

theorem view_unwind (s : Order) (heap : List HeapId) :
    (s.unwind heap).view = { s.view with heap := [] } := by
  induction heap generalizing s with
  | nil => rfl
  | cons e rest ih =>
    cases e with
    | mmap i => rw [Order.unwind, ih, view_mmapConsume, view_updRing]
    | stream j =>
      rw [Order.unwind, ih]
      have hk : (s.updStream j fun e => { e with unconsumed := true }).time = s.time := by
        funext e
        cases e with
        | mmap i => rfl
        | stream k =>
          by_cases hk : k = j
          · subst hk
            simp only [Order.time, Order.updStream, Function.update_self]
          · simp only [Order.time, Order.updStream, Function.update_of_ne hk]
      simp only [Order.view, hk]
      rfl

theorem view_stop (s : Order) (reason : BreakReason) :
    (s.stop reason).view = { s.view with heap := [] } := by
  rw [Order.stop, view_unwind]
  rfl

end Frame

section Views

/-- Ring buffer `i` now offers event `r` at time `t`. -/
def View.load (v : View) (i : Nat) (r : Record) (t : Nat) : View :=
  { v with key := Function.update v.key (.mmap i) t, event := Function.update v.event i r }

theorem time_updMap (s : Order) (i : Nat) (f : MmapEvent → MmapEvent) :
    (s.updMap i f).time = Function.update s.time (.mmap i) (f (s.maps i)).time := by
  funext e
  by_cases he : e = .mmap i
  · subst he
    simp only [Order.time, Order.updMap, Function.update_self]
  · rw [Function.update_of_ne he]
    cases e with
    | mmap j =>
      have hj : j ≠ i := fun h => he (by rw [h])
      simp only [Order.time, Order.updMap, Function.update_of_ne hj]
    | stream j => rfl

theorem view_load (s : Order) (i : Nat) (f : MmapEvent → MmapEvent)
    (hm : (f (s.maps i)).eventMonoTime = (s.maps i).eventMonoTime) :
    (s.updMap i f).view = s.view.load i (f (s.maps i)).event (f (s.maps i)).time := by
  simp only [Order.view, View.load, View.mk.injEq, time_updMap, true_and]
  refine ⟨?_, ?_, rfl, rfl, rfl, rfl⟩
  · funext j
    by_cases hj : j = i
    · subst hj
      simp only [Order.updMap, Function.update_self]
    · simp only [Order.updMap, Function.update_of_ne hj]
  · funext j
    by_cases hj : j = i
    · subst hj
      simp only [Order.updMap, Function.update_self, hm]
    · simp only [Order.updMap, Function.update_of_ne hj]

theorem view_loadSample (c : Config) (s : Order) (i : Nat) (r : Record) (t : Nat) (w : Bool) :
    (s.loadSample c i r t w).view = s.view.load i r (heapclock c t) :=
  view_load s i _ rfl

theorem view_fixOutOfOrder (c : Config) (s : Order) (i t : Nat) :
    (s.fixOutOfOrder c i t).view =
      s.view.load i { (s.maps i).event with kind := .sample (heapclockToPerfclock c t) } t := by
  rw [Order.fixOutOfOrder, view_updDev, view_load]
  · rfl
  · rfl

/-- With `t` not before what was popped last, popping at `t` is in order. -/
theorem view_popTime (c : Config) (s : Order) (e : HeapId) (t ins : Nat)
    (h : s.heapPoppedTime ≤ t) :
    (s.popTime c e t ins).view = { s.view with popped := t } := by
  have hlt : ¬ t < s.heapPoppedTime := by omega
  have hset : ∀ u : Order, u.heapPoppedTime = s.heapPoppedTime → u.view = s.view →
      Order.view (if t < u.heapPoppedTime then
        u.updDev (c.dev e) fun d => { d with nrUnorderedEvents := d.nrUnorderedEvents + 1 }
        else { u with heapPoppedTime := t, heapPoppedIns := ins }) =
      { s.view with popped := t } := by
    intro u hp hu
    rw [hp, if_neg hlt, ← hu]
    rfl
  by_cases hd : c.dev e ≠ 0
  · rw [Order.popTime, if_pos hd]
    exact hset _ rfl (view_updDev s _ _ rfl)
  · rw [Order.popTime, if_neg hd]
    exact hset s rfl rfl

end Views

theorem time_eq_key (s : Order) (i : Nat) : (s.maps i).time = s.view.key (.mmap i) := rfl

section Invariant
variable {c : Config} {H : MinHeap HeapId} {s : Order} {v : View}

/-- What holds in every state. -/
structure View.Timed (v : View) : Prop where
  mono : ∀ i, v.mono i ≤ v.popped
  unordered : ∀ d, v.unordered d = 0
  sorted : v.times.Pairwise (· ≤ ·)
  bound : ∀ t ∈ v.times, t ≤ v.popped

/-- A heap element is not late, or it will be moved up to the time popped last. -/
def View.Ready (v : View) (e : HeapId) : Prop :=
  ∃ i, e = .mmap i ∧ (v.event i).sample? = some (v.key e) ∧
    (v.popped ≤ v.key e ∨ v.mono i = v.popped)

/-- What holds at a program point. -/
def View.At (H : MinHeap HeapId) (v : View) : Pc → Prop
  | .heapInit todo =>
    (∀ e ∈ v.heap, v.Ready e) ∧ (∀ e ∈ todo, ∃ i, e = .mmap i) ∧ (v.heap ++ todo).Nodup
  | .mmapRetry i _ todo =>
    (∀ e ∈ v.heap, v.Ready e) ∧ (∀ e ∈ todo, ∃ i, e = .mmap i) ∧
      (v.heap ++ .mmap i :: todo).Nodup
  | .top => (∀ e ∈ v.heap, v.Ready e) ∧ v.heap.Nodup ∧ H.Ordered v.key v.heap
  | .consume i _ => ∃ rest key, v.heap = .mmap i :: rest ∧ (∀ e ∈ rest, v.Ready e) ∧
      v.heap.Nodup ∧ H.Ordered key v.heap ∧ (∀ e ∈ rest, v.key e = key e) ∧ v.mono i = v.popped
  | .streamRetry _ _ => False
  | .streamNext _ => False

theorem View.Ready.load_ne {i : Nat} {r : Record} {t : Nat} {e : HeapId} (h : v.Ready e)
    (hne : e ≠ .mmap i) : (v.load i r t).Ready e := by
  obtain ⟨j, rfl, hk, hr⟩ := h
  have hj : j ≠ i := fun h => hne (by rw [h])
  refine ⟨j, rfl, ?_, ?_⟩
  · simp only [View.load, Function.update_of_ne hj, Function.update_of_ne hne]
    exact hk
  · simp only [View.load, Function.update_of_ne hne]
    exact hr

theorem View.Ready.load_self {i : Nat} {r : Record} {t : Nat} (hk : r.sample? = some t)
    (h : v.popped ≤ t ∨ v.mono i = v.popped) : (v.load i r t).Ready (.mmap i) := by
  refine ⟨i, rfl, ?_, ?_⟩
  · simp only [View.load, Function.update_self]
    exact hk
  · simp only [View.load, Function.update_self]
    exact h

/-- No stream is registered: every heap event is a ring buffer. -/
def Config.OnlyMmaps (c : Config) : Prop := ∀ e ∈ c.events, ∃ i, e = .mmap i

theorem Config.OnlyMmaps.nrStreams (h : c.OnlyMmaps) : c.nrStreams = 0 := by
  rw [Config.nrStreams, List.length_eq_zero_iff, List.filter_eq_nil_iff]
  intro e he
  obtain ⟨i, rfl⟩ := h e he
  simp

theorem heapclock_id (h : c.OnlyMmaps) (t : Nat) : heapclock c t = t := by
  simp [heapclock, h.nrStreams]

theorem heapclockToPerfclock_id (h : c.OnlyMmaps) (t : Nat) : heapclockToPerfclock c t = t := by
  simp [heapclockToPerfclock, h.nrStreams]

/-- A sample found at init is moved up to the time popped last if it is late. -/
theorem view_enterHeap (hc : c.OnlyMmaps) {i : Nat} {r : Record} {t : Nat} (w : Bool) (lost : Lost)
    (hk : r.sample? = some t) :
    ∃ r' t', r'.sample? = some t' ∧ s.view.popped ≤ t' ∧
      (s.enterHeap c i r t w lost).view =
        { s.view.load i r' t' with heap := s.view.heap ++ [.mmap i] } := by
  have hv : (s.loadSample c i r t w).view = s.view.load i r t := by
    rw [view_loadSample, heapclock_id hc]
  have hheap : ∀ u : Order, (u.setHeap (u.heap ++ [.mmap i])).view =
      { u.view with heap := u.view.heap ++ [.mmap i] } := fun _ => rfl
  have htime : ((s.loadSample c i r t w).maps i).time = t := by
    simp only [Order.loadSample, Order.updMap, Function.update_self, heapclock_id hc]
  have hev : ((s.loadSample c i r t w).maps i).event = r := by
    simp only [Order.loadSample, Order.updMap, Function.update_self]
  have hpop : (s.loadSample c i r t w).heapPoppedTime = s.heapPoppedTime := rfl
  by_cases hlate : t < s.heapPoppedTime
  · refine ⟨{ r with kind := .sample s.heapPoppedTime }, s.heapPoppedTime, rfl, Nat.le_refl _, ?_⟩
    simp only [Order.enterHeap]
    rw [hheap, view_reportLost, htime, hpop, if_pos hlate, view_fixOutOfOrder, hv, hev,
      heapclockToPerfclock_id hc]
    simp only [View.load, Function.update_idem]
  · refine ⟨r, t, hk, Nat.le_of_not_lt hlate, ?_⟩
    simp only [Order.enterHeap]
    rw [hheap, view_reportLost, htime, hpop, if_neg hlate, hv]
    rfl

/-- One record of `perf_mmap_event_init` keeps the order. -/
theorem mmapRetry_timed (hc : c.OnlyMmaps) {i : Nat} {lost : Lost} {todo : List HeapId}
    (ht : s.view.Timed) (hat : s.view.At H (.mmapRetry i lost todo)) :
    (s.mmapRetry c i lost todo).1.view.Timed ∧
      (s.mmapRetry c i lost todo).1.view.At H (s.mmapRetry c i lost todo).2 := by
  obtain ⟨hready, htodo, hnd⟩ := hat
  have hv := view_readNext s i
  cases hr : s.readNext i with
  | mk s₁ out =>
    rw [hr] at hv
    cases out with
    | none =>
      simp only [Order.mmapRetry, hr, view_updRing, hv]
      exact ⟨ht, hready, htodo,
        hnd.sublist (List.Sublist.append_left (List.sublist_cons_self _ _) _)⟩
    | some p =>
      obtain ⟨r, w⟩ := p
      cases hk : r.sample? with
      | none =>
        cases hl : (s₁.countLost c i r).lostFor c i r with
        | some l =>
          simp only [Order.mmapRetry, hr, hk, hl, view_mmapConsume, view_countLost, hv]
          exact ⟨ht, hready, htodo, hnd⟩
        | none =>
          simp only [Order.mmapRetry, hr, hk, hl, view_mmapConsume,
            view_processOther c _ i w hk, view_countLost, hv]
          exact ⟨ht, hready, htodo, hnd⟩
      | some t =>
        simp only [Order.mmapRetry, hr, hk]
        obtain ⟨r', t', hk', hp, hve⟩ := view_enterHeap (s := s₁) (i := i) hc w lost hk
        rw [hve, hv]
        rw [hv] at hp
        have hni : HeapId.mmap i ∉ s.view.heap := by
          intro hi
          exact (List.nodup_append.mp hnd).2.2 _ hi _ (List.mem_cons_self ..) rfl
        refine ⟨⟨ht.mono, ht.unordered, ht.sorted, ht.bound⟩, ?_, htodo, ?_⟩
        · intro e he
          cases List.mem_append.mp he with
          | inl he => exact (hready e he).load_ne (fun h => hni (h ▸ he))
          | inr he =>
            rw [List.mem_singleton.mp he]
            exact View.Ready.load_self hk' (Or.inl hp)
        · show ((s.view.heap ++ [HeapId.mmap i]) ++ todo).Nodup
          rw [List.append_assoc]
          exact hnd

/-- Setting the monotone time of ring buffer `i`. -/
theorem view_setMono (i t : Nat) :
    (s.updMap i fun e => { e with eventMonoTime := t }).view =
      { s.view with mono := Function.update s.view.mono i t } := by
  simp only [Order.view, View.mk.injEq, time_updMap]
  refine ⟨Function.update_eq_self _ _, ?_, ?_, rfl, rfl, rfl, rfl⟩
  · funext j
    by_cases hj : j = i
    · subst hj
      simp only [Order.updMap, Function.update_self]
    · simp only [Order.updMap, Function.update_of_ne hj]
  · funext j
    by_cases hj : j = i
    · subst hj
      simp only [Order.updMap, Function.update_self]
    · simp only [Order.updMap, Function.update_of_ne hj]

/-- Popping and handing on the root at its own time `t`. -/
theorem view_handRoot {i t ins : Nat} {w : Bool} {u : Order} (hp : s.view.popped ≤ t)
    (hk : (s.view.event i).sample? = some t)
    (hu : u = s.popTime c (.mmap i) t ins) :
    (u.processRecord c i (u.maps i).event w).view =
      { s.view with popped := t, times := s.view.times ++ [t] } := by
  subst hu
  have hv := view_popTime c s (.mmap i) t ins hp
  have hev : ((s.popTime c (.mmap i) t ins).maps i).event = s.view.event i :=
    congrArg (fun v => v.event i) hv
  rw [view_processRecord, hv, hev, hk]
  rfl

/-- The root, ring buffer `i`, has been handed on as event `r` at time `t`. -/
def View.popRoot (v : View) (i : Nat) (r : Record) (t : Nat) : View :=
  ⟨Function.update v.key (.mmap i) t, Function.update v.event i r, Function.update v.mono i t, t,
    v.unordered, v.times ++ [t], v.heap⟩

theorem view_processRoot (hc : c.OnlyMmaps) {i : Nat} (ht : s.view.Timed)
    (hr : s.view.Ready (.mmap i)) :
    ∃ r t, s.view.popped ≤ t ∧ (t = s.view.popped ∨ t = s.view.key (.mmap i)) ∧
      (s.processRoot c i).view = s.view.popRoot i r t := by
  obtain ⟨j, hj, hk, hready⟩ := hr
  obtain rfl : i = j := HeapId.mmap.inj hj
  by_cases hlate : (s.maps i).time < (s.maps i).eventMonoTime
  · -- late in its own ring buffer: it was this one that popped last
    have hmono : (s.maps i).eventMonoTime ≤ s.heapPoppedTime := ht.mono i
    have hpop : (s.maps i).eventMonoTime = s.heapPoppedTime := by
      cases hready with
      | inl h =>
        have : s.heapPoppedTime ≤ (s.maps i).time := h
        omega
      | inr h => exact h
    have hv := view_fixOutOfOrder c s i (s.maps i).eventMonoTime
    rw [heapclockToPerfclock_id hc] at hv
    have htime : ((s.fixOutOfOrder c i (s.maps i).eventMonoTime).maps i).time =
        (s.maps i).eventMonoTime := by
      rw [time_eq_key, hv]
      exact Function.update_self ..
    refine ⟨{ (s.maps i).event with kind := .sample (s.maps i).eventMonoTime },
      (s.maps i).eventMonoTime, Nat.le_of_eq hpop.symm, Or.inl hpop, ?_⟩
    simp only [Order.processRoot, if_pos hlate, htime]
    rw [view_handRoot (s := s.fixOutOfOrder c i (s.maps i).eventMonoTime) (i := i)
      (t := (s.maps i).eventMonoTime) _ _ rfl, hv]
    · simp only [View.load, View.popRoot, View.mk.injEq, true_and, and_true]
      exact (Function.update_eq_self i s.view.mono).symm
    · rw [hv]
      exact Nat.le_of_eq hpop.symm
    · rw [hv]
      simp only [View.load, Function.update_self]
      rfl
  · have hle : s.heapPoppedTime ≤ (s.maps i).time := by
      cases hready with
      | inl h => exact h
      | inr h =>
        have : (s.maps i).eventMonoTime = s.heapPoppedTime := h
        omega
    have hset : (s.updMap i fun e => { e with eventMonoTime := e.time }).view =
        { s.view with mono := Function.update s.view.mono i (s.maps i).time } :=
      view_setMono i (s.maps i).time
    have htime : ((s.updMap i fun e => { e with eventMonoTime := e.time }).maps i).time =
        (s.maps i).time := by
      rw [time_eq_key, hset]
      rfl
    refine ⟨(s.maps i).event, (s.maps i).time, hle, Or.inr rfl, ?_⟩
    simp only [Order.processRoot, if_neg hlate, htime]
    rw [view_handRoot (s := s.updMap i fun e => { e with eventMonoTime := e.time }) (i := i)
      (t := (s.maps i).time) _ _ rfl, hset]
    · simp only [View.popRoot, View.mk.injEq, and_true]
      exact ⟨(Function.update_eq_self _ s.view.key).symm, (Function.update_eq_self i _).symm⟩
    · rw [hset]
      exact hle
    · rw [hset]
      exact hk

/-- Handing on the root keeps the order: what is left in the heap is not before it. -/
theorem processRoot_timed (hc : c.OnlyMmaps) {i : Nat} {rest : List HeapId} {nb : Bool}
    (hheap : s.view.heap = .mmap i :: rest) (ht : s.view.Timed) (hat : s.view.At H .top) :
    (s.processRoot c i).view.Timed ∧ (s.processRoot c i).view.At H (.consume i nb) := by
  obtain ⟨hready, hnd, hord⟩ := hat
  rw [hheap] at hready hnd hord
  obtain ⟨r, t, hpt, hcase, hv⟩ := view_processRoot hc ht (hready _ (List.mem_cons_self ..))
  have hne : ∀ e ∈ rest, e ≠ .mmap i := by
    intro e he h
    subst h
    exact (List.nodup_cons.mp hnd).1 he
  rw [hv]
  refine ⟨⟨?_, ht.unordered, ?_, ?_⟩, rest, s.view.key, hheap, ?_, ?_, ?_, ?_, ?_⟩
  · intro j
    by_cases hj : j = i
    · subst hj
      simp only [View.popRoot, Function.update_self]
      exact Nat.le_refl _
    · simp only [View.popRoot, Function.update_of_ne hj]
      exact Nat.le_trans (ht.mono j) hpt
  · show (s.view.times ++ [t]).Pairwise (· ≤ ·)
    rw [List.pairwise_append]
    refine ⟨ht.sorted, List.pairwise_singleton _ _, ?_⟩
    intro a ha b hb
    rw [List.mem_singleton.mp hb]
    exact Nat.le_trans (ht.bound a ha) hpt
  · intro a ha
    cases List.mem_append.mp ha with
    | inl ha => exact Nat.le_trans (ht.bound a ha) hpt
    | inr ha => exact Nat.le_of_eq (List.mem_singleton.mp ha)
  · intro e he
    obtain ⟨j, rfl, hk, hr⟩ := hready e (List.mem_cons_of_mem _ he)
    have hj : j ≠ i := fun h => hne _ he (by rw [h])
    refine ⟨j, rfl, ?_, ?_⟩
    · simp only [View.popRoot, Function.update_of_ne hj, Function.update_of_ne (hne _ he)]
      exact hk
    · simp only [View.popRoot, Function.update_of_ne hj, Function.update_of_ne (hne _ he)]
      cases hcase with
      | inl h =>
        rw [h]
        exact hr
      | inr h =>
        rw [h]
        exact Or.inl (H.root_le hord _ he)
  · exact hheap ▸ hnd
  · exact hheap ▸ hord
  · intro e he
    simp only [View.popRoot, Function.update_of_ne (hne e he)]
  · simp only [View.popRoot, Function.update_self]

/-- What one step of a call leaves. -/
def TimedPass (H : MinHeap HeapId) : Pass Call Unit → Prop
  | .again k => k.s.view.Timed ∧ k.s.view.At H k.pc
  | .done k _ => k.s.view.Timed

theorem View.Timed.heap (h : v.Timed) (heap : List HeapId) : View.Timed { v with heap := heap } :=
  ⟨h.mono, h.unordered, h.sorted, h.bound⟩

theorem leave_timed {k : Call} {nb : Bool} (ht : s.view.Timed) (hat : s.view.At H .top) :
    TimedPass H (leave k s nb) := by
  cases nb with
  | true =>
    show (s.unwind s.heap).view.Timed
    rw [view_unwind]
    exact ht.heap []
  | false => exact ⟨ht, hat⟩

theorem view_consumeTail (k : Call) (i : Nat) (nb : Bool) :
    (consumeTail c k i nb).1.view = k.s.view := by
  simp only [consumeTail]
  split
  · exact view_consumeDeferred c k.s i
  · exact view_consumeDeferred c k.s i

theorem consumePass_timed (hc : c.OnlyMmaps) {k : Call} {i : Nat} {nb : Bool}
    (ht : k.s.view.Timed) (hat : k.s.view.At H (.consume i nb)) :
    TimedPass H (consumePass c H k i nb) := by
  have hv := view_consumeTail (c := c) k i nb
  cases htail : consumeTail c k i nb with
  | mk s₁ nb' =>
    rw [htail] at hv
    have hvr := view_readNext s₁ i
    cases hr : s₁.readNext i with
    | mk s₂ out =>
      rw [hr, hv] at hvr
      simp only at hvr
      obtain ⟨rest, key, hheap, hready, hnd, hord, hkey, hmono⟩ := hat
      have hne : ∀ e ∈ rest, e ≠ .mmap i := by
        intro e he h
        subst h
        rw [hheap] at hnd
        exact (List.nodup_cons.mp hnd).1 he
      cases out with
      | none =>
        simp only [consumePass, htail, hr]
        have hvd : (s₂.updRing i PerfMmap.readDone).view = k.s.view := by
          rw [view_updRing, hvr]
        have hperm := H.pop_perm k.s.view.key (.mmap i) rest
        rw [← hheap] at hperm
        have hvp : ∀ u : Order, u.view = k.s.view → (u.setHeap (H.pop u.time u.heap)).view =
            { k.s.view with heap := H.pop k.s.view.key k.s.view.heap } := by
          intro u hu
          rw [← hu]
          rfl
        apply leave_timed
        · rw [hvp _ hvd]
          exact ht.heap _
        · rw [hvp _ hvd]
          refine ⟨?_, ?_, ?_⟩
          · intro e he
            exact hready e (hperm.mem_iff.mp he)
          · exact hperm.nodup_iff.mpr (by rw [hheap] at hnd; exact (List.nodup_cons.mp hnd).2)
          · show H.Ordered k.s.view.key (H.pop k.s.view.key k.s.view.heap)
            rw [hheap] at hord ⊢
            exact H.pop_ordered hord hkey
      | some p =>
        obtain ⟨r, w⟩ := p
        cases hk : r.sample? with
        | none =>
          have hstay : k.s.view.At H (.consume i nb') :=
            ⟨rest, key, hheap, hready, hnd, hord, hkey, hmono⟩
          cases hl : (s₂.countLost c i r).lostFor c i r with
          | some l =>
            simp only [consumePass, htail, hr, hk, hl, TimedPass, view_countLost, hvr]
            exact ⟨ht, hstay⟩
          | none =>
            simp only [consumePass, htail, hr, hk, hl, TimedPass, view_processOther c _ i w hk,
              view_countLost, hvr]
            exact ⟨ht, hstay⟩
        | some t =>
          -- the next sample of the ring buffer that popped last may be late, and is ready
          simp only [consumePass, htail, hr, hk]
          have hvl : (s₂.loadSample c i r t w).view = k.s.view.load i r t := by
            rw [view_loadSample, heapclock_id hc, hvr]
          let v := k.s.view.load i r t
          have hvs : ∀ u : Order, u.view = v → (u.setHeap (H.siftDown u.time u.heap)).view =
              { v with heap := H.siftDown v.key v.heap } := by
            intro u hu
            rw [← hu]
            rfl
          have hperm := H.siftDown_perm v.key v.heap
          apply leave_timed
          · rw [view_reportLost, hvs _ hvl]
            exact ⟨ht.mono, ht.unordered, ht.sorted, ht.bound⟩
          · rw [view_reportLost, hvs _ hvl]
            refine ⟨?_, hperm.nodup_iff.mpr hnd, ?_⟩
            · intro e he
              have he' : e ∈ HeapId.mmap i :: rest := by
                rw [← hheap]
                exact hperm.mem_iff.mp he
              cases List.mem_cons.mp he' with
              | inl h =>
                rw [h]
                exact View.Ready.load_self hk (Or.inr hmono)
              | inr h => exact (hready e h).load_ne (hne e h)
            · show H.Ordered _ (H.siftDown _ k.s.view.heap)
              rw [hheap] at hord ⊢
              apply H.siftDown_ordered hord
              intro e he
              rw [← hkey e he]
              exact Function.update_of_ne (hne e he) ..

theorem topPass_timed (hc : c.OnlyMmaps) {k : Call} (ht : k.s.view.Timed)
    (hat : k.s.view.At H .top) : TimedPass H (topPass c k) := by
  have hstop : ∀ reason, (k.s.stop reason).view.Timed := by
    intro reason
    rw [view_stop]
    exact ht.heap []
  cases hheap : k.s.heap with
  | nil =>
    simp only [topPass, hheap]
    exact hstop .empty
  | cons e rest =>
    obtain ⟨i, rfl, -⟩ := hat.1 e (by rw [show k.s.view.heap = e :: rest from hheap]; simp)
    simp only [topPass, hheap]
    by_cases htm : k.frame.targetTime < (k.s.maps i).time
    · rw [if_pos htm]
      exact hstop .targetTime
    · rw [if_neg htm]
      have hv := view_lostWait c k.s i
      cases hw : k.s.lostWait c i with
      | mk s₁ wait =>
        rw [hw] at hv
        simp only at hv
        cases wait with
        | true =>
          show (s₁.unwind s₁.heap).view.Timed
          rw [view_unwind, hv]
          exact ht.heap []
        | false =>
          rw [← hv] at ht hat
          have hheap' : s₁.view.heap = .mmap i :: rest := by
            rw [hv]
            exact hheap
          exact processRoot_timed hc hheap' ht hat

theorem heapInitPass_timed {k : Call} {todo : List HeapId} (ht : k.s.view.Timed)
    (hat : k.s.view.At H (.heapInit todo)) : TimedPass H (heapInitPass H k todo) := by
  obtain ⟨hready, htodo, hnd⟩ := hat
  cases todo with
  | nil =>
    have hperm := H.heapifyAll_perm k.s.view.key k.s.view.heap
    rw [List.append_nil] at hnd
    refine ⟨ht.heap _, ?_, hperm.nodup_iff.mpr hnd, H.heapifyAll_ordered _ _⟩
    intro e he
    exact hready e (hperm.mem_iff.mp he)
  | cons e todo =>
    obtain ⟨i, rfl⟩ := htodo e (List.mem_cons_self ..)
    have htodo' : ∀ e ∈ todo, ∃ i, e = .mmap i := fun e he => htodo e (List.mem_cons_of_mem _ he)
    simp only [heapInitPass, TimedPass, view_updRing, view_tick]
    refine ⟨ht, ?_⟩
    split
    · exact ⟨hready, htodo', hnd⟩
    · exact ⟨hready, htodo',
        hnd.sublist (List.Sublist.append_left (List.sublist_cons_self _ _) _)⟩

theorem orderPass_timed (hc : c.OnlyMmaps) {k : Call} (ht : k.s.view.Timed)
    (hat : k.s.view.At H k.pc) : TimedPass H (orderPass c H k) := by
  cases hpc : k.pc with
  | heapInit todo =>
    simp only [orderPass, hpc]
    exact heapInitPass_timed ht (hpc ▸ hat)
  | mmapRetry i lost todo =>
    simp only [orderPass, hpc]
    exact mmapRetry_timed hc ht (hpc ▸ hat)
  | top =>
    simp only [orderPass, hpc]
    exact topPass_timed hc ht (hpc ▸ hat)
  | consume i nb =>
    simp only [orderPass, hpc]
    exact consumePass_timed hc ht (hpc ▸ hat)
  | streamRetry j todo =>
    rw [hpc] at hat
    exact hat.elim
  | streamNext j =>
    rw [hpc] at hat
    exact hat.elim

def TimedPoint (H : MinHeap HeapId) : Point → Prop
  | .idle s => s.view.Timed
  | .inside k => k.s.view.Timed ∧ k.s.view.At H k.pc

theorem orderStart_timed (hc : c.OnlyMmaps) (targetMap : Option Nat) (targetTm : Nat)
    (ht : s.view.Timed) : TimedPoint H (orderStart c s targetMap targetTm) := by
  have henter : ∀ (u : Order) (frame : Frame), u.view = s.view →
      TimedPoint H (.inside ⟨{ u with inprocess := true, heap := [] }, .heapInit c.events, frame⟩) := by
    intro u frame hu
    have hv : Order.view { u with inprocess := true, heap := [] } = { s.view with heap := [] } := by
      rw [← hu]
      rfl
    simp only [TimedPoint]
    rw [hv]
    refine ⟨ht.heap [], by simp, hc, ?_⟩
    simpa using c.events_nodup
  simp only [orderStart]
  split
  · exact ht
  · cases targetMap with
    | none => exact henter s _ rfl
    | some i =>
      simp only
      split
      · split
        · simp only [TimedPoint, view_tick, view_updRing]
          exact ht
        · exact henter _ _ (by simp only [view_tick, view_updRing])
      · simp only [TimedPoint, view_tick, view_updRing]
        exact ht

theorem Reached.timed (hc : c.OnlyMmaps) {s₀ : Order} {p : Point} (hb : Boot s₀)
    (h : Reached c H s₀ p) : TimedPoint H p := by
  induction h with
  | boot =>
    have ht : sampleTimes s₀.log = [] := by simp [hb.log, sampleTimes]
    refine ⟨?_, hb.unordered, ?_, ?_⟩
    · intro i
      exact Nat.le_trans (Nat.le_of_eq (hb.maps i).2.2.2.2.2) (Nat.zero_le _)
    · simp only [Order.view, ht, List.Pairwise.nil]
    · simp [Order.view, ht]
  | call targetMap targetTm _ ih => exact orderStart_timed hc targetMap targetTm ih
  | step _ hp ih =>
    have := orderPass_timed hc ih.1 ih.2
    rwa [hp] at this
  | ret _ hp ih =>
    have := orderPass_timed hc ih.1 ih.2
    rwa [hp] at this

end Invariant

/-- Time order of delivery: whatever the raw times and the interleaving, samples are handed
on in time order, none is counted as unordered, and no ring buffer is ahead of the
time popped last. -/
theorem order_process_in_time_order (c : Config) (H : MinHeap HeapId) (hc : c.OnlyMmaps)
    {s₀ : Order} (hb : Boot s₀) {p : Point} (h : Reached c H s₀ p) :
    (sampleTimes p.order.log).Pairwise (· ≤ ·) ∧
      (∀ d, (p.order.devs d).nrUnorderedEvents = 0) ∧
      ∀ i, (p.order.maps i).eventMonoTime ≤ p.order.heapPoppedTime := by
  have ht : p.order.view.Timed := by
    have hp := h.timed hc hb
    cases p with
    | idle s => exact hp
    | inside k => exact hp.1
  exact ⟨ht.sorted, ht.unordered, ht.mono⟩

/-- Ring buffer 0 goes back in time, ring buffer 1 is in between. -/
theorem order_process_in_time_order_late :
    ∃ s : Order, sampleTimes s.log = [20, 30, 30] ∧ (sampleTimes s.log).Pairwise (· ≤ ·) ∧
      (∀ d, (s.devs d).nrUnorderedEvents = 0) ∧
      ∀ i, (s.maps i).eventMonoTime ≤ s.heapPoppedTime := by
  let written (i : Nat) : List Record :=
    if i = 0 then [record (.sample 30), record (.sample 10)] else [record (.sample 20)]
  have hsize (i : Nat) : extent (written i) ≤ 4096 := by
    by_cases hi : i = 0
    · simp [written, hi, extent, record]
    · simp [written, hi, extent, record]
  obtain ⟨s, hr, hlog⟩ := Reached.firstCall (c := twoMaps) (H := sorted)
    (s := freshOrder written []) (f := fun s => sampleTimes s.log) rfl 40
    (x := [20, 30, 30]) (by decide +kernel)
  refine ⟨s, hlog, ?_⟩
  exact order_process_in_time_order twoMaps sorted (by simp [Config.OnlyMmaps, twoMaps])
    (freshOrder_boot written [] hsize) hr

end PerfProf.OrderProcess
