import PerfProf.MinHeap
import PerfProf.OrderClock

/-! Where a call stops. `order_process` promises to touch nothing later than the last sample
before `target_end`, or than `target_tm`. The cursor of the target ring buffer is followed
through the call: as long as a sample is still ahead of it, the ring buffer stays in the
heap and no root can be later; once it has passed `target_end`, only the test for equality
there ends the call. -/
namespace PerfProf.OrderProcess
open PerfProf.Heap PerfProf.Loop PerfProf.Ring

/-- The heap time of the sample that this step hands on. -/
def handedTime (c : Config) (k : Call) : Option Nat :=
  match k.pc with
  | .top =>
    match k.s.heap with
    | [] => none
    | .stream j :: _ =>
      match (k.s.streams j).event.kind with
      | .sample _ => some (k.s.streams j).time
      | _ => none
    | .mmap i :: _ =>
      if k.frame.targetTime < (k.s.maps i).time then none
      else
        match k.s.lostWait c i with
        | (_, true) => none
        | (s, false) => some ((s.processRoot c i).maps i).time
  | _ => none

/-- The heap times of samples, as the ring buffer has them. -/
def heapTimes (c : Config) (rs : List Record) : List Nat :=
  (rs.filterMap Record.sample?).map (heapclock c)

/-- The records from the current position to `end_`. -/
def pending (m : PerfMmap) (end_ : Nat) : List Record :=
  ((offsets 0 m.written).filter fun p => m.start ≤ p.1 ∧ p.1 < end_).map Prod.snd

/-- The heap time of the last sample before `end_` in ring buffer `i`. A sample is moved up
to what was popped before the call and to the samples of its ring buffer before it. -/
def lastTime (c : Config) (s : Order) (i end_ : Nat) : Nat :=
  (heapTimes c (pending (s.maps i).map end_)).foldl max s.heapPoppedTime

section Cursor
variable {m : PerfMmap} {end_ : Nat} {r : Record} {rest : List Record}

/-- The records `rest` are still to be read before `end_`. -/
structure Cursor (m : PerfMmap) (end_ : Nat) (rest : List Record) : Prop where
  written : ∃ done later, m.written = done ++ (rest ++ later) ∧ m.start = extent done
  start : m.start + extent rest = end_
  prev : m.prev = m.start
  tail : m.tail ≤ m.start
  room : extent m.written ≤ m.tail + m.size
  refcnt : m.refcnt ≠ 0

theorem Cursor.end_le (h : Cursor m end_ rest) : end_ ≤ m.readHead := by
  obtain ⟨done, later, hw, hs⟩ := h.written
  have hend := h.start
  rw [PerfMmap.readHead, hw, extent_append, extent_append]
  omega

theorem Cursor.output (h : Cursor m end_ rest) (r : Record) : Cursor (m.output r) end_ rest := by
  by_cases hfit : m.readHead + r.size < m.tail + m.size
  · obtain ⟨done, later, hw, hs⟩ := h.written
    rw [PerfMmap.output, if_pos hfit]
    refine ⟨⟨done, later ++ [r], ?_, hs⟩, h.start, h.prev, h.tail, ?_, h.refcnt⟩
    · simp [hw]
    · show extent (m.written ++ [r]) ≤ m.tail + m.size
      rw [extent_append]
      simp only [PerfMmap.readHead] at hfit
      simp only [extent]
      omega
  · rw [PerfMmap.output, if_neg hfit]
    exact h

theorem Cursor.writeTail (h : Cursor m end_ rest) : Cursor m.writeTail end_ rest := by
  have ht := h.tail
  have hr := h.room
  have hp := h.prev
  refine ⟨h.written, h.start, hp, Nat.le_of_eq hp, ?_, h.refcnt⟩
  show extent m.written ≤ m.prev + m.size
  omega

/-- A ring buffer with something to read is not unmapped. -/
theorem Cursor.putEmpty (h : Cursor m end_ (r :: rest)) : Cursor m.putEmpty end_ (r :: rest) := by
  have hne : m.empty ≠ true := by
    intro hempty
    have hle := h.end_le
    have hs := h.start
    have hp := h.prev
    have hr := r.header_le
    have hall := of_decide_eq_true hempty
    simp only [extent] at hs
    omega
  rw [PerfMmap.putEmpty, if_neg fun hboth => hne hboth.2]
  exact h

theorem Cursor.readInit (h : Cursor m end_ rest) (hflush : m.flush ≤ extent rest) :
    m.readInit.2 = true ∧ Cursor m.readInit.1 end_ rest := by
  have hle := h.end_le
  have hs := h.start
  have hp := h.prev
  have ht := h.tail
  have hr := h.room
  have hfew : ¬ m.readHead - m.prev < m.flush := by omega
  have hfits : ¬ m.size < m.readHead - m.prev := by
    simp only [PerfMmap.readHead]
    omega
  have hrest : Cursor { m with start := m.prev, end_ := m.readHead } end_ rest := by
    refine ⟨?_, ?_, rfl, ?_, hr, h.refcnt⟩
    · rw [hp]
      exact h.written
    · rw [← hs, hp]
    · rw [hp]
      exact ht
  simp only [PerfMmap.readInit, if_neg h.refcnt, if_neg hfew, if_neg hfits]
  exact ⟨trivial, hrest⟩

theorem Cursor.readEvent (h : Cursor m end_ (r :: rest)) :
    ∃ w, m.readEvent.2 = some (r, w) ∧ Cursor m.readEvent.1 end_ rest := by
  obtain ⟨done, later, hw, hs⟩ := h.written
  have hend := h.start
  have hle := h.end_le
  have ht := h.tail
  have hr := r.header_le
  simp only [extent] at hend
  have hread : PerfMmap.read { m with end_ := m.readHead } = some r := by
    rw [PerfMmap.read, if_pos ⟨ht, by simp only; omega⟩]
    simp only [hw, hs, List.cons_append, recordAt_extent]
    rw [if_neg]
    simp only [not_or, Nat.not_lt]
    omega
  simp only [PerfMmap.readEvent, if_neg h.refcnt, hread]
  refine ⟨_, rfl, ⟨done ++ [r], later, ?_, ?_⟩, ?_, rfl, ?_, h.room, h.refcnt⟩
  · simp [hw]
  · simp only [hs, extent_append, extent]
    omega
  · simp only
    omega
  · simp only
    omega

end Cursor

section Rings
variable {c : Config} {s : Order} {i j end_ : Nat} {r : Record} {rest : List Record} {m m' : PerfMmap}

/-- The kernel has written on. -/
def Grows : PerfMmap → PerfMmap → Prop := Relation.ReflTransGen fun m m' => ∃ r, m' = m.output r

theorem Cursor.grows (h : Cursor m end_ rest) (hg : Grows m m') : Cursor m' end_ rest := by
  induction hg with
  | refl => exact h
  | tail _ hstep ih =>
    obtain ⟨r, rfl⟩ := hstep
    exact ih.output r

/-- The reader's side stays as it is. -/
theorem Grows.same (hg : Grows m m') : m'.flush = m.flush ∧ m'.start = m.start ∧ m'.end_ = m.end_ := by
  induction hg with
  | refl => exact ⟨rfl, rfl, rfl⟩
  | tail _ hstep ih =>
    obtain ⟨r, rfl⟩ := hstep
    rw [PerfMmap.output]
    split
    · exact ih
    · exact ih

theorem grows_of_eq (h : m' = m) : Grows m m' := h ▸ .refl

theorem grows_tick (s : Order) (i : Nat) : Grows (s.maps i).map (s.tick.maps i).map :=
  tick_keeps (P := fun j e => Grows (s.maps j).map e.map)
    (fun _ _ r h => Relation.ReflTransGen.tail h ⟨r, rfl⟩) (fun _ => .refl) i

theorem ring_updRing_self (s : Order) (i : Nat) (f : PerfMmap → PerfMmap) :
    ((s.updRing i f).maps i).map = f (s.maps i).map := by
  rw [Order.updRing, updMap_maps_self]

theorem maps_updRing_ne (s : Order) (f : PerfMmap → PerfMmap) (hj : i ≠ j) :
    (s.updRing j f).maps i = s.maps i :=
  updMap_maps_ne s _ hj

/-- Reading another ring buffer. -/
theorem grows_readNext_ne (s : Order) (hj : i ≠ j) :
    Grows (s.maps i).map ((s.readNext j).1.maps i).map := by
  have hmaps : (s.tick.updRing j fun m => m.readEvent.1).maps i = s.tick.maps i :=
    maps_updRing_ne s.tick _ hj
  show Grows _ ((s.tick.updRing j fun m => m.readEvent.1).maps i).map
  rw [hmaps]
  exact grows_tick s i

theorem grows_mmapConsume_ne (s : Order) (hj : i ≠ j) :
    Grows (s.maps i).map ((s.mmapConsume j).maps i).map := by
  have hg := grows_tick (s.updRing j PerfMmap.writeTail) i
  rw [maps_updRing_ne s _ hj] at hg
  rw [Order.mmapConsume, maps_updRing_ne _ _ hj]
  exact hg

theorem cursor_mmapConsume (h : Cursor (s.maps i).map end_ (r :: rest)) :
    Cursor ((s.mmapConsume i).maps i).map end_ (r :: rest) := by
  have hg := grows_tick (s.updRing i PerfMmap.writeTail) i
  rw [ring_updRing_self] at hg
  rw [Order.mmapConsume, ring_updRing_self]
  exact (h.writeTail.grows hg).putEmpty

theorem cursor_readNext (h : Cursor (s.maps i).map end_ (r :: rest)) :
    ∃ s' w, s.readNext i = (s', some (r, w)) ∧ Cursor (s'.maps i).map end_ rest := by
  obtain ⟨w, hread, hrest⟩ := (h.grows (grows_tick s i)).readEvent
  refine ⟨(s.readNext i).1, w, Prod.ext rfl hread, ?_⟩
  rw [Order.readNext, ring_updRing_self]
  exact hrest

theorem maps_countLost (s : Order) (r : Record) : (s.countLost c j r).maps = s.maps := by
  unfold Order.countLost
  split
  · rfl
  · rfl

theorem maps_reportLost (s : Order) (lost : Lost) : (s.reportLost c j lost).maps = s.maps := by
  unfold Order.reportLost
  split
  · rfl
  · rfl

theorem maps_popTime (s : Order) (e : HeapId) (t ins : Nat) : (s.popTime c e t ins).maps = s.maps := by
  simp only [Order.popTime]
  split
  · split
    · rfl
    · rfl
  · split
    · rfl
    · rfl

/-- What the merge notes about a ring buffer does not move its cursor. -/
theorem ring_updMap (s : Order) (f : MmapEvent → MmapEvent) (hf : (f (s.maps j)).map = (s.maps j).map) :
    ((s.updMap j f).maps i).map = (s.maps i).map := by
  by_cases hij : i = j
  · subst hij
    rw [updMap_maps_self, hf]
  · rw [updMap_maps_ne s _ hij]

theorem ring_fixOutOfOrder (s : Order) (t : Nat) :
    ((s.fixOutOfOrder c j t).maps i).map = (s.maps i).map := by
  simp only [Order.fixOutOfOrder, Order.updDev]
  exact ring_updMap s _ rfl

theorem ring_processRoot (s : Order) : ((s.processRoot c j).maps i).map = (s.maps i).map := by
  simp only [Order.processRoot, Order.processRecord, Order.hand, maps_popTime]
  split
  · exact ring_fixOutOfOrder s _
  · exact ring_updMap s _ rfl

theorem ring_enterHeap (s : Order) (t : Nat) (w : Bool) (lost : Lost) :
    ((s.enterHeap c j r t w lost).maps i).map = (s.maps i).map := by
  simp only [Order.enterHeap, Order.setHeap, maps_reportLost]
  split
  · rw [ring_fixOutOfOrder]
    exact ring_updMap s _ rfl
  · exact ring_updMap s _ rfl

theorem grows_lostWait (s : Order) : Grows (s.maps i).map ((s.lostWait c j).1.maps i).map := by
  have hg := grows_tick s i
  simp only [Order.lostWait]
  split
  · split
    · rw [ring_updMap s]
      · exact .refl
      · rfl
    · simp only [Order.updDev]
      rw [ring_updMap s]
      · exact .refl
      · rfl
  · split
    · split
      · exact hg
      · simp only [Order.updDev]
        rw [ring_updMap]
        · exact hg
        · rfl
    · rw [ring_updMap]
      · exact hg
      · rfl

theorem maps_streamInit (s : Order) (j : Nat) : (s.streamInit j).1.maps = s.maps := by
  have hread : (s.readStream j).1.maps = s.maps := by
    unfold Order.readStream
    split
    · rfl
    · rfl
    · rfl
  unfold Order.streamInit
  generalize s.readStream j = out at hread
  obtain ⟨s₁, _ | r⟩ := out
  · exact hread
  · dsimp only
    split
    · exact hread
    · exact hread
    · exact hread

end Rings

section Times
variable {c : Config} {s : Order} {i : Nat}

/-- A sample found at init stands at its own time or at the time popped last. -/
theorem view_enterHeap_max (c : Config) (s : Order) (i : Nat) (r : Record) (t : Nat) (w : Bool)
    (lost : Lost) : ∃ r', (s.enterHeap c i r t w lost).view =
      { s.view.load i r' (max s.view.popped (heapclock c t)) with
        heap := s.view.heap ++ [.mmap i] } := by
  have hv := view_loadSample c s i r t w
  have hheap : ∀ u : Order, (u.setHeap (u.heap ++ [.mmap i])).view =
      { u.view with heap := u.view.heap ++ [.mmap i] } := fun _ => rfl
  have htime : ((s.loadSample c i r t w).maps i).time = heapclock c t := by
    simp only [Order.loadSample, Order.updMap, Function.update_self]
  have hpop : (s.loadSample c i r t w).heapPoppedTime = s.view.popped := rfl
  simp only [Order.enterHeap]
  rw [hheap, view_reportLost, htime, hpop]
  by_cases hlate : heapclock c t < s.view.popped
  · rw [if_pos hlate, max_eq_left (le_of_lt hlate), view_fixOutOfOrder, hv]
    simp only [View.load, Function.update_idem]
    exact ⟨_, rfl⟩
  · rw [if_neg hlate, max_eq_right (Nat.le_of_not_lt hlate), hv]
    exact ⟨r, rfl⟩

/-- The root is processed at its own time or at the monotone time of its ring buffer. -/
theorem view_processRoot_max (c : Config) (s : Order) (i : Nat) :
    ∃ t r u ts, t = max (s.view.key (.mmap i)) (s.view.mono i) ∧ (s.processRoot c i).view =
      ⟨Function.update s.view.key (.mmap i) t, Function.update s.view.event i r,
        Function.update s.view.mono i t, max s.view.popped t, u, ts, s.view.heap⟩ := by
  have hhand : ∀ (u : Order) (r : Record) (t : Nat),
      u.view = { s.view with
        key := Function.update s.view.key (.mmap i) t
        event := Function.update s.view.event i r
        mono := Function.update s.view.mono i t } →
      ∃ x ts, Order.view ((u.popTime c (.mmap i) (u.maps i).time (c.ins i)).processRecord c i
        ((u.popTime c (.mmap i) (u.maps i).time (c.ins i)).maps i).event
        ((u.popTime c (.mmap i) (u.maps i).time (c.ins i)).maps i).writable) =
      ⟨Function.update s.view.key (.mmap i) t, Function.update s.view.event i r,
        Function.update s.view.mono i t, max s.view.popped t, x, ts, s.view.heap⟩ := by
    intro u r t hu
    have htime : (u.maps i).time = t := by
      rw [time_eq_key, hu]
      exact Function.update_self ..
    obtain ⟨x, hv⟩ := view_popTime_any c u (.mmap i) t (c.ins i)
    rw [htime, view_processRecord, hv, hu]
    exact ⟨_, _, rfl⟩
  simp only [Order.processRoot]
  by_cases hlate : (s.maps i).time < (s.maps i).eventMonoTime
  · have hmax : (s.maps i).eventMonoTime = max (s.view.key (.mmap i)) (s.view.mono i) :=
      (max_eq_right (le_of_lt hlate)).symm
    rw [if_pos hlate]
    obtain ⟨x, ts, hv⟩ := hhand (s.fixOutOfOrder c i (s.maps i).eventMonoTime)
      { (s.maps i).event with kind := .sample (heapclockToPerfclock c (s.maps i).eventMonoTime) }
      (s.maps i).eventMonoTime (by
      rw [view_fixOutOfOrder]
      simp only [View.load, View.mk.injEq, true_and, and_true]
      exact (Function.update_eq_self i s.view.mono).symm)
    exact ⟨_, _, x, ts, hmax, hv⟩
  · have hmax : (s.maps i).time = max (s.view.key (.mmap i)) (s.view.mono i) :=
      (max_eq_left (Nat.le_of_not_lt hlate)).symm
    have hset : (s.updMap i fun e => { e with eventMonoTime := e.time }).view =
        { s.view with mono := Function.update s.view.mono i (s.maps i).time } :=
      view_setMono i (s.maps i).time
    rw [if_neg hlate]
    obtain ⟨x, ts, hv⟩ := hhand (s.updMap i fun e => { e with eventMonoTime := e.time })
      (s.maps i).event (s.maps i).time (by
        rw [hset]
        simp only [View.mk.injEq, and_true]
        exact ⟨(Function.update_eq_self _ s.view.key).symm, (Function.update_eq_self i _).symm⟩)
    exact ⟨_, _, x, ts, hmax, hv⟩

end Times

section Passes
variable {c : Config} {s : Order} {i j : Nat}

/-- A step that leaves the view alone, or loads one ring buffer more. -/
theorem view_mmapRetry (c : Config) (s : Order) (j : Nat) (lost : Lost) (todo : List HeapId) :
    (s.mmapRetry c j lost todo).1.view = s.view ∧ ((s.mmapRetry c j lost todo).2 = .heapInit todo ∨
      ∃ l, (s.mmapRetry c j lost todo).2 = .mmapRetry j l todo) ∨
    ∃ r t, (s.mmapRetry c j lost todo).1.view =
        { s.view.load j r (max s.view.popped t) with heap := s.view.heap ++ [.mmap j] } ∧
      (s.mmapRetry c j lost todo).2 = .heapInit todo := by
  have hv := view_readNext s j
  unfold Order.mmapRetry
  generalize s.readNext j = out at hv
  obtain ⟨s₁, _ | ⟨r, w⟩⟩ := out
  · exact Or.inl ⟨by rw [view_updRing]; exact hv, Or.inl rfl⟩
  · have hv : s₁.view = s.view := hv
    dsimp only
    cases hr : r.sample? with
    | some t =>
      obtain ⟨r', hv'⟩ := view_enterHeap_max c s₁ j r t w lost
      rw [hv] at hv'
      exact Or.inr ⟨r', _, hv', rfl⟩
    | none =>
      dsimp only
      cases (s₁.countLost c j r).lostFor c j r with
      | some l => exact Or.inl ⟨by rw [view_mmapConsume, view_countLost, hv], Or.inr ⟨l, rfl⟩⟩
      | none =>
        refine Or.inl ⟨?_, Or.inr ⟨lost, rfl⟩⟩
        rw [view_mmapConsume, view_processOther c _ j w hr, view_countLost, hv]

theorem grows_mmapRetry_ne (s : Order) (lost : Lost) (todo : List HeapId) (hj : i ≠ j) :
    Grows (s.maps i).map ((s.mmapRetry c j lost todo).1.maps i).map := by
  have hg := grows_readNext_ne s hj
  unfold Order.mmapRetry
  generalize s.readNext j = out at hg
  obtain ⟨s₁, _ | ⟨r, w⟩⟩ := out
  · dsimp only
    rw [maps_updRing_ne _ _ hj]
    exact hg
  · have hcount : Grows (s.maps i).map ((s₁.countLost c j r).maps i).map := by
      rw [maps_countLost]
      exact hg
    dsimp only
    split
    · rw [ring_enterHeap]
      exact hg
    · split
      · exact hcount.trans (grows_mmapConsume_ne _ hj)
      · exact hcount.trans (grows_mmapConsume_ne ((s₁.countLost c j r).processRecord c j r w) hj)


/-- What the part of an iteration behind `process` makes of the view. -/
theorem consumePass_cases (c : Config) (H : MinHeap HeapId) (k : Call) (j : Nat) (nb : Bool) :
    let s₁ := (consumeTail c k j nb).1
    let nb' := (consumeTail c k j nb).2
    ((s₁.readNext j).2 = none ∧ ∃ s, s.view = { k.s.view with heap := H.pop k.s.view.key k.s.view.heap } ∧
      (∀ i, i ≠ j → (s.maps i).map = ((s₁.readNext j).1.maps i).map) ∧
      consumePass c H k j nb = leave k s nb') ∨
    (∃ r w, (s₁.readNext j).2 = some (r, w) ∧ r.sample? = none ∧ ∃ s frame, s.view = k.s.view ∧
      s.maps = (s₁.readNext j).1.maps ∧ frame.targetMap = k.frame.targetMap ∧
      frame.targetEnd = k.frame.targetEnd ∧ frame.targetTime = k.frame.targetTime ∧
      consumePass c H k j nb = .again ⟨s, .consume j nb', frame⟩) ∨
    ∃ r w t, (s₁.readNext j).2 = some (r, w) ∧ r.sample? = some t ∧ ∃ s frame,
      (let v := k.s.view.load j r (heapclock c t)
       s.view = { v with heap := H.siftDown v.key v.heap }) ∧
      (∀ i, (s.maps i).map = ((s₁.readNext j).1.maps i).map) ∧
      frame.targetMap = k.frame.targetMap ∧ frame.targetEnd = k.frame.targetEnd ∧
      frame.targetTime = k.frame.targetTime ∧
      consumePass c H k j nb = leave { k with frame := frame } s nb' := by
  intro s₁ nb'
  have hv : s₁.view = k.s.view := view_consumeTail k j nb
  have hvr := view_readNext s₁ j
  rw [hv] at hvr
  have htail : consumeTail c k j nb = (s₁, nb') := rfl
  simp only [consumePass, htail]
  generalize s₁.readNext j = out at hvr
  obtain ⟨s₂, _ | ⟨r, w⟩⟩ := out
  · have hvd : (s₂.updRing j PerfMmap.readDone).view = k.s.view := by
      rw [view_updRing]
      exact hvr
    have hvs : ∀ u : Order, u.view = k.s.view → (u.setHeap (H.pop u.time u.heap)).view =
        { k.s.view with heap := H.pop k.s.view.key k.s.view.heap } := by
      intro u hu
      rw [← hu]
      rfl
    refine Or.inl ⟨rfl, _, hvs _ hvd, ?_, rfl⟩
    intro i hi
    exact congrArg MmapEvent.map (maps_updRing_ne s₂ PerfMmap.readDone hi)
  · have hvr : s₂.view = k.s.view := hvr
    cases hr : r.sample? with
    | none =>
      have hvc : (s₂.countLost c j r).view = k.s.view := by rw [view_countLost, hvr]
      refine Or.inr (Or.inl ⟨r, w, rfl, hr, ?_⟩)
      simp only [hr]
      cases (s₂.countLost c j r).lostFor c j r with
      | some l => exact ⟨_, { k.frame with lost := l }, hvc, maps_countLost s₂ r, rfl, rfl, rfl, rfl⟩
      | none =>
        refine ⟨(s₂.countLost c j r).processRecord c j r w, k.frame, ?_, maps_countLost s₂ r, rfl, rfl, rfl, rfl⟩
        rw [view_processOther c _ j w hr, hvc]
    | some t =>
      refine Or.inr (Or.inr ⟨r, w, t, rfl, hr, ?_⟩)
      have hvl : (s₂.loadSample c j r t w).view = k.s.view.load j r (heapclock c t) := by
        rw [view_loadSample, hvr]
      have hvs : ∀ u : Order, u.view = k.s.view.load j r (heapclock c t) →
          (u.setHeap (H.siftDown u.time u.heap)).view =
            { k.s.view.load j r (heapclock c t) with
              heap := H.siftDown (k.s.view.load j r (heapclock c t)).key
                (k.s.view.load j r (heapclock c t)).heap } := by
        intro u hu
        rw [← hu]
        rfl
      simp only [hr]
      refine ⟨_, { k.frame with lost := { k.frame.lost with lost := 0 } }, ?_, ?_, rfl, rfl, rfl, rfl⟩
      · rw [view_reportLost]
        exact hvs _ hvl
      · intro i
        rw [maps_reportLost]
        show ((s₂.loadSample c j r t w).maps i).map = (s₂.maps i).map
        rw [Order.loadSample]
        exact ring_updMap s₂ _ rfl


end Passes

section Steps
variable {c : Config} {H : MinHeap HeapId} {T : Nat} {v v' : View} {pc pc' : Pc} {k k' : Call}

/-- Stream `j` now offers an event at time `t`. -/
def View.offer (v : View) (j t : Nat) : View :=
  { v with key := Function.update v.key (.stream j) t }

theorem View.key_offer (v : View) (j t i : Nat) :
    (v.offer j t).key (.mmap i) = v.key (.mmap i) := by
  have hne : HeapId.mmap i ≠ .stream j := HeapId.noConfusion
  exact Function.update_of_ne hne t v.key

def View.enter (v : View) (e : HeapId) : View := { v with heap := v.heap ++ [e] }

/-- The root `j` is processed, at its own time or at the monotone time of its ring buffer. -/
def View.processed (v : View) (j : Nat) (r : Record) (u : Nat → Nat) (ts : List Nat) : View :=
  let t := max (v.key (.mmap j)) (v.mono j)
  ⟨Function.update v.key (.mmap j) t, Function.update v.event j r, Function.update v.mono j t,
    max v.popped t, u, ts, v.heap⟩

/-- What a step can do to the view in a call with target time `T`. -/
inductive ViewStep (H : MinHeap HeapId) (T : Nat) : View → Pc → View → Pc → Prop where
  | heapify (v : View) :
      ViewStep H T v (.heapInit []) { v with heap := H.heapifyAll v.key v.heap } .top
  | mapEmpty (v : View) (j : Nat) (todo : List HeapId) :
      ViewStep H T v (.heapInit (.mmap j :: todo)) v (.heapInit todo)
  | mapFirst (v : View) (j : Nat) (todo : List HeapId) :
      ViewStep H T v (.heapInit (.mmap j :: todo)) v (.mmapRetry j noLost todo)
  | streamHeld (v : View) (j : Nat) (todo : List HeapId) :
      ViewStep H T v (.heapInit (.stream j :: todo)) (v.enter (.stream j)) (.heapInit todo)
  | streamFirst (v : View) (j : Nat) (todo : List HeapId) :
      ViewStep H T v (.heapInit (.stream j :: todo)) v (.streamRetry j todo)
  | mapNone (v : View) (j : Nat) (lost : Lost) (todo : List HeapId) :
      ViewStep H T v (.mmapRetry j lost todo) v (.heapInit todo)
  | mapSkip (v : View) (j : Nat) (lost lost' : Lost) (todo : List HeapId) :
      ViewStep H T v (.mmapRetry j lost todo) v (.mmapRetry j lost' todo)
  | mapEnter (v : View) (j : Nat) (lost : Lost) (todo : List HeapId) (r : Record) (t : Nat) :
      ViewStep H T v (.mmapRetry j lost todo)
        ((v.load j r (max v.popped t)).enter (.mmap j)) (.heapInit todo)
  | streamSkip (v : View) (j : Nat) (todo : List HeapId) (t : Nat) :
      ViewStep H T v (.streamRetry j todo) (v.offer j t) (.streamRetry j todo)
  | streamEnter (v : View) (j : Nat) (todo : List HeapId) (t : Nat) :
      ViewStep H T v (.streamRetry j todo) ((v.offer j t).enter (.stream j)) (.heapInit todo)
  | streamRoot (v : View) (j : Nat) (rest : List HeapId) (u : Nat → Nat)
      (hheap : v.heap = .stream j :: rest) :
      ViewStep H T v .top
        { v with popped := max v.popped (v.key (.stream j)), unordered := u } (.streamNext j)
  | mapRoot (v : View) (j : Nat) (rest : List HeapId) (r : Record) (u : Nat → Nat) (ts : List Nat)
      (hheap : v.heap = .mmap j :: rest) (htime : v.key (.mmap j) ≤ T) :
      ViewStep H T v .top (v.processed j r u ts) (.consume j false)
  | streamOther (v : View) (j t : Nat) :
      ViewStep H T v (.streamNext j) (v.offer j t) (.streamNext j)
  | streamSift (v : View) (j t : Nat) :
      ViewStep H T v (.streamNext j)
        { v.offer j t with heap := H.siftDown (v.offer j t).key v.heap } .top
  | mapPop (v : View) (j : Nat) (nb : Bool) :
      ViewStep H T v (.consume j nb) { v with heap := H.pop v.key v.heap } .top
  | mapOther (v : View) (j : Nat) (nb nb' : Bool) :
      ViewStep H T v (.consume j nb) v (.consume j nb')
  | mapSift (v : View) (j : Nat) (nb : Bool) (r : Record) (t : Nat) :
      ViewStep H T v (.consume j nb)
        { v.load j r t with heap := H.siftDown (v.load j r t).key v.heap } .top

/-- What a step leaves: a state that `ViewStep` allows, or the end of the call, where nothing
is processed any more. -/
def StepsView (H : MinHeap HeapId) (k : Call) : Pass Call Unit → Prop
  | .again k' => ViewStep H k.frame.targetTime k.s.view k.pc k'.s.view k'.pc ∧
      k'.frame.targetTime = k.frame.targetTime
  | .done k' _ => k'.s.view.mono = k.s.view.mono ∧ k'.s.view.popped = k.s.view.popped

theorem stop_stepsView {s : Order} (hmono : s.view.mono = k.s.view.mono)
    (hpopped : s.view.popped = k.s.view.popped) (reason : BreakReason) :
    StepsView H k (.done { k with s := s.stop reason } ()) := by
  simp only [StepsView, view_stop]
  exact ⟨hmono, hpopped⟩

theorem unwind_stepsView {s : Order} (hmono : s.view.mono = k.s.view.mono)
    (hpopped : s.view.popped = k.s.view.popped) :
    StepsView H k (.done { k with s := s.unwind s.heap } ()) := by
  simp only [StepsView, view_unwind]
  exact ⟨hmono, hpopped⟩

theorem leave_stepsView {l : Call} {s : Order} {nb : Bool} (hmono : s.view.mono = k.s.view.mono)
    (hpopped : s.view.popped = k.s.view.popped) (htime : l.frame.targetTime = k.frame.targetTime)
    (hstep : ViewStep H k.frame.targetTime k.s.view k.pc s.view .top) :
    StepsView H k (leave l s nb) := by
  cases nb with
  | true => exact unwind_stepsView (H := H) (k := k) hmono hpopped
  | false => exact ⟨hstep, htime⟩

theorem heapInitPass_stepsView {todo : List HeapId} (hpc : k.pc = .heapInit todo) :
    StepsView H k (heapInitPass H k todo) := by
  cases todo with
  | nil =>
    refine ⟨?_, rfl⟩
    rw [hpc]
    exact .heapify k.s.view
  | cons e todo =>
    cases e with
    | mmap j =>
      have hv : (k.s.tick.updRing j fun _ => ((k.s.tick.maps j).map.readInit).1).view = k.s.view := by
        rw [view_updRing, view_tick]
      simp only [heapInitPass, StepsView]
      refine ⟨?_, trivial⟩
      rw [hpc, hv]
      split
      · exact .mapFirst k.s.view j todo
      · exact .mapEmpty k.s.view j todo
    | stream j =>
      have hv := view_updStream_keep k.s j (fun e => { e with unconsumed := false }) rfl
      simp only [heapInitPass]
      split
      · refine ⟨?_, rfl⟩
        show ViewStep H _ k.s.view k.pc
          ((k.s.updStream j fun e => { e with unconsumed := false }).view.enter (.stream j)) _
        rw [hpc, hv]
        exact .streamHeld k.s.view j todo
      · refine ⟨?_, rfl⟩
        rw [hpc]
        exact .streamFirst k.s.view j todo

theorem mmapRetry_stepsView {j : Nat} {lost : Lost} {todo : List HeapId}
    (hpc : k.pc = .mmapRetry j lost todo) : StepsView H k (orderPass c H k) := by
  simp only [orderPass, hpc]
  refine ⟨?_, rfl⟩
  rw [hpc]
  obtain ⟨hv, hnext | ⟨l, hnext⟩⟩ | ⟨r, t, hv, hnext⟩ := view_mmapRetry c k.s j lost todo
  · dsimp only
    rw [hv, hnext]
    exact .mapNone k.s.view j lost todo
  · dsimp only
    rw [hv, hnext]
    exact .mapSkip k.s.view j lost l todo
  · dsimp only
    rw [hv, hnext]
    exact .mapEnter k.s.view j lost todo r t

theorem streamRetry_stepsView {j : Nat} {todo : List HeapId} (hpc : k.pc = .streamRetry j todo) :
    StepsView H k (orderPass c H k) := by
  obtain ⟨t, hv⟩ := view_streamInit k.s j
  simp only [orderPass, hpc]
  generalize k.s.streamInit j = out at hv
  obtain ⟨s, _ | b⟩ := out
  · have hv : s.view = k.s.view.offer j t := hv
    exact stop_stepsView (H := H) (by rw [hv]; rfl) (by rw [hv]; rfl) .streamStop
  · have hv : s.view = k.s.view.offer j t := hv
    cases b with
    | false =>
      refine ⟨?_, rfl⟩
      dsimp only
      rw [hv, hpc]
      exact .streamSkip k.s.view j todo t
    | true =>
      refine ⟨?_, rfl⟩
      show ViewStep H _ k.s.view k.pc (s.view.enter (.stream j)) _
      rw [hpc, hv]
      exact .streamEnter k.s.view j todo t

theorem topPass_stepsView (hpc : k.pc = .top) : StepsView H k (topPass c k) := by
  unfold topPass
  cases hheap : k.s.heap with
  | nil => exact stop_stepsView rfl rfl .empty
  | cons e rest =>
    have hheap' : k.s.view.heap = e :: rest := hheap
    cases e with
    | stream j =>
      obtain ⟨u, hv⟩ := view_popTime_any c k.s (.stream j) (k.s.streams j).time (k.s.streams j).event.ins
      have hv' : ((k.s.popTime c (.stream j) (k.s.streams j).time (k.s.streams j).event.ins).hand
          (.stream j (k.s.streams j).event)).view =
          { k.s.view with popped := max k.s.view.popped (k.s.streams j).time, unordered := u } := by
        rw [view_hand, hv]
        simp [Handed.sampleTime]
      refine ⟨?_, rfl⟩
      dsimp only
      rw [hv', hpc]
      exact .streamRoot k.s.view j rest u hheap'
    | mmap j =>
      dsimp only
      by_cases hlate : k.frame.targetTime < (k.s.maps j).time
      · rw [if_pos hlate]
        exact stop_stepsView rfl rfl .targetTime
      · rw [if_neg hlate]
        have hv := view_lostWait c k.s j
        generalize k.s.lostWait c j = out at hv
        obtain ⟨s, wait⟩ := out
        have hv : s.view = k.s.view := hv
        cases wait with
        | true => exact unwind_stepsView (by rw [hv]) (by rw [hv])
        | false =>
          obtain ⟨t, r, u, ts, ht, hv'⟩ := view_processRoot_max c s j
          rw [hv] at ht hv'
          subst ht
          refine ⟨?_, rfl⟩
          dsimp only
          rw [hv', hpc]
          exact .mapRoot k.s.view j rest r u ts hheap' (Nat.le_of_not_lt hlate)

theorem streamNext_stepsView {j : Nat} (hpc : k.pc = .streamNext j) :
    StepsView H k (orderPass c H k) := by
  obtain ⟨t, hv⟩ := view_streamInit k.s j
  simp only [orderPass, hpc]
  generalize k.s.streamInit j = out at hv
  obtain ⟨s, _ | b⟩ := out
  · have hv : s.view = k.s.view.offer j t := hv
    refine stop_stepsView (H := H) (s := s.setHeap (H.pop s.time s.heap)) ?_ ?_ .streamStop
    · show s.view.mono = _
      rw [hv]
      rfl
    · show s.view.popped = _
      rw [hv]
      rfl
  · have hv : s.view = k.s.view.offer j t := hv
    cases b with
    | false =>
      refine ⟨?_, rfl⟩
      dsimp only
      rw [hv, hpc]
      exact .streamOther k.s.view j t
    | true =>
      have hv' : (s.setHeap (H.siftDown s.time s.heap)).view =
          { s.view with heap := H.siftDown s.view.key s.view.heap } := rfl
      refine ⟨?_, rfl⟩
      dsimp only
      rw [hv', hv, hpc]
      exact .streamSift k.s.view j t

theorem consumePass_stepsView {j : Nat} {nb : Bool} (hpc : k.pc = .consume j nb) :
    StepsView H k (consumePass c H k j nb) := by
  have hcases := consumePass_cases c H k j nb
  dsimp only at hcases
  obtain ⟨-, s, hv, -, hpass⟩ | ⟨r, w, -, -, s, frame, hv, -, -, -, hft, hpass⟩ |
    ⟨r, w, t, -, -, s, frame, hv, -, -, -, hft, hpass⟩ := hcases
  · rw [hpass]
    refine leave_stepsView (by rw [hv]) (by rw [hv]) rfl ?_
    rw [hv, hpc]
    exact .mapPop k.s.view j nb
  · rw [hpass]
    refine ⟨?_, hft⟩
    dsimp only
    rw [hv, hpc]
    exact .mapOther k.s.view j nb _
  · rw [hpass]
    refine leave_stepsView (by rw [hv]; rfl) (by rw [hv]; rfl) hft ?_
    rw [hv, hpc]
    exact .mapSift k.s.view j nb r _

theorem orderPass_stepsView (c : Config) (H : MinHeap HeapId) (k : Call) :
    StepsView H k (orderPass c H k) := by
  cases hpc : k.pc with
  | heapInit todo =>
    simp only [orderPass, hpc]
    exact heapInitPass_stepsView hpc
  | mmapRetry j lost todo => exact mmapRetry_stepsView hpc
  | streamRetry j todo => exact streamRetry_stepsView hpc
  | top =>
    simp only [orderPass, hpc]
    exact topPass_stepsView hpc
  | streamNext j => exact streamNext_stepsView hpc
  | consume j nb =>
    simp only [orderPass, hpc]
    exact consumePass_stepsView hpc

/-- How the heap is laid out at a program point. -/
def View.Laid (H : MinHeap HeapId) (v : View) : Pc → Prop
  | .heapInit todo => (v.heap ++ todo).Nodup
  | .mmapRetry j _ todo => (v.heap ++ .mmap j :: todo).Nodup
  | .streamRetry j todo => (v.heap ++ .stream j :: todo).Nodup
  | .top => v.heap.Nodup ∧ H.Ordered v.key v.heap
  | .streamNext j => v.Below H (.stream j)
  | .consume j _ => v.Below H (.mmap j)

/-- No ring buffer is ahead of what was popped last. -/
def View.Late (v : View) : Prop := ∀ i, v.mono i ≤ v.popped

theorem View.Below.of_root {e : HeapId} {rest : List HeapId} (h : v.Laid H .top)
    (hheap : v.heap = e :: rest) (hheap' : v'.heap = v.heap)
    (hkey : ∀ x, x ≠ e → v'.key x = v.key x) : v'.Below H e := by
  obtain ⟨hnd, hord⟩ := h
  refine ⟨rest, v.key, hheap'.trans hheap, hheap' ▸ hnd, hheap' ▸ hord, ?_⟩
  intro x hx
  refine hkey x ?_
  rintro rfl
  rw [hheap] at hnd
  exact (List.nodup_cons.mp hnd).1 hx

theorem ViewStep.laid (h : ViewStep H T v pc v' pc') (hl : v.Laid H pc) : v'.Laid H pc' := by
  have hskip : ∀ {e : HeapId} {todo : List HeapId}, (v.heap ++ e :: todo).Nodup →
      (v.heap ++ todo).Nodup := fun hnd =>
    hnd.sublist (List.Sublist.append_left (List.sublist_cons_self _ _) _)
  have henter : ∀ {e : HeapId} {todo : List HeapId}, (v.heap ++ e :: todo).Nodup →
      ((v.heap ++ [e]) ++ todo).Nodup := by
    intro e todo hnd
    rw [List.append_assoc]
    exact hnd
  cases h with
  | heapify =>
    simp only [View.Laid, List.append_nil] at hl
    exact ⟨(H.heapifyAll_perm v.key v.heap).nodup_iff.mpr hl, H.heapifyAll_ordered _ _⟩
  | mapEmpty | mapNone => exact hskip hl
  | mapFirst | streamFirst | mapSkip | mapOther => exact hl
  | streamHeld | mapEnter | streamEnter => exact henter hl
  | streamSkip => exact hl
  | streamRoot j rest u hheap => exact View.Below.of_root hl hheap rfl fun _ _ => rfl
  | mapRoot j rest r u ts hheap _ =>
    exact View.Below.of_root hl hheap rfl fun x hx => Function.update_of_ne hx ..
  | streamOther j t =>
    have hl : v.Below H (.stream j) := hl
    obtain ⟨rest, key, hheap, hnd, hord, hkey⟩ := hl
    refine ⟨rest, key, hheap, hnd, hord, fun x hx => ?_⟩
    rw [← hkey x hx]
    refine Function.update_of_ne ?_ ..
    rintro rfl
    rw [hheap] at hnd
    exact (List.nodup_cons.mp hnd).1 hx
  | streamSift j t =>
    have hl : v.Below H (.stream j) := hl
    exact hl.sift (v.offer j t) rfl fun x hx => Function.update_of_ne hx ..
  | mapPop j nb =>
    have hl : v.Below H (.mmap j) := hl
    obtain ⟨rest, key, hheap, hrest⟩ := hl
    exact (View.Below.pop ⟨rest, key, hheap, hrest⟩ hheap).2
  | mapSift j nb r t =>
    have hl : v.Below H (.mmap j) := hl
    exact hl.sift (v.load j r t) rfl fun x hx => Function.update_of_ne hx ..

theorem ViewStep.late (h : ViewStep H T v pc v' pc') (hl : v.Late) : v'.Late := by
  cases h with
  | streamRoot j rest u hheap => exact fun i => Nat.le_trans (hl i) (Nat.le_max_left _ _)
  | mapRoot j rest r u ts hheap _ =>
    intro i
    simp only [View.processed]
    by_cases hi : i = j
    · subst hi
      rw [Function.update_self]
      exact Nat.le_max_right _ _
    · rw [Function.update_of_ne hi]
      exact Nat.le_trans (hl i) (Nat.le_max_left _ _)
  | heapify | mapEmpty | mapFirst | streamHeld | streamFirst | mapNone | mapSkip | mapEnter
    | streamSkip | streamEnter | streamOther | streamSift | mapPop | mapOther | mapSift => exact hl

end Steps

section Target
variable {c : Config} {H : MinHeap HeapId} {s s' : Order} {i j end_ x : Nat} {todo : List HeapId}

/-- A sample is still to be read before `end_`; the last one will stand at `x`. -/
def Scans (c : Config) (i end_ x : Nat) (s : Order) : Prop :=
  ∃ rest, Cursor (s.maps i).map end_ rest ∧ heapTimes c rest ≠ [] ∧
    (heapTimes c rest).foldl max s.view.popped = x

/-- The target is not initialised yet. -/
def Awaits (c : Config) (i end_ x : Nat) (s : Order) : Prop :=
  ∃ rest, Cursor (s.maps i).map end_ rest ∧ heapTimes c rest ≠ [] ∧
    (heapTimes c rest).foldl max s.view.popped = x ∧ (s.maps i).map.flush ≤ extent rest

/-- The target is in the heap, and not past `end_`. -/
def Holds (c : Config) (i end_ x : Nat) (s : Order) : Prop :=
  .mmap i ∈ s.view.heap ∧ ∃ rest, Cursor (s.maps i).map end_ rest ∧
    (heapTimes c rest).foldl max (max (s.view.key (.mmap i)) (s.view.mono i)) = x

/-- Where the target is at a program point. -/
def Aim (c : Config) (i end_ x : Nat) (s : Order) : Pc → Prop
  | .heapInit todo | .streamRetry _ todo => Awaits c i end_ x s ∧ .mmap i ∈ todo ∨ Holds c i end_ x s
  | .mmapRetry j _ todo =>
      j = i ∧ Scans c i end_ x s ∨ Awaits c i end_ x s ∧ .mmap i ∈ todo ∨ Holds c i end_ x s
  | .top | .streamNext _ => Holds c i end_ x s
  | .consume j needBreak =>
      j = i ∧ (needBreak = true ∨ ∃ rest, Cursor (s.maps i).map end_ rest ∧
        (heapTimes c rest).foldl max (s.view.mono i) = x) ∨
      j ≠ i ∧ needBreak = false ∧ Holds c i end_ x s

structure Aimed (c : Config) (i end_ x : Nat) (k : Call) : Prop where
  targetMap : k.frame.targetMap = some i
  targetEnd : k.frame.targetEnd = end_
  popped : k.s.view.popped ≤ x
  aim : Aim c i end_ x k.s k.pc

/-- What a step leaves for the rest of the call. -/
def AimedPass (c : Config) (i end_ x : Nat) : Pass Call Unit → Prop
  | .again k => Aimed c i end_ x k
  | .done _ _ => True

theorem Awaits.frame (h : Awaits c i end_ x s) (hg : Grows (s.maps i).map (s'.maps i).map)
    (hpopped : s'.view.popped = s.view.popped) : Awaits c i end_ x s' := by
  obtain ⟨rest, hcur, hne, hx, hflush⟩ := h
  refine ⟨rest, hcur.grows hg, hne, ?_, ?_⟩
  · rw [hpopped]
    exact hx
  · rw [hg.same.1]
    exact hflush

theorem Holds.frame (h : Holds c i end_ x s) (hg : Grows (s.maps i).map (s'.maps i).map)
    (hheap : .mmap i ∈ s'.view.heap) (hkey : s'.view.key (.mmap i) = s.view.key (.mmap i))
    (hmono : s'.view.mono i = s.view.mono i) : Holds c i end_ x s' := by
  obtain ⟨-, rest, hcur, hx⟩ := h
  refine ⟨hheap, rest, hcur.grows hg, ?_⟩
  rw [hkey, hmono]
  exact hx

theorem foldl_max_le {l : List Nat} {a b : Nat} (h : l.foldl max a = b) : a ≤ b := by
  induction l generalizing a with
  | nil => exact Nat.le_of_eq h
  | cons y l ih => exact Nat.le_trans (Nat.le_max_left a y) (ih h)

/-- The target is not later than its last sample. -/
theorem Holds.key_le (h : Holds c i end_ x s) : s.view.key (.mmap i) ≤ x := by
  obtain ⟨-, rest, -, hx⟩ := h
  exact Nat.le_trans (Nat.le_max_left _ _) (foldl_max_le hx)

theorem heapTimes_cons_other {r : Record} (rest : List Record) (hr : r.sample? = none) :
    heapTimes c (r :: rest) = heapTimes c rest := by
  rw [heapTimes, List.filterMap_cons, hr]
  rfl

theorem heapTimes_cons_sample {r : Record} {t : Nat} (rest : List Record) (hr : r.sample? = some t) :
    heapTimes c (r :: rest) = heapclock c t :: heapTimes c rest := by
  rw [heapTimes, List.filterMap_cons, hr]
  rfl

/-- A step of the init that leaves the target alone. -/
theorem init_frame (h : Awaits c i end_ x s ∧ .mmap i ∈ todo ∨ Holds c i end_ x s)
    (hg : Grows (s.maps i).map (s'.maps i).map) (hpopped : s'.view.popped = s.view.popped)
    (hheap : ∀ e ∈ s.view.heap, e ∈ s'.view.heap)
    (hkey : s'.view.key (.mmap i) = s.view.key (.mmap i)) (hmono : s'.view.mono i = s.view.mono i) :
    Awaits c i end_ x s' ∧ .mmap i ∈ todo ∨ Holds c i end_ x s' := by
  cases h with
  | inl h => exact Or.inl ⟨h.1.frame hg hpopped, h.2⟩
  | inr h => exact Or.inr (h.frame hg (hheap _ h.1) hkey hmono)

theorem heapInitPass_aimed {k : Call} (h : Aimed c i end_ x k) (hl : k.s.view.Laid H k.pc)
    (hpc : k.pc = .heapInit todo) : AimedPass c i end_ x (heapInitPass H k todo) := by
  obtain ⟨htm, hte, hpopped, hinit⟩ := h
  rw [hpc] at hinit hl
  cases todo with
  | nil =>
    have hperm := H.heapifyAll_perm k.s.view.key k.s.view.heap
    obtain ⟨-, hmem⟩ | hholds := hinit
    · cases hmem
    · refine ⟨htm, hte, hpopped, ?_⟩
      exact hholds.frame .refl (hperm.mem_iff.mpr hholds.1) rfl rfl
  | cons e todo =>
    cases e with
    | mmap j =>
      have hv : (k.s.tick.updRing j fun _ => ((k.s.tick.maps j).map.readInit).1).view = k.s.view := by
        rw [view_updRing, view_tick]
      simp only [heapInitPass, AimedPass]
      refine ⟨htm, hte, ?_, ?_⟩
      · rw [hv]
        exact hpopped
      · by_cases hji : j = i
        · subst hji
          obtain ⟨⟨rest, hcur, hne, hx, hflush⟩, -⟩ | hholds := hinit
          · have hg := grows_tick k.s j
            have hread := (hcur.grows hg).readInit (hg.same.1 ▸ hflush)
            rw [hread.1, if_pos rfl, Aim]
            refine Or.inl ⟨rfl, rest, ?_, hne, ?_⟩
            · rw [ring_updRing_self]
              exact hread.2
            · rw [hv]
              exact hx
          · exact absurd rfl ((List.nodup_append.mp hl).2.2 _ hholds.1 _ (List.mem_cons_self ..))
        · have hgrows : Grows (k.s.maps i).map
              ((k.s.tick.updRing j fun _ => ((k.s.tick.maps j).map.readInit).1).maps i).map := by
            rw [maps_updRing_ne _ _ (Ne.symm hji)]
            exact grows_tick k.s i
          have hinit' : Awaits c i end_ x k.s ∧ .mmap i ∈ todo ∨ Holds c i end_ x k.s := by
            refine hinit.imp_left fun hboth => ⟨hboth.1, ?_⟩
            exact (List.mem_cons.mp hboth.2).resolve_left fun heq => hji (HeapId.mmap.inj heq).symm
          have hframe := init_frame hinit' hgrows (by rw [hv]) (by rw [hv]; exact fun _ he => he)
            (by rw [hv]) (by rw [hv])
          split
          · exact Or.inr hframe
          · exact hframe
    | stream j =>
      have hinit' : Awaits c i end_ x k.s ∧ .mmap i ∈ todo ∨ Holds c i end_ x k.s :=
        hinit.imp_left fun hboth =>
          ⟨hboth.1, (List.mem_cons.mp hboth.2).resolve_left HeapId.noConfusion⟩
      simp only [heapInitPass]
      split
      · have hv := view_updStream_keep k.s j (fun e => { e with unconsumed := false }) rfl
        have hmaps : (k.s.updStream j fun e => { e with unconsumed := false }).maps = k.s.maps := rfl
        generalize k.s.updStream j _ = s₁ at hv hmaps
        have hv' : (s₁.setHeap (s₁.heap ++ [.stream j])).view =
            { k.s.view with heap := k.s.view.heap ++ [.stream j] } := by
          rw [← hv]
          rfl
        have hgrows : Grows (k.s.maps i).map ((s₁.setHeap (s₁.heap ++ [.stream j])).maps i).map :=
          grows_of_eq (congrArg (fun maps => (maps i).map) hmaps)
        refine ⟨htm, hte, ?_, ?_⟩
        · rw [hv']
          exact hpopped
        · refine init_frame hinit' hgrows ?_ ?_ ?_ ?_
          · rw [hv']
          · rw [hv']
            exact fun e he => List.mem_append_left _ he
          · rw [hv']
          · rw [hv']
      · exact ⟨htm, hte, hpopped, hinit'⟩

theorem mmapRetry_aimed {k : Call} {lost : Lost} (h : Aimed c i end_ x k)
    (hl : k.s.view.Laid H k.pc) (hlate : k.s.view.Late) (hpc : k.pc = .mmapRetry j lost todo) :
    AimedPass c i end_ x (orderPass c H k) := by
  obtain ⟨htm, hte, hpopped, hwhere⟩ := h
  rw [hpc] at hwhere hl
  simp only [orderPass, hpc]
  by_cases hji : j = i
  · -- the target is read: the sample that is still to come keeps the ring buffer going
    subst hji
    obtain ⟨-, rest, hcur, hne, hx⟩ | ⟨-, hmem⟩ | hholds := hwhere
    · cases rest with
      | nil => exact absurd rfl hne
      | cons r rest =>
        obtain ⟨s₁, w, hread, hcur₁⟩ := cursor_readNext hcur
        have hv : s₁.view = k.s.view := by
          rw [← view_readNext k.s j, hread]
        cases hr : r.sample? with
        | none =>
          rw [heapTimes_cons_other rest hr] at hne hx
          obtain ⟨r', rest', rfl⟩ : ∃ r' rest', rest = r' :: rest' := by
            cases rest with
            | nil => exact absurd rfl hne
            | cons r' rest' => exact ⟨r', rest', rfl⟩
          have hscans : ∀ u : Order, u.view = k.s.view → u.maps = s₁.maps →
              (u.mmapConsume j).view.popped ≤ x ∧ Scans c j end_ x (u.mmapConsume j) := by
            intro u hu hmaps
            rw [view_mmapConsume, hu]
            refine ⟨hpopped, _, cursor_mmapConsume ?_, hne, ?_⟩
            · rw [hmaps]
              exact hcur₁
            · rw [view_mmapConsume, hu]
              exact hx
          simp only [Order.mmapRetry, hread, hr]
          cases (s₁.countLost c j r).lostFor c j r with
          | some l =>
            have hu : (s₁.countLost c j r).view = k.s.view := by rw [view_countLost, hv]
            obtain ⟨hpopped', hscans'⟩ := hscans _ hu (maps_countLost s₁ r)
            exact ⟨htm, hte, hpopped', Or.inl ⟨rfl, hscans'⟩⟩
          | none =>
            have hu : ((s₁.countLost c j r).processRecord c j r w).view = k.s.view := by
              rw [view_processOther c _ j w hr, view_countLost, hv]
            obtain ⟨hpopped', hscans'⟩ := hscans _ hu (maps_countLost s₁ r)
            exact ⟨htm, hte, hpopped', Or.inl ⟨rfl, hscans'⟩⟩
        | some t =>
          rw [heapTimes_cons_sample rest hr, List.foldl_cons] at hx
          obtain ⟨r', hv'⟩ := view_enterHeap_max c s₁ j r t w lost
          rw [hv] at hv'
          simp only [Order.mmapRetry, hread, hr]
          refine ⟨htm, hte, ?_, Or.inr ⟨?_, rest, ?_, ?_⟩⟩
          · rw [hv']
            exact hpopped
          · rw [hv']
            exact List.mem_append_right _ (List.mem_singleton.mpr rfl)
          · rw [ring_enterHeap]
            exact hcur₁
          · rw [hv']
            simp only [View.load, Function.update_self]
            rw [max_eq_left (Nat.le_trans (hlate j) (Nat.le_max_left _ _))]
            exact hx
    · have hnd := (List.nodup_append.mp hl).2.1
      exact absurd hmem (List.nodup_cons.mp hnd).1
    · exact absurd rfl ((List.nodup_append.mp hl).2.2 _ hholds.1 _ (List.mem_cons_self ..))
  · have hne : HeapId.mmap i ≠ .mmap j := fun heq => hji (HeapId.mmap.inj heq).symm
    have hg := grows_mmapRetry_ne (c := c) k.s lost todo (Ne.symm hji)
    have hinit : Awaits c i end_ x k.s ∧ .mmap i ∈ todo ∨ Holds c i end_ x k.s :=
      hwhere.resolve_left fun hboth => hji hboth.1
    obtain ⟨hv, hnext⟩ | ⟨r, t, hv, hnext⟩ := view_mmapRetry c k.s j lost todo
    · have hframe := init_frame hinit hg (by rw [hv]) (by rw [hv]; exact fun _ he => he) (by rw [hv])
        (by rw [hv])
      refine ⟨htm, hte, ?_, ?_⟩
      · rw [hv]
        exact hpopped
      · obtain hpc' | ⟨l, hpc'⟩ := hnext
        · simp only [hpc', Aim]
          exact hframe
        · simp only [hpc', Aim]
          exact Or.inr hframe
    · refine ⟨htm, hte, ?_, ?_⟩
      · rw [hv]
        exact hpopped
      · simp only [hnext, Aim]
        refine init_frame hinit hg ?_ ?_ ?_ ?_
        · rw [hv]
          rfl
        · rw [hv]
          exact fun e he => List.mem_append_left _ he
        · rw [hv]
          exact Function.update_of_ne hne ..
        · rw [hv]
          rfl

theorem streamRetry_aimed {k : Call} (h : Aimed c i end_ x k) (hpc : k.pc = .streamRetry j todo) :
    AimedPass c i end_ x (orderPass c H k) := by
  obtain ⟨htm, hte, hpopped, hinit⟩ := h
  rw [hpc] at hinit
  have hne : HeapId.mmap i ≠ .stream j := HeapId.noConfusion
  obtain ⟨t, hv⟩ := view_streamInit k.s j
  have hmaps := maps_streamInit k.s j
  simp only [orderPass, hpc]
  generalize k.s.streamInit j = out at hv hmaps
  obtain ⟨s₁, found⟩ := out
  have hv : s₁.view = { k.s.view with key := Function.update k.s.view.key (.stream j) t } := hv
  have hmaps : s₁.maps = k.s.maps := hmaps
  cases found with
  | none => trivial
  | some b =>
    have hframe : ∀ u : Order, u.maps = s₁.maps → u.view.popped = s₁.view.popped →
        (∀ e ∈ s₁.view.heap, e ∈ u.view.heap) → u.view.key = s₁.view.key → u.view.mono = s₁.view.mono →
        u.view.popped ≤ x ∧ (Awaits c i end_ x u ∧ .mmap i ∈ todo ∨ Holds c i end_ x u) := by
      intro u humaps hup huheap hukey humono
      refine ⟨?_, init_frame hinit ?_ ?_ ?_ ?_ ?_⟩
      · rw [hup, hv]
        exact hpopped
      · rw [humaps, hmaps]
        exact .refl
      · rw [hup, hv]
      · intro e he
        refine huheap e ?_
        rw [hv]
        exact he
      · rw [hukey, hv]
        exact Function.update_of_ne hne t k.s.view.key
      · rw [humono, hv]
    cases b with
    | false =>
      obtain ⟨hpopped', haim'⟩ := hframe s₁ rfl rfl (fun _ he => he) rfl rfl
      refine ⟨htm, hte, hpopped', ?_⟩
      simp only [Aim]
      exact haim'
    | true =>
      obtain ⟨hpopped', haim'⟩ := hframe (s₁.setHeap (s₁.heap ++ [.stream j])) rfl rfl
        (fun e he => List.mem_append_left _ he) rfl rfl
      exact ⟨htm, hte, hpopped', haim'⟩

theorem streamNext_aimed {k : Call} (h : Aimed c i end_ x k) (hpc : k.pc = .streamNext j) :
    AimedPass c i end_ x (orderPass c H k) := by
  obtain ⟨htm, hte, hpopped, hholds⟩ := h
  rw [hpc] at hholds
  have hholds : Holds c i end_ x k.s := hholds
  have hne : HeapId.mmap i ≠ .stream j := HeapId.noConfusion
  obtain ⟨t, hv⟩ := view_streamInit k.s j
  have hmaps := maps_streamInit k.s j
  simp only [orderPass, hpc]
  generalize k.s.streamInit j = out at hv hmaps
  obtain ⟨s₁, found⟩ := out
  have hv : s₁.view = { k.s.view with key := Function.update k.s.view.key (.stream j) t } := hv
  have hmaps : s₁.maps = k.s.maps := hmaps
  have hkey : s₁.view.key (.mmap i) = k.s.view.key (.mmap i) := by
    rw [hv]
    exact Function.update_of_ne hne t k.s.view.key
  have hgrows : Grows (k.s.maps i).map (s₁.maps i).map := by
    rw [hmaps]
    exact .refl
  have hheap : s₁.view.heap = k.s.view.heap := by rw [hv]
  have hmono : s₁.view.mono i = k.s.view.mono i := by rw [hv]
  have hpopped' : s₁.view.popped ≤ x := by
    rw [hv]
    exact hpopped
  cases found with
  | none => trivial
  | some b =>
    cases b with
    | false =>
      refine ⟨htm, hte, hpopped', ?_⟩
      simp only [Aim]
      exact hholds.frame hgrows (hheap ▸ hholds.1) hkey hmono
    | true =>
      have hperm := H.siftDown_perm s₁.view.key s₁.view.heap
      refine ⟨htm, hte, hpopped', ?_⟩
      show Holds c i end_ x (s₁.setHeap (H.siftDown s₁.time s₁.heap))
      refine hholds.frame hgrows ?_ hkey hmono
      exact hperm.mem_iff.mpr (hheap ▸ hholds.1)

/-- Nothing at the root is later than the target's last sample. -/
theorem Holds.root_le {e : HeapId} {rest : List HeapId} (h : Holds c i end_ x s)
    (hheap : s.view.heap = e :: rest) (hord : H.Ordered s.view.key s.view.heap) :
    s.view.key e ≤ x := by
  have hmem := h.1
  rw [hheap] at hmem hord
  cases List.mem_cons.mp hmem with
  | inl heq => exact heq ▸ h.key_le
  | inr hin => exact Nat.le_trans (H.root_le hord _ hin) h.key_le

theorem topPass_aimed {k : Call} (h : Aimed c i end_ x k) (hl : k.s.view.Laid H k.pc)
    (hlate : k.s.view.Late) (hpc : k.pc = .top) : AimedPass c i end_ x (topPass c k) := by
  obtain ⟨htm, hte, hpopped, hholds⟩ := h
  rw [hpc] at hholds hl
  have hholds : Holds c i end_ x k.s := hholds
  unfold topPass
  cases hheap : k.s.heap with
  | nil => trivial
  | cons e rest =>
    have hroot := hholds.root_le (show k.s.view.heap = e :: rest from hheap) hl.2
    cases e with
    | stream j =>
      obtain ⟨u, hv⟩ := view_popTime_any c k.s (.stream j) (k.s.streams j).time (k.s.streams j).event.ins
      have hmaps := maps_popTime (c := c) k.s (.stream j) (k.s.streams j).time (k.s.streams j).event.ins
      dsimp only
      generalize k.s.popTime c (.stream j) (k.s.streams j).time (k.s.streams j).event.ins = s₁ at hv hmaps
      have hv' : (s₁.hand (.stream j (k.s.streams j).event)).view =
          { k.s.view with popped := max k.s.view.popped (k.s.streams j).time, unordered := u } := by
        rw [view_hand, hv]
        simp [Handed.sampleTime]
      have hgrows : Grows (k.s.maps i).map ((s₁.hand (.stream j (k.s.streams j).event)).maps i).map :=
        grows_of_eq (congrArg (fun maps => (maps i).map) hmaps)
      refine ⟨htm, hte, ?_, hholds.frame hgrows ?_ ?_ ?_⟩
      · rw [hv']
        exact Nat.max_le.mpr ⟨hpopped, hroot⟩
      · rw [hv']
        exact hholds.1
      · rw [hv']
      · rw [hv']
    | mmap j =>
      dsimp only
      by_cases hpast : k.frame.targetTime < (k.s.maps j).time
      · rw [if_pos hpast]
        trivial
      · rw [if_neg hpast]
        have hv := view_lostWait c k.s j
        have hg := grows_lostWait (c := c) (i := i) (j := j) k.s
        generalize k.s.lostWait c j = out at hv hg
        obtain ⟨s₁, wait⟩ := out
        have hv : s₁.view = k.s.view := hv
        cases wait with
        | true => trivial
        | false =>
          obtain ⟨t, r, u, ts, ht, hv'⟩ := view_processRoot_max c s₁ j
          rw [hv] at ht hv'
          have htx : t ≤ x := by
            rw [ht]
            exact Nat.max_le.mpr ⟨hroot, Nat.le_trans (hlate j) hpopped⟩
          have hgrows : Grows (k.s.maps i).map ((s₁.processRoot c j).maps i).map := by
            rw [ring_processRoot]
            exact hg
          refine ⟨htm, hte, ?_, ?_⟩
          · rw [hv']
            exact Nat.max_le.mpr ⟨hpopped, htx⟩
          · simp only [Aim]
            by_cases hji : j = i
            · subst hji
              obtain ⟨-, rest', hcur, hx⟩ := hholds
              refine Or.inl ⟨rfl, Or.inr ⟨rest', hcur.grows hgrows, ?_⟩⟩
              rw [hv']
              simp only [Function.update_self]
              rw [ht]
              exact hx
            · have hne : HeapId.mmap i ≠ .mmap j := fun heq => hji (HeapId.mmap.inj heq).symm
              refine Or.inr ⟨hji, trivial, hholds.frame hgrows ?_ ?_ ?_⟩
              · rw [hv']
                exact hholds.1
              · rw [hv']
                exact Function.update_of_ne hne ..
              · rw [hv']
                exact Function.update_of_ne (Ne.symm hji) ..

/-- A sample that a step hands on stands at the key of the root or at the monotone time of
its ring buffer. -/
theorem handedTime_cases {k : Call} {t : Nat} (ht : handedTime c k = some t) :
    k.pc = .top ∧ ∃ e rest, k.s.view.heap = e :: rest ∧
      ((∃ j, e = .stream j) ∧ t = k.s.view.key e ∨
        ∃ j, e = .mmap j ∧ k.s.view.key e ≤ k.frame.targetTime ∧
          t = max (k.s.view.key e) (k.s.view.mono j)) := by
  unfold handedTime at ht
  cases hpc : k.pc with
  | top =>
    rw [hpc] at ht
    refine ⟨rfl, ?_⟩
    cases hheap : k.s.heap with
    | nil =>
      rw [hheap] at ht
      cases ht
    | cons e rest =>
      refine ⟨e, rest, hheap, ?_⟩
      rw [hheap] at ht
      cases e with
      | stream j =>
        dsimp only at ht
        split at ht
        · cases ht
          exact Or.inl ⟨⟨j, rfl⟩, rfl⟩
        · cases ht
      | mmap j =>
        dsimp only at ht
        split at ht
        · cases ht
        · rename_i hpast
          have hv := view_lostWait c k.s j
          generalize k.s.lostWait c j = out at hv ht
          obtain ⟨s₁, wait⟩ := out
          have hv : s₁.view = k.s.view := hv
          cases wait with
          | true => cases ht
          | false =>
            obtain ⟨t', r, u, ts, ht', hv'⟩ := view_processRoot_max c s₁ j
            rw [hv] at ht' hv'
            have htime : ((s₁.processRoot c j).maps j).time = t' := by
              rw [time_eq_key, hv']
              exact Function.update_self ..
            dsimp only at ht
            rw [htime] at ht
            cases ht
            exact Or.inr ⟨j, rfl, Nat.le_of_not_lt hpast, ht'⟩
  | _ =>
    rw [hpc] at ht
    cases ht

/-- No sample that a step hands on is later than the target's last one. -/
theorem Aimed.handedTime_le {k : Call} {t : Nat} (h : Aimed c i end_ x k)
    (hl : k.s.view.Laid H k.pc) (hlate : k.s.view.Late) (ht : handedTime c k = some t) : t ≤ x := by
  obtain ⟨-, -, hpopped, hholds⟩ := h
  obtain ⟨hpc, e, rest, hheap, hcase⟩ := handedTime_cases ht
  rw [hpc] at hholds hl
  have hroot := Holds.root_le hholds hheap hl.2
  obtain ⟨-, rfl⟩ | ⟨j, -, -, rfl⟩ := hcase
  · exact hroot
  · exact Nat.max_le.mpr ⟨hroot, Nat.le_trans (hlate j) hpopped⟩

theorem start_mmapConsume (s : Order) (i : Nat) :
    ((s.mmapConsume i).maps i).map.start = (s.maps i).map.start := by
  have hg := (grows_tick (s.updRing i PerfMmap.writeTail) i).same.2.1
  rw [ring_updRing_self] at hg
  rw [Order.mmapConsume, ring_updRing_self, PerfMmap.putEmpty]
  split
  · exact hg
  · exact hg

/-- Behind the target's record the call is asked to end, or there is more to read before
`end_`. -/
theorem consumeTail_target {k : Call} {rest : List Record} (htm : k.frame.targetMap = some i)
    (hte : k.frame.targetEnd = end_) (hcur : Cursor (k.s.maps i).map end_ rest) (nb : Bool) :
    (consumeTail c k i nb).2 = true ∨ ∃ r rest', rest = r :: rest' ∧
      Cursor ((consumeTail c k i nb).1.maps i).map end_ rest := by
  have hstart := hcur.start
  have hdefer : ((k.s.consumeDeferred c i).maps i).map.start = (k.s.maps i).map.start := by
    simp only [Order.consumeDeferred]
    split
    · exact start_mmapConsume k.s i
    · rfl
  cases rest with
  | nil =>
    refine Or.inl ?_
    have hend : ((k.s.consumeDeferred c i).maps i).map.start = k.frame.targetEnd := by
      rw [hdefer, hte, ← hstart]
      rfl
    simp only [consumeTail]
    rw [if_pos ⟨htm, hend⟩]
  | cons r rest =>
    have hcur₁ : Cursor ((k.s.consumeDeferred c i).maps i).map end_ (r :: rest) := by
      simp only [Order.consumeDeferred]
      split
      · exact cursor_mmapConsume hcur
      · exact hcur
    refine Or.inr ⟨r, rest, rfl, ?_⟩
    simp only [consumeTail]
    split
    · exact hcur₁
    · exact hcur₁

theorem consumeTail_ne {k : Call} (htm : k.frame.targetMap = some i) (hji : j ≠ i) (nb : Bool) :
    (consumeTail c k j nb).2 = nb ∧
      Grows (k.s.maps i).map ((consumeTail c k j nb).1.maps i).map := by
  have hno : ¬ (k.frame.targetMap = some j ∧
      ((k.s.consumeDeferred c j).maps j).map.start = k.frame.targetEnd) := by
    rw [htm]
    exact fun hboth => hji (Option.some.inj hboth.1).symm
  simp only [consumeTail]
  rw [if_neg hno]
  refine ⟨rfl, ?_⟩
  simp only [Order.consumeDeferred]
  split
  · exact grows_mmapConsume_ne k.s (Ne.symm hji)
  · exact .refl

/-- The target, still in the heap, when an iteration ends. -/
theorem leave_aimed {k : Call} {nb : Bool} (htm : k.frame.targetMap = some i)
    (hte : k.frame.targetEnd = end_) (hpopped : s.view.popped ≤ x)
    (haim : nb = false → Holds c i end_ x s) : AimedPass c i end_ x (leave k s nb) := by
  cases nb with
  | true => trivial
  | false => exact ⟨htm, hte, hpopped, haim rfl⟩

/-- What is left of the target once its last page was given back: nothing before `end_`, or more
of it, with the same latest time. -/
theorem consumeTail_left {k : Call} {nb : Bool} (htm : k.frame.targetMap = some i)
    (hte : k.frame.targetEnd = end_)
    (hwhere : nb = true ∨ ∃ rest, Cursor (k.s.maps i).map end_ rest ∧
      (heapTimes c rest).foldl max (k.s.view.mono i) = x) :
    (consumeTail c k i nb).2 = true ∨ ∃ r rest,
      Cursor ((consumeTail c k i nb).1.maps i).map end_ (r :: rest) ∧
      (heapTimes c (r :: rest)).foldl max (k.s.view.mono i) = x := by
  obtain hnb | ⟨rest, hcur, hx⟩ := hwhere
  · refine Or.inl ?_
    simp only [consumeTail]
    split
    · rfl
    · exact hnb
  · obtain hend | ⟨r, rest', rfl, hcur'⟩ := consumeTail_target htm hte hcur nb
    · exact Or.inl hend
    · exact Or.inr ⟨r, rest', hcur', hx⟩

/-- The target itself at the root: it stops at `end_`, or there is more of it before `end_`. -/
theorem consumePass_target {k : Call} {nb : Bool} (htm : k.frame.targetMap = some i)
    (hte : k.frame.targetEnd = end_) (hpopped : k.s.view.popped ≤ x)
    (hbelow : k.s.view.Below H (.mmap i))
    (hwhere : nb = true ∨ ∃ rest, Cursor (k.s.maps i).map end_ rest ∧
      (heapTimes c rest).foldl max (k.s.view.mono i) = x) :
    AimedPass c i end_ x (consumePass c H k i nb) := by
  have hnext := consumeTail_left htm hte hwhere
  have hcases := consumePass_cases c H k i nb
  dsimp only at hcases
  obtain ⟨hnone, s, hv, -, hpass⟩ | ⟨r, w, hsome, hr, s, frame, hv, hmaps, hfm, hfe, -, hpass⟩ |
    ⟨r, w, t, hsome, hr, s, frame, hv, hmaps, hfm, hfe, -, hpass⟩ := hcases
  · rw [hpass]
    refine leave_aimed htm hte ?_ fun hfalse => ?_
    · rw [hv]
      exact hpopped
    · obtain htrue | ⟨r, rest, hcur, -⟩ := hnext
      · rw [htrue] at hfalse
        cases hfalse
      · obtain ⟨s', w, hread, -⟩ := cursor_readNext hcur
        rw [hread] at hnone
        cases hnone
  · rw [hpass]
    refine ⟨hfm.trans htm, hfe.trans hte, ?_, Or.inl ⟨rfl, ?_⟩⟩
    · rw [hv]
      exact hpopped
    · refine hnext.imp_right ?_
      rintro ⟨r', rest, hcur, hx⟩
      obtain ⟨s', w', hread, hcur'⟩ := cursor_readNext hcur
      rw [hread] at hsome hmaps
      cases hsome
      refine ⟨rest, ?_, ?_⟩
      · rw [hmaps]
        exact hcur'
      · rw [heapTimes_cons_other rest hr] at hx
        rw [hv]
        exact hx
  · rw [hpass]
    refine leave_aimed (hfm.trans htm) (hfe.trans hte) ?_ fun hfalse => ?_
    · rw [hv]
      exact hpopped
    · obtain htrue | ⟨r', rest, hcur, hx⟩ := hnext
      · rw [htrue] at hfalse
        cases hfalse
      · obtain ⟨s', w', hread, hcur'⟩ := cursor_readNext hcur
        have hmap := hmaps i
        rw [hread] at hsome hmap
        cases hsome
        have hperm := H.siftDown_perm (k.s.view.load i r (heapclock c t)).key k.s.view.heap
        obtain ⟨rest', key, hheap, -⟩ := hbelow
        rw [heapTimes_cons_sample rest hr, List.foldl_cons] at hx
        refine ⟨?_, rest, ?_, ?_⟩
        · rw [hv]
          refine hperm.mem_iff.mpr ?_
          rw [hheap]
          exact List.mem_cons_self ..
        · rw [hmap]
          exact hcur'
        · rw [hv]
          simp only [View.load, Function.update_self]
          rw [max_comm]
          exact hx

/-- Another ring buffer at the root: the target waits below it. -/
theorem consumePass_other {k : Call} (hji : j ≠ i) (htm : k.frame.targetMap = some i)
    (hte : k.frame.targetEnd = end_) (hpopped : k.s.view.popped ≤ x)
    (hbelow : k.s.view.Below H (.mmap j)) (hholds : Holds c i end_ x k.s) :
    AimedPass c i end_ x (consumePass c H k j false) := by
  have hcases := consumePass_cases c H k j false
  dsimp only at hcases
  obtain ⟨hnb, hg⟩ := consumeTail_ne (c := c) htm hji false
  have hg' := hg.trans (grows_readNext_ne (consumeTail c k j false).1 (Ne.symm hji))
  have hne : HeapId.mmap i ≠ .mmap j := fun heq => hji (HeapId.mmap.inj heq).symm
  rw [hnb] at hcases
  obtain ⟨-, s, hv, hmaps, hpass⟩ | ⟨r, w, -, -, s, frame, hv, hmaps, hfm, hfe, -, hpass⟩ |
    ⟨r, w, t, -, -, s, frame, hv, hmaps, hfm, hfe, -, hpass⟩ := hcases
  · rw [hpass]
    refine leave_aimed htm hte ?_ fun _ => ?_
    · rw [hv]
      exact hpopped
    · obtain ⟨rest, key, hheap, hrest⟩ := hbelow
      obtain ⟨hperm, -, -⟩ := View.Below.pop ⟨rest, key, hheap, hrest⟩ hheap
      have hin : HeapId.mmap i ∈ rest := by
        have hmem := hholds.1
        rw [hheap] at hmem
        exact (List.mem_cons.mp hmem).resolve_left hne
      refine hholds.frame ?_ ?_ ?_ ?_
      · rw [hmaps i (Ne.symm hji)]
        exact hg'
      · rw [hv]
        exact hperm.mem_iff.mpr hin
      · rw [hv]
      · rw [hv]
  · rw [hpass]
    refine ⟨hfm.trans htm, hfe.trans hte, ?_, Or.inr ⟨hji, rfl, hholds.frame ?_ ?_ ?_ ?_⟩⟩
    · rw [hv]
      exact hpopped
    · rw [hmaps]
      exact hg'
    · rw [hv]
      exact hholds.1
    · rw [hv]
    · rw [hv]
  · rw [hpass]
    refine leave_aimed (hfm.trans htm) (hfe.trans hte) ?_ fun _ => ?_
    · rw [hv]
      exact hpopped
    · have hperm := H.siftDown_perm (k.s.view.load j r (heapclock c t)).key k.s.view.heap
      refine hholds.frame ?_ ?_ ?_ ?_
      · rw [hmaps i]
        exact hg'
      · rw [hv]
        exact hperm.mem_iff.mpr hholds.1
      · rw [hv]
        exact Function.update_of_ne hne ..
      · rw [hv]
        rfl

theorem consumePass_aimed {k : Call} {nb : Bool} (h : Aimed c i end_ x k)
    (hl : k.s.view.Laid H k.pc) (hpc : k.pc = .consume j nb) :
    AimedPass c i end_ x (consumePass c H k j nb) := by
  obtain ⟨htm, hte, hpopped, hwhere⟩ := h
  rw [hpc] at hwhere hl
  have hbelow : k.s.view.Below H (.mmap j) := hl
  obtain ⟨rfl, hleft⟩ | ⟨hne, rfl, hholds⟩ := hwhere
  · exact consumePass_target htm hte hpopped hbelow hleft
  · exact consumePass_other hne htm hte hpopped hbelow hholds

theorem orderPass_aimed {k : Call} (h : Aimed c i end_ x k) (hl : k.s.view.Laid H k.pc)
    (hlate : k.s.view.Late) : AimedPass c i end_ x (orderPass c H k) := by
  cases hpc : k.pc with
  | heapInit todo =>
    simp only [orderPass, hpc]
    exact heapInitPass_aimed h hl hpc
  | mmapRetry j lost todo => exact mmapRetry_aimed h hl hlate hpc
  | streamRetry j todo => exact streamRetry_aimed h hpc
  | top =>
    simp only [orderPass, hpc]
    exact topPass_aimed h hl hlate hpc
  | streamNext j => exact streamNext_aimed h hpc
  | consume j nb =>
    simp only [orderPass, hpc]
    exact consumePass_aimed h hl hpc

end Target

section Time
variable {H : MinHeap HeapId} {T : Nat} {v v' : View} {pc pc' : Pc}

/-- Either nothing later than `T` has been popped, or all that the ring buffers offer is
later. -/
def View.Timely (v : View) (T : Nat) : Prop :=
  v.popped ≤ T ∨ ∀ i, .mmap i ∈ v.heap → T < v.key (.mmap i)

/-- How far a call with target time `T` is at a program point. -/
def View.Within (v : View) (T : Nat) : Pc → Prop
  | .consume _ _ => v.popped ≤ T
  | _ => v.Timely T

theorem View.Timely.frame (h : v.Timely T) (hpopped : v'.popped = v.popped)
    (hkey : ∀ i, .mmap i ∈ v'.heap → .mmap i ∈ v.heap ∧ v'.key (.mmap i) = v.key (.mmap i)) :
    v'.Timely T := by
  refine h.imp ?_ fun hlater i hi => ?_
  · rw [hpopped]
    exact id
  · obtain ⟨hin, heq⟩ := hkey i hi
    rw [heq]
    exact hlater i hin

/-- No step of a call leaves its target time behind with a ring buffer's event. -/
theorem ViewStep.within (h : ViewStep H T v pc v' pc') (hl : v.Laid H pc) (hlate : v.Late)
    (hw : v.Within T pc) : v'.Within T pc' := by
  cases h with
  | heapify =>
    exact View.Timely.frame hw rfl fun i hi => ⟨(H.heapifyAll_perm v.key v.heap).mem_iff.mp hi, rfl⟩
  | mapEmpty | mapFirst | streamFirst | mapNone | mapSkip | mapOther => exact hw
  | streamHeld j todo =>
    refine View.Timely.frame hw rfl fun i hi => ⟨?_, rfl⟩
    simpa [View.enter] using hi
  | mapEnter j lost todo r t =>
    obtain hle | hlater := hw
    · exact Or.inl hle
    · by_cases hpopped : v.popped ≤ T
      · exact Or.inl hpopped
      · refine Or.inr fun i hi => ?_
        simp only [View.enter, View.load]
        by_cases hij : i = j
        · subst hij
          rw [Function.update_self]
          omega
        · have hne : HeapId.mmap i ≠ .mmap j := fun heq => hij (HeapId.mmap.inj heq)
          rw [Function.update_of_ne hne]
          refine hlater i ?_
          simpa [View.enter, View.load, hij] using hi
  | streamSkip j todo t =>
    exact View.Timely.frame hw rfl fun i hi => ⟨hi, v.key_offer j t i⟩
  | streamEnter j todo t =>
    refine View.Timely.frame hw rfl fun i hi => ⟨?_, v.key_offer j t i⟩
    simpa [View.enter, View.offer] using hi
  | streamRoot j rest u hheap =>
    obtain ⟨-, hord⟩ := hl
    obtain hle | hlater := hw
    · by_cases hT : v.key (.stream j) ≤ T
      · exact Or.inl (Nat.max_le.mpr ⟨hle, hT⟩)
      · -- a stream may run ahead, and then everything below it is later as well
        refine Or.inr fun i hi => ?_
        rw [hheap] at hord
        have hin : HeapId.mmap i ∈ rest := by
          have hi : HeapId.mmap i ∈ v.heap := hi
          rw [hheap] at hi
          exact (List.mem_cons.mp hi).resolve_left HeapId.noConfusion
        exact Nat.lt_of_lt_of_le (Nat.lt_of_not_le hT) (H.root_le hord _ hin)
    · exact Or.inr hlater
  | mapRoot j rest r u ts hheap htime =>
    have hpopped : v.popped ≤ T := by
      obtain hle | hlater := hw
      · exact hle
      · have hlt := hlater j (hheap ▸ List.mem_cons_self ..)
        omega
    have hmono := hlate j
    simp only [View.Within, View.processed]
    omega
  | streamOther j t =>
    exact View.Timely.frame hw rfl fun i hi => ⟨hi, v.key_offer j t i⟩
  | streamSift j t =>
    refine View.Timely.frame hw rfl fun i hi => ⟨?_, v.key_offer j t i⟩
    exact (H.siftDown_perm (v.offer j t).key v.heap).mem_iff.mp hi
  | mapPop | mapSift => exact Or.inl hw

end Time

section Runs
variable {c : Config} {H : MinHeap HeapId} {s : Order} {i end_ x : Nat}

theorem orderStart_view (c : Config) (s : Order) (targetMap : Option Nat) (targetTm : Nat) :
    (orderStart c s targetMap targetTm).order.view.mono = s.view.mono ∧
      (orderStart c s targetMap targetTm).order.view.popped = s.view.popped := by
  have hsame : ∀ u : Order, u.view = s.view → u.view.mono = s.view.mono ∧ u.view.popped = s.view.popped := by
    intro u hu
    rw [hu]
    exact ⟨rfl, rfl⟩
  simp only [orderStart]
  split
  · exact ⟨rfl, rfl⟩
  · cases targetMap with
    | none => exact ⟨rfl, rfl⟩
    | some i =>
      dsimp only
      split
      · split
        · exact hsame _ (by simp only [Point.order, view_tick, view_updRing])
        · exact hsame ((s.tick.updRing i fun _ => (s.tick.maps i).map.readInit.1).tick)
            (by simp only [view_tick, view_updRing])
      · exact hsame _ (by simp only [Point.order, view_tick, view_updRing])

theorem Reached.late {s₀ : Order} {p : Point} (hb : Boot s₀) (h : Reached c H s₀ p) :
    p.order.view.Late := by
  induction h with
  | boot =>
    intro i
    exact Nat.le_trans (Nat.le_of_eq (hb.maps i).2.2.2.2.2) (Nat.zero_le _)
  | @call s targetMap targetTm _ ih =>
    obtain ⟨hmono, hpopped⟩ := orderStart_view c s targetMap targetTm
    intro i
    rw [hmono, hpopped]
    exact ih i
  | @step k k' _ hp ih =>
    have hsteps := orderPass_stepsView c H k
    rw [hp] at hsteps
    exact hsteps.1.late ih
  | @ret k k' _ hp ih =>
    have hsteps := orderPass_stepsView c H k
    rw [hp] at hsteps
    obtain ⟨hmono, hpopped⟩ := hsteps
    intro i
    show k'.s.view.mono i ≤ k'.s.view.popped
    rw [hmono, hpopped]
    exact ih i

/-- What a call starts with. -/
theorem orderStart_inside {targetMap : Option Nat} {targetTm : Nat} {k₀ : Call}
    (h : orderStart c s targetMap targetTm = .inside k₀) :
    k₀.pc = .heapInit c.events ∧ k₀.s.view.heap = [] ∧
      k₀.frame.targetTime = if targetTm ≠ 0 then heapclock c targetTm else 2 ^ 64 - 1 := by
  simp only [orderStart] at h
  split at h
  · cases h
  · cases targetMap with
    | none =>
      cases h
      exact ⟨rfl, rfl, rfl⟩
    | some i =>
      dsimp only at h
      split at h
      · split at h
        · cases h
        · cases h
          exact ⟨rfl, rfl, rfl⟩
      · cases h

/-- What the steps of a call keep may rest on the heap being in order and the target time
being the same. -/
theorem Visits.keeps {J : Call → Prop} {targetMap : Option Nat} {targetTm : Nat} {s₀ : Order}
    {k₀ k : Call} (hb : Boot s₀) (hr : Reached c H s₀ (.idle s))
    (hstart : orderStart c s targetMap targetTm = .inside k₀)
    (hstep : ∀ u v, u.s.view.Laid H u.pc → u.s.view.Late →
      u.frame.targetTime = k₀.frame.targetTime → J u → orderPass c H u = .again v → J v)
    (hJ : J k₀) (hvisits : Visits (orderPass c H) k₀ k) :
    (k.s.view.Laid H k.pc ∧ k.s.view.Late ∧ k.frame.targetTime = k₀.frame.targetTime) ∧ J k := by
  have hlate : k₀.s.view.Late := by
    have hreached := Reached.call (c := c) (H := H) targetMap targetTm hr
    rw [hstart] at hreached
    exact hreached.late hb
  obtain ⟨hpc, hheap, -⟩ := orderStart_inside hstart
  refine hvisits.invariant (I := fun k => (k.s.view.Laid H k.pc ∧ k.s.view.Late ∧
    k.frame.targetTime = k₀.frame.targetTime) ∧ J k) ?_ ⟨⟨?_, hlate, rfl⟩, hJ⟩
  · rintro u v ⟨⟨hl, hlate', htime⟩, hJu⟩ hpass
    have hsteps := orderPass_stepsView c H u
    rw [hpass] at hsteps
    exact ⟨⟨hsteps.1.laid hl, hsteps.1.late hlate', hsteps.2.trans htime⟩,
      hstep u v hl hlate' htime hJu hpass⟩
  · rw [hpc, View.Laid, hheap]
    exact c.events_nodup

theorem offsets_snd (base : Nat) (rs : List Record) : (offsets base rs).map Prod.snd = rs := by
  induction rs generalizing base with
  | nil => rfl
  | cons r rs ih => rw [offsets, List.map_cons, ih]

/-- The cursor is where the records before `end_` begin. -/
theorem Cursor.pending {m : PerfMmap} {rest : List Record} (h : Cursor m end_ rest) :
    pending m end_ = rest := by
  obtain ⟨done, later, hw, hs⟩ := h.written
  have hend := h.start
  rw [OrderProcess.pending, hw, offsets_append, offsets_append, Nat.zero_add]
  have hdone : (offsets 0 done).filter (fun p => m.start ≤ p.1 ∧ p.1 < end_) = [] := by
    rw [List.filter_eq_nil_iff]
    rintro ⟨q, r⟩ hq hkeep
    have hle := (offsets_bounds hq).2
    have hr := r.header_le
    have hkeep := of_decide_eq_true hkeep
    simp only at hkeep
    omega
  have hrest : (offsets (extent done) rest).filter (fun p => m.start ≤ p.1 ∧ p.1 < end_) =
      offsets (extent done) rest := by
    rw [List.filter_eq_self]
    rintro ⟨q, r⟩ hq
    have hle := offsets_bounds hq
    have hr := r.header_le
    refine decide_eq_true ?_
    simp only
    omega
  have hlater : (offsets (extent done + extent rest) later).filter
      (fun p => m.start ≤ p.1 ∧ p.1 < end_) = [] := by
    rw [List.filter_eq_nil_iff]
    rintro ⟨q, r⟩ hq hkeep
    have hle := (offsets_bounds hq).1
    have hkeep := of_decide_eq_true hkeep
    simp only at hkeep
    omega
  rw [List.filter_append, List.filter_append, hdone, hrest, hlater, List.nil_append, List.append_nil,
    offsets_snd]

/-- A call that is not turned away knows its target: what was there at its first look. -/
theorem orderStart_cursor {s₀ : Order} {targetTm : Nat} {k₀ : Call} (hb : Boot s₀)
    (h : Reached c H s₀ (.idle s)) (hstart : orderStart c s (some i) targetTm = .inside k₀) :
    ∃ rest, Cursor (k₀.s.maps i).map k₀.frame.targetEnd rest ∧
      (k₀.s.maps i).map.flush ≤ extent rest ∧ k₀.frame.targetMap = some i ∧
      k₀.pc = .heapInit c.events ∧ k₀.s.heap = [] := by
  have htick : Balanced c s.tick [] noLost := Balanced.tick (h.sound hb)
  obtain ⟨done, rest, hs⟩ := (htick.maps i).2 (by simp)
  simp only [orderStart] at hstart
  split at hstart
  · cases hstart
  · split at hstart
    · rename_i hok
      split at hstart
      · cases hstart
      · cases hstart
        generalize s.tick = s₁ at hs hok
        have hw := hs.written
        have hst := hs.start
        rw [List.append_nil] at hw hst
        have hcur : (s₁.maps i).map.readInit.2 = true →
            Cursor (s₁.maps i).map.readInit.1 (s₁.maps i).map.readInit.1.end_ rest ∧
              (s₁.maps i).map.readInit.1.flush ≤ extent rest := by
          intro hok
          have hhead : (s₁.maps i).map.readHead = extent done + extent rest := by
            rw [PerfMmap.readHead, hw, extent_append]
          have hp := hs.prev
          simp only [PerfMmap.readInit] at hok ⊢
          split at hok
          · cases hok
          · rename_i href
            rw [if_neg href]
            split at hok
            · cases hok
            · rename_i hflush
              split at hok
              · cases hok
              · rename_i hfits
                rw [if_neg hflush, if_neg hfits]
                refine ⟨⟨⟨done, [], ?_, ?_⟩, ?_, rfl, ?_, hs.room, href⟩, ?_⟩
                · simp only [List.append_nil]
                  exact hw
                · exact hp.trans hst
                · simp only
                  omega
                · simp only
                  have ht := hs.tail
                  omega
                · simp only at hflush ⊢
                  omega
        obtain ⟨hcur, hflush⟩ := hcur hok
        have hg := grows_tick (s₁.updRing i fun _ => (s₁.maps i).map.readInit.1) i
        rw [ring_updRing_self] at hg
        refine ⟨rest, ?_, ?_, rfl, rfl, rfl⟩
        · rw [hg.same.2.2]
          exact hcur.grows hg
        · rw [hg.same.1]
          exact hflush
    · cases hstart

theorem heapTimes_ne_nil {rs : List Record} (h : ∃ r ∈ rs, r.sample?.isSome = true) :
    heapTimes c rs ≠ [] := by
  obtain ⟨r, hr, hsome⟩ := h
  obtain ⟨t, ht⟩ := Option.isSome_iff_exists.mp hsome
  refine List.ne_nil_of_mem (a := heapclock c t) ?_
  exact List.mem_map_of_mem (List.mem_filterMap.mpr ⟨r, hr, ht⟩)

/-- With a sample before `target_end` a call hands on nothing later than the last one there,
whatever the other records, the other devices and the kernel's writes. -/
theorem order_process_stops_at_map (c : Config) (H : MinHeap HeapId) (s₀ s : Order)
    (i targetTm : Nat) (k₀ k : Call) (t : Nat) (hb : Boot s₀) (hr : Reached c H s₀ (.idle s))
    (hi : .mmap i ∈ c.events) (hstart : orderStart c s (some i) targetTm = .inside k₀)
    (hsample : ∃ r ∈ pending (k₀.s.maps i).map k₀.frame.targetEnd, r.sample?.isSome = true)
    (hvisits : Visits (orderPass c H) k₀ k) (ht : handedTime c k = some t) :
    t ≤ lastTime c k₀.s i k₀.frame.targetEnd := by
  obtain ⟨rest, hcur, hflush, htm, hpc, hheap⟩ := orderStart_cursor hb hr hstart
  have hne : heapTimes c rest ≠ [] := heapTimes_ne_nil (hcur.pending ▸ hsample)
  have hx : (heapTimes c rest).foldl max k₀.s.view.popped = lastTime c k₀.s i k₀.frame.targetEnd := by
    rw [lastTime, hcur.pending]
    rfl
  have haimed : Aimed c i k₀.frame.targetEnd (lastTime c k₀.s i k₀.frame.targetEnd) k₀ := by
    refine ⟨htm, rfl, foldl_max_le hx, ?_⟩
    rw [hpc]
    exact Or.inl ⟨⟨rest, hcur, hne, hx, hflush⟩, hi⟩
  obtain ⟨⟨hl, hlate, -⟩, haimed'⟩ := Visits.keeps hb hr hstart
    (J := Aimed c i k₀.frame.targetEnd (lastTime c k₀.s i k₀.frame.targetEnd))
    (fun u v hl hlate _ haimed hpass => by
      have hstep := orderPass_aimed haimed hl hlate
      rw [hpass] at hstep
      exact hstep) haimed hvisits
  exact haimed'.handedTime_le hl hlate ht

/-- The call that `orderStart` enters. -/
def Point.entered : Point → Call
  | .idle s => ⟨s, .top, ⟨none, 0, 0, noLost⟩⟩
  | .inside k => k

/-- Ring buffer 0 ends in a sample at 20, behind a loss; ring buffer 1 goes on to 30. -/
def twoSamples (i : Nat) : List Record :=
  if i = 0 then [record (.lost 0 1), record (.sample 20)]
  else [record (.sample 10), record (.sample 30)]

theorem twoSamples_boot (arrivals : List (List (Nat × Record))) :
    Boot (freshOrder twoSamples arrivals) := by
  refine freshOrder_boot twoSamples arrivals fun i => ?_
  by_cases hi : i = 0
  · simp [twoSamples, hi, extent, record]
  · simp [twoSamples, hi, extent, record]

theorem order_process_stops_at_map_last : ∃ (k₀ k : Call),
    handedTime twoMaps k = some 20 ∧ 20 ≤ lastTime twoMaps k₀.s 0 k₀.frame.targetEnd := by
  let start := orderStart twoMaps (freshOrder twoSamples []) (some 0) 0
  obtain ⟨k, hvisits, ht⟩ := exists_visits (orderPass twoMaps MinHeap.minHeap)
    (f := handedTime twoMaps) (x := 20) (s := start.entered) 8 (by decide +kernel)
  exact ⟨start.entered, k, ht, order_process_stops_at_map twoMaps MinHeap.minHeap _ _ 0 0 start.entered k 20
    (twoSamples_boot []) .boot (by decide) rfl (by decide +kernel) hvisits ht⟩

/-- With a target time a call hands on no sample of a ring buffer that is later, whatever the
streams and the kernel's writes. -/
theorem order_process_stops_at_time (c : Config) (H : MinHeap HeapId) (s₀ s : Order)
    (targetMap : Option Nat) (targetTm : Nat) (k₀ k : Call) (i : Nat) (rest : List HeapId) (t : Nat)
    (hb : Boot s₀) (hr : Reached c H s₀ (.idle s)) (htm : targetTm ≠ 0)
    (hstart : orderStart c s targetMap targetTm = .inside k₀)
    (hvisits : Visits (orderPass c H) k₀ k) (hroot : k.s.heap = .mmap i :: rest)
    (ht : handedTime c k = some t) : t ≤ heapclock c targetTm := by
  obtain ⟨hpc, hheap, htime⟩ := orderStart_inside hstart
  rw [if_pos htm] at htime
  have hwithin : k₀.s.view.Within (heapclock c targetTm) k₀.pc := by
    rw [hpc]
    refine Or.inr fun j hj => ?_
    rw [hheap] at hj
    cases hj
  obtain ⟨⟨hl, hlate, htime'⟩, hw⟩ := Visits.keeps hb hr hstart
    (J := fun k => k.s.view.Within (heapclock c targetTm) k.pc)
    (fun u v hl hlate hu hw hpass => by
      have hsteps := orderPass_stepsView c H u
      rw [hpass] at hsteps
      have hview := hsteps.1
      rw [hu, htime] at hview
      exact hview.within hl hlate hw) hwithin hvisits
  obtain ⟨hpc', e, rest', hheap', hcase⟩ := handedTime_cases ht
  obtain ⟨rfl, rfl⟩ : e = .mmap i ∧ rest' = rest := by
    have heq : HeapId.mmap i :: rest = e :: rest' := hroot.symm.trans hheap'
    exact ⟨(List.cons.inj heq).1.symm, (List.cons.inj heq).2.symm⟩
  obtain ⟨⟨j, hj⟩, -⟩ | ⟨j, hj, hle, rfl⟩ := hcase
  · cases hj
  · cases hj
    rw [hpc'] at hw
    rw [htime', htime] at hle
    obtain hpopped | hlater := hw
    · exact Nat.max_le.mpr ⟨hle, Nat.le_trans (hlate i) hpopped⟩
    · have hlt := hlater i (hheap' ▸ List.mem_cons_self ..)
      omega

theorem order_process_stops_at_time_last : ∃ k : Call,
    handedTime twoMaps k = some 20 ∧ 20 ≤ heapclock twoMaps 25 := by
  let start := orderStart twoMaps (freshOrder twoSamples []) none 25
  obtain ⟨k, hvisits, ht⟩ := exists_visits (orderPass twoMaps MinHeap.minHeap)
    (f := fun k => (handedTime twoMaps k).bind fun t =>
      if k.s.heap.head? = some (.mmap 0) then some t else none)
    (x := 20) (s := start.entered) 8 (by decide +kernel)
  obtain ⟨t, ht, hroot⟩ := Option.bind_eq_some_iff.mp ht
  split at hroot
  · cases hroot
    rename_i hhead
    obtain ⟨rest, hheap⟩ := List.head?_eq_some_iff.mp hhead
    exact ⟨k, ht, order_process_stops_at_time twoMaps MinHeap.minHeap _ _ none 25 start.entered k 0 rest 20
      (twoSamples_boot []) .boot (by decide) rfl hvisits hheap ht⟩
  · cases hroot

end Runs

end PerfProf.OrderProcess

