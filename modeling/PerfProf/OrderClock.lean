import PerfProf.OrderLost
import PerfProf.Convert

/-! Event-clock order with streams. With streams registered and a conversion the heap is
sorted by event clock, and a sample that is moved up gets the perfclock of its new time,
which is converted once more on delivery. What comes out is in order as long as the times
samples are moved up to survive the way there and back. -/
namespace PerfProf.OrderProcess
open PerfProf.Heap PerfProf.Loop PerfProf.Ring

def Seen.processedTime : Seen → Option Nat
  | .processed _ time => some time
  | _ => none

/-- The heap times at which samples of ring buffers were processed. -/
def processedTimes (τ : List Seen) : List Nat := τ.filterMap Seen.processedTime

/-- The event-clock times of the samples that `perf_event_process_record` passes on. -/
def evclockTimes (c : Config) (log : List Handed) : List Nat :=
  (sampleTimes log).map c.perfclockToEvclock

/-- The time to which this step moves up a late sample. -/
def repairTime (c : Config) (k : Call) : Option Nat :=
  match k.pc with
  | .mmapRetry i _ _ =>
    match (k.s.readNext i).2 with
    | some (r, _) =>
      match r.sample? with
      | some t => if heapclock c t < k.s.heapPoppedTime then some k.s.heapPoppedTime else none
      | none => none
    | none => none
  | .top =>
    match k.s.heap with
    | .mmap i :: _ =>
      if k.frame.targetTime < (k.s.maps i).time ∨ (k.s.lostWait c i).2 then none
      else if (k.s.maps i).time < (k.s.maps i).eventMonoTime then some (k.s.maps i).eventMonoTime
      else none
    | _ => none
  | _ => none

/-- A sample moved up to `t` is delivered at `t`. -/
def Config.roundTrips (c : Config) (t : Nat) : Bool :=
  heapclock c (heapclockToPerfclock c t) = t

/-- If this step moves a sample up, its new time survives the conversions. -/
def survives (c : Config) (k : Call) : Bool := (repairTime c k).all c.roundTrips

section Elements
variable {c : Config} {H : MinHeap HeapId} {v : View}

/-- A ring buffer in the heap offers its sample at the sample's event clock, and is not
late or will be moved up to the time popped last; nothing is known of a stream. -/
def View.Fits (c : Config) (v : View) : HeapId → Prop
  | .stream _ => True
  | .mmap i => (∃ t, (v.event i).sample? = some t ∧ heapclock c t = v.key (.mmap i)) ∧
      (v.popped ≤ v.key (.mmap i) ∨ v.mono i = v.popped)

structure View.Merged (c : Config) (v : View) (ts : List Nat) : Prop where
  mono : ∀ i, v.mono i ≤ v.popped
  sorted : ts.Pairwise (· ≤ ·)
  bound : ∀ t ∈ ts, t ≤ v.popped
  delivered : v.times.map (heapclock c) = ts

/-- Only the key of the root `e` may have changed; the others still stand as they did under
`key`. -/
def View.Below (H : MinHeap HeapId) (v : View) (e : HeapId) : Prop :=
  ∃ rest key, v.heap = e :: rest ∧ v.heap.Nodup ∧ H.Ordered key v.heap ∧ ∀ x ∈ rest, v.key x = key x

/-- The root `e` has been processed; the others still stand as they did under `key`. -/
def View.Under (c : Config) (H : MinHeap HeapId) (v : View) (e : HeapId) : Prop :=
  ∃ rest key, v.heap = e :: rest ∧ (∀ e ∈ rest, v.Fits c e) ∧ v.heap.Nodup ∧
    H.Ordered key v.heap ∧ ∀ e ∈ rest, v.key e = key e

def View.Stands (c : Config) (H : MinHeap HeapId) (v : View) : Pc → Prop
  | .heapInit todo => (∀ e ∈ v.heap, v.Fits c e) ∧ (v.heap ++ todo).Nodup
  | .mmapRetry i _ todo => (∀ e ∈ v.heap, v.Fits c e) ∧ (v.heap ++ .mmap i :: todo).Nodup
  | .streamRetry j todo => (∀ e ∈ v.heap, v.Fits c e) ∧ (v.heap ++ .stream j :: todo).Nodup
  | .top => (∀ e ∈ v.heap, v.Fits c e) ∧ v.heap.Nodup ∧ H.Ordered v.key v.heap
  | .consume i _ => v.Under c H (.mmap i) ∧ v.mono i = v.popped
  | .streamNext j => v.Under c H (.stream j)

/-- What an element rests on. -/
theorem View.Fits.congr {v' : View} {e : HeapId} (h : v.Fits c e) (hkey : v'.key e = v.key e)
    (hevent : ∀ i, e = .mmap i → v'.event i = v.event i ∧ v'.mono i = v.mono i)
    (hpopped : v'.popped = v.popped) : v'.Fits c e := by
  cases e with
  | stream j => trivial
  | mmap i =>
    obtain ⟨he, hm⟩ := hevent i rfl
    simp only [View.Fits, he, hm, hkey, hpopped]
    exact h

theorem View.Fits.load_ne {i : Nat} {r : Record} {t : Nat} {e : HeapId} (h : v.Fits c e)
    (hne : e ≠ .mmap i) : (v.load i r t).Fits c e := by
  refine h.congr (Function.update_of_ne hne ..) ?_ rfl
  intro j hj
  have hji : j ≠ i := fun hji => hne (by rw [hj, hji])
  exact ⟨Function.update_of_ne hji .., rfl⟩

theorem View.fits_load {i : Nat} {r : Record} {t t' : Nat} (hr : r.sample? = some t)
    (ht : heapclock c t = t') (h : v.popped ≤ t' ∨ v.mono i = v.popped) :
    (v.load i r t').Fits c (.mmap i) := by
  simp only [View.Fits, View.load, Function.update_self]
  exact ⟨⟨t, hr, ht⟩, h⟩

theorem View.Merged.congr {v' : View} {ts : List Nat} (h : v.Merged c ts)
    (hmono : v'.mono = v.mono) (hpopped : v'.popped = v.popped) (htimes : v'.times = v.times) :
    v'.Merged c ts := by
  refine ⟨?_, h.sorted, ?_, ?_⟩
  · rw [hmono, hpopped]
    exact h.mono
  · rw [hpopped]
    exact h.bound
  · rw [htimes]
    exact h.delivered

/-- The root is taken off. -/
theorem View.Below.pop {e : HeapId} {rest : List HeapId} (h : v.Below H e) (hheap : v.heap = e :: rest) :
    (H.pop v.key v.heap).Perm rest ∧ (H.pop v.key v.heap).Nodup ∧
      H.Ordered v.key (H.pop v.key v.heap) := by
  obtain ⟨rest', key, hheap', hnd, hord, hkey⟩ := h
  obtain rfl : rest' = rest := (List.cons.inj (hheap'.symm.trans hheap)).2
  have hperm := H.pop_perm v.key e rest'
  rw [hheap] at hnd hord ⊢
  exact ⟨hperm, hperm.nodup_iff.mpr (List.nodup_cons.mp hnd).2, H.pop_ordered hord hkey⟩

/-- The root goes where its new key belongs. -/
theorem View.Below.sift {e : HeapId} (h : v.Below H e) (v' : View) (hheap' : v'.heap = v.heap)
    (hkey' : ∀ x, x ≠ e → v'.key x = v.key x) :
    (H.siftDown v'.key v'.heap).Nodup ∧ H.Ordered v'.key (H.siftDown v'.key v'.heap) := by
  obtain ⟨rest, key, hheap, hnd, hord, hkey⟩ := h
  have hperm := H.siftDown_perm v'.key v'.heap
  rw [hheap', hheap] at hperm ⊢
  rw [hheap] at hnd hord
  refine ⟨hperm.nodup_iff.mpr hnd, H.siftDown_ordered hord ?_⟩
  intro x hx
  have hne : x ≠ e := by
    rintro rfl
    exact (List.nodup_cons.mp hnd).1 hx
  rw [hkey' x hne, hkey x hx]

theorem View.Under.below {e : HeapId} (h : v.Under c H e) : v.Below H e := by
  obtain ⟨rest, key, hheap, -, hnd, hord, hkey⟩ := h
  exact ⟨rest, key, hheap, hnd, hord, hkey⟩

theorem View.Under.pop {e : HeapId} (h : v.Under c H e) :
    View.Stands c H { v with heap := H.pop v.key v.heap } .top := by
  have hbelow := h.below
  obtain ⟨rest, -, hheap, hfits, -⟩ := h
  obtain ⟨hperm, hnd, hord⟩ := hbelow.pop hheap
  refine ⟨?_, hnd, hord⟩
  intro e' he'
  exact (hfits e' (hperm.mem_iff.mp he')).congr rfl (fun _ _ => ⟨rfl, rfl⟩) rfl

/-- The root offers something new. -/
theorem View.Under.sift {e : HeapId} (h : v.Under c H e) (v' : View) (hheap' : v'.heap = v.heap)
    (hkey' : ∀ x, x ≠ e → v'.key x = v.key x) (hfits' : ∀ x, x ≠ e → v.Fits c x → v'.Fits c x)
    (he : v'.Fits c e) :
    View.Stands c H { v' with heap := H.siftDown v'.key v'.heap } .top := by
  obtain ⟨hnd', hord'⟩ := h.below.sift v' hheap' hkey'
  obtain ⟨rest, -, hheap, hfits, -⟩ := h
  have hperm := H.siftDown_perm v'.key v'.heap
  refine ⟨?_, hnd', hord'⟩
  intro x hx
  have hxf : v'.Fits c x := by
    by_cases hxe : x = e
    · exact hxe ▸ he
    · have hx' : x ∈ e :: rest := by
        rw [← hheap, ← hheap']
        exact hperm.mem_iff.mp hx
      exact hfits' x hxe (hfits x ((List.mem_cons.mp hx').resolve_left hxe))
  exact hxf.congr rfl (fun _ _ => ⟨rfl, rfl⟩) rfl

end Elements

section Frames
variable {c : Config} {s : Order}

theorem time_updStream (s : Order) (j : Nat) (f : StreamEvent → StreamEvent) :
    (s.updStream j f).time = Function.update s.time (.stream j) (f (s.streams j)).time := by
  funext e
  by_cases he : e = .stream j
  · subst he
    simp only [Order.time, Order.updStream, Function.update_self]
  · rw [Function.update_of_ne he]
    cases e with
    | mmap i => rfl
    | stream k =>
      have hk : k ≠ j := fun h => he (by rw [h])
      simp only [Order.time, Order.updStream, Function.update_of_ne hk]

theorem view_updStream (s : Order) (j : Nat) (f : StreamEvent → StreamEvent) :
    (s.updStream j f).view =
      { s.view with key := Function.update s.view.key (.stream j) (f (s.streams j)).time } := by
  simp only [Order.view, time_updStream]
  rfl

theorem view_updStream_keep (s : Order) (j : Nat) (f : StreamEvent → StreamEvent)
    (h : (f (s.streams j)).time = (s.streams j).time) : (s.updStream j f).view = s.view := by
  have hk : Function.update s.view.key (.stream j) (s.streams j).time = s.view.key :=
    Function.update_eq_self _ s.view.key
  rw [view_updStream, h, hk]

theorem view_readStream (s : Order) (j : Nat) : (s.readStream j).1.view = s.view := by
  unfold Order.readStream
  split
  · rfl
  · rw [view_updStream_keep]
    rfl
  · rw [view_updStream_keep]
    rfl

/-- Reading a stream moves the time of that stream at most. -/
theorem view_streamInit (s : Order) (j : Nat) :
    ∃ t, (s.streamInit j).1.view = { s.view with key := Function.update s.view.key (.stream j) t } := by
  have hread := view_readStream s j
  have hsame : Function.update s.view.key (.stream j) (s.view.key (.stream j)) = s.view.key :=
    Function.update_eq_self _ _
  unfold Order.streamInit
  generalize s.readStream j = out at hread
  obtain ⟨s₁, _ | r⟩ := out
  · refine ⟨s.view.key (.stream j), ?_⟩
    rw [hsame]
    exact hread
  · cases hk : r.kind with
    | other type =>
      refine ⟨s.view.key (.stream j), ?_⟩
      simp only [hk, view_hand, Handed.sampleTime, Option.toList_none, List.append_nil]
      rw [hsame]
      exact hread
    | sample t =>
      refine ⟨t, ?_⟩
      simp only [hk, view_updStream]
      rw [show s₁.view = s.view from hread]
    | orderTime t =>
      refine ⟨t, ?_⟩
      simp only [hk, view_updStream]
      rw [show s₁.view = s.view from hread]

/-- Popping the root at `t`: a time before the one popped last is only counted. -/
theorem view_popTime_any (c : Config) (s : Order) (e : HeapId) (t ins : Nat) :
    ∃ u, (s.popTime c e t ins).view =
      { s.view with popped := max s.view.popped t, unordered := u } := by
  have hset : ∀ x : Order, x.view = s.view → ∃ u,
      Order.view (if t < x.heapPoppedTime then
        x.updDev (c.dev e) fun d => { d with nrUnorderedEvents := d.nrUnorderedEvents + 1 }
        else { x with heapPoppedTime := t, heapPoppedIns := ins }) =
      { s.view with popped := max s.view.popped t, unordered := u } := by
    intro x hx
    rw [← hx]
    by_cases hlt : t < x.heapPoppedTime
    · rw [if_pos hlt, show max x.view.popped t = x.view.popped from max_eq_left (le_of_lt hlt)]
      exact ⟨_, rfl⟩
    · have hle : x.view.popped ≤ t := Nat.le_of_not_lt hlt
      rw [if_neg hlt, max_eq_right hle]
      exact ⟨_, rfl⟩
  by_cases hd : c.dev e ≠ 0
  · rw [Order.popTime, if_pos hd]
    exact hset _ (view_updDev s _ _ rfl)
  · rw [Order.popTime, if_neg hd]
    exact hset s rfl

end Frames

section Steps
variable {c : Config} {H : MinHeap HeapId} {ts : List Nat}

/-- What one step leaves, with the heap times processed so far. -/
def MergedPass (c : Config) (H : MinHeap HeapId) (ts : List Nat) : Pass Call Unit → Prop
  | .again k => k.s.view.Merged c ts ∧ k.s.view.Stands c H k.pc
  | .done k _ => k.s.view.Merged c ts

theorem View.Merged.heap {v : View} (h : v.Merged c ts) (heap : List HeapId) :
    View.Merged c { v with heap := heap } ts :=
  h.congr rfl rfl rfl

theorem stop_merged {s : Order} (h : s.view.Merged c ts) (reason : BreakReason) :
    (s.stop reason).view.Merged c ts := by
  rw [view_stop]
  exact h.heap []

theorem leave_merged {k : Call} {s : Order} {nb : Bool} (h : s.view.Merged c ts)
    (hat : s.view.Stands c H .top) : MergedPass c H ts (leave k s nb) := by
  cases nb with
  | true =>
    change (s.unwind s.heap).view.Merged c ts
    rw [view_unwind]
    exact h.heap []
  | false => exact ⟨h, hat⟩

/-- A sample found at init enters the heap not before the time popped last. -/
theorem view_enterHeap_clock {s : Order} {i : Nat} {r : Record} {t : Nat} (w : Bool) (lost : Lost)
    (hr : r.sample? = some t)
    (hok : heapclock c t < s.view.popped → c.roundTrips s.view.popped = true) :
    ∃ r' t' p, r'.sample? = some p ∧ heapclock c p = t' ∧ s.view.popped ≤ t' ∧
      (s.enterHeap c i r t w lost).view =
        { s.view.load i r' t' with heap := s.view.heap ++ [.mmap i] } := by
  have hv := view_loadSample c s i r t w
  have hheap : ∀ u : Order, (u.setHeap (u.heap ++ [.mmap i])).view =
      { u.view with heap := u.view.heap ++ [.mmap i] } := fun _ => rfl
  have htime : ((s.loadSample c i r t w).maps i).time = heapclock c t := by
    simp only [Order.loadSample, Order.updMap, Function.update_self]
  have hev : ((s.loadSample c i r t w).maps i).event = r := by
    simp only [Order.loadSample, Order.updMap, Function.update_self]
  have hpop : (s.loadSample c i r t w).heapPoppedTime = s.heapPoppedTime := rfl
  by_cases hlate : heapclock c t < s.heapPoppedTime
  · refine ⟨{ r with kind := .sample (heapclockToPerfclock c s.heapPoppedTime) },
      s.heapPoppedTime, _, rfl, of_decide_eq_true (hok hlate), Nat.le_refl _, ?_⟩
    simp only [Order.enterHeap]
    rw [hheap, view_reportLost, htime, hpop, if_pos hlate, view_fixOutOfOrder, hv, hev]
    simp only [View.load, Function.update_idem]
  · refine ⟨r, heapclock c t, t, hr, rfl, Nat.le_of_not_lt hlate, ?_⟩
    simp only [Order.enterHeap]
    rw [hheap, view_reportLost, htime, hpop, if_neg hlate, hv]
    rfl

theorem mmapRetry_merged {k : Call} {i : Nat} {lost : Lost} {todo : List HeapId}
    (hpc : k.pc = .mmapRetry i lost todo) (hm : k.s.view.Merged c ts)
    (hat : k.s.view.Stands c H (.mmapRetry i lost todo)) (hok : survives c k = true) :
    (k.s.mmapRetry c i lost todo).1.view.Merged c ts ∧
      (k.s.mmapRetry c i lost todo).1.view.Stands c H (k.s.mmapRetry c i lost todo).2 := by
  obtain ⟨hfits, hnd⟩ := hat
  have hv := view_readNext k.s i
  simp only [survives, repairTime, hpc] at hok
  generalize hout : k.s.readNext i = out at hv hok
  obtain ⟨s₁, _ | ⟨r, w⟩⟩ := out
  · simp only [Order.mmapRetry, hout, view_updRing]
    rw [show s₁.view = k.s.view from hv]
    exact ⟨hm, hfits, hnd.sublist (List.Sublist.append_left (List.sublist_cons_self _ _) _)⟩
  · cases hs : r.sample? with
    | none =>
      cases hl : (s₁.countLost c i r).lostFor c i r with
      | some l =>
        simp only [Order.mmapRetry, hout, hs, hl, view_mmapConsume, view_countLost]
        rw [show s₁.view = k.s.view from hv]
        exact ⟨hm, hfits, hnd⟩
      | none =>
        simp only [Order.mmapRetry, hout, hs, hl, view_mmapConsume,
          view_processOther c _ i w hs, view_countLost]
        rw [show s₁.view = k.s.view from hv]
        exact ⟨hm, hfits, hnd⟩
    | some t =>
      simp only [Order.mmapRetry, hout, hs]
      have hrt : heapclock c t < s₁.view.popped → c.roundTrips s₁.view.popped = true := by
        rw [show s₁.view = k.s.view from hv]
        intro hlate
        have hlate' : heapclock c t < k.s.heapPoppedTime := hlate
        simp only [hs, if_pos hlate', Option.all_some] at hok
        exact hok
      obtain ⟨r', t', p, hr', ht', hpt, hve⟩ := view_enterHeap_clock (i := i) w lost hs hrt
      rw [hve, show s₁.view = k.s.view from hv]
      rw [show s₁.view = k.s.view from hv] at hpt
      have hni : HeapId.mmap i ∉ k.s.view.heap := by
        intro hi
        exact (List.nodup_append.mp hnd).2.2 _ hi _ (List.mem_cons_self ..) rfl
      refine ⟨hm.congr rfl rfl rfl, ?_, ?_⟩
      · intro e he
        cases List.mem_append.mp he with
        | inl he =>
          have hne : e ≠ .mmap i := fun h => hni (h ▸ he)
          exact ((hfits e he).load_ne hne).congr rfl (fun _ _ => ⟨rfl, rfl⟩) rfl
        | inr he =>
          rw [List.mem_singleton.mp he]
          exact (View.fits_load hr' ht' (Or.inl hpt)).congr rfl (fun _ _ => ⟨rfl, rfl⟩) rfl
      · change ((k.s.view.heap ++ [HeapId.mmap i]) ++ todo).Nodup
        rw [List.append_assoc]
        exact hnd

theorem consumePass_merged {k : Call} {i : Nat} {nb : Bool} (hm : k.s.view.Merged c ts)
    (hat : k.s.view.Stands c H (.consume i nb)) : MergedPass c H ts (consumePass c H k i nb) := by
  obtain ⟨hunder, hmono⟩ := hat
  have hv := view_consumeTail (c := c) k i nb
  simp only [consumePass]
  generalize consumeTail c k i nb = tail at hv
  obtain ⟨s₁, nb'⟩ := tail
  have hvr := view_readNext s₁ i
  simp only at hv hvr ⊢
  rw [hv] at hvr
  generalize s₁.readNext i = out at hvr
  obtain ⟨s₂, _ | ⟨r, w⟩⟩ := out
  · have hvp : ∀ u : Order, u.view = k.s.view → (u.setHeap (H.pop u.time u.heap)).view =
        { k.s.view with heap := H.pop k.s.view.key k.s.view.heap } := by
      intro u hu
      rw [← hu]
      rfl
    have hvd : (s₂.updRing i PerfMmap.readDone).view = k.s.view := by
      rw [view_updRing]
      exact hvr
    apply leave_merged
    · rw [hvp _ hvd]
      exact hm.heap _
    · rw [hvp _ hvd]
      exact hunder.pop
  · have hvr' : s₂.view = k.s.view := hvr
    cases hs : r.sample? with
    | none =>
      simp only [hs]
      cases hl : (s₂.countLost c i r).lostFor c i r with
      | some l =>
        simp only [MergedPass, view_countLost, hvr']
        exact ⟨hm, hunder, hmono⟩
      | none =>
        simp only [MergedPass, view_processOther c _ i w hs, view_countLost, hvr']
        exact ⟨hm, hunder, hmono⟩
    | some t =>
      simp only [hs]
      let v := k.s.view.load i r (heapclock c t)
      have hvl : (s₂.loadSample c i r t w).view = v := by
        rw [view_loadSample, hvr']
      have hvs : ∀ u : Order, u.view = v → (u.setHeap (H.siftDown u.time u.heap)).view =
          { v with heap := H.siftDown v.key v.heap } := by
        intro u hu
        rw [← hu]
        rfl
      apply leave_merged
      · rw [view_reportLost, hvs _ hvl]
        exact hm.congr rfl rfl rfl
      · rw [view_reportLost, hvs _ hvl]
        refine hunder.sift _ rfl (fun x hx => Function.update_of_ne hx ..)
          (fun x hx hf => hf.load_ne hx) ?_
        exact View.fits_load hs rfl (Or.inr hmono)

/-- Where the sample at the root goes, late or not: its time survives the conversions. -/
theorem view_processRoot_clock {s : Order} {i : Nat} (hm : s.view.Merged c ts)
    (hf : s.view.Fits c (.mmap i))
    (hok : (s.maps i).time < (s.maps i).eventMonoTime →
      c.roundTrips (s.maps i).eventMonoTime = true) :
    ∃ r p t, heapclock c p = t ∧ s.view.popped ≤ t ∧
      (t = s.view.popped ∨ t = s.view.key (.mmap i)) ∧
      (s.processRoot c i).view = { s.view.popRoot i r t with times := s.view.times ++ [p] } := by
  obtain ⟨⟨p, hp, hclock⟩, hready⟩ := hf
  have hhand : ∀ (u : Order) (r : Record) (p t : Nat), r.sample? = some p → s.view.popped ≤ t →
      u.view = { s.view with
        key := Function.update s.view.key (.mmap i) t
        event := Function.update s.view.event i r
        mono := Function.update s.view.mono i t } →
      Order.view ((u.popTime c (.mmap i) (u.maps i).time (c.ins i)).processRecord c i
        ((u.popTime c (.mmap i) (u.maps i).time (c.ins i)).maps i).event
        ((u.popTime c (.mmap i) (u.maps i).time (c.ins i)).maps i).writable) =
      { s.view.popRoot i r t with times := s.view.times ++ [p] } := by
    intro u r p t hr hpt hu
    have htime : (u.maps i).time = t := by
      rw [time_eq_key, hu]
      exact Function.update_self ..
    have hpop : u.heapPoppedTime ≤ t := by
      change u.view.popped ≤ t
      rw [hu]
      exact hpt
    have hv := view_popTime c u (.mmap i) t (c.ins i) hpop
    have hev : ((u.popTime c (.mmap i) t (c.ins i)).maps i).event = r := by
      change (u.popTime c (.mmap i) t (c.ins i)).view.event i = r
      rw [hv, hu]
      exact Function.update_self ..
    rw [htime, view_processRecord, hv, hev, hr, hu]
    rfl
  by_cases hlate : (s.maps i).time < (s.maps i).eventMonoTime
  · -- late in its own ring buffer: it was this one that popped last
    have hmono : (s.maps i).eventMonoTime ≤ s.heapPoppedTime := hm.mono i
    have hpop : (s.maps i).eventMonoTime = s.heapPoppedTime := by
      cases hready with
      | inl h =>
        have : s.heapPoppedTime ≤ (s.maps i).time := h
        omega
      | inr h => exact h
    refine ⟨{ (s.maps i).event with
        kind := .sample (heapclockToPerfclock c (s.maps i).eventMonoTime) },
      heapclockToPerfclock c (s.maps i).eventMonoTime, (s.maps i).eventMonoTime,
      of_decide_eq_true (hok hlate), Nat.le_of_eq hpop.symm, Or.inl hpop, ?_⟩
    simp only [Order.processRoot, if_pos hlate]
    refine hhand _ _ _ _ rfl (Nat.le_of_eq hpop.symm) ?_
    rw [view_fixOutOfOrder]
    simp only [View.load, View.mk.injEq, true_and, and_true]
    exact (Function.update_eq_self i s.view.mono).symm
  · have hle : s.heapPoppedTime ≤ (s.maps i).time := by
      cases hready with
      | inl h => exact h
      | inr h =>
        have : (s.maps i).eventMonoTime = s.heapPoppedTime := h
        omega
    refine ⟨(s.maps i).event, p, (s.maps i).time, hclock, hle, Or.inr rfl, ?_⟩
    simp only [Order.processRoot, if_neg hlate]
    refine hhand _ _ _ _ hp hle ?_
    have hset : (s.updMap i fun e => { e with eventMonoTime := e.time }).view =
        { s.view with mono := Function.update s.view.mono i (s.maps i).time } :=
      view_setMono i (s.maps i).time
    rw [hset]
    simp only [View.mk.injEq, and_true]
    exact ⟨(Function.update_eq_self _ s.view.key).symm, (Function.update_eq_self i _).symm⟩

theorem View.Merged.processed {v : View} {i p t : Nat} {r : Record} (hm : v.Merged c ts)
    (hp : heapclock c p = t) (hpt : v.popped ≤ t) :
    View.Merged c { v.popRoot i r t with times := v.times ++ [p] } (ts ++ [t]) := by
  refine ⟨?_, ?_, ?_, ?_⟩
  · intro j
    by_cases hj : j = i
    · subst hj
      simp only [View.popRoot, Function.update_self]
      exact Nat.le_refl _
    · simp only [View.popRoot, Function.update_of_ne hj]
      exact Nat.le_trans (hm.mono j) hpt
  · rw [List.pairwise_append]
    refine ⟨hm.sorted, List.pairwise_singleton _ _, ?_⟩
    intro a ha b hb
    rw [List.mem_singleton.mp hb]
    exact Nat.le_trans (hm.bound a ha) hpt
  · intro a ha
    cases List.mem_append.mp ha with
    | inl ha => exact Nat.le_trans (hm.bound a ha) hpt
    | inr ha => exact Nat.le_of_eq (List.mem_singleton.mp ha)
  · rw [List.map_append, hm.delivered, List.map_singleton, hp]

/-- Once the root has popped at `t`, nothing that is left is before `t` unless it will be
moved up there. -/
theorem View.Fits.popped {v v' : View} {root e : HeapId} {rest : List HeapId}
    (hord : H.Ordered v.key (root :: rest)) (he : e ∈ rest) (hf : v.Fits c e)
    (hkey : v'.key e = v.key e)
    (hevent : ∀ i, e = .mmap i → v'.event i = v.event i ∧ v'.mono i = v.mono i)
    (hpopped : v'.popped = v.popped ∨ v'.popped = v.key root) : v'.Fits c e := by
  cases hpopped with
  | inl h => exact hf.congr hkey hevent h
  | inr h =>
    cases e with
    | stream j => trivial
    | mmap i =>
      obtain ⟨hev, -⟩ := hevent i rfl
      refine ⟨?_, Or.inl ?_⟩
      · rw [hev, hkey]
        exact hf.1
      · rw [h, hkey]
        exact H.root_le hord _ he

theorem processRoot_merged {s : Order} {i : Nat} {rest : List HeapId} {nb : Bool}
    (hheap : s.view.heap = .mmap i :: rest) (hm : s.view.Merged c ts)
    (hat : s.view.Stands c H .top)
    (hok : (s.maps i).time < (s.maps i).eventMonoTime →
      c.roundTrips (s.maps i).eventMonoTime = true) :
    (s.processRoot c i).view.Merged c (ts ++ [((s.processRoot c i).maps i).time]) ∧
      (s.processRoot c i).view.Stands c H (.consume i nb) := by
  obtain ⟨hfits, hnd, hord⟩ := hat
  rw [hheap] at hfits hnd hord
  obtain ⟨r, p, t, hp, hpt, hcase, hv⟩ :=
    view_processRoot_clock hm (hfits _ (List.mem_cons_self ..)) hok
  have htime : ((s.processRoot c i).maps i).time = t := by
    rw [time_eq_key, hv]
    exact Function.update_self ..
  have hne : ∀ e ∈ rest, e ≠ .mmap i := by
    rintro e he rfl
    exact (List.nodup_cons.mp hnd).1 he
  rw [htime, hv]
  refine ⟨hm.processed hp hpt, ⟨rest, s.view.key, hheap, ?_, ?_, ?_, ?_⟩, ?_⟩
  · intro e he
    refine (hfits e (List.mem_cons_of_mem _ he)).popped hord he
      (Function.update_of_ne (hne e he) ..) ?_ hcase
    intro j hj
    have hji : j ≠ i := fun h => hne e he (by rw [hj, h])
    exact ⟨Function.update_of_ne hji .., Function.update_of_ne hji ..⟩
  · exact hheap ▸ hnd
  · exact hheap ▸ hord
  · intro e he
    exact Function.update_of_ne (hne e he) ..
  · exact Function.update_self ..

theorem streamRoot_merged {k : Call} {j : Nat} {rest : List HeapId}
    (hheap : k.s.view.heap = .stream j :: rest) (hm : k.s.view.Merged c ts)
    (hat : k.s.view.Stands c H .top) (ins : Nat) (r : StreamRecord) :
    ((k.s.popTime c (.stream j) (k.s.streams j).time ins).hand (.stream j r)).view.Merged c ts ∧
      ((k.s.popTime c (.stream j) (k.s.streams j).time ins).hand
        (.stream j r)).view.Stands c H (.streamNext j) := by
  obtain ⟨hfits, hnd, hord⟩ := hat
  rw [hheap] at hfits hnd hord
  obtain ⟨u, hv⟩ := view_popTime_any c k.s (.stream j) (k.s.streams j).time ins
  have hpopped : max k.s.view.popped (k.s.streams j).time = k.s.view.popped ∨
      max k.s.view.popped (k.s.streams j).time = k.s.view.key (.stream j) := by
    cases le_total (k.s.streams j).time k.s.view.popped with
    | inl h => exact Or.inl (max_eq_left h)
    | inr h => exact Or.inr (max_eq_right h)
  have hle : k.s.view.popped ≤ max k.s.view.popped (k.s.streams j).time := le_max_left _ _
  have hnone : (Handed.stream j r).sampleTime = none := rfl
  rw [view_hand, hv, hnone, Option.toList_none, List.append_nil]
  refine ⟨⟨?_, hm.sorted, ?_, hm.delivered⟩, rest, k.s.view.key, hheap, ?_, ?_, ?_, ?_⟩
  · intro i
    exact Nat.le_trans (hm.mono i) hle
  · intro t ht
    exact Nat.le_trans (hm.bound t ht) hle
  · intro e he
    exact (hfits e (List.mem_cons_of_mem _ he)).popped hord he rfl (fun _ _ => ⟨rfl, rfl⟩) hpopped
  · exact hheap ▸ hnd
  · exact hheap ▸ hord
  · intro e he
    rfl

theorem topPass_merged {k : Call} (hpc : k.pc = .top) (hm : k.s.view.Merged c ts)
    (hat : k.s.view.Stands c H .top) (hok : survives c k = true) :
    MergedPass c H (ts ++ processedTimes (look c k (passOrder (topPass c k)))) (topPass c k) := by
  simp only [survives, repairTime, look, hpc] at hok ⊢
  unfold topPass
  cases hheap : k.s.heap with
  | nil =>
    simp only [processedTimes, List.filterMap_nil, List.append_nil]
    exact stop_merged hm .empty
  | cons e rest =>
    have hheap' : k.s.view.heap = e :: rest := hheap
    cases e with
    | stream j =>
      simp only [processedTimes, List.filterMap_nil, List.append_nil]
      exact streamRoot_merged hheap' hm hat _ _
    | mmap i =>
      simp only [hheap] at hok ⊢
      by_cases htt : k.frame.targetTime < (k.s.maps i).time
      · simp only [htt, if_true, true_or, processedTimes, List.filterMap_nil, List.append_nil]
        exact stop_merged hm .targetTime
      · simp only [htt, if_false, false_or] at hok ⊢
        have hv := view_lostWait c k.s i
        generalize k.s.lostWait c i = out at hv hok
        obtain ⟨s₁, wait⟩ := out
        have hv' : s₁.view = k.s.view := hv
        cases wait with
        | true =>
          simp only [if_true, processedTimes, List.filterMap_nil, List.append_nil]
          change (s₁.unwind s₁.heap).view.Merged c ts
          rw [view_unwind, hv']
          exact hm.heap []
        | false =>
          simp only [Bool.false_eq_true, if_false] at hok ⊢
          have hlate : (s₁.maps i).time < (s₁.maps i).eventMonoTime →
              c.roundTrips (s₁.maps i).eventMonoTime = true := by
            have htime : (s₁.maps i).time = (k.s.maps i).time :=
              congrArg (fun v => v.key (.mmap i)) hv'
            have hmono : (s₁.maps i).eventMonoTime = (k.s.maps i).eventMonoTime :=
              congrArg (fun v => v.mono i) hv'
            rw [htime, hmono]
            intro hlt
            simpa only [if_pos hlt, Option.all_some] using hok
          rw [← hv'] at hm hat hheap'
          exact processRoot_merged hheap' hm hat hlate

theorem heapInitPass_merged {k : Call} {todo : List HeapId} (hm : k.s.view.Merged c ts)
    (hat : k.s.view.Stands c H (.heapInit todo)) : MergedPass c H ts (heapInitPass H k todo) := by
  obtain ⟨hfits, hnd⟩ := hat
  cases todo with
  | nil =>
    have hperm := H.heapifyAll_perm k.s.view.key k.s.view.heap
    rw [List.append_nil] at hnd
    refine ⟨hm.heap _, ?_, hperm.nodup_iff.mpr hnd, H.heapifyAll_ordered _ _⟩
    intro e he
    exact (hfits e (hperm.mem_iff.mp he)).congr rfl (fun _ _ => ⟨rfl, rfl⟩) rfl
  | cons e todo =>
    have hrest : (k.s.view.heap ++ todo).Nodup :=
      hnd.sublist (List.Sublist.append_left (List.sublist_cons_self _ _) _)
    cases e with
    | mmap i =>
      simp only [heapInitPass, MergedPass, view_updRing, view_tick]
      refine ⟨hm, ?_⟩
      split
      · exact ⟨hfits, hnd⟩
      · exact ⟨hfits, hrest⟩
    | stream j =>
      simp only [heapInitPass]
      split
      · -- a stream that was left over keeps its event and its time
        have hv := view_updStream_keep k.s j (fun e => { e with unconsumed := false }) rfl
        generalize k.s.updStream j _ = s₁ at hv
        have hv' : (s₁.setHeap (s₁.heap ++ [.stream j])).view =
            { k.s.view with heap := k.s.view.heap ++ [.stream j] } := by
          rw [← hv]
          rfl
        simp only [MergedPass]
        rw [hv']
        refine ⟨hm.heap _, ?_, ?_⟩
        · intro e he
          cases List.mem_append.mp he with
          | inl he => exact (hfits e he).congr rfl (fun _ _ => ⟨rfl, rfl⟩) rfl
          | inr he =>
            rw [List.mem_singleton.mp he]
            trivial
        · rw [List.append_assoc]
          exact hnd
      · exact ⟨hm, hfits, hnd⟩

/-- The time of a stream matters to no ring buffer. -/
theorem View.Fits.stream {v : View} {e : HeapId} (h : v.Fits c e) (j t : Nat) :
    View.Fits c { v with key := Function.update v.key (.stream j) t } e := by
  cases e with
  | stream k => trivial
  | mmap i =>
    have hne : HeapId.mmap i ≠ .stream j := HeapId.noConfusion
    exact h.congr (Function.update_of_ne hne t v.key) (fun _ _ => ⟨rfl, rfl⟩) rfl

theorem streamRetry_merged {k : Call} {j : Nat} {todo : List HeapId}
    (hpc : k.pc = .streamRetry j todo) (hm : k.s.view.Merged c ts)
    (hat : k.s.view.Stands c H (.streamRetry j todo)) : MergedPass c H ts (orderPass c H k) := by
  obtain ⟨hfits, hnd⟩ := hat
  obtain ⟨t, hv⟩ := view_streamInit k.s j
  simp only [orderPass, hpc]
  generalize k.s.streamInit j = out at hv
  obtain ⟨s₁, found⟩ := out
  have hv' : s₁.view = { k.s.view with key := Function.update k.s.view.key (.stream j) t } := hv
  have hm₁ : s₁.view.Merged c ts := by
    rw [hv']
    exact hm.congr rfl rfl rfl
  have hfits₁ : ∀ e ∈ k.s.view.heap, s₁.view.Fits c e := by
    intro e he
    rw [hv']
    exact (hfits e he).stream j t
  have hheap₁ : s₁.view.heap = k.s.view.heap := by rw [hv']
  cases found with
  | none => exact stop_merged hm₁ .streamStop
  | some b =>
    cases b with
    | false =>
      refine ⟨hm₁, ?_⟩
      simp only [View.Stands]
      rw [hheap₁]
      exact ⟨hfits₁, hnd⟩
    | true =>
      refine ⟨hm₁.heap (s₁.heap ++ [HeapId.stream j]), ?_, ?_⟩
      · intro e he
        cases List.mem_append.mp he with
        | inl he =>
          have hfe := hfits₁ e (by rw [← hheap₁]; exact he)
          exact hfe.congr rfl (fun _ _ => ⟨rfl, rfl⟩) rfl
        | inr he =>
          rw [List.mem_singleton.mp he]
          trivial
      · change ((s₁.view.heap ++ [HeapId.stream j]) ++ todo).Nodup
        rw [hheap₁, List.append_assoc]
        exact hnd

theorem streamNext_merged {k : Call} {j : Nat} (hpc : k.pc = .streamNext j)
    (hm : k.s.view.Merged c ts) (hat : k.s.view.Stands c H (.streamNext j)) :
    MergedPass c H ts (orderPass c H k) := by
  obtain ⟨t, hv⟩ := view_streamInit k.s j
  simp only [orderPass, hpc]
  generalize k.s.streamInit j = out at hv
  obtain ⟨s₁, found⟩ := out
  have hv' : s₁.view = { k.s.view with key := Function.update k.s.view.key (.stream j) t } := hv
  have hm₁ : s₁.view.Merged c ts := by
    rw [hv']
    exact hm.congr rfl rfl rfl
  cases found with
  | none =>
    refine stop_merged (s := s₁.setHeap (H.pop s₁.time s₁.heap)) ?_ .streamStop
    exact hm₁.heap (H.pop s₁.time s₁.heap)
  | some b =>
    cases b with
    | false =>
      refine ⟨hm₁, ?_⟩
      simp only [View.Stands]
      obtain ⟨rest, key, hheap, hfits, hnd, hord, hkey⟩ := hat
      rw [hv']
      refine ⟨rest, key, hheap, ?_, hnd, hord, ?_⟩
      · intro e he
        exact (hfits e he).stream j t
      · intro e he
        have hne : e ≠ .stream j := by
          rintro rfl
          rw [hheap] at hnd
          exact (List.nodup_cons.mp hnd).1 he
        rw [← hkey e he]
        exact Function.update_of_ne hne ..
    | true =>
      refine ⟨hm₁.heap (H.siftDown s₁.time s₁.heap), ?_⟩
      refine View.Under.sift hat s₁.view ?_ ?_ ?_ trivial
      · rw [hv']
      · intro x hx
        rw [hv']
        exact Function.update_of_ne hx ..
      · intro x _ hf
        rw [hv']
        exact hf.stream j t

theorem processedTimes_readSeen (s s' : Order) (i : Nat) :
    processedTimes (s.readSeen c i s') = [] := by
  unfold Order.readSeen
  split
  · rfl
  · split
    · rfl
    · split
      · rfl
      · rfl

/-- One step keeps the order if the time to which it moves up a late sample survives. -/
theorem orderPass_merged {k : Call} (hm : k.s.view.Merged c ts) (hat : k.s.view.Stands c H k.pc)
    (hok : survives c k = true) :
    MergedPass c H (ts ++ processedTimes (look c k (passOrder (orderPass c H k))))
      (orderPass c H k) := by
  cases hpc : k.pc with
  | heapInit todo =>
    simp only [look, hpc, processedTimes, List.filterMap_nil, List.append_nil]
    rw [hpc] at hat
    simpa only [orderPass, hpc] using heapInitPass_merged hm hat
  | mmapRetry i lost todo =>
    simp only [look, hpc, processedTimes_readSeen, List.append_nil]
    rw [hpc] at hat
    simp only [orderPass, hpc]
    exact mmapRetry_merged hpc hm hat hok
  | streamRetry j todo =>
    simp only [look, hpc, processedTimes, List.filterMap_nil, List.append_nil]
    rw [hpc] at hat
    exact streamRetry_merged hpc hm hat
  | top =>
    rw [hpc] at hat
    have ht := topPass_merged hpc hm hat hok
    simpa only [orderPass, hpc] using ht
  | streamNext j =>
    simp only [look, hpc, processedTimes, List.filterMap_nil, List.append_nil]
    rw [hpc] at hat
    exact streamNext_merged hpc hm hat
  | consume i nb =>
    simp only [look, hpc, processedTimes_readSeen, List.append_nil]
    rw [hpc] at hat
    simp only [orderPass, hpc]
    exact consumePass_merged hm hat

def MergedPoint (c : Config) (H : MinHeap HeapId) (ts : List Nat) : Point → Prop
  | .idle s => s.view.Merged c ts
  | .inside k => k.s.view.Merged c ts ∧ k.s.view.Stands c H k.pc

theorem orderStart_merged {s : Order} (hm : s.view.Merged c ts) (targetMap : Option Nat)
    (targetTm : Nat) : MergedPoint c H ts (orderStart c s targetMap targetTm) := by
  have henter : ∀ (u : Order) (frame : Frame), u.view = s.view → MergedPoint c H ts
      (.inside ⟨{ u with inprocess := true, heap := [] }, .heapInit c.events, frame⟩) := by
    intro u frame hu
    have hv : Order.view { u with inprocess := true, heap := [] } = { s.view with heap := [] } := by
      rw [← hu]
      rfl
    simp only [MergedPoint]
    rw [hv]
    refine ⟨hm.heap [], by simp, ?_⟩
    simpa using c.events_nodup
  simp only [orderStart]
  split
  · exact hm
  · cases targetMap with
    | none => exact henter s _ rfl
    | some i =>
      simp only
      split
      · split
        · simp only [MergedPoint, view_tick, view_updRing]
          exact hm
        · exact henter _ _ (by simp only [view_tick, view_updRing])
      · simp only [MergedPoint, view_tick, view_updRing]
        exact hm

theorem processedTimes_append (τ σ : List Seen) :
    processedTimes (τ ++ σ) = processedTimes τ ++ processedTimes σ :=
  List.filterMap_append

theorem Watched.merged {s₀ : Order} (hb : Boot s₀) {p : Point} {τ : List Seen}
    (h : Watched c H (survives c) s₀ p τ) : MergedPoint c H (processedTimes τ) p := by
  induction h with
  | boot =>
    refine ⟨?_, List.Pairwise.nil, by simp [processedTimes], ?_⟩
    · intro i
      exact Nat.le_trans (Nat.le_of_eq (hb.maps i).2.2.2.2.2) (Nat.zero_le _)
    · simp [Order.view, hb.log, sampleTimes, processedTimes]
  | call targetMap targetTm _ ih => exact orderStart_merged ih targetMap targetTm
  | step _ hk hp ih =>
    have hstep := orderPass_merged ih.1 ih.2 hk
    rw [hp] at hstep
    rw [processedTimes_append]
    exact hstep
  | ret _ hk hp ih =>
    have hstep := orderPass_merged ih.1 ih.2 hk
    rw [hp] at hstep
    rw [processedTimes_append]
    exact hstep

end Steps

/-- Event-clock order. With streams and a conversion, in every run in which the times that
late samples are moved up to survive the way to perfclock and back, samples are passed on
in event-clock order, each at the heap time it was processed at. -/
theorem evclock_in_order (c : Config) (H : MinHeap HeapId) (hstreams : c.nrStreams ≠ 0)
    (hconv : c.needConv = true) {s₀ : Order} (hb : Boot s₀) {p : Point} {τ : List Seen}
    (h : Watched c H (survives c) s₀ p τ) :
    (evclockTimes c p.order.log).Pairwise (· ≤ ·) ∧
      evclockTimes c p.order.log = processedTimes τ := by
  have hm : p.order.view.Merged c (processedTimes τ) := by
    have hp := h.merged hb
    cases p with
    | idle s => exact hp
    | inside k => exact hp.1
  have hclock : heapclock c = c.perfclockToEvclock := by
    funext t
    rw [heapclock, if_pos ⟨hstreams, hconv⟩]
  have htimes : evclockTimes c p.order.log = processedTimes τ := by
    rw [evclockTimes, ← hclock]
    exact hm.delivered
  rw [htimes]
  exact ⟨hm.sorted, rfl⟩

section Runs
open PerfProf.Convert

/-- Ring buffer 0 and stream 0 of a device with the given conversion. -/
def withStream (v : ProfDev) : Config where
  dev := fun _ => 0
  ins := id
  events := [.stream 0, .mmap 0]
  events_nodup := by decide
  profLost := fun _ => false
  wakeupWatermark := fun _ => 0
  needConv := v.needConv ≠ .none
  perfclockToEvclock := Convert.perfclockToEvclock v
  evclockToPerfclock := Convert.evclockToPerfclock v

def toTsc (timeMult timeShift : Nat) : ProfDev where
  needConv := .toTsc
  tscConv := ⟨timeShift, timeMult, 0⟩
  vcpu0 := ⟨⟨0, 0, 1, 0⟩, 0, 0⟩
  scaling := .unsupported
  clockOffset := 0

/-- The ring buffer goes back from 1 to 0; the stream has one sample, later than both. -/
def lateSample : Order :=
  { freshOrder (fun i => if i = 0 then [record (.sample 1), record (.sample 0)] else []) [] with
    streams := fun _ => ⟨⟨.other 0, 0, false, false⟩, 0, false,
      [some ⟨.sample 100, 0, false, true⟩], []⟩ }

theorem lateSample_boot : Boot lateSample := by
  have hsize : ∀ i, extent (if i = 0 then [record (.sample 1), record (.sample 0)] else []) ≤
      4096 := by
    intro i
    by_cases hi : i = 0
    · simp [hi, extent, record]
    · simp [hi, extent]
  have hb := freshOrder_boot _ [] hsize
  exact ⟨hb.maps, fun _ => ⟨rfl, rfl⟩, hb.heap, hb.popped, hb.unordered, hb.idle, hb.log⟩

/-- At 2 GHz the time of the first sample survives, and the late one is passed on there. -/
theorem evclock_in_order_late :
    ∃ s τ, Watched (withStream (toTsc 512 10)) sorted (survives (withStream (toTsc 512 10)))
        lateSample (.idle s) τ ∧
      processedTimes τ = [2, 2] ∧
      (evclockTimes (withStream (toTsc 512 10)) s.log).Pairwise (· ≤ ·) ∧
      evclockTimes (withStream (toTsc 512 10)) s.log = processedTimes τ := by
  obtain ⟨s, τ, hw, hx⟩ := Watched.firstCall (c := withStream (toTsc 512 10)) (H := sorted)
    (survives (withStream (toTsc 512 10))) (s := lateSample)
    (f := fun out => processedTimes out.2) (x := [2, 2]) rfl 40 (by decide +kernel)
  exact ⟨s, τ, hw, hx, evclock_in_order _ sorted (by decide) (by decide) lateSample_boot hw⟩

/-- At 3 GHz the late sample is processed at 3 and passed on at 0. -/
theorem repaired_sample_goes_back :
    ∃ s τ, Watched (withStream (toTsc 341 10)) sorted (fun _ => true) lateSample (.idle s) τ ∧
      processedTimes τ = [3, 3] ∧ evclockTimes (withStream (toTsc 341 10)) s.log = [3, 0] ∧
      ¬ (evclockTimes (withStream (toTsc 341 10)) s.log).Pairwise (· ≤ ·) := by
  obtain ⟨s, τ, hw, hx⟩ := Watched.firstCall (c := withStream (toTsc 341 10)) (H := sorted)
    (fun _ => true) (s := lateSample)
    (f := fun out => (processedTimes out.2, evclockTimes (withStream (toTsc 341 10)) out.1.log))
    (x := ([3, 3], [3, 0])) rfl 40 (by decide +kernel)
  obtain ⟨h1, h2⟩ := Prod.mk.inj hx
  refine ⟨s, τ, hw, h1, h2, ?_⟩
  rw [h2]
  decide

/-- An offset loses nothing, so every repair survives it. -/
theorem roundTrips_addOffset {v : ProfDev} (hv : v.needConv = .addOffset)
    (hoff : v.clockOffset < 2 ^ 64) {t : Nat} (ht : t < 2 ^ 64) :
    (withStream v).roundTrips t = true := by
  have hconv : (withStream v).nrStreams ≠ 0 ∧ (withStream v).needConv = true := by
    refine ⟨?_, ?_⟩
    · change 1 ≠ 0
      decide
    · simp [withStream, hv]
  rw [Config.roundTrips, heapclock, heapclockToPerfclock, if_pos hconv, if_pos hconv]
  simp only [withStream, Convert.perfclockToEvclock, Convert.evclockToPerfclock, hv]
  rw [sub64_add64 ht hoff]
  exact decide_eq_true rfl

end Runs

end PerfProf.OrderProcess
