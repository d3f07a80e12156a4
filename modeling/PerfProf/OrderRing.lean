import PerfProf.OrderProcess

/-! No loss and no duplication in the merge. For every ring buffer the records written
are split into those done with, the one that waits in the heap, and those not read
yet; every step moves the borders of this split and nothing else. -/
namespace PerfProf.OrderProcess
open PerfProf.Heap PerfProf.Loop PerfProf.Ring

section Tally

/-- A record up to its time, which the merge may have moved up. -/
def untimed (r : Record) : Record :=
  { r with kind := match r.kind with
    | .sample _ => .sample 0
    | k => k }

/-- A `PERF_RECORD_LOST` goes to `prof->lost` where there is one; any other record goes to
`perf_event_process_record`. -/
def delivered (c : Config) (i : Nat) (r : Record) : Bool :=
  match r.kind with
  | .lost _ _ => !c.profLost (c.dev (.mmap i))
  | _ => true

def Handed.recordOf (i : Nat) : Handed → Option (Nat × Record)
  | .record m pos r _ _ => if m = i then some (pos, untimed r) else none
  | _ => none

def Handed.lostOf (i : Nat) : Handed → Option Nat
  | .lost from_ _ _ _ _ _ _ => if from_.1 = i then some from_.2 else none
  | _ => none

/-- Samples and losses: what must not overtake each other. -/
def Handed.markOf (i : Nat) : Handed → Option Nat
  | .record m pos r _ _ => if m = i ∧ r.sample?.isSome then some pos else none
  | .lost from_ _ _ _ _ _ _ => if from_.1 = i then some from_.2 else none
  | .stream _ _ => none

/-- What has been handed on of ring buffer `i`. -/
structure Tally where
  records : List (Nat × Record)
  losts : List Nat
  marks : List Nat

def tally (i : Nat) (log : List Handed) : Tally where
  records := log.filterMap (Handed.recordOf i)
  losts := log.filterMap (Handed.lostOf i)
  marks := log.filterMap (Handed.markOf i)

theorem tally_hand (i : Nat) (log : List Handed) (h : Handed) :
    tally i (log ++ [h]) =
      ⟨(tally i log).records ++ (h.recordOf i).toList, (tally i log).losts ++ (h.lostOf i).toList,
        (tally i log).marks ++ (h.markOf i).toList⟩ := by
  have hone : ∀ {β : Type} (f : Handed → Option β), [h].filterMap f = (f h).toList := by
    intro β f
    cases hf : f h with
    | none => simp [hf]
    | some x => simp [hf]
  simp only [tally, List.filterMap_append, hone]

end Tally

/-- The records that go to `perf_event_process_record`, with their positions. -/
def deliveries (c : Config) (i : Nat) (done : List Record) : List (Nat × Record) :=
  ((offsets 0 done).filter fun p => delivered c i p.2).map fun p => (p.1, untimed p.2)

/-- The split of a ring buffer: `done`, the record in hand, and the rest. `pend` is the
position of a loss that was read and not yet reported. -/
structure Split (c : Config) (i : Nat) (m : PerfMmap) (T : Tally) (hand : List Record)
    (pend : List Nat) (done todo : List Record) : Prop where
  written : m.written = done ++ hand ++ todo
  start : m.start = extent (done ++ hand)
  prev : m.prev = m.start
  tail : m.tail ≤ extent done
  room : extent m.written ≤ m.tail + m.size
  records : T.records = deliveries c i done
  losts : ∀ q ∈ T.losts ++ pend, ∃ r, (q, r) ∈ offsets 0 done ∧ delivered c i r = false
  sorted : (T.marks ++ pend).Pairwise (· < ·)
  bound : ∀ q ∈ T.marks ++ pend, q < extent done

def Sound (c : Config) (i : Nat) (m : PerfMmap) (T : Tally) (hand : List Record)
    (pend : List Nat) : Prop :=
  ∃ done todo, Split c i m T hand pend done todo

section Ops
variable {c : Config} {i : Nat} {m : PerfMmap} {T : Tally} {hand : List Record} {pend : List Nat}

theorem Sound.output (h : Sound c i m T hand pend) (r : Record) :
    Sound c i (m.output r) T hand pend := by
  obtain ⟨done, todo, h⟩ := h
  by_cases hfit : m.readHead + r.size < m.tail + m.size
  · refine ⟨done, todo ++ [r], ?_⟩
    rw [PerfMmap.output, if_pos hfit]
    refine ⟨?_, h.start, h.prev, h.tail, ?_, h.records, h.losts, h.sorted, h.bound⟩
    · show m.written ++ [r] = _
      rw [h.written, List.append_assoc]
    · show extent (m.written ++ [r]) ≤ m.tail + m.size
      rw [extent_append]
      simp only [PerfMmap.readHead] at hfit
      simp only [extent]
      omega
  · rw [PerfMmap.output, if_neg hfit]
    exact ⟨done, todo, h⟩

theorem Sound.putEmpty (h : Sound c i m T hand pend) : Sound c i m.putEmpty T hand pend := by
  obtain ⟨done, todo, h⟩ := h
  refine ⟨done, todo, ?_⟩
  unfold PerfMmap.putEmpty
  split
  · exact ⟨h.written, h.start, h.prev, h.tail, h.room, h.records, h.losts, h.sorted, h.bound⟩
  · exact h

/-- Nothing in hand: the tail may go up to the cursor. -/
theorem Sound.writeTail (h : Sound c i m T [] pend) : Sound c i m.writeTail T [] pend := by
  obtain ⟨done, todo, h⟩ := h
  have hp : m.prev = extent done := by
    rw [h.prev, h.start, List.append_nil]
  have ht := h.tail
  have hr := h.room
  refine ⟨done, todo, h.written, h.start, h.prev, Nat.le_of_eq hp, ?_, h.records, h.losts, h.sorted,
    h.bound⟩
  show extent m.written ≤ m.prev + m.size
  omega

theorem Sound.readInit (h : Sound c i m T [] pend) : Sound c i m.readInit.1 T [] pend := by
  obtain ⟨done, todo, h⟩ := h
  have hroom : ¬ m.size < m.readHead - m.prev := by
    have h1 := h.room
    have h2 := h.tail
    have h3 := h.start
    have h4 := h.prev
    rw [List.append_nil] at h3
    simp only [PerfMmap.readHead]
    omega
  have hs : Split c i { m with start := m.prev, end_ := m.readHead } T [] pend done todo :=
    ⟨h.written, h.prev.trans h.start, rfl, h.tail, h.room, h.records, h.losts, h.sorted, h.bound⟩
  refine ⟨done, todo, ?_⟩
  by_cases hr : m.refcnt = 0
  · rw [PerfMmap.readInit, if_pos hr]
    exact h
  · simp only [PerfMmap.readInit, if_neg hr]
    rw [if_neg hroom]
    split
    · exact hs
    · exact hs

/-- Reading at the front of the rest. -/
theorem Split.read {done todo : List Record} (h : Split c i m T [] pend done todo) :
    PerfMmap.read { m with end_ := m.readHead } = todo.head? := by
  have hst := h.start
  have hw := h.written
  have ht := h.tail
  rw [List.append_nil] at hst hw
  have hhead : m.readHead = extent done + extent todo := by
    rw [PerfMmap.readHead, hw, extent_append]
  cases todo with
  | nil =>
    have : ¬ (m.tail ≤ m.start ∧ 8 ≤ m.readHead - m.start) := by
      simp only [extent] at hhead
      omega
    rw [PerfMmap.read, if_neg this]
    rfl
  | cons r todo =>
    have hr := r.header_le
    simp only [extent] at hhead
    rw [PerfMmap.read, if_pos ⟨by simp only; omega, by simp only; omega⟩]
    simp only [hw, hst, recordAt_extent]
    rw [if_neg (by omega)]
    rfl

theorem Sound.readNone (h : Sound c i m T [] pend) (hr : m.readEvent.2 = none) :
    Sound c i m.readEvent.1.readDone T [] pend := by
  obtain ⟨done, todo, h⟩ := h
  by_cases hz : m.refcnt = 0
  · have he : m.readEvent.1.readDone = m := by
      simp only [PerfMmap.readEvent, if_pos hz, PerfMmap.readDone]
    rw [he]
    exact ⟨done, todo, h⟩
  · simp only [PerfMmap.readEvent, if_neg hz] at hr ⊢
    rw [h.read] at hr ⊢
    cases todo with
    | cons r todo => simp at hr
    | nil =>
      have hend : m.start = m.readHead := by
        rw [h.start, PerfMmap.readHead, h.written]
        simp
      simp only [List.head?_nil, PerfMmap.readDone, if_neg hz, hend, ne_eq, not_true, if_false]
      exact ⟨done, [], h.written, by rw [← h.start, hend], rfl, h.tail, h.room, h.records, h.losts,
        h.sorted, h.bound⟩

/-- A record has been read: it is in hand, and it starts where the done ones end. -/
theorem Sound.readSome {r : Record} {w : Bool} (h : Sound c i m T [] pend)
    (hr : m.readEvent.2 = some (r, w)) :
    Sound c i m.readEvent.1 T [r] pend ∧ m.readEvent.1.refcnt ≠ 0 := by
  obtain ⟨done, todo, h⟩ := h
  by_cases hz : m.refcnt = 0
  · simp [PerfMmap.readEvent, hz] at hr
  · simp only [PerfMmap.readEvent, if_neg hz] at hr ⊢
    rw [h.read] at hr ⊢
    cases todo with
    | nil => simp at hr
    | cons r' todo =>
      obtain rfl : r' = r := by
        simp only [List.head?_cons, Option.some.injEq, Prod.mk.injEq] at hr
        exact hr.1
      refine ⟨⟨done, todo, ?_, ?_, rfl, h.tail, h.room, h.records, h.losts, h.sorted, h.bound⟩, hz⟩
      · show m.written = _
        rw [h.written]
        simp
      · show m.start + r'.size = _
        rw [h.start]
        simp [extent_append, extent]

theorem deliveries_append (c : Config) (i : Nat) (done : List Record) (r : Record) :
    deliveries c i (done ++ [r]) =
      deliveries c i done ++ (if delivered c i r then [(extent done, untimed r)] else []) := by
  simp only [deliveries, offsets_append, offsets, Nat.zero_add, List.filter_append,
    List.map_append]
  by_cases hd : delivered c i r = true
  · simp [hd]
  · simp [hd]

theorem untimed_size {r r' : Record} (h : untimed r' = untimed r) : r'.size = r.size := by
  have hs : (untimed r').size = (untimed r).size := by rw [h]
  exact hs

theorem untimed_sample {r r' : Record} (h : untimed r' = untimed r) :
    r'.sample?.isSome = r.sample?.isSome := by
  have hk := congrArg Record.kind h
  simp only [untimed, Record.sample?] at hk ⊢
  cases h₁ : r.kind <;> cases h₂ : r'.kind <;> simp_all

/-- The record in hand, with its time possibly moved up, goes to `perf_event_process_record`. -/
theorem Sound.deliver {r r' : Record} (h : Sound c i m T [r] pend) (hd : delivered c i r = true)
    (hu : untimed r' = untimed r) (hp : r.sample?.isSome → pend = []) :
    Sound c i m ⟨T.records ++ [(m.start - r'.size, untimed r')], T.losts,
      T.marks ++ if r'.sample?.isSome then [m.start - r'.size] else []⟩ [] pend := by
  obtain ⟨done, todo, h⟩ := h
  have hst := h.start
  have ht := h.tail
  rw [extent_append] at hst
  simp only [extent] at hst
  have hpos : m.start - r'.size = extent done := by
    rw [untimed_size hu]
    omega
  have hext : extent (done ++ [r]) = extent done + r.size := by
    simp [extent_append, extent]
  have hr := r.header_le
  refine ⟨done ++ [r], todo, ?_, ?_, h.prev, ?_, h.room, ?_, ?_, ?_, ?_⟩
  · rw [h.written]
    simp
  · rw [h.start, List.append_nil]
  · omega
  · show T.records ++ _ = _
    rw [deliveries_append, if_pos hd, h.records, hpos, hu]
  · intro q hq
    obtain ⟨x, hx, hxd⟩ := h.losts q hq
    refine ⟨x, ?_, hxd⟩
    rw [offsets_append]
    exact List.mem_append_left _ hx
  · rw [untimed_sample hu, hpos]
    cases hsm : r.sample?.isSome with
    | false => simpa using h.sorted
    | true =>
      obtain rfl := hp hsm
      have hs := h.sorted
      have hb := h.bound
      simp only [List.append_nil, if_true] at hs hb ⊢
      rw [List.pairwise_append]
      refine ⟨hs, List.pairwise_singleton _ _, ?_⟩
      intro a ha b hb'
      rw [List.mem_singleton.mp hb']
      exact hb a ha
  · intro q hq
    rw [untimed_sample hu, hpos] at hq
    rw [hext]
    have hold : q ∈ T.marks ++ pend ∨ q = extent done := by
      cases hsm : r.sample?.isSome with
      | false =>
        rw [hsm] at hq
        left
        simpa using hq
      | true =>
        rw [hsm] at hq
        simp only [if_true, List.mem_append, List.mem_singleton] at hq ⊢
        rcases hq with (hq | hq) | hq
        · exact Or.inl (Or.inl hq)
        · exact Or.inr hq
        · exact Or.inl (Or.inr hq)
    cases hold with
    | inl hq =>
      have := h.bound q hq
      omega
    | inr hq => omega

theorem Sound.dropPend (h : Sound c i m T hand pend) : Sound c i m T hand [] := by
  obtain ⟨done, todo, h⟩ := h
  refine ⟨done, todo, h.written, h.start, h.prev, h.tail, h.room, h.records, ?_, ?_, ?_⟩
  · intro q hq
    rw [List.append_nil] at hq
    exact h.losts q (List.mem_append_left _ hq)
  · rw [List.append_nil]
    exact h.sorted.sublist (List.sublist_append_left _ _)
  · intro q hq
    rw [List.append_nil] at hq
    exact h.bound q (List.mem_append_left _ hq)

/-- The record in hand is a loss that is kept back. -/
theorem Sound.keepBack {r : Record} (h : Sound c i m T [r] pend) (hd : delivered c i r = false) :
    Sound c i m T [] [m.start - r.size] := by
  obtain ⟨done, todo, h⟩ := h.dropPend
  have hst := h.start
  have ht := h.tail
  rw [extent_append] at hst
  simp only [extent] at hst
  have hpos : m.start - r.size = extent done := by omega
  have hext : extent (done ++ [r]) = extent done + r.size := by
    simp [extent_append, extent]
  have hr := r.header_le
  have hb := h.bound
  have hs := h.sorted
  rw [List.append_nil] at hb hs
  refine ⟨done ++ [r], todo, ?_, ?_, h.prev, ?_, h.room, ?_, ?_, ?_, ?_⟩
  · rw [h.written]
    simp
  · rw [h.start, List.append_nil]
  · omega
  · rw [deliveries_append, hd, h.records]
    simp
  · intro q hq
    rw [offsets_append]
    cases List.mem_append.mp hq with
    | inl hq =>
      obtain ⟨x, hx, hxd⟩ := h.losts q (List.mem_append_left _ hq)
      exact ⟨x, List.mem_append_left _ hx, hxd⟩
    | inr hq =>
      refine ⟨r, List.mem_append_right _ ?_, hd⟩
      rw [List.mem_singleton.mp hq, hpos]
      simp [offsets]
  · rw [hpos, List.pairwise_append]
    refine ⟨hs, List.pairwise_singleton _ _, ?_⟩
    intro a ha b hb'
    rw [List.mem_singleton.mp hb']
    exact hb a ha
  · intro q hq
    rw [hext]
    cases List.mem_append.mp hq with
    | inl hq =>
      have := hb q hq
      omega
    | inr hq =>
      rw [List.mem_singleton.mp hq]
      omega

/-- The loss that was kept back goes to `prof->lost`. -/
theorem Sound.report {q : Nat} (h : Sound c i m T hand [q]) :
    Sound c i m ⟨T.records, T.losts ++ [q], T.marks ++ [q]⟩ hand [] := by
  obtain ⟨done, todo, h⟩ := h
  refine ⟨done, todo, h.written, h.start, h.prev, h.tail, h.room, h.records, ?_, ?_, ?_⟩
  · rw [List.append_nil]
    exact h.losts
  · rw [List.append_nil]
    exact h.sorted
  · rw [List.append_nil]
    exact h.bound

/-- The record in hand goes back. -/
theorem Sound.unread {r r' : Record} (h : Sound c i m T [r] pend) (hu : r'.size = r.size)
    (hz : m.refcnt ≠ 0) : Sound c i (m.unreadEvent r') T [] pend := by
  obtain ⟨done, todo, h⟩ := h
  have hst := h.start
  rw [extent_append] at hst
  simp only [extent] at hst
  have hpos : m.start - r'.size = extent done := by omega
  refine ⟨done, r :: todo, ?_⟩
  rw [PerfMmap.unreadEvent, if_neg hz, hpos]
  refine ⟨?_, ?_, rfl, h.tail, h.room, h.records, h.losts, h.sorted, h.bound⟩
  · show m.written = _
    rw [h.written]
    simp
  · rw [List.append_nil]

end Ops

section Balance
variable {c : Config} {s s' : Order} {L L' : List HeapId} {lost lost' : Lost}

/-- The position of a loss of ring buffer `i` that waits to be reported. -/
def pendOf (lost : Lost) (i : Nat) : List Nat :=
  if lost.lost ≠ 0 ∧ lost.from_.1 = i then [lost.from_.2] else []

def streamLog (j : Nat) (log : List Handed) : List StreamRecord :=
  log.filterMap fun h => match h with
    | .stream j' r => if j' = j then some r else none
    | _ => none

/-- A ring buffer whose record in hand, if it is held, is the event in the heap. -/
def MapOk (c : Config) (i : Nat) (e : MmapEvent) (T : Tally) (held : Prop) (pend : List Nat) :
    Prop :=
  (held → ∃ r, Sound c i e.map T [r] pend ∧ untimed e.event = untimed r ∧
    r.sample?.isSome = true ∧ e.map.refcnt ≠ 0) ∧
  (¬ held → Sound c i e.map T [] pend)

/-- A stream: what was read is what was handed on, and the event it holds. -/
def StreamOk (e : StreamEvent) (handed : List StreamRecord) (held : Prop) : Prop :=
  (held → e.unconsumed = false ∧ handed ++ [e.event] = e.taken) ∧
  (¬ held → e.unconsumed = true → handed ++ [e.event] = e.taken) ∧
  (¬ held → e.unconsumed = false → handed = e.taken)

/-- The books of the merge, `L` being the heap events held and `lost` the loss kept back. -/
structure Balanced (c : Config) (s : Order) (L : List HeapId) (lost : Lost) : Prop where
  maps : ∀ i, MapOk c i (s.maps i) (tally i s.log) (.mmap i ∈ L) (pendOf lost i)
  streams : ∀ j, StreamOk (s.streams j) (streamLog j s.log) (.stream j ∈ L)

/-- Ring buffer `i` has record `r` in hand; the other books are balanced. -/
structure InHand (c : Config) (s : Order) (L : List HeapId) (lost : Lost) (i : Nat) (r : Record) :
    Prop where
  hand : Sound c i (s.maps i).map (tally i s.log) [r] (pendOf lost i)
  refcnt : (s.maps i).map.refcnt ≠ 0
  maps : ∀ j, j ≠ i → MapOk c j (s.maps j) (tally j s.log) (.mmap j ∈ L) (pendOf lost j)
  streams : ∀ j, StreamOk (s.streams j) (streamLog j s.log) (.stream j ∈ L)

theorem Balanced.congr (h : Balanced c s L lost) (hm : s'.maps = s.maps)
    (hs : s'.streams = s.streams) (hl : s'.log = s.log) : Balanced c s' L lost := by
  refine ⟨?_, ?_⟩
  · rw [hm, hl]
    exact h.maps
  · rw [hs, hl]
    exact h.streams

theorem Balanced.of_mem (h : Balanced c s L lost) (hm : ∀ e, e ∈ L' ↔ e ∈ L) :
    Balanced c s L' lost := by
  refine ⟨?_, ?_⟩
  · intro i
    rw [hm]
    exact h.maps i
  · intro j
    rw [hm]
    exact h.streams j

theorem pendOf_zero (h : lost.lost = 0) (i : Nat) : pendOf lost i = [] := by
  simp [pendOf, h]

/-- A ring buffer operation that keeps every split keeps the books. -/
theorem MapOk.mapRing {i : Nat} {e e' : MmapEvent} {T : Tally} {held : Prop} {pend : List Nat}
    (h : MapOk c i e T held pend) (hev : e'.event = e.event)
    (hz : held → e.map.refcnt ≠ 0 → e'.map.refcnt ≠ 0)
    (hs : ∀ hand, (¬ held → hand = []) → Sound c i e.map T hand pend →
      Sound c i e'.map T hand pend) : MapOk c i e' T held pend := by
  refine ⟨?_, ?_⟩
  · intro hh
    obtain ⟨r, hr, hu, hsm, hrf⟩ := h.1 hh
    refine ⟨r, hs [r] (fun hn => absurd hh hn) hr, ?_, hsm, hz hh hrf⟩
    rw [hev]
    exact hu
  · intro hh
    exact hs [] (fun _ => rfl) (h.2 hh)

theorem output_refcnt (m : PerfMmap) (r : Record) : (m.output r).refcnt = m.refcnt := by
  unfold PerfMmap.output
  split <;> rfl

theorem updMap_maps_self (s : Order) (i : Nat) (f : MmapEvent → MmapEvent) :
    (s.updMap i f).maps i = f (s.maps i) :=
  Function.update_self ..

theorem updMap_maps_ne (s : Order) {i j : Nat} (f : MmapEvent → MmapEvent) (h : j ≠ i) :
    (s.updMap i f).maps j = s.maps j :=
  Function.update_of_ne h ..

theorem kernelOutput_keeps {P : Nat → MmapEvent → Prop}
    (hP : ∀ i e r, P i e → P i { e with map := e.map.output r }) (batch : List (Nat × Record))
    (s : Order) (h : ∀ i, P i (s.maps i)) : ∀ i, P i ((s.kernelOutput batch).maps i) := by
  induction batch generalizing s with
  | nil => exact h
  | cons b rest ih =>
    obtain ⟨i, r⟩ := b
    apply ih
    intro j
    by_cases hj : j = i
    · subst hj
      rw [Order.updRing, updMap_maps_self]
      exact hP _ _ _ (h _)
    · rw [Order.updRing, updMap_maps_ne s _ hj]
      exact h j

theorem kernelOutput_rest (batch : List (Nat × Record)) (s : Order) :
    (s.kernelOutput batch).streams = s.streams ∧ (s.kernelOutput batch).log = s.log ∧
      (s.kernelOutput batch).heap = s.heap := by
  induction batch generalizing s with
  | nil => exact ⟨rfl, rfl, rfl⟩
  | cons b rest ih => exact ih _

theorem tick_keeps {P : Nat → MmapEvent → Prop}
    (hP : ∀ i e r, P i e → P i { e with map := e.map.output r })
    (h : ∀ i, P i (s.maps i)) : ∀ i, P i (s.tick.maps i) := by
  cases ha : s.arrivals with
  | nil =>
    simp only [Order.tick, ha]
    exact h
  | cons batch rest =>
    simp only [Order.tick, ha]
    exact kernelOutput_keeps hP batch _ h

theorem tick_rest (s : Order) :
    s.tick.streams = s.streams ∧ s.tick.log = s.log ∧ s.tick.heap = s.heap := by
  cases ha : s.arrivals with
  | nil => simp [Order.tick, ha]
  | cons batch rest =>
    simp only [Order.tick, ha]
    exact kernelOutput_rest batch _

theorem MapOk.output {i : Nat} {e : MmapEvent} {T : Tally} {held : Prop} {pend : List Nat}
    (h : MapOk c i e T held pend) (r : Record) :
    MapOk c i { e with map := e.map.output r } T held pend := by
  refine h.mapRing ?_ ?_ ?_
  · rfl
  · intro _ hz
    rw [output_refcnt]
    exact hz
  · intro hand _ hs
    exact hs.output r

theorem Balanced.tick (h : Balanced c s L lost) : Balanced c s.tick L lost := by
  obtain ⟨hst, hlog, -⟩ := tick_rest s
  refine ⟨?_, ?_⟩
  · rw [hlog]
    exact tick_keeps (P := fun i e => MapOk c i e (tally i s.log) (.mmap i ∈ L) (pendOf lost i))
      (fun i e r he => he.output r) h.maps
  · rw [hst, hlog]
    exact h.streams

/-- Changing an event's time, or what the merge notes about a ring buffer. -/
theorem Balanced.updMap (h : Balanced c s L lost) (i : Nat) (f : MmapEvent → MmapEvent)
    (hm : (f (s.maps i)).map = (s.maps i).map)
    (he : untimed (f (s.maps i)).event = untimed (s.maps i).event) :
    Balanced c (s.updMap i f) L lost := by
  refine ⟨?_, h.streams⟩
  intro j
  by_cases hj : j = i
  · subst hj
    rw [updMap_maps_self]
    refine ⟨?_, ?_⟩
    · intro hh
      obtain ⟨r, hr, hu, hsm, hrf⟩ := (h.maps j).1 hh
      rw [hm, he]
      exact ⟨r, hr, hu, hsm, hrf⟩
    · intro hh
      rw [hm]
      exact (h.maps j).2 hh
  · rw [updMap_maps_ne s _ hj]
    exact h.maps j

/-- Changing the ring buffer `i`, which is not held. -/
theorem Balanced.updRing (h : Balanced c s L lost) {i : Nat} (f : PerfMmap → PerfMmap)
    (hi : .mmap i ∉ L)
    (hf : Sound c i (s.maps i).map (tally i s.log) [] (pendOf lost i) →
      Sound c i (f (s.maps i).map) (tally i s.log) [] (pendOf lost i)) :
    Balanced c (s.updRing i f) L lost := by
  refine ⟨?_, h.streams⟩
  intro j
  by_cases hj : j = i
  · subst hj
    rw [Order.updRing, updMap_maps_self]
    exact ⟨fun hh => absurd hh hi, fun _ => hf ((h.maps j).2 hi)⟩
  · rw [Order.updRing, updMap_maps_ne s _ hj]
    exact h.maps j

theorem Balanced.mmapConsume (h : Balanced c s L lost) {i : Nat} (hi : .mmap i ∉ L) :
    Balanced c (s.mmapConsume i) L lost := by
  have h₁ := h.updRing (i := i) PerfMmap.writeTail hi Sound.writeTail
  exact h₁.tick.updRing (i := i) PerfMmap.putEmpty hi Sound.putEmpty

theorem readNext_none (h : Balanced c s L lost) {i : Nat} (hi : .mmap i ∉ L)
    (hr : s.readNext i = (s', none)) :
    Balanced c (s'.updRing i PerfMmap.readDone) L lost ∧ s'.heap = s.heap := by
  obtain ⟨hs', hout⟩ := Prod.mk.inj hr
  subst hs'
  refine ⟨?_, (tick_rest s).2.2⟩
  have ht := h.tick.updRing (i := i) (fun m => m.readEvent.1.readDone) hi
    (fun hs => hs.readNone hout)
  apply ht.congr
  · simp only [Order.updRing, Order.updMap, Function.update_self, Function.update_idem]
  · rfl
  · rfl

theorem readNext_some (h : Balanced c s L lost) {i : Nat} (hi : .mmap i ∉ L) {r : Record}
    {w : Bool} (hr : s.readNext i = (s', some (r, w))) :
    InHand c s' L lost i r ∧ s'.heap = s.heap := by
  obtain ⟨hs', hout⟩ := Prod.mk.inj hr
  subst hs'
  have ht := h.tick
  obtain ⟨hsound, hz⟩ := ((ht.maps i).2 hi).readSome hout
  refine ⟨⟨?_, ?_, ?_, ht.streams⟩, (tick_rest s).2.2⟩
  · rw [Order.updRing, updMap_maps_self]
    exact hsound
  · rw [Order.updRing, updMap_maps_self]
    exact hz
  · intro j hj
    rw [Order.updRing, updMap_maps_ne _ _ hj]
    exact ht.maps j

theorem InHand.congr {i : Nat} {r : Record} (h : InHand c s L lost i r) (hm : s'.maps = s.maps)
    (hs : s'.streams = s.streams) (hl : s'.log = s.log) : InHand c s' L lost i r := by
  refine ⟨?_, ?_, ?_, ?_⟩
  · rw [hm, hl]
    exact h.hand
  · rw [hm]
    exact h.refcnt
  · rw [hm, hl]
    exact h.maps
  · rw [hs, hl]
    exact h.streams

theorem InHand.countLost {i : Nat} {r : Record} (h : InHand c s L lost i r) (r' : Record) :
    InHand c (s.countLost c i r') L lost i r := by
  apply h.congr <;> (unfold Order.countLost; split <;> rfl)

theorem tally_record_ne {i j : Nat} (hj : j ≠ i) (log : List Handed) (pos : Nat) (r : Record)
    (ins : Nat) (w : Bool) : tally j (log ++ [.record i pos r ins w]) = tally j log := by
  have hi : i ≠ j := fun h => hj h.symm
  rw [tally_hand]
  simp [Handed.recordOf, Handed.lostOf, Handed.markOf, hi]

theorem tally_record_self (i : Nat) (log : List Handed) (pos : Nat) (r : Record) (ins : Nat)
    (w : Bool) : tally i (log ++ [.record i pos r ins w]) =
      ⟨(tally i log).records ++ [(pos, untimed r)], (tally i log).losts,
        (tally i log).marks ++ if r.sample?.isSome then [pos] else []⟩ := by
  rw [tally_hand]
  by_cases hs : r.sample?.isSome = true
  · simp [Handed.recordOf, Handed.lostOf, Handed.markOf, hs]
  · simp [Handed.recordOf, Handed.lostOf, Handed.markOf, hs]

theorem tally_streams (i : Nat) (log : List Handed) (j : Nat) (rs : List StreamRecord) :
    tally i (log ++ rs.map (Handed.stream j)) = tally i log := by
  simp [tally, List.filterMap_append, List.filterMap_map, Function.comp_def, Handed.recordOf,
    Handed.lostOf, Handed.markOf]

theorem streamLog_append (j : Nat) (log : List Handed) (h : Handed) :
    streamLog j (log ++ [h]) = streamLog j log ++ streamLog j [h] := by
  simp only [streamLog, List.filterMap_append]

theorem streamLog_streams (j k : Nat) (log : List Handed) (rs : List StreamRecord) :
    streamLog k (log ++ rs.map (Handed.stream j)) =
      streamLog k log ++ if k = j then rs else [] := by
  by_cases hk : k = j
  · simp [streamLog, List.filterMap_append, List.filterMap_map, hk]
  · have hjk : ¬ j = k := fun h => hk h.symm
    simp [streamLog, List.filterMap_append, List.filterMap_map, hk, hjk]

/-- The record in hand is handed to `perf_event_process_record`. -/
theorem InHand.process {i : Nat} {r r' : Record} (h : InHand c s L lost i r) (w : Bool)
    (hi : .mmap i ∉ L) (hd : delivered c i r = true) (hu : untimed r' = untimed r)
    (hp : r.sample?.isSome → pendOf lost i = []) :
    Balanced c (s.processRecord c i r' w) L lost := by
  refine ⟨?_, ?_⟩
  · intro j
    by_cases hj : j = i
    · subst hj
      refine ⟨fun hh => absurd hh hi, fun _ => ?_⟩
      show Sound c j (s.maps j).map (tally j (s.log ++ [_])) [] _
      rw [tally_record_self]
      exact h.hand.deliver hd hu hp
    · show MapOk c j (s.maps j) (tally j (s.log ++ [_])) _ _
      rw [tally_record_ne hj]
      exact h.maps j hj
  · intro j
    show StreamOk (s.streams j) (streamLog j (s.log ++ [_])) _
    rw [streamLog_append]
    simpa [streamLog] using h.streams j

/-- The record in hand is a loss to be reported later. -/
theorem InHand.keepBack {i : Nat} {r : Record} {l : Lost} (h : InHand c s L lost i r)
    (hi : .mmap i ∉ L) (hl : s.lostFor c i r = some l) :
    Balanced c s L l ∧ l.from_.1 = i := by
  unfold Order.lostFor at hl
  split at hl
  · rename_i id n hk
    split at hl
    · rename_i hpl
      obtain rfl := Option.some.inj hl
      have hd : delivered c i r = false := by simp [delivered, hk, hpl]
      refine ⟨⟨?_, h.streams⟩, rfl⟩
      intro j
      by_cases hj : j = i
      · subst hj
        refine ⟨fun hh => absurd hh hi, fun _ => ?_⟩
        have hs := h.hand.keepBack hd
        by_cases hn : n = 0
        · rw [pendOf_zero hn]
          exact hs.dropPend
        · simpa [pendOf, hn] using hs
      · have hij : ¬ i = j := fun h => hj h.symm
        have hpend : pendOf ⟨(i, (s.maps i).map.start - r.size), id, n⟩ j = [] := by
          simp [pendOf, hij]
        rw [hpend]
        refine ⟨?_, ?_⟩
        · intro hh
          obtain ⟨q, hq, hrest⟩ := (h.maps j hj).1 hh
          exact ⟨q, hq.dropPend, hrest⟩
        · intro hh
          exact ((h.maps j hj).2 hh).dropPend
    · cases hl
  · cases hl

theorem delivered_of_not_kept {i : Nat} {r : Record} (hl : s.lostFor c i r = none) :
    delivered c i r = true := by
  unfold Order.lostFor at hl
  unfold delivered
  split
  · rename_i id n hk
    rw [hk] at hl
    by_cases hpl : c.profLost (c.dev (.mmap i)) = true
    · simp [hpl] at hl
    · simp [hpl]
  · rfl

theorem delivered_of_sample {i : Nat} {r : Record} (h : r.sample?.isSome = true) :
    delivered c i r = true := by
  unfold Record.sample? at h
  unfold delivered
  split
  · rename_i id n hk
    simp [hk] at h
  · rfl

/-- The sample in hand becomes the heap event of its ring buffer. -/
theorem InHand.load {i : Nat} {r : Record} (h : InHand c s L lost i r) (t : Nat) (w : Bool)
    (hsm : r.sample?.isSome = true) (hL : ∀ e, e ∈ L' ↔ e = .mmap i ∨ e ∈ L) :
    Balanced c (s.loadSample c i r t w) L' lost := by
  refine ⟨?_, ?_⟩
  · intro j
    by_cases hj : j = i
    · subst hj
      rw [Order.loadSample, updMap_maps_self]
      have hheld : HeapId.mmap j ∈ L' := (hL _).mpr (Or.inl rfl)
      exact ⟨fun _ => ⟨r, h.hand, rfl, hsm, h.refcnt⟩, fun hn => absurd hheld hn⟩
    · have hne : HeapId.mmap j ≠ .mmap i := fun h => hj (HeapId.mmap.inj h)
      rw [Order.loadSample, updMap_maps_ne s _ hj, hL]
      simp only [hne, false_or]
      exact h.maps j hj
  · intro j
    have hne : HeapId.stream j ≠ .mmap i := by simp
    rw [hL]
    simp only [hne, false_or]
    exact h.streams j

/-- The event at the root is in hand again. -/
theorem Balanced.release {i : Nat} {rest : List HeapId}
    (h : Balanced c s (.mmap i :: rest) lost) :
    ∃ r, InHand c s rest lost i r ∧ untimed (s.maps i).event = untimed r ∧
      r.sample?.isSome = true := by
  obtain ⟨r, hr, hu, hsm, hz⟩ := (h.maps i).1 (List.mem_cons_self ..)
  refine ⟨r, ⟨hr, hz, ?_, ?_⟩, hu, hsm⟩
  · intro j hj
    have hne : HeapId.mmap j ≠ .mmap i := fun h => hj (HeapId.mmap.inj h)
    simpa only [List.mem_cons, hne, false_or] using h.maps j
  · intro j
    simpa using h.streams j

theorem Balanced.dropLost (h : Balanced c s L lost) (h0 : lost'.lost = 0) :
    Balanced c s L lost' := by
  refine ⟨?_, h.streams⟩
  intro i
  rw [pendOf_zero h0]
  refine ⟨?_, ?_⟩
  · intro hh
    obtain ⟨r, hr, hrest⟩ := (h.maps i).1 hh
    exact ⟨r, hr.dropPend, hrest⟩
  · intro hh
    exact ((h.maps i).2 hh).dropPend

/-- The loss kept back is reported. -/
theorem Balanced.reportLost (h : Balanced c s L lost) (i : Nat) (h0 : lost'.lost = 0) :
    Balanced c (s.reportLost c i lost) L lost' := by
  by_cases hl : lost.lost ≠ 0
  · rw [Order.reportLost, if_pos hl]
    obtain ⟨⟨a, q⟩, id, n⟩ := lost
    refine ⟨?_, ?_⟩
    · intro j
      rw [pendOf_zero h0]
      show MapOk c j (s.maps j) (tally j (s.log ++ [_])) _ []
      rw [tally_hand]
      by_cases hj : a = j
      · subst hj
        have hm := h.maps a
        have hpend : pendOf ⟨(a, q), id, n⟩ a = [q] := by
          rw [pendOf, if_pos ⟨hl, rfl⟩]
        rw [hpend] at hm
        simp only [Handed.recordOf, Handed.lostOf, Handed.markOf, if_true, Option.toList_some,
          Option.toList_none, List.append_nil]
        refine ⟨?_, ?_⟩
        · intro hh
          obtain ⟨r, hr, hrest⟩ := hm.1 hh
          exact ⟨r, hr.report, hrest⟩
        · intro hh
          exact (hm.2 hh).report
      · have hm := h.maps j
        have hpend : pendOf ⟨(a, q), id, n⟩ j = [] := by
          simp [pendOf, hj]
        rw [hpend] at hm
        simpa [Handed.recordOf, Handed.lostOf, Handed.markOf, hj] using hm
    · intro j
      show StreamOk (s.streams j) (streamLog j (s.log ++ [_])) _
      rw [streamLog_append]
      simpa [streamLog] using h.streams j
  · rw [Order.reportLost, if_neg hl]
    exact h.dropLost h0

theorem Balanced.fixOutOfOrder {i : Nat} (h : Balanced c s L lost)
    (hsm : (s.maps i).event.sample?.isSome = true) (t : Nat) :
    Balanced c (s.fixOutOfOrder c i t) L lost := by
  have h₁ := h.updMap i (fun e =>
    { e with event := { e.event with kind := .sample (heapclockToPerfclock c t) },
             time := t, writable := true }) rfl (by
      unfold Record.sample? at hsm
      simp only [untimed]
      cases hk : (s.maps i).event.kind with
      | sample t' => rfl
      | _ => simp [hk] at hsm)
  exact h₁.congr rfl rfl rfl

theorem Balanced.popTime (h : Balanced c s L lost) (e : HeapId) (t ins : Nat) :
    Balanced c (s.popTime c e t ins) L lost := by
  apply h.congr <;> (simp only [Order.popTime]; split <;> split <;> rfl)

theorem Balanced.held_sample {i : Nat} (h : Balanced c s L lost) (hi : .mmap i ∈ L) :
    (s.maps i).event.sample?.isSome = true := by
  obtain ⟨r, -, hu, hsm, -⟩ := (h.maps i).1 hi
  rw [untimed_sample hu]
  exact hsm

/-- Handing on the event at the root. -/
theorem processRoot_balanced {i : Nat} {rest : List HeapId}
    (h : Balanced c s (.mmap i :: rest) lost) (hnd : (HeapId.mmap i :: rest).Nodup)
    (hp : pendOf lost i = []) : Balanced c (s.processRoot c i) rest lost := by
  have hsm := h.held_sample (List.mem_cons_self ..)
  have hprocess : ∀ u : Order, Balanced c u (.mmap i :: rest) lost →
      Balanced c (u.processRecord c i (u.maps i).event (u.maps i).writable) rest lost := by
    intro u hu
    obtain ⟨r, hr, hev, hrs⟩ := hu.release
    exact hr.process _ (List.nodup_cons.mp hnd).1 (delivered_of_sample hrs) hev (fun _ => hp)
  simp only [Order.processRoot]
  apply hprocess
  apply Balanced.popTime
  split
  · exact h.fixOutOfOrder hsm _
  · exact h.updMap i _ rfl rfl

/-- A step of stream `j` alone, which may hand on some of its records. -/
theorem Balanced.streamStep {j : Nat} (h : Balanced c s L lost) (rs : List StreamRecord)
    (hm : s'.maps = s.maps) (hlog : s'.log = s.log ++ rs.map (Handed.stream j))
    (hst : ∀ k, k ≠ j → s'.streams k = s.streams k)
    (hL : ∀ e, e ≠ .stream j → (e ∈ L' ↔ e ∈ L))
    (hf : StreamOk (s'.streams j) (streamLog j s.log ++ rs) (.stream j ∈ L')) :
    Balanced c s' L' lost := by
  refine ⟨?_, ?_⟩
  · intro i
    rw [hm, hlog, tally_streams, hL _ (by simp)]
    exact h.maps i
  · intro k
    rw [hlog]
    by_cases hk : k = j
    · subst hk
      rw [streamLog_streams, if_pos rfl]
      exact hf
    · rw [streamLog_streams, if_neg hk, List.append_nil, hst k hk, hL _ (by simpa using hk)]
      exact h.streams k

theorem unwind_balanced (h : Balanced c s L lost) (hnd : L.Nodup) :
    Balanced c (s.unwind L) [] lost := by
  induction L generalizing s with
  | nil => exact h.congr rfl rfl rfl
  | cons e rest ih =>
    obtain ⟨he, hnd'⟩ := List.nodup_cons.mp hnd
    cases e with
    | mmap i =>
      apply ih _ hnd'
      obtain ⟨r, hr, hu, -⟩ := h.release
      have hback : Balanced c (s.updRing i (·.unreadEvent (s.maps i).event)) rest lost := by
        refine ⟨?_, hr.streams⟩
        intro j
        by_cases hj : j = i
        · subst hj
          rw [Order.updRing, updMap_maps_self]
          exact ⟨fun hh => absurd hh he, fun _ => hr.hand.unread (untimed_size hu) hr.refcnt⟩
        · rw [Order.updRing, updMap_maps_ne s _ hj]
          exact hr.maps j hj
      exact hback.mmapConsume he
    | stream j =>
      apply ih _ hnd'
      obtain ⟨-, hev⟩ := (h.streams j).1 (List.mem_cons_self ..)
      refine h.streamStep (j := j) [] rfl (by simp [Order.updStream]) ?_ ?_ ?_
      · intro k hk
        simp only [Order.updStream, Function.update_of_ne hk]
      · intro e hne
        simp [hne]
      · simp only [Order.updStream, Function.update_self, List.append_nil]
        exact ⟨fun hh => absurd hh he, fun _ _ => hev, fun _ hf => by simp at hf⟩

end Balance

end PerfProf.OrderProcess
