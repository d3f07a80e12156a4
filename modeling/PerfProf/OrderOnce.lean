import PerfProf.OrderRing
import PerfProf.OrderTime

/-! The books of the merge stay balanced at every point of every run, whatever ends a
call. From this: each record is handed on once, the tail never passes a sample that
is still to be processed, and `prev` is left where the unprocessed records begin. -/
namespace PerfProf.OrderProcess
open PerfProf.Heap PerfProf.Loop PerfProf.Ring

section Streams
variable {c : Config} {s s' : Order} {L : List HeapId} {lost : Lost} {j : Nat}

theorem streamInit_spec (h : Balanced c s L lost) (hj : .stream j ∉ L)
    (hu : (s.streams j).unconsumed = false) :
    (s.streamInit j).1.heap = s.heap ∧
    match s.streamInit j with
    | (s', none) => Balanced c s' L lost
    | (s', some false) => Balanced c s' L lost ∧ (s'.streams j).unconsumed = false
    | (s', some true) => ∀ L', (∀ e, e ∈ L' ↔ e = .stream j ∨ e ∈ L) → Balanced c s' L' lost := by
  have htaken := (h.streams j).2.2 hj hu
  have hother : ∀ (f : StreamEvent → StreamEvent) (k : Nat), k ≠ j →
      (s.updStream j f).streams k = s.streams k := by
    intro f k hk
    simp only [Order.updStream, Function.update_of_ne hk]
  have hself : ∀ f : StreamEvent → StreamEvent,
      (s.updStream j f).streams j = f (s.streams j) := by
    intro f
    simp only [Order.updStream, Function.update_self]
  have hsame : ∀ e, e ≠ HeapId.stream j → (e ∈ L ↔ e ∈ L) := fun _ _ => Iff.rfl
  cases hr : (s.streams j).reads with
  | nil =>
    simp only [Order.streamInit, Order.readStream, hr]
    exact ⟨trivial, h⟩
  | cons x rest =>
    cases x with
    | none =>
      simp only [Order.streamInit, Order.readStream, hr]
      refine ⟨rfl, h.streamStep (j := j) [] rfl (by simp [Order.updStream]) (hother _) hsame ?_⟩
      rw [hself, List.append_nil]
      exact h.streams j
    | some r =>
      have hwait : ∀ t L', (∀ e, e ∈ L' ↔ e = HeapId.stream j ∨ e ∈ L) →
          Balanced c ((s.updStream j fun e =>
            { e with reads := rest, taken := e.taken ++ [r] }).updStream j fun e =>
            { e with event := r, time := t }) L' lost := by
        intro t L' hL'
        refine h.streamStep (j := j) [] rfl (by simp [Order.updStream]) ?_ ?_ ?_
        · intro k hk
          simp only [Order.updStream, Function.update_of_ne hk]
        · intro e hne
          simp [hL', hne]
        · have hheld : HeapId.stream j ∈ L' := (hL' _).mpr (Or.inl rfl)
          simp only [Order.updStream, Function.update_self, List.append_nil]
          refine ⟨fun _ => ⟨hu, by rw [htaken]⟩, fun hn => absurd hheld hn,
            fun hn => absurd hheld hn⟩
      cases hk : r.kind with
      | other ty =>
        simp only [Order.streamInit, Order.readStream, hr, hk]
        let f : StreamEvent → StreamEvent := fun e =>
          { e with reads := rest, taken := e.taken ++ [r] }
        refine ⟨rfl, h.streamStep (j := j) [r] rfl rfl (hother f) hsame ?_, ?_⟩
        · show StreamOk ((s.updStream j f).streams j) _ _
          rw [hself, htaken]
          exact ⟨fun hh => absurd hh hj, fun _ hf => absurd (hu.symm.trans hf) (by simp),
            fun _ _ => rfl⟩
        · show ((s.updStream j f).streams j).unconsumed = false
          rw [hself]
          exact hu
      | sample t =>
        simp only [Order.streamInit, Order.readStream, hr, hk]
        exact ⟨rfl, hwait t⟩
      | orderTime t =>
        simp only [Order.streamInit, Order.readStream, hr, hk]
        exact ⟨rfl, hwait t⟩

/-- A stream event that was left in the heap comes back without being read. -/
theorem Balanced.takeUnconsumed (h : Balanced c s L lost) {L' : List HeapId}
    (hj : .stream j ∉ L) (hu : (s.streams j).unconsumed = true)
    (hL : ∀ e, e ∈ L' ↔ e = .stream j ∨ e ∈ L) :
    Balanced c (s.updStream j fun e => { e with unconsumed := false }) L' lost := by
  have hev := (h.streams j).2.1 hj hu
  refine h.streamStep (j := j) [] rfl (by simp [Order.updStream]) ?_ ?_ ?_
  · intro k hk
    simp only [Order.updStream, Function.update_of_ne hk]
  · intro e hne
    simp [hL, hne]
  · have hheld : HeapId.stream j ∈ L' := (hL _).mpr (Or.inl rfl)
    simp only [Order.updStream, Function.update_self, List.append_nil]
    exact ⟨fun _ => ⟨by trivial, hev⟩, fun hn => absurd hheld hn, fun hn => absurd hheld hn⟩

/-- The stream event at the root is handed on. -/
theorem Balanced.handStreamRoot {rest : List HeapId} (h : Balanced c s (.stream j :: rest) lost)
    (hnd : (HeapId.stream j :: rest).Nodup) :
    Balanced c (s.hand (.stream j (s.streams j).event)) rest lost ∧
      (s.streams j).unconsumed = false := by
  obtain ⟨hu, hev⟩ := (h.streams j).1 (List.mem_cons_self ..)
  have hj := (List.nodup_cons.mp hnd).1
  refine ⟨h.streamStep (j := j) [(s.streams j).event] rfl rfl (fun _ _ => rfl) ?_ ?_, hu⟩
  · intro e hne
    simp [hne]
  · exact ⟨fun hh => absurd hh hj, fun _ hf => absurd (hu.symm.trans hf) (by simp),
      fun _ _ => hev⟩

end Streams

section Run
variable {c : Config} {H : MinHeap HeapId}

/-- What holds at a program point. -/
def Call.Sound (c : Config) (k : Call) : Prop :=
  match k.pc with
  | .heapInit todo =>
    Balanced c k.s k.s.heap noLost ∧ (k.s.heap ++ todo).Nodup ∧ k.frame.lost.lost = 0
  | .mmapRetry i lost todo =>
    Balanced c k.s k.s.heap lost ∧ (k.s.heap ++ .mmap i :: todo).Nodup ∧ k.frame.lost.lost = 0
  | .streamRetry j todo =>
    Balanced c k.s k.s.heap noLost ∧ (k.s.heap ++ .stream j :: todo).Nodup ∧
      k.frame.lost.lost = 0 ∧ (k.s.streams j).unconsumed = false
  | .top => Balanced c k.s k.s.heap k.frame.lost ∧ k.s.heap.Nodup ∧
      (k.frame.lost.lost ≠ 0 → .mmap k.frame.lost.from_.1 ∉ k.s.heap)
  | .streamNext j => ∃ rest, k.s.heap = .stream j :: rest ∧ Balanced c k.s rest k.frame.lost ∧
      k.s.heap.Nodup ∧ (k.frame.lost.lost ≠ 0 → .mmap k.frame.lost.from_.1 ∉ rest) ∧
      (k.s.streams j).unconsumed = false
  | .consume i _ => ∃ rest, k.s.heap = .mmap i :: rest ∧ Balanced c k.s rest k.frame.lost ∧
      k.s.heap.Nodup ∧ (k.frame.lost.lost ≠ 0 → .mmap k.frame.lost.from_.1 ∉ rest)

/-- Between two calls nothing is held; a loss that was kept back is forgotten. -/
def SoundPass (c : Config) : Pass Call Unit → Prop
  | .again k => k.Sound c
  | .done k _ => Balanced c k.s [] noLost

theorem unwind_sound {s : Order} {lost : Lost} (h : Balanced c s s.heap lost)
    (hnd : s.heap.Nodup) : Balanced c (s.unwind s.heap) [] noLost :=
  (unwind_balanced h hnd).dropLost rfl

theorem stop_sound {s : Order} {lost : Lost} (reason : BreakReason)
    (h : Balanced c s s.heap lost) (hnd : s.heap.Nodup) :
    Balanced c (s.stop reason) [] noLost :=
  (unwind_balanced (h.congr rfl rfl rfl : Balanced c { s with breakReason := reason } _ _) hnd).dropLost rfl

theorem leave_sound {k : Call} {s : Order} {nb : Bool} (h : Balanced c s s.heap k.frame.lost)
    (hnd : s.heap.Nodup) (hl : k.frame.lost.lost ≠ 0 → .mmap k.frame.lost.from_.1 ∉ s.heap) :
    SoundPass c (leave k s nb) := by
  cases nb with
  | true => exact unwind_sound h hnd
  | false => exact ⟨h, hnd, hl⟩

theorem heap_of_view {s s' : Order} (h : s'.view = s.view) : s'.heap = s.heap :=
  congrArg View.heap h

theorem heapInitPass_sound {k : Call} {todo : List HeapId} (hpc : k.pc = .heapInit todo)
    (h : k.Sound c) : SoundPass c (heapInitPass H k todo) := by
  rw [Call.Sound, hpc] at h
  obtain ⟨hb, hnd, hl⟩ := h
  cases todo with
  | nil =>
    have hperm := H.heapifyAll_perm k.s.time k.s.heap
    rw [List.append_nil] at hnd
    refine ⟨?_, hperm.nodup_iff.mpr hnd, fun h => absurd hl h⟩
    have hb' := (hb.of_mem
      (fun e => hperm.mem_iff)).dropLost hl
    exact hb'.congr rfl rfl rfl
  | cons e todo =>
    have hnd' : (k.s.heap ++ todo).Nodup :=
      hnd.sublist (List.Sublist.append_left (List.sublist_cons_self _ _) _)
    have hni : e ∉ k.s.heap := by
      intro hi
      exact (List.nodup_append.mp hnd).2.2 _ hi _ (List.mem_cons_self ..) rfl
    cases e with
    | mmap i =>
      have hheap : (k.s.tick.updRing i fun _ => (k.s.tick.maps i).map.readInit.1).heap =
          k.s.heap := (tick_rest k.s).2.2
      have hb' : Balanced c (k.s.tick.updRing i fun _ => (k.s.tick.maps i).map.readInit.1)
          k.s.heap noLost := hb.tick.updRing _ hni Sound.readInit
      simp only [heapInitPass, SoundPass, Call.Sound]
      split
      · rename_i heq
        split at heq
        · cases heq
        · cases heq
          rw [hheap]
          exact ⟨hb', hnd', hl⟩
      · rename_i heq
        split at heq
        · cases heq
          rw [hheap]
          exact ⟨hb', hnd, hl⟩
        · cases heq
      all_goals
        rename_i heq
        split at heq <;> cases heq
    | stream j =>
      by_cases hu : (k.s.streams j).unconsumed = true
      · simp only [heapInitPass, hu, if_true, SoundPass, Call.Sound]
        refine ⟨?_, ?_, hl⟩
        · have hb' : Balanced c _ (k.s.heap ++ [.stream j]) _ :=
            hb.takeUnconsumed hni hu (fun e => by simp [or_comm])
          exact hb'.congr rfl rfl rfl
        · show ((k.s.heap ++ [HeapId.stream j]) ++ todo).Nodup
          rw [List.append_assoc]
          exact hnd
      · simp only [heapInitPass, hu, SoundPass, Call.Sound]
        exact ⟨hb, hnd, hl, by simpa using hu⟩

theorem enterHeap_sound {s : Order} {i t : Nat} {r : Record} {w : Bool} {lost : Lost}
    (h : InHand c s s.heap lost i r) (hsm : r.sample? = some t) :
    (s.enterHeap c i r t w lost).heap = s.heap ++ [.mmap i] ∧
      Balanced c (s.enterHeap c i r t w lost) (s.heap ++ [.mmap i]) noLost := by
  have hsome : r.sample?.isSome = true := by rw [hsm, Option.isSome_some]
  have h₁ : Balanced c _ (s.heap ++ [.mmap i]) _ := h.load t w hsome (fun e => by simp [or_comm])
  have hin : HeapId.mmap i ∈ s.heap ++ [HeapId.mmap i] := by simp
  have h₂ : ∀ u : Order, u.heap = s.heap → Balanced c u (s.heap ++ [.mmap i]) lost →
      ((u.reportLost c i lost).setHeap ((u.reportLost c i lost).heap ++ [.mmap i])).heap =
        s.heap ++ [.mmap i] ∧
      Balanced c ((u.reportLost c i lost).setHeap ((u.reportLost c i lost).heap ++ [.mmap i]))
        (s.heap ++ [.mmap i]) noLost := by
    intro u hu hb
    have hheap : (u.reportLost c i lost).heap = s.heap := by
      rw [heap_of_view (view_reportLost c u i lost), hu]
    refine ⟨?_, (hb.reportLost i rfl).congr rfl rfl rfl⟩
    rw [hheap]
    rfl
  simp only [Order.enterHeap]
  split
  · exact h₂ _ rfl (h₁.fixOutOfOrder (h₁.held_sample hin) _)
  · exact h₂ _ rfl h₁

theorem mmapRetry_sound {k : Call} {i : Nat} {lost : Lost} {todo : List HeapId}
    (hpc : k.pc = .mmapRetry i lost todo) (h : k.Sound c) :
    Call.Sound c { k with s := (k.s.mmapRetry c i lost todo).1,
                          pc := (k.s.mmapRetry c i lost todo).2 } := by
  rw [Call.Sound, hpc] at h
  obtain ⟨hb, hnd, hl⟩ := h
  have hnd' : (k.s.heap ++ todo).Nodup :=
    hnd.sublist (List.Sublist.append_left (List.sublist_cons_self _ _) _)
  have hni : HeapId.mmap i ∉ k.s.heap := by
    intro hi
    exact (List.nodup_append.mp hnd).2.2 _ hi _ (List.mem_cons_self ..) rfl
  cases hr : k.s.readNext i with
  | mk s₁ out =>
    cases out with
    | none =>
      obtain ⟨hb₁, hheap⟩ := readNext_none hb hni hr
      simp only [Order.mmapRetry, hr, Call.Sound]
      have hheap' : (s₁.updRing i PerfMmap.readDone).heap = k.s.heap := hheap
      rw [hheap']
      exact ⟨hb₁.dropLost rfl, hnd', hl⟩
    | some p =>
      obtain ⟨r, w⟩ := p
      obtain ⟨hin, hheap⟩ := readNext_some hb hni hr
      cases hk : r.sample? with
      | some t =>
        rw [← hheap] at hin
        obtain ⟨hheap', hb'⟩ := enterHeap_sound (w := w) hin hk
        simp only [Order.mmapRetry, hr, hk, Call.Sound]
        rw [hheap']
        refine ⟨hb', ?_, hl⟩
        rw [hheap, List.append_assoc]
        exact hnd
      | none =>
        have hin' := hin.countLost r
        have hheap' : (s₁.countLost c i r).heap = k.s.heap := by
          rw [heap_of_view (view_countLost c s₁ i r), hheap]
        have hconsume : ∀ u : Order, u.heap = k.s.heap → (u.mmapConsume i).heap = k.s.heap := by
          intro u hu
          rw [heap_of_view (view_mmapConsume u i), hu]
        cases hlf : (s₁.countLost c i r).lostFor c i r with
        | some l =>
          simp only [Order.mmapRetry, hr, hk, hlf, Call.Sound]
          rw [hconsume _ hheap']
          exact ⟨(hin'.keepBack hni hlf).1.mmapConsume hni, hnd, hl⟩
        | none =>
          simp only [Order.mmapRetry, hr, hk, hlf, Call.Sound]
          rw [hconsume ((s₁.countLost c i r).processRecord c i r w) hheap']
          have hp := hin'.process w hni (delivered_of_not_kept hlf) rfl (by simp [hk])
          exact ⟨hp.mmapConsume hni, hnd, hl⟩

theorem lostWait_balanced {s : Order} {L : List HeapId} {lost : Lost} (h : Balanced c s L lost)
    (i : Nat) : Balanced c (s.lostWait c i).1 L lost := by
  simp only [Order.lostWait]
  split
  · split
    · exact h.updMap i (fun e => { e with maybeLostEnd := e.map.end_ - 1, lostPause := false })
        rfl rfl
    · have hm := h.updMap i (fun e => { e with maybeLostEnd := e.map.end_, lostPause := false })
        rfl rfl
      exact hm.congr rfl rfl rfl
  · split
    · split
      · exact h.tick
      · have ht := h.tick.congr rfl rfl rfl
        have hm := ht.updMap i (fun e => { e with lostPause := true }) rfl rfl
        exact hm.congr rfl rfl rfl
    · exact h.tick.updMap i (fun e => { e with lostPause := false }) rfl rfl

theorem topPass_sound {k : Call} (hpc : k.pc = .top) (h : k.Sound c) :
    SoundPass c (topPass c k) := by
  rw [Call.Sound, hpc] at h
  obtain ⟨hb, hnd, hl⟩ := h
  cases hheap : k.s.heap with
  | nil =>
    simp only [topPass, hheap]
    exact stop_sound .empty hb hnd
  | cons e rest =>
    rw [hheap] at hnd hl
    cases e with
    | stream j =>
      simp only [topPass, hheap, SoundPass, Call.Sound]
      rw [hheap] at hb
      let u := k.s.popTime c (.stream j) (k.s.streams j).time (k.s.streams j).event.ins
      have hrest : u.streams = k.s.streams ∧ u.heap = k.s.heap := by
        simp only [u, Order.popTime]
        split <;> split <;> exact ⟨rfl, rfl⟩
      have hbu : Balanced c u (.stream j :: rest) k.frame.lost := hb.popTime _ _ _
      obtain ⟨hbh, hunc⟩ := hbu.handStreamRoot hnd
      refine ⟨rest, hrest.2.trans hheap, ?_, ?_, ?_, hunc⟩
      · rw [hrest.1] at hbh
        exact hbh
      · show u.heap.Nodup
        rw [hrest.2, hheap]
        exact hnd
      · intro h0 hi
        exact hl h0 (List.mem_cons_of_mem _ hi)
    | mmap i =>
      simp only [topPass, hheap]
      by_cases htm : k.frame.targetTime < (k.s.maps i).time
      · rw [if_pos htm]
        exact stop_sound .targetTime hb (hheap ▸ hnd)
      · rw [if_neg htm]
        have hbw := lostWait_balanced hb i
        have hhw := heap_of_view (view_lostWait c k.s i)
        cases hw : k.s.lostWait c i with
        | mk s₁ wait =>
          rw [hw] at hbw hhw
          simp only at hbw hhw
          cases wait with
          | true => exact unwind_sound (by rw [hhw]; exact hbw) (by rw [hhw, hheap]; exact hnd)
          | false =>
            have hpend : pendOf k.frame.lost i = [] := by
              rw [pendOf, if_neg]
              rintro ⟨h0, hi⟩
              apply hl h0
              rw [hi]
              exact List.mem_cons_self ..
            rw [hheap] at hbw
            have hroot : (s₁.processRoot c i).heap = .mmap i :: rest := by
              rw [← hheap, ← hhw]
              simp only [Order.processRoot, Order.popTime]
              split <;> split <;> split <;> rfl
            simp only [SoundPass, Call.Sound]
            refine ⟨rest, hroot, processRoot_balanced hbw hnd hpend, ?_, ?_⟩
            · rw [hroot]
              exact hnd
            · intro h0 hi
              exact hl h0 (List.mem_cons_of_mem _ hi)

theorem consumeTail_balanced {k : Call} {i : Nat} {rest : List HeapId} {lost : Lost} (nb : Bool)
    (h : Balanced c k.s rest lost) (hi : .mmap i ∉ rest) :
    Balanced c (consumeTail c k i nb).1 rest lost := by
  have hd : Balanced c (k.s.consumeDeferred c i) rest lost := by
    simp only [Order.consumeDeferred]
    split
    · exact h.mmapConsume hi
    · exact h
  simp only [consumeTail]
  split
  · exact hd.congr rfl rfl rfl
  · exact hd

theorem consumePass_sound {k : Call} {i : Nat} {nb : Bool} (hpc : k.pc = .consume i nb)
    (h : k.Sound c) : SoundPass c (consumePass c H k i nb) := by
  rw [Call.Sound, hpc] at h
  obtain ⟨rest, hheap, hb, hnd, hl⟩ := h
  rw [hheap] at hnd
  obtain ⟨hni, hnd'⟩ := List.nodup_cons.mp hnd
  have hbt := consumeTail_balanced nb hb hni
  have hht := heap_of_view (view_consumeTail (c := c) k i nb)
  cases htail : consumeTail c k i nb with
  | mk s₁ nb' =>
    rw [htail] at hbt hht
    cases hr : s₁.readNext i with
    | mk s₂ out =>
      cases out with
      | none =>
        obtain ⟨hb₂, hheap₂⟩ := readNext_none hbt hni hr
        let u := s₂.updRing i PerfMmap.readDone
        have hu : u.heap = .mmap i :: rest := by
          rw [← hheap, ← hht]
          exact hheap₂
        have hperm : (H.pop u.time u.heap).Perm rest := by
          rw [hu]
          exact H.pop_perm _ _ _
        simp only [consumePass, htail, hr]
        apply leave_sound
        · exact (hb₂.of_mem (fun e => hperm.mem_iff)).congr rfl rfl rfl
        · exact hperm.nodup_iff.mpr hnd'
        · intro h0 hin
          exact hl h0 (hperm.mem_iff.mp hin)
      | some p =>
        obtain ⟨r, w⟩ := p
        obtain ⟨hin, hheap₂⟩ := readNext_some hbt hni hr
        have hu : s₂.heap = .mmap i :: rest := by
          rw [hheap₂, ← hheap]
          exact hht
        cases hk : r.sample? with
        | some t =>
          have hsome : r.sample?.isSome = true := by rw [hk, Option.isSome_some]
          let u := s₂.loadSample c i r t w
          have hperm : (H.siftDown u.time u.heap).Perm (.mmap i :: rest) := by
            rw [← hu]
            exact H.siftDown_perm _ _
          have hbu : Balanced c u (H.siftDown u.time u.heap) k.frame.lost :=
            hin.load t w hsome (fun e => by rw [hperm.mem_iff, List.mem_cons])
          have hset : Balanced c (u.setHeap (H.siftDown u.time u.heap)) _ _ := hbu.congr rfl rfl rfl
          have hbs : Balanced c _ _ { k.frame.lost with lost := 0 } := hset.reportLost i rfl
          have hhs := heap_of_view (view_reportLost c (u.setHeap (H.siftDown u.time u.heap)) i
            k.frame.lost)
          simp only [consumePass, htail, hr, hk]
          apply leave_sound
          · rw [hhs]
            exact hbs
          · rw [hhs]
            exact hperm.nodup_iff.mpr hnd
          · intro h0
            exact absurd rfl h0
        | none =>
          have hin' := hin.countLost r
          have hu' : (s₂.countLost c i r).heap = .mmap i :: rest := by
            rw [heap_of_view (view_countLost c s₂ i r), hu]
          cases hlf : (s₂.countLost c i r).lostFor c i r with
          | some l =>
            obtain ⟨hbl, hfrom⟩ := hin'.keepBack hni hlf
            simp only [consumePass, htail, hr, hk, hlf, SoundPass, Call.Sound]
            refine ⟨rest, hu', hbl, ?_, ?_⟩
            · rw [hu']
              exact hnd
            · intro _ hl'
              rw [hfrom] at hl'
              exact hni hl'
          | none =>
            have hbp := hin'.process w hni (delivered_of_not_kept hlf) rfl (by simp [hk])
            simp only [consumePass, htail, hr, hk, hlf, SoundPass, Call.Sound]
            refine ⟨rest, hu', hbp, ?_, hl⟩
            show (s₂.countLost c i r).heap.Nodup
            rw [hu']
            exact hnd

theorem streamRetry_sound {k : Call} {j : Nat} {todo : List HeapId}
    (hpc : k.pc = .streamRetry j todo) (h : k.Sound c) : SoundPass c (orderPass c H k) := by
  have hpc' := hpc
  rw [Call.Sound, hpc] at h
  obtain ⟨hb, hnd, hl, hu⟩ := h
  have hni : HeapId.stream j ∉ k.s.heap := by
    intro hi
    exact (List.nodup_append.mp hnd).2.2 _ hi _ (List.mem_cons_self ..) rfl
  obtain ⟨hheap, hspec⟩ := streamInit_spec hb hni hu
  have hnd₀ : k.s.heap.Nodup := (List.nodup_append.mp hnd).1
  cases hs : k.s.streamInit j with
  | mk s₁ out =>
    rw [hs] at hheap hspec
    simp only at hheap
    cases out with
    | none =>
      simp only [orderPass, hpc, hs]
      exact stop_sound .streamStop (by rw [hheap]; exact hspec) (by rw [hheap]; exact hnd₀)
    | some waits =>
      cases waits with
      | false =>
        simp only [orderPass, hpc, hs, SoundPass, Call.Sound]
        rw [hheap]
        exact ⟨hspec.1, hnd, hl, hspec.2⟩
      | true =>
        simp only [orderPass, hpc, hs, SoundPass, Call.Sound]
        have hb' := hspec (s₁.heap ++ [.stream j]) (fun e => by rw [hheap]; simp [or_comm])
        refine ⟨hb'.congr rfl rfl rfl, ?_, hl⟩
        show ((s₁.heap ++ [HeapId.stream j]) ++ todo).Nodup
        rw [hheap, List.append_assoc]
        exact hnd

theorem streamNext_sound {k : Call} {j : Nat} (hpc : k.pc = .streamNext j) (h : k.Sound c) :
    SoundPass c (orderPass c H k) := by
  rw [Call.Sound, hpc] at h
  obtain ⟨rest, hroot, hb, hnd, hl, hu⟩ := h
  rw [hroot] at hnd
  obtain ⟨hni, hnd'⟩ := List.nodup_cons.mp hnd
  obtain ⟨hheap, hspec⟩ := streamInit_spec hb hni hu
  cases hs : k.s.streamInit j with
  | mk s₁ out =>
    rw [hs] at hheap hspec
    simp only at hheap
    cases out with
    | none =>
      have hperm : (H.pop s₁.time s₁.heap).Perm rest := by
        rw [hheap, hroot]
        exact H.pop_perm _ _ _
      simp only [orderPass, hpc, hs]
      refine stop_sound .streamStop (?_ : Balanced c _ _ k.frame.lost) (hperm.nodup_iff.mpr hnd')
      exact (hspec.of_mem (fun e => hperm.mem_iff)).congr rfl rfl rfl
    | some waits =>
      cases waits with
      | false =>
        simp only [orderPass, hpc, hs, SoundPass, Call.Sound]
        refine ⟨rest, hheap.trans hroot, hspec.1, ?_, hl, hspec.2⟩
        rw [hheap, hroot]
        exact hnd
      | true =>
        have hperm : (H.siftDown s₁.time s₁.heap).Perm (.stream j :: rest) := by
          rw [← hroot, ← hheap]
          exact H.siftDown_perm _ _
        simp only [orderPass, hpc, hs, SoundPass, Call.Sound]
        have hb' := hspec (H.siftDown s₁.time s₁.heap)
          (fun e => by rw [hperm.mem_iff, List.mem_cons])
        refine ⟨hb'.congr rfl rfl rfl, hperm.nodup_iff.mpr hnd, ?_⟩
        intro h0 hin
        cases List.mem_cons.mp (hperm.mem_iff.mp hin) with
        | inl h => cases h
        | inr h => exact hl h0 h

theorem orderPass_sound {k : Call} (h : k.Sound c) : SoundPass c (orderPass c H k) := by
  cases hpc : k.pc with
  | heapInit todo =>
    simp only [orderPass, hpc]
    exact heapInitPass_sound hpc h
  | mmapRetry i lost todo =>
    simp only [orderPass, hpc]
    exact mmapRetry_sound hpc h
  | streamRetry j todo => exact streamRetry_sound hpc h
  | top =>
    simp only [orderPass, hpc]
    exact topPass_sound hpc h
  | streamNext j => exact streamNext_sound hpc h
  | consume i nb =>
    simp only [orderPass, hpc]
    exact consumePass_sound hpc h

def Point.Sound (c : Config) : Point → Prop
  | .idle s => Balanced c s [] noLost
  | .inside k => k.Sound c

theorem orderStart_sound {s : Order} (targetMap : Option Nat) (targetTm : Nat)
    (h : Balanced c s [] noLost) : Point.Sound c (orderStart c s targetMap targetTm) := by
  have henter : ∀ (u : Order) (frame : Frame), Balanced c u [] noLost → frame.lost = noLost →
      Point.Sound c
        (.inside ⟨{ u with inprocess := true, heap := [] }, .heapInit c.events, frame⟩) := by
    intro u frame hu hf
    refine ⟨hu.congr rfl rfl rfl, ?_, ?_⟩
    · simpa using c.events_nodup
    · show frame.lost.lost = 0
      rw [hf]
      rfl
  simp only [orderStart]
  split
  · exact h
  · cases targetMap with
    | none => exact henter s _ h rfl
    | some i =>
      have hb : Balanced c (s.tick.updRing i fun _ => (s.tick.maps i).map.readInit.1) [] noLost :=
        h.tick.updRing _ (by simp) Sound.readInit
      simp only
      split
      · split
        · exact hb.tick
        · exact henter _ _ hb.tick rfl
      · exact hb

theorem Boot.balanced {s : Order} (hb : Boot s) : Balanced c s [] noLost := by
  have ht : ∀ i, tally i s.log = ⟨[], [], []⟩ := by
    intro i
    simp [tally, hb.log]
  refine ⟨?_, ?_⟩
  · intro i
    obtain ⟨h1, h2, h3, h4, h5, -⟩ := hb.maps i
    rw [ht, pendOf_zero rfl]
    refine ⟨fun hh => absurd hh (by simp), fun _ => ⟨[], (s.maps i).map.written, ?_⟩⟩
    refine ⟨by simp, by simp [h3, extent], by rw [h2, h3], by simp [h1, extent], by omega, rfl,
      by simp, by simp, by simp⟩
  · intro j
    obtain ⟨hu, htaken⟩ := hb.streams j
    have hlog : streamLog j s.log = [] := by simp [streamLog, hb.log]
    rw [hlog]
    exact ⟨fun hh => absurd hh (by simp), fun _ hf => absurd (hu.symm.trans hf) (by simp),
      fun _ _ => htaken.symm⟩

theorem Reached.sound {s₀ : Order} {p : Point} (hb : Boot s₀) (h : Reached c H s₀ p) :
    p.Sound c := by
  induction h with
  | boot => exact hb.balanced
  | call targetMap targetTm _ ih => exact orderStart_sound targetMap targetTm ih
  | step _ hp ih =>
    have := orderPass_sound (H := H) ih
    rwa [hp] at this
  | ret _ hp ih =>
    have := orderPass_sound (H := H) ih
    rwa [hp] at this

end Run

section Consequences
variable {c : Config} {i : Nat} {m : PerfMmap} {log : List Handed} {hand : List Record}
  {pend : List Nat} {done todo : List Record}

theorem losts_sublist_marks (i : Nat) (log : List Handed) :
    (tally i log).losts.Sublist (tally i log).marks := by
  simp only [tally]
  induction log with
  | nil => exact List.Sublist.refl _
  | cons h log ih =>
    cases hl : h.lostOf i with
    | some q =>
      have hm : h.markOf i = some q := by
        cases h with
        | record _ _ _ _ _ => simp [Handed.lostOf] at hl
        | stream _ _ => simp [Handed.lostOf] at hl
        | lost from_ _ _ _ _ _ _ => exact hl
      rw [List.filterMap_cons_some hl, List.filterMap_cons_some hm]
      exact ih.cons_cons q
    | none =>
      rw [List.filterMap_cons_none hl]
      cases hm : h.markOf i with
      | none =>
        rw [List.filterMap_cons_none hm]
        exact ih
      | some q =>
        rw [List.filterMap_cons_some hm]
        exact ih.cons q

theorem mem_deliveries {q : Nat} {r : Record} :
    (q, r) ∈ deliveries c i done ↔
      ∃ x, (q, x) ∈ offsets 0 done ∧ delivered c i x = true ∧ untimed x = r := by
  simp only [deliveries, List.mem_map, List.mem_filter, Prod.exists, Prod.mk.injEq]
  constructor
  · intro ⟨a, b, ⟨hm, hd⟩, ha, hb⟩
    subst ha
    exact ⟨b, hm, hd, hb⟩
  · intro ⟨x, hm, hd, hu⟩
    exact ⟨q, x, ⟨hm, hd⟩, rfl, hu⟩

theorem deliveries_sorted : ((deliveries c i done).map Prod.fst).Pairwise (· < ·) := by
  have hmap : (deliveries c i done).map Prod.fst =
      ((offsets 0 done).filter fun p => delivered c i p.2).map Prod.fst := by
    simp [deliveries, Function.comp_def]
  rw [hmap]
  exact (offsets_sorted 0 done).sublist (List.filter_sublist.map Prod.fst)

/-- Nothing is handed on twice. -/
theorem Split.nodup (h : Split c i m (tally i log) hand pend done todo) :
    ((tally i log).records.map Prod.fst ++ (tally i log).losts).Nodup := by
  have hmarks : (tally i log).marks.Pairwise (· < ·) :=
    h.sorted.sublist (List.sublist_append_left _ _)
  have hsort : ((tally i log).records.map Prod.fst).Pairwise (· < ·) := by
    rw [h.records]
    exact deliveries_sorted
  have hne : ∀ {a b : Nat}, a < b → a ≠ b := fun h => Nat.ne_of_lt h
  rw [List.nodup_append]
  refine ⟨hsort.imp hne, (hmarks.imp hne).sublist (losts_sublist_marks i log), ?_⟩
  intro q hq q' hq' heq
  subst heq
  obtain ⟨⟨q₁, r⟩, hr, rfl⟩ := List.mem_map.mp hq
  rw [h.records] at hr
  obtain ⟨x, hx, hd, -⟩ := mem_deliveries.mp hr
  obtain ⟨y, hy, hnd⟩ := h.losts q₁ (List.mem_append_left _ hq')
  rw [offsets_unique hx hy, hnd] at hd
  cases hd

/-- A sample that starts before the tail has been processed. -/
theorem Split.sample_done (h : Split c i m (tally i log) hand pend done todo) {q : Nat}
    {r : Record} (hq : (q, r) ∈ offsets 0 m.written) (hsm : r.sample?.isSome = true)
    (ht : q < m.tail) : (q, untimed r) ∈ (tally i log).records := by
  have htail := h.tail
  have hin : (q, r) ∈ offsets 0 done := by
    rw [h.written, List.append_assoc, offsets_append] at hq
    cases List.mem_append.mp hq with
    | inl hq => exact hq
    | inr hq =>
      have := (offsets_bounds hq).1
      omega
  rw [h.records]
  exact mem_deliveries.mpr ⟨r, hin, delivered_of_sample hsm, rfl⟩

theorem Point.Sound.split {p : Point} (h : p.Sound c) (i : Nat) :
    ∃ hand pend done todo,
      Split c i (p.order.maps i).map (tally i p.order.log) hand pend done todo := by
  have hbal : ∀ {s : Order} {L : List HeapId} {lost : Lost}, Balanced c s L lost →
      ∃ hand pend done todo,
        Split c i (s.maps i).map (tally i s.log) hand pend done todo := by
    intro s L lost hb
    by_cases hh : HeapId.mmap i ∈ L
    · obtain ⟨r, ⟨done, todo, hs⟩, -⟩ := (hb.maps i).1 hh
      exact ⟨_, _, done, todo, hs⟩
    · obtain ⟨done, todo, hs⟩ := (hb.maps i).2 hh
      exact ⟨_, _, done, todo, hs⟩
  cases p with
  | idle s => exact hbal h
  | inside k =>
    simp only [Point.Sound, Call.Sound] at h
    cases hpc : k.pc with
    | heapInit todo =>
      rw [hpc] at h
      exact hbal h.1
    | mmapRetry i lost todo =>
      rw [hpc] at h
      exact hbal h.1
    | streamRetry j todo =>
      rw [hpc] at h
      exact hbal h.1
    | top =>
      rw [hpc] at h
      exact hbal h.1
    | streamNext j =>
      rw [hpc] at h
      obtain ⟨rest, -, hb, -⟩ := h
      exact hbal hb
    | consume i nb =>
      rw [hpc] at h
      obtain ⟨rest, -, hb, -⟩ := h
      exact hbal hb

end Consequences

/-- No loss and no duplication in the merge. At every point of every run, of each ring buffer
no record is handed on twice, the records given to `perf_event_process_record` are in
ring order, so are the samples and the losses given to `prof->lost`, and no sample
before the tail is unprocessed. When a call has ended, `prev` is where the records not
yet dealt with begin, and of each stream all that was read has been handed on, except
the one event that it left in the heap. -/
theorem order_process_once (c : Config) (H : MinHeap HeapId) {s₀ : Order} (hb : Boot s₀)
    {p : Point} (h : Reached c H s₀ p) :
    (∀ i, ((tally i p.order.log).records.map Prod.fst ++ (tally i p.order.log).losts).Nodup ∧
      ((tally i p.order.log).records.map Prod.fst).Pairwise (· < ·) ∧
      (tally i p.order.log).marks.Pairwise (· < ·) ∧
      ∀ q r, (q, r) ∈ offsets 0 (p.order.maps i).map.written → r.sample?.isSome = true →
        q < (p.order.maps i).map.tail → (q, untimed r) ∈ (tally i p.order.log).records) ∧
    ∀ s, p = .idle s →
      (∀ i, ∃ done todo, (s.maps i).map.written = done ++ todo ∧
        (s.maps i).map.prev = extent done ∧ (tally i s.log).records = deliveries c i done) ∧
      ∀ j, streamLog j s.log ++
        (if (s.streams j).unconsumed then [(s.streams j).event] else []) = (s.streams j).taken := by
  have hp := h.sound hb
  refine ⟨?_, ?_⟩
  · intro i
    obtain ⟨hand, pend, done, todo, hs⟩ := hp.split i
    refine ⟨hs.nodup, ?_, hs.sorted.sublist (List.sublist_append_left _ _), ?_⟩
    · rw [hs.records]
      exact deliveries_sorted
    · intro q r hq hsm ht
      exact hs.sample_done hq hsm ht
  · intro s hidle
    subst hidle
    refine ⟨?_, ?_⟩
    · intro i
      obtain ⟨done, todo, hs⟩ := (hp.maps i).2 (by simp)
      refine ⟨done, todo, ?_, ?_, hs.records⟩
      · rw [hs.written, List.append_nil]
      · rw [hs.prev, hs.start, List.append_nil]
    · intro j
      have hj := hp.streams j
      cases hu : (s.streams j).unconsumed with
      | true =>
        rw [if_pos rfl]
        exact hj.2.1 (by simp) hu
      | false =>
        rw [if_neg (by simp), List.append_nil]
        exact hj.2.2 (by simp) hu

/-- The positions of what was handed on of ring buffer `i`, in the order of handing on. -/
def handedPositions (i : Nat) (log : List Handed) : List Nat :=
  log.filterMap fun h => match h with
    | .record m pos _ _ _ => if m = i then some pos else none
    | .lost from_ _ _ _ _ _ _ => if from_.1 = i then some from_.2 else none
    | .stream _ _ => none

def firstUnprocessedSample (i : Nat) (s : Order) : Option Nat :=
  ((offsets 0 (s.maps i).map.written).find? fun p =>
    p.2.sample?.isSome && !(tally i s.log).records.contains (p.1, untimed p.2)).map Prod.fst

def lossThenThrottle : Order :=
  freshOrder (fun i => if i = 0 then [record (.sample 30), record (.lost 1 2), record (.other 5),
    record (.sample 40)] else []) []

/-- Four records of ring buffer 0, one of them a loss. -/
theorem order_process_once_four_records :
    ∃ s : Order, handedPositions 0 s.log = [0, 32, 16, 48] ∧
      ((tally 0 s.log).records.map Prod.fst ++ (tally 0 s.log).losts).Nodup := by
  obtain ⟨s, hr, hpos⟩ := Reached.firstCall (c := twoMaps) (H := sorted) (s := lossThenThrottle)
    (f := fun s => handedPositions 0 s.log) (x := [0, 32, 16, 48]) rfl 40 (by decide +kernel)
  have hsize : ∀ i, extent (if i = 0 then [record (.sample 30), record (.lost 1 2),
      record (.other 5), record (.sample 40)] else []) ≤ 4096 := by
    intro i
    by_cases hi : i = 0
    · simp [hi, extent, record]
    · simp [hi, extent]
  exact ⟨s, hpos, ((order_process_once twoMaps sorted (freshOrder_boot _ [] hsize) hr).1 0).1⟩

/-- A loss followed by a throttle record and a sample: the loss is handed on after the throttle
record. And a throttle record that comes after the ring buffer ran empty: the call ends
with `prev` before it, not before the next sample. -/
theorem order_process_not_in_ring_order :
    ¬ (∀ s, Reached twoMaps sorted lossThenThrottle (.idle s) →
      (handedPositions 0 s.log).Pairwise (· < ·)) ∧
    ¬ (∀ s, Reached twoMaps sorted
        (freshOrder (fun i => if i = 0 then [record (.sample 30)] else [record (.sample 40)])
          [[], [], [], [], [], [], [(0, record (.other 5)), (0, record (.sample 50))]]) (.idle s) →
      ∀ q, firstUnprocessedSample 0 s = some q → (s.maps 0).map.prev = q) := by
  refine ⟨?_, ?_⟩
  · intro hall
    obtain ⟨s, hr, hpos⟩ := Reached.firstCall (c := twoMaps) (H := sorted) (s := lossThenThrottle)
      (f := fun s => handedPositions 0 s.log) (x := [0, 32, 16, 48]) rfl 40 (by decide +kernel)
    have := hall s hr
    rw [hpos] at this
    revert this
    decide
  · intro hall
    obtain ⟨s, hr, hpos⟩ := Reached.firstCall (c := twoMaps) (H := sorted)
      (s := freshOrder (fun i => if i = 0 then [record (.sample 30)] else [record (.sample 40)])
          [[], [], [], [], [], [], [(0, record (.other 5)), (0, record (.sample 50))]])
      (f := fun s => ((s.maps 0).map.prev, firstUnprocessedSample 0 s)) (x := (16, some 32)) rfl 40
      (by decide +kernel)
    obtain ⟨hprev, hfirst⟩ := Prod.mk.inj hpos
    have := hall s hr 32 hfirst
    omega

end PerfProf.OrderProcess
