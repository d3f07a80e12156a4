import PerfProf.Matching
import PerfProf.Retain

/-! The windows of --detail: what `class->two` can reach with the iterator it is given. The
timeline is a line of `Retain`, whose windows start at the events backed up or pending. -/
namespace PerfProf.MultiTrace
variable {ρ : Type*}
open Retain

section Iterators

/-- `struct event_iter`; `start` is `iter.start` with the nodes `rb_next` goes to from there. -/
structure EventIter where
  start : List Node
  event1 : Node
  event2 : Node

def Node.place (n : Node) : Place := ⟨n.time, n.key, n.seq⟩

/-- `iter.start` of the window of `prev`, whose key is `key`: `rblist__find_first` from
`prev->time - before_event1` on, a subtraction in `u64`, or `prev` itself. -/
def Trace.iterStart (c : Config ρ) (s : Trace) (prev : Node) (key : Nat) : List Node :=
  if c.beforeEvent1 ≠ 0 then
    s.timeline.dropWhile fun n => decide (Before n.place
      ⟨(prev.time + 2 ^ 64 - c.beforeEvent1) % 2 ^ 64, key, 0⟩)
  else s.timeline.dropWhile fun n => decide (n.seq ≠ prev.seq)

/-- The iterator with which `multi_trace_tryto_call_two` calls the class. -/
def Trace.twoIter (c : Config ρ) (s : Trace) (tl : Node) : List EventIter :=
  if tl.needFindPrev then
    match s.findPrev tl.key tl.tp1 with
    | some prev =>
      if c.objectFind prev.tp (some tl.tp) && prev.time < tl.time then
        [⟨s.iterStart c prev tl.key, prev, tl⟩] else []
    | none => []
  else []

def Trace.handleIters (c : Config ρ) (s : Trace) (tl : Node) : List EventIter :=
  let (s, tl) := s.eventLost c tl
  s.twoIter c tl

def Trace.pendingIters (c : Config ρ) (tail : Node) : Nat → Trace → Bool → List EventIter
  | 0, _, _ => []
  | fuel+1, s, needFree => match s.firstPending c (some tail) with
    | none => []
    | some (first, s) =>
      s.handleIters c first ++
        pendingIters c tail fuel (s.handle c first needFree).1 (s.handle c first needFree).2

/-- The iterators of the calls that one `multi_trace_sample` makes. -/
def Trace.sampleIters (c : Config ρ) (s : Trace) (ev : Event ρ) : List EventIter :=
  match findTp ev.evsel 0 c.tpList with
  | none => []
  | some (ref, tp, tp1) =>
    let current := mkNode c ref tp tp1 ev s.eventHandled
    let s := s.tick ev.time
    if s.timeline.isEmpty && current.unneeded && c.beforeEvent1 = 0 && c.afterEvent2 = 0 then []
    else match s.timelineAdd current tp.untraced with
      | none => []
      | some s => s.pendingIters c current s.pendingList.length current.unneeded

/-- The nodes of the events that have been delivered; `seq` is the number of the first. -/
def Config.nodes (c : Config ρ) : Nat → List (Event ρ) → List Node
  | _, [] => []
  | seq, ev :: rest => match findTp ev.evsel 0 c.tpList with
    | none => c.nodes seq rest
    | some (ref, tp, tp1) => mkNode c ref tp tp1 ev seq :: c.nodes (seq+1) rest

end Iterators

section Calls
variable {c : Config ρ} {s : Trace}

/-- The pairs among the calls that come with an iterator. -/
def fullPairs (calls : List ClassCall) : List (Node × Option Node) :=
  (pairsOf calls).filter fun p => p.2.isSome

def iterPairs (is : List EventIter) : List (Node × Option Node) :=
  is.map fun i => (i.event1, some i.event2)

theorem Spares.fullPairs {s' : Trace} (h : Spares s s') :
    fullPairs s'.calls = fullPairs s.calls := by
  rw [MultiTrace.fullPairs, h.pairs, MultiTrace.fullPairs]

theorem fullPairs_append (calls : List ClassCall) (a : Node) (ob : Option Node) (k t : Nat) :
    fullPairs (calls ++ [.two a ob k t]) =
      fullPairs calls ++ if ob.isSome then [(a, ob)] else [] := by
  rw [fullPairs, pairsOf_append_two, List.filter_append]
  congr 1
  cases ob <;> rfl

theorem twoIter_pairs (s : Trace) (tl : Node) (needFree : Bool) :
    fullPairs (s.tryCallTwo c tl needFree).1.calls =
      fullPairs s.calls ++ iterPairs (s.twoIter c tl) := by
  unfold Trace.tryCallTwo Trace.twoIter
  by_cases hf : tl.needFindPrev = true
  · rw [if_pos hf, if_pos hf]
    cases s.findPrev tl.key tl.tp1 with
    | none =>
      dsimp only
      split
      · rw [fullPairs_append]
        rfl
      · exact (List.append_nil _).symm
    | some prev =>
      have hfst : ∀ u : Trace, fullPairs (if tl.needRemoveFromBackup = true then
          (u.backupRemove c prev, true) else (u, needFree)).1.calls = fullPairs u.calls := by
        intro u
        split
        · exact (keeps_backupRemove c u prev).spares.fullPairs
        · rfl
      dsimp only
      rw [hfst]
      split
      · rw [fullPairs_append]
        rfl
      · exact (List.append_nil _).symm
  · rw [if_neg hf, if_neg hf]
    exact (List.append_nil _).symm

theorem eventLost_fullPairs (c : Config ρ) (s : Trace) (tl : Node) :
    fullPairs (s.eventLost c tl).1.calls = fullPairs s.calls := by
  have hm := (matching_eventLost (c := c) s tl).1
  have hp := congrArg Matching.pairs hm
  exact congrArg (List.filter fun p => p.2.isSome) hp

theorem handleIters_pairs (s : Trace) (tl : Node) (needFree : Bool) :
    fullPairs (s.handle c tl needFree).1.calls =
      fullPairs s.calls ++ iterPairs (s.handleIters c tl) := by
  unfold Trace.handle Trace.handleIters
  dsimp only
  rw [← eventLost_fullPairs c s tl, ← twoIter_pairs (s.eventLost c tl).1 (s.eventLost c tl).2 needFree]
  obtain ⟨s₁, hk, hor⟩ := tryBackup_cases c
    ((s.eventLost c tl).1.tryCallTwo c (s.eventLost c tl).2 needFree).1 (s.eventLost c tl).2
    ((s.eventLost c tl).1.tryCallTwo c (s.eventLost c tl).2 needFree).2
  rcases hor with hor | ⟨-, hor⟩
  · rw [hor]
    exact hk.spares.fullPairs
  · rw [hor, (backupInsert_spec c s₁ _).2.spares.fullPairs]
    exact hk.spares.fullPairs

theorem pendingIters_pairs (tail : Node) (fuel : Nat) (s : Trace) (needFree : Bool) :
    fullPairs (Trace.pendingLoop c tail fuel s needFree).1.calls =
      fullPairs s.calls ++ iterPairs (Trace.pendingIters c tail fuel s needFree) := by
  induction fuel generalizing s needFree with
  | zero => exact (List.append_nil _).symm
  | succ fuel ih =>
    unfold Trace.pendingLoop Trace.pendingIters
    cases hf : s.firstPending c (some tail) with
    | none => exact (List.append_nil _).symm
    | some p =>
      obtain ⟨first, s₁⟩ := p
      dsimp only
      rw [ih, handleIters_pairs, (keeps_firstPending hf).spares.fullPairs, List.append_assoc,
        iterPairs, iterPairs, iterPairs, List.map_append]

/-- With the timeline, `class->two` gets an iterator exactly for the pairs of `sampleIters`. -/
theorem sampleIters_pairs (hc : c.needTimeline = true) (s : Trace) (ev : Event ρ) :
    fullPairs (s.sample c ev).calls = fullPairs s.calls ++ iterPairs (s.sampleIters c ev) := by
  unfold Trace.sampleIters
  cases hfind : findTp ev.evsel 0 c.tpList with
  | none =>
    rw [sample_not_found hfind]
    exact (List.append_nil _).symm
  | some found =>
    obtain ⟨ref, tp, tp1⟩ := found
    rw [sample_found hfind, if_pos hc]
    unfold Trace.sampleTimeline
    dsimp only
    split
    · exact (List.append_nil _).symm
    · cases hadd : (s.tick ev.time).timelineAdd (mkNode c ref tp tp1 ev s.eventHandled)
        tp.untraced with
      | none => exact (List.append_nil _).symm
      | some s₁ =>
        have hcalls : fullPairs s₁.calls = fullPairs s.calls :=
          (timelineAdd_cases hadd).1.spares.fullPairs
        have hloop := pendingIters_pairs (c := c) (mkNode c ref tp tp1 ev s.eventHandled)
          s₁.pendingList.length s₁ (mkNode c ref tp tp1 ev s.eventHandled).unneeded
        rw [hcalls] at hloop
        dsimp only
        split
        · rw [(keeps_timelineFreeUnneeded c _).spares.fullPairs]
          exact hloop
        · exact hloop

end Calls

section Places
variable {c : Config ρ} {s : Trace}

def Trace.line (s : Trace) : List Place := s.timeline.map Node.place

/-- What a window may start from. -/
def Trace.wait (s : Trace) : List Place := (s.backup ++ s.pendingList).map Node.place

theorem setUnneeded_line (s : Trace) (b : Node) : (s.setUnneeded b).line = s.line := by
  show (s.timeline.map (Trace.markUnneeded b.seq)).map Node.place = s.timeline.map Node.place
  rw [List.map_map]
  apply List.map_congr_left
  intro n _
  simp only [Function.comp_apply, Trace.markUnneeded]
  split <;> rfl

theorem backupRemove_line (c : Config ρ) (s : Trace) (b : Node) :
    (s.backupRemove c b).line = s.line := by
  unfold Trace.backupRemove Trace.backupNodeDelete
  split
  · exact setUnneeded_line _ b
  · rfl

theorem tryCallTwo_line (s : Trace) (tl : Node) (needFree : Bool) :
    (s.tryCallTwo c tl needFree).1.line = s.line := by
  unfold Trace.tryCallTwo
  split
  · split
    · dsimp only
      split
      · rw [backupRemove_line]
        split <;> rfl
      · split <;> rfl
    · split <;> rfl
  · rfl

theorem tryBackup_line (s : Trace) (tl : Node) (needFree : Bool) :
    (s.tryBackup c tl needFree).1.line = s.line := by
  have hretry : ∀ (fuel : Nat) (s : Trace) (nf : Bool),
      (Trace.backupRetry c fuel s tl nf).1.line = s.line := by
    intro fuel
    induction fuel with
    | zero => exact fun s nf => rfl
    | succ fuel ih =>
      intro s nf
      unfold Trace.backupRetry
      split
      · split
        · exact setUnneeded_line s tl
        · rw [ih]
          exact backupRemove_line c s _
      · unfold Trace.backupInsert
        dsimp only
        split <;> rfl
  unfold Trace.tryBackup
  split
  · exact hretry _ s needFree
  · rfl

theorem firstPending_line {s' : Trace} {tail : Option Node} {first : Node}
    (hf : s.firstPending c tail = some (first, s')) : s'.line = s.line := by
  obtain ⟨p, rest, -, -, rfl⟩ := firstPending_cases hf
  split
  · rfl
  · exact setUnneeded_line _ p

/-- Without lost records an event only leaves the tree or comes to stand in it itself. -/
theorem handle_lossless {tl : Node} (hq : ∀ ins, s.windowsOf c ins = []) (needFree : Bool) :
    (s.handle c tl needFree).1.line = s.line ∧
    (∀ b ∈ (s.handle c tl needFree).1.backup, b ∈ s.backup ∨ b = tl) ∧
    ∀ ins, (s.handle c tl needFree).1.windowsOf c ins = [] := by
  have hspec := handle_spec c s tl needFree
  refine ⟨?_, ?_, ?_⟩
  · unfold Trace.handle
    rw [eventLost_none (hq tl.ins)]
    dsimp only
    rw [tryBackup_line, tryCallTwo_line]
    rfl
  · unfold Trace.handle
    rw [eventLost_none (hq tl.ins)]
    dsimp only
    obtain ⟨s', hs'⟩ : ∃ s', { s with handledTime := tl.time } = s' := ⟨_, rfl⟩
    have hb' : s'.backup = s.backup := by rw [← hs']
    rw [hs', ← hb']
    obtain ⟨calls, hk, -⟩ := tryCallTwo_cases c s' tl needFree
    obtain ⟨s₁, hk₁, hor⟩ := tryBackup_cases c (s'.tryCallTwo c tl needFree).1 tl
      (s'.tryCallTwo c tl needFree).2
    have hsub : ∀ b ∈ s₁.backup, b ∈ s'.backup := fun b hb => hk.backup.subset (hk₁.backup.subset hb)
    rcases hor with hor | ⟨-, hor⟩
    · rw [hor]
      exact fun b hb => Or.inl (hsub b hb)
    · rw [hor, (backupInsert_spec c s₁ tl).1]
      intro b hb
      exact (mem_insertBy.mp hb).elim Or.inr fun hb => Or.inl (hsub b hb)
  · intro ins
    by_cases ha : c.affects ins tl
    · rw [hspec.own ins ha, hq]
      rfl
    · rw [hspec.other ins ha, hq]

theorem timelineAdd_line {s' : Trace} {e : Node} {untraced : Bool}
    (h : s.timelineAdd e untraced = some s') :
    ∃ m, m.place = e.place ∧ s'.timeline = insertBy timelineBefore m s.timeline := by
  unfold Trace.timelineAdd at h
  split at h
  · cases h
  · cases h
    cases untraced with
    | true =>
      refine ⟨e, rfl, ?_⟩
      simp only [if_true]
      split <;> rfl
    | false =>
      exact ⟨{ e with unneeded := false }, rfl, rfl⟩

theorem timelineBefore_place (x y : Node) : timelineBefore x y = decide (Before x.place y.place) := by
  rw [Bool.eq_iff_iff, decide_eq_true_iff]
  simp [timelineBefore, Before, Node.place]

theorem insertBy_before {e : Node} {T : List Node} (hs : (T.map Node.place).Pairwise Before)
    (hq : ∀ n ∈ T, n.seq ≠ e.seq) :
    ((insertBy timelineBefore e T).map Node.place).Pairwise Before := by
  induction T with
  | nil => exact List.pairwise_singleton _ _
  | cons b T ih =>
    rw [List.map_cons, List.pairwise_cons] at hs
    have htail := ih hs.2 fun n hn => hq n (List.mem_cons_of_mem _ hn)
    by_cases hb : timelineBefore b e = true
    · rw [insertBy, if_pos hb, List.map_cons, List.pairwise_cons]
      refine ⟨?_, htail⟩
      intro p hp
      obtain ⟨n, hn, rfl⟩ := List.mem_map.mp hp
      cases mem_insertBy.mp hn with
      | inl hne =>
        rw [hne]
        rw [timelineBefore_place] at hb
        exact of_decide_eq_true hb
      | inr hn => exact hs.1 _ (List.mem_map_of_mem hn)
    · have heb : Before e.place b.place := by
        have htot := timelineBefore_total (hq b (List.mem_cons_self ..))
        have := htot.resolve_left hb
        rw [timelineBefore_place] at this
        exact of_decide_eq_true this
      rw [insertBy, if_neg hb, List.map_cons, List.map_cons, List.pairwise_cons, List.pairwise_cons]
      refine ⟨?_, hs⟩
      intro p hp
      cases List.mem_cons.mp hp with
      | inl hpb => exact hpb ▸ heb
      | inr hp => exact heb.trans (hs.1 p hp)

end Places

section Freeing
variable {c : Config ρ} {s : Trace} {now : Nat}

/-- What `timeline_free_unneeded` takes from the front. -/
theorem Line.freeLoop_split (h : Line s [] now) {limit : Nat}
    (hlim : ∀ n ∈ s.timeline, n.unneeded = false → limit ≤ n.time) (fuel : Nat) :
    ∃ gone, s.timeline = gone ++ (Trace.freeLoop c limit fuel s).timeline ∧
      ∀ x ∈ gone, x.unneeded = true ∧ (limit = 0 ∨ x.time < limit) := by
  induction fuel generalizing s with
  | zero => exact ⟨[], rfl, nofun⟩
  | succ fuel ih =>
    unfold Trace.freeLoop
    split
    · exact ⟨[], rfl, nofun⟩
    · rename_i tl T hT
      split
      · rename_i hold
        have hmem : tl ∈ s.timeline := by
          rw [hT]
          exact List.mem_cons_self ..
        have hu : tl.unneeded = true := by
          cases hold with
          | inl hold => exact hold.2
          | inr hold =>
            by_contra hf
            exact absurd (hlim tl hmem (Bool.eq_false_iff.mpr hf)) (by omega)
        obtain ⟨h₁, hT₁, -⟩ := h.removeFirst hT hu
        obtain ⟨gone, hg, hall⟩ := ih h₁ (by
          intro n hn
          rw [hT₁] at hn
          exact hlim n (hT ▸ List.mem_cons_of_mem _ hn))
        rw [Trace.freeNode, if_pos hu]
        refine ⟨tl :: gone, ?_, ?_⟩
        · rw [hT, List.cons_append, ← hg, hT₁]
        · intro x hx
          cases List.mem_cons.mp hx with
          | inl hxt =>
            rw [hxt]
            exact ⟨hu, hold.imp_left And.left⟩
          | inr hx => exact hall x hx
      · exact ⟨[], rfl, nofun⟩

/-- With `before_event1`, the limit is that far before every event a window may start from. -/
theorem Line.limit_window (h : Line s [] now) (hb : c.beforeEvent1 ≠ 0)
    (hlate : ∀ n ∈ s.timeline, c.beforeEvent1 < n.time) (hne : s.timeline ≠ []) :
    s.unneededBefore c ≠ 0 ∧ s.unneededBefore c + c.beforeEvent1 ≤ now ∧
      ∀ y ∈ s.backup ++ s.pendingList, s.unneededBefore c + c.beforeEvent1 ≤ y.time := by
  have hchain := h.ok.chain
  have honLine := h.ok.onLine
  simp only [Trace.chain, List.append_nil] at hchain honLine
  -- the node the limit is computed from is on the line and before all that wait
  have hfirst : ∀ f : Node, (∃ n ∈ s.timeline, n.time = f.time) →
      (∀ y ∈ s.neededList ++ s.pendingList, f.time ≤ y.time) →
      s.unneededBefore c = (if c.beforeEvent1 < f.time then f.time - c.beforeEvent1 else 0) →
      s.unneededBefore c ≠ 0 ∧ s.unneededBefore c + c.beforeEvent1 ≤ now ∧
        ∀ y ∈ s.backup ++ s.pendingList, s.unneededBefore c + c.beforeEvent1 ≤ y.time := by
    intro f hf hle heq
    obtain ⟨n, hn, hnt⟩ := hf
    have hlt := hlate n hn
    have hnow := h.bound n hn
    rw [if_pos (by omega)] at heq
    refine ⟨by omega, by omega, ?_⟩
    intro y hy
    have := hle y ((h.backup.append_right _).mem_iff.mp hy)
    omega
  have hhead : ∀ y rest, s.neededList ++ s.pendingList = y :: rest →
      (∃ n ∈ s.timeline, n.time = y.time) ∧
        ∀ z ∈ s.neededList ++ s.pendingList, y.time ≤ z.time := by
    intro y rest hy
    rw [hy] at hchain
    obtain ⟨n, hn, -, ht, -⟩ := honLine y (hy ▸ List.mem_cons_self ..)
    refine ⟨⟨n, hn, ht⟩, ?_⟩
    intro z hz
    rw [hy] at hz
    cases List.mem_cons.mp hz with
    | inl hzy => rw [hzy]
    | inr hz => exact (List.pairwise_cons.mp hchain).1 z hz
  cases hnl : s.neededList with
  | cons y rest =>
    obtain ⟨hon, hle⟩ := hhead y (rest ++ s.pendingList) (by rw [hnl]; rfl)
    refine hfirst y hon hle ?_
    simp only [Trace.unneededBefore, if_pos hb, hnl, List.head?_cons]
  | nil =>
    cases hpl : s.pendingList with
    | cons y rest =>
      obtain ⟨hon, hle⟩ := hhead y rest (by rw [hnl, hpl]; rfl)
      rw [← hpl]
      refine hfirst y hon hle ?_
      simp only [Trace.unneededBefore, if_pos hb, hnl, hpl, List.head?_nil, List.head?_cons]
    | nil =>
      rw [← hpl]
      refine hfirst (s.timeline.getLast hne) ⟨_, List.getLast_mem hne, rfl⟩ ?_ ?_
      · rw [hnl, hpl]
        simp
      · simp only [Trace.unneededBefore, if_pos hb, hnl, hpl, List.head?_nil,
          List.getLast?_eq_some_getLast hne]

end Freeing

section Windows
variable {c : Config ρ} {s s' : Trace} {seen : List Node} {now : Nat} {i : EventIter}

/-- The state after the events `seen`, none of which a lost record concerns. -/
structure Detailed (c : Config ρ) (s : Trace) (seen : List Node) (now : Nat) : Prop where
  line : Line s [] now
  quiet : ∀ ins, s.windowsOf c ins = []
  scene : Scene c.beforeEvent1 s.line s.wait (seen.map Node.place) now
  fresh : ∀ x ∈ seen, x.seq < s.eventHandled

/-- The window of the iterator holds what it is asked for, and it comes late enough. -/
structure EventIter.Complete (c : Config ρ) (seen : List Node) (i : EventIter) : Prop where
  reached : ∀ x ∈ seen, x.time ≤ i.event2.time →
    Asked c.beforeEvent1 i.event1.place x.place → x.place ∈ i.start.map Node.place
  after : c.afterEvent2 ≠ 0 → ∃ n ∈ seen, i.event2.time + c.afterEvent2 ≤ n.time

theorem Detailed.init (c : Config ρ) : Detailed c Trace.init [] 0 := by
  refine ⟨Line.init, ?_, Scene.empty _, nofun⟩
  intro ins
  unfold Trace.windowsOf
  split <;> rfl

/-- A waiting event is on the timeline, as a node that is not unneeded. -/
theorem Line.waiting_node (h : Line s [] now) {y : Node} (hy : y ∈ s.backup ++ s.pendingList)
    (hp : y.place ∈ s.line) :
    ∃ n ∈ s.timeline, n.place = y.place ∧ n.unneeded = false := by
  obtain ⟨n, hn, hplace⟩ := List.mem_map.mp hp
  refine ⟨n, hn, hplace, (h.ok.flag n hn).mpr ?_⟩
  have hseq : n.seq = y.seq := congrArg Place.seq hplace
  have hy' : y ∈ s.chain [] := by
    simp only [Trace.chain, List.append_nil]
    exact (h.backup.append_right _).mem_iff.mp hy
  exact hseq ▸ List.mem_map_of_mem hy'

theorem Detailed.times (h : Detailed c s seen now)
    (hlate : c.beforeEvent1 ≠ 0 → ∀ x ∈ seen, c.beforeEvent1 < x.time)
    (hb : c.beforeEvent1 ≠ 0) : ∀ n ∈ s.timeline, c.beforeEvent1 < n.time := by
  intro n hn
  obtain ⟨x, hx, hplace⟩ := List.mem_map.mp (h.scene.known _ (List.mem_map_of_mem hn))
  have ht : x.time = n.time := congrArg Place.time hplace
  exact ht ▸ hlate hb x hx

theorem Detailed.free (h : Detailed c s seen now)
    (hlate : c.beforeEvent1 ≠ 0 → ∀ x ∈ seen, c.beforeEvent1 < x.time) :
    Detailed c (s.timelineFreeUnneeded c) seen now := by
  obtain ⟨hline, hframe⟩ := h.line.timelineFreeUnneeded (c := c)
  obtain ⟨gone, hgone, hall⟩ := h.line.freeLoop_split (c := c)
    (fun _ hn hu => h.line.unneededBefore_le hn hu) s.timeline.length
  have hkeeps := keeps_timelineFreeUnneeded c s
  have hwait : (s.timelineFreeUnneeded c).wait = s.wait := by
    simp only [Trace.wait, hframe.backup, hframe.pendingList]
  have hsplit : s.line = gone.map Node.place ++ (s.timelineFreeUnneeded c).line := by
    show s.timeline.map Node.place = _
    rw [hgone, List.map_append]
    rfl
  refine ⟨hline, ?_, ?_, ?_⟩
  · intro ins
    rw [hkeeps.spares.windowsOf]
    exact h.quiet ins
  · rw [hwait]
    refine Scene.free (hsplit ▸ h.scene) ?_ ?_
    · intro p hp
      obtain ⟨y, hy, rfl⟩ := List.mem_map.mp hp
      obtain ⟨n, hn, hplace, hu⟩ := h.line.waiting_node hy (h.scene.waits _ hp)
      rw [← hplace]
      rw [hgone] at hn
      cases List.mem_append.mp hn with
      | inl hn =>
        rw [(hall n hn).1] at hu
        cases hu
      | inr hn => exact List.mem_map_of_mem hn
    · by_cases hb : c.beforeEvent1 = 0
      · exact Or.inl hb
      · right
        intro p hp
        obtain ⟨x, hx, rfl⟩ := List.mem_map.mp hp
        have hne : s.timeline ≠ [] := by
          rw [hgone]
          intro he
          rw [(List.append_eq_nil_iff.mp he).1] at hx
          cases hx
        obtain ⟨hpos, hnow, hwin⟩ := h.line.limit_window hb (h.times hlate hb) hne
        have hlt := (hall x hx).2.resolve_left hpos
        refine ⟨?_, Nat.lt_of_lt_of_le (Nat.add_lt_add_right hlt _) hnow⟩
        intro q hq
        obtain ⟨y, hy, rfl⟩ := List.mem_map.mp hq
        exact Nat.lt_of_lt_of_le (Nat.add_lt_add_right hlt _) (hwin y hy)
  · intro x hx
    rw [hframe.eventHandled]
    exact h.fresh x hx

theorem dropWhile_seq {T : List Node} {a : Node}
    (h : ∀ n ∈ T, n.seq = a.seq ↔ n.place = a.place) :
    (T.dropWhile fun n => decide (n.seq ≠ a.seq)).map Node.place =
      (T.map Node.place).dropWhile fun p => decide (p ≠ a.place) := by
  induction T with
  | nil => rfl
  | cons n T ih =>
    have hn := h n (List.mem_cons_self ..)
    by_cases hs : n.seq = a.seq
    · rw [List.dropWhile_cons_of_neg (by simp [hs]), List.map_cons,
        List.dropWhile_cons_of_neg (by simp [hn.mp hs])]
    · have hp : n.place ≠ a.place := fun he => hs (hn.mpr he)
      rw [List.dropWhile_cons_of_pos (by simp [hs]), List.map_cons,
        List.dropWhile_cons_of_pos (by simp [hp])]
      exact ih fun m hm => h m (List.mem_cons_of_mem _ hm)

/-- What the class can reach from `iter.start`. -/
theorem iterStart_reached {prev x : Node}
    (h : Scene c.beforeEvent1 s.line s.wait (seen.map Node.place) now)
    (hnd : (s.timeline.map Node.seq).Nodup) (hnow : now < 2 ^ 64)
    (hlate : c.beforeEvent1 ≠ 0 → ∀ x ∈ seen, c.beforeEvent1 < x.time) (hprev : prev ∈ s.backup)
    (hx : x ∈ seen) (hask : Asked c.beforeEvent1 prev.place x.place) :
    x.place ∈ (s.iterStart c prev prev.key).map Node.place := by
  have hwait : prev.place ∈ s.wait := List.mem_map_of_mem (List.mem_append_left _ hprev)
  have hxp : x.place ∈ seen.map Node.place := List.mem_map_of_mem hx
  have hon := h.waits _ hwait
  unfold Trace.iterStart
  by_cases hb : c.beforeEvent1 = 0
  · rw [if_neg (fun hne => hne hb)]
    rw [hb] at h hask
    rw [dropWhile_seq]
    · exact h.reached hwait hxp hask
    · intro n hn
      refine ⟨fun hs => ?_, fun hp => congrArg Place.seq hp⟩
      obtain ⟨m, hm, hmp⟩ := List.mem_map.mp hon
      have hms : m.seq = n.seq := (congrArg Place.seq hmp : m.seq = prev.seq).trans hs.symm
      rw [← List.inj_on_of_nodup_map hnd hm hn hms]
      exact hmp
  · rw [if_pos hb]
    obtain ⟨y, hy, hyp⟩ := List.mem_map.mp (h.known _ hon)
    have hyt : y.time = prev.time := congrArg Place.time hyp
    have hlt : c.beforeEvent1 < prev.time := hyt ▸ hlate hb y hy
    have hle : prev.time ≤ now := hyt ▸ h.past _ (List.mem_map_of_mem hy)
    have hsub : (prev.time + 2 ^ 64 - c.beforeEvent1) % 2 ^ 64 = prev.time - c.beforeEvent1 := by
      omega
    rw [hsub]
    have hmem := h.reached_back hb (Nat.le_of_lt hlt) hwait hxp hask
    rw [Trace.line, List.dropWhile_map] at hmem
    exact hmem

theorem twoIter_cases {tl : Node} (hi : i ∈ s.twoIter c tl) :
    ∃ prev ∈ s.backup, prev.key = tl.key ∧ i = ⟨s.iterStart c prev tl.key, prev, tl⟩ := by
  unfold Trace.twoIter at hi
  split at hi
  · split at hi
    · rename_i prev hprev
      split at hi
      · refine ⟨prev, findPrev_mem hprev, ?_, List.mem_singleton.mp hi⟩
        have hkey := List.find?_some hprev
        simp only [Bool.and_eq_true, decide_eq_true_eq] at hkey
        exact hkey.1
      · cases hi
    · cases hi
  · cases hi

theorem firstPending_deadline {tail : Option Node} {first : Node}
    (hf : s.firstPending c tail = some (first, s')) : first.time ≤ Trace.deadline c tail := by
  unfold Trace.firstPending at hf
  split at hf
  · cases hf
  · dsimp only at hf
    split at hf
    · rename_i hle
      split at hf
      · cases hf
        exact hle
      · cases hf
        exact hle
    · cases hf

/-- Taking the first pending event changes nothing a window sees. -/
theorem Detailed.firstPending_scene (h : Detailed c s seen now) {tail : Option Node} {first : Node}
    (hf : s.firstPending c tail = some (first, s')) :
    first.place ∈ s.wait ∧
      Scene c.beforeEvent1 s'.line s'.wait (seen.map Node.place) now := by
  have hkeeps := keeps_firstPending hf
  have hline := firstPending_line hf
  obtain ⟨p, rest, hp, hfirst, -⟩ := firstPending_cases hf
  refine ⟨?_, hline ▸ h.scene.settle ?_⟩
  · rw [hfirst]
    refine List.mem_map.mpr ⟨p, List.mem_append_right _ ?_, rfl⟩
    rw [hp]
    exact List.mem_cons_self ..
  · intro y hy
    obtain ⟨b, hb, rfl⟩ := List.mem_map.mp hy
    exact List.mem_map_of_mem ((hkeeps.backup.append hkeeps.pendingList).subset hb)

theorem Detailed.handle (h : Detailed c s seen now) (hc : c.needTimeline = true)
    {tail : Option Node} {first : Node} (hf : s.firstPending c tail = some (first, s'))
    (needFree : Bool) : Detailed c (s'.handle c first needFree).1 seen now := by
  have hkeeps := keeps_firstPending hf
  have hquiet : ∀ ins, s'.windowsOf c ins = [] := by
    intro ins
    rw [hkeeps.spares.windowsOf]
    exact h.quiet ins
  obtain ⟨hfirst, hscene⟩ := h.firstPending_scene hf
  obtain ⟨hline, hbackup, hquiet'⟩ := handle_lossless hquiet needFree
  refine ⟨(h.line.firstPending hf).handle hc needFree, hquiet', ?_, ?_⟩
  · rw [hline, firstPending_line hf]
    refine h.scene.settle ?_
    intro y hy
    obtain ⟨b, hb, rfl⟩ := List.mem_map.mp hy
    cases List.mem_append.mp hb with
    | inl hb =>
      cases hbackup b hb with
      | inl hb => exact List.mem_map_of_mem (List.mem_append_left _ (hkeeps.backup.subset hb))
      | inr hb => exact hb ▸ hfirst
    | inr hb =>
      rw [handle_pendingList] at hb
      exact List.mem_map_of_mem (List.mem_append_right _ (hkeeps.pendingList.subset hb))
  · intro x hx
    rw [(handle_spec c s' first needFree).eventHandled, hkeeps.eventHandled]
    exact h.fresh x hx

/-- Every iterator of the loop over the pending events: what it reaches and when it comes. -/
theorem Detailed.pendingLoop (h : Detailed c s seen now) (hc : c.needTimeline = true)
    (hnow : now < 2 ^ 64)
    (hlate : c.beforeEvent1 ≠ 0 → ∀ x ∈ seen, c.beforeEvent1 < x.time) (tail : Node) (fuel : Nat)
    (needFree : Bool) :
    Detailed c (Trace.pendingLoop c tail fuel s needFree).1 seen now ∧
    ∀ i ∈ Trace.pendingIters c tail fuel s needFree,
      (∀ x ∈ seen, Asked c.beforeEvent1 i.event1.place x.place →
        x.place ∈ i.start.map Node.place) ∧
      i.event2.time ≤ Trace.deadline c (some tail) := by
  induction fuel generalizing s needFree with
  | zero => exact ⟨h, fun _ hi => absurd hi List.not_mem_nil⟩
  | succ fuel ih =>
    unfold Trace.pendingLoop Trace.pendingIters
    cases hf : s.firstPending c (some tail) with
    | none => exact ⟨h, fun _ hi => absurd hi List.not_mem_nil⟩
    | some p =>
      obtain ⟨first, s₁⟩ := p
      obtain ⟨hrest, hiters⟩ := ih (h.handle hc hf needFree) (s₁.handle c first needFree).2
      refine ⟨hrest, ?_⟩
      intro i hi
      cases List.mem_append.mp hi with
      | inr hi => exact hiters i hi
      | inl hi =>
        have hquiet : s₁.windowsOf c first.ins = [] := by
          rw [(keeps_firstPending hf).spares.windowsOf]
          exact h.quiet first.ins
        rw [Trace.handleIters, eventLost_none hquiet] at hi
        obtain ⟨prev, hprev, hkey, rfl⟩ := twoIter_cases hi
        refine ⟨?_, firstPending_deadline hf⟩
        intro x hx hask
        rw [← hkey]
        exact iterStart_reached (s := { s₁ with handledTime := first.time })
          (h.firstPending_scene hf).2 (h.line.firstPending hf).ok.nodup hnow hlate hprev hx hask

/-- The deadline, when no event is younger than `after_event2`. -/
theorem deadline_after {tail : Node} {t : Nat} (ha : c.afterEvent2 ≠ 0)
    (hle : c.afterEvent2 ≤ tail.time) (ht : tail.time < 2 ^ 64)
    (h : t ≤ Trace.deadline c (some tail)) : t + c.afterEvent2 ≤ tail.time := by
  simp only [Trace.deadline, if_pos ha] at h
  omega

end Windows

section Run
variable {c : Config ρ} {s : Trace} {seen : List Node} {now : Nat}

theorem fresh_append {e : Node} (h : ∀ x ∈ seen, x.seq < s.eventHandled)
    (hseq : e.seq = s.eventHandled) : ∀ x ∈ seen ++ [e], x.seq < s.eventHandled + 1 := by
  intro x hx
  cases List.mem_append.mp hx with
  | inl hx => exact Nat.lt_succ_of_lt (h x hx)
  | inr hx =>
    rw [List.mem_singleton.mp hx, hseq]
    exact Nat.lt_succ_self _

/-- An event that is left out: nothing is on the timeline, so nothing waits. -/
theorem Detailed.skip (h : Detailed c s seen now) {e : Node} (ht : now ≤ e.time)
    (hseq : e.seq = s.eventHandled) (hempty : s.timeline = []) (hb : c.beforeEvent1 = 0) :
    Detailed c (s.tick e.time) (seen ++ [e]) e.time := by
  have hnone : s.wait = [] := by
    refine List.eq_nil_iff_forall_not_mem.mpr fun y hy => ?_
    have hline := h.scene.waits y hy
    rw [Trace.line, hempty] at hline
    cases hline
  have hscene := h.scene
  rw [hb, hnone] at hscene
  refine ⟨h.line.tick ht, h.quiet, ?_, fresh_append h.fresh hseq⟩
  show Scene c.beforeEvent1 s.line s.wait _ _
  rw [hb, hnone, List.map_append]
  exact hscene.skip (p := e.place) ht

theorem Detailed.timelineAdd (h : Detailed c s seen now) {e : Node} {untraced : Bool} {s₁ : Trace}
    (hadd : (s.tick e.time).timelineAdd e untraced = some s₁) (hline : Line s₁ [] e.time)
    (ht : now ≤ e.time) (hseq : e.seq = s.eventHandled) :
    Detailed c s₁ (seen ++ [e]) e.time := by
  obtain ⟨m, hplace, hins⟩ := timelineAdd_line hadd
  obtain ⟨hkeeps, hbackup, hpending⟩ := timelineAdd_cases hadd
  have hmseq : m.seq = s.eventHandled := (congrArg Place.seq hplace).trans hseq
  refine ⟨hline, ?_, ?_, ?_⟩
  · intro ins
    rw [hkeeps.spares.windowsOf]
    exact h.quiet ins
  · rw [List.map_append]
    refine h.scene.arrive (p := e.place) ht ?_ ?_ ?_ ?_
    · intro p hp
      obtain ⟨x, hx, rfl⟩ := List.mem_map.mp hp
      exact Nat.lt_of_lt_of_eq (h.fresh x hx) hseq.symm
    · rw [Trace.line, hins]
      refine insertBy_before h.scene.sorted fun n hn => ?_
      rw [hmseq]
      exact Nat.ne_of_lt (h.line.fresh n hn)
    · intro p
      simp only [Trace.line, hins, List.mem_map, mem_insertBy]
      constructor
      · rintro ⟨n, hn | hn, rfl⟩
        · exact Or.inl (hn ▸ hplace)
        · exact Or.inr ⟨n, hn, rfl⟩
      · rintro (hp | ⟨n, hn, rfl⟩)
        · exact ⟨m, Or.inl rfl, hplace.trans hp.symm⟩
        · exact ⟨n, Or.inr hn, rfl⟩
    · intro y hy
      obtain ⟨b, hb, rfl⟩ := List.mem_map.mp hy
      rw [hbackup, hpending] at hb
      cases List.mem_append.mp hb with
      | inl hb => exact Or.inr (List.mem_map_of_mem (List.mem_append_left _ hb))
      | inr hb =>
        split at hb
        · exact Or.inr (List.mem_map_of_mem (List.mem_append_right _ hb))
        · cases List.mem_append.mp hb with
          | inl hb => exact Or.inr (List.mem_map_of_mem (List.mem_append_right _ hb))
          | inr hb =>
            left
            rw [List.mem_singleton.mp hb]
            rfl
  · rw [hkeeps.eventHandled]
    exact fresh_append h.fresh hseq

/-- Delivering an event that has a tracepoint. -/
theorem Detailed.sampleFound (h : Detailed c s seen now) (hc : c.needTimeline = true)
    {ev : Event ρ} {ref : TpRef} {tp : Tp ρ} {tp1 : Option TpRef}
    (hfind : findTp ev.evsel 0 c.tpList = some (ref, tp, tp1)) (ht : now ≤ ev.time)
    (h64 : ev.time < 2 ^ 64)
    (hlate : c.beforeEvent1 ≠ 0 →
      ∀ x ∈ seen ++ [mkNode c ref tp tp1 ev s.eventHandled], c.beforeEvent1 < x.time)
    (ha : c.afterEvent2 ≤ ev.time) :
    Detailed c (s.sample c ev) (seen ++ [mkNode c ref tp tp1 ev s.eventHandled]) ev.time ∧
    ∀ i ∈ s.sampleIters c ev,
      i.Complete c (seen ++ [mkNode c ref tp tp1 ev s.eventHandled]) := by
  obtain ⟨s₁, hadd, hline⟩ := h.line.addCurrent (c := c) ref tp tp1 ht
  rw [sample_found hfind, if_pos hc]
  unfold Trace.sampleIters
  rw [hfind]
  dsimp only
  obtain ⟨e, he⟩ : ∃ e, mkNode c ref tp tp1 ev s.eventHandled = e := ⟨_, rfl⟩
  have htime : ev.time = e.time := he ▸ rfl
  have hseq : e.seq = s.eventHandled := he ▸ rfl
  rw [he, htime] at hadd
  rw [htime] at hline ht h64 ha
  rw [he] at hlate
  rw [he, htime]
  unfold Trace.sampleTimeline
  by_cases hskip : ((s.tick e.time).timeline.isEmpty && e.unneeded &&
      decide (c.beforeEvent1 = 0) && decide (c.afterEvent2 = 0)) = true
  · rw [if_pos hskip, if_pos hskip]
    simp only [Bool.and_eq_true, decide_eq_true_eq, List.isEmpty_iff] at hskip
    obtain ⟨⟨⟨hempty, -⟩, hb⟩, -⟩ := hskip
    exact ⟨h.skip ht hseq hempty hb, fun _ hi => absurd hi List.not_mem_nil⟩
  · rw [if_neg hskip, if_neg hskip, hadd]
    dsimp only
    have h₁ := h.timelineAdd hadd hline ht hseq
    obtain ⟨h₂, hiters⟩ := h₁.pendingLoop hc h64 hlate e s₁.pendingList.length e.unneeded
    refine ⟨?_, ?_⟩
    · split
      · exact h₂.free hlate
      · exact h₂
    · intro i hi
      obtain ⟨hreached, hdead⟩ := hiters i hi
      refine ⟨fun x hx _ hask => hreached x hx hask, fun hne => ?_⟩
      exact ⟨e, List.mem_append_right _ (List.mem_singleton_self e), deadline_after hne ha h64 hdead⟩

/-- The events come late enough for both subtractions. -/
def Config.Late (c : Config ρ) (n : Node) : Prop :=
  (c.beforeEvent1 ≠ 0 → c.beforeEvent1 < n.time) ∧ c.afterEvent2 ≤ n.time

theorem Detailed.sample (h : Detailed c s seen now) (hc : c.needTimeline = true) (ev : Event ρ)
    (ht : now ≤ ev.time) (h64 : ev.time < 2 ^ 64)
    (hlate : ∀ n ∈ seen ++ c.nodes s.eventHandled [ev], c.Late n) :
    Detailed c (s.sample c ev) (seen ++ c.nodes s.eventHandled [ev]) ev.time ∧
    ∀ i ∈ s.sampleIters c ev, i.Complete c (seen ++ c.nodes s.eventHandled [ev]) := by
  cases hfind : findTp ev.evsel 0 c.tpList with
  | none =>
    simp only [Config.nodes, hfind, List.append_nil]
    rw [sample_not_found hfind, Trace.sampleIters, hfind]
    exact ⟨⟨(h.line.later ht).congr rfl rfl rfl rfl rfl rfl rfl, h.quiet, h.scene.later ht, h.fresh⟩,
      fun _ hi => absurd hi List.not_mem_nil⟩
  | some found =>
    obtain ⟨ref, tp, tp1⟩ := found
    simp only [Config.nodes, hfind] at hlate ⊢
    exact h.sampleFound hc hfind ht h64 (fun hb x hx => (hlate x hx).1 hb)
      (hlate _ (List.mem_append_right _ (List.mem_singleton_self _))).2

theorem nodes_append (c : Config ρ) (seq : Nat) (evs rest : List (Event ρ)) :
    ∃ seq', c.nodes seq (evs ++ rest) = c.nodes seq evs ++ c.nodes seq' rest ∧
      ∀ s : Trace, s.eventHandled = seq →
        (s.run c (evs.map Input.sample)).eventHandled = seq' := by
  induction evs generalizing seq with
  | nil => exact ⟨seq, rfl, fun s hs => hs⟩
  | cons ev evs ih =>
    cases hfind : findTp ev.evsel 0 c.tpList with
    | none =>
      obtain ⟨seq', heq, hrun⟩ := ih seq
      have hskip : ∀ es, c.nodes seq (ev :: es) = c.nodes seq es := by
        intro es
        simp only [Config.nodes, hfind]
      refine ⟨seq', by rw [List.cons_append, hskip, hskip, heq], fun s hs => hrun _ ?_⟩
      show (s.sample c ev).eventHandled = seq
      rw [sample_not_found hfind]
      exact hs
    | some found =>
      obtain ⟨ref, tp, tp1⟩ := found
      obtain ⟨seq', heq, hrun⟩ := ih (seq+1)
      have hnode : ∀ es, c.nodes seq (ev :: es) =
          mkNode c ref tp tp1 ev seq :: c.nodes (seq+1) es := by
        intro es
        simp only [Config.nodes, hfind]
      refine ⟨seq', by rw [List.cons_append, hnode, hnode, heq]; rfl, fun s hs => hrun _ ?_⟩
      show (s.sample c ev).eventHandled = seq + 1
      rw [(sample_clock hfind).1, hs]

theorem Detailed.run (h : Detailed c s seen now) (hc : c.needTimeline = true)
    (evs rest : List (Event ρ)) (ho : TimeOrdered now ((evs ++ rest).map Input.sample))
    (hlate : ∀ n ∈ seen ++ c.nodes s.eventHandled evs, c.Late n) :
    ∃ now', Detailed c (s.run c (evs.map Input.sample)) (seen ++ c.nodes s.eventHandled evs) now' ∧
      TimeOrdered now' (rest.map Input.sample) := by
  induction evs generalizing s seen now with
  | nil =>
    refine ⟨now, ?_, ho⟩
    simp only [Config.nodes, List.append_nil]
    exact h
  | cons ev evs ih =>
    obtain ⟨seq', heq, hseq⟩ := nodes_append c s.eventHandled [ev] evs
    have hnext : (s.sample c ev).eventHandled = seq' := hseq s rfl
    rw [List.singleton_append] at heq
    rw [heq, ← List.append_assoc] at hlate ⊢
    have h₁ := (h.sample hc ev ho.1 ho.2.1 fun n hn =>
      hlate n (List.mem_append_left _ hn)).1
    rw [← hnext] at hlate ⊢
    exact ih h₁ ho.2.2 hlate

/-- Without lost records, whenever `class->two` gets an iterator it reaches every event delivered
so far in its window, and an event `after_event2` later than `event2` has been delivered. -/
theorem detail_window_complete (c : Config ρ) (hc : c.needTimeline = true) (evs : List (Event ρ))
    (ev : Event ρ) (ho : TimeOrdered 0 ((evs ++ [ev]).map Input.sample))
    (hlate : ∀ n ∈ c.nodes 0 (evs ++ [ev]), c.Late n) :
    ∀ i ∈ (Trace.init.run c (evs.map Input.sample)).sampleIters c ev,
      i.Complete c (c.nodes 0 (evs ++ [ev])) := by
  obtain ⟨seq', heq, hseq⟩ := nodes_append c 0 evs [ev]
  have hnext := hseq Trace.init rfl
  rw [heq] at hlate ⊢
  obtain ⟨now, h, ht⟩ := (Detailed.init c).run hc evs [ev] ho
    fun n hn => hlate n (List.mem_append_left _ hn)
  rw [← hnext] at hlate ⊢
  exact (h.sample hc ev ht.1 ht.2.1 hlate).2

/-- `twoLists` with an untraced event 2, --before-event1 10 and --after-event2 5. -/
def beforeTen : Config Nat :=
  { twoLists (some id) true with
    tpList := [[⟨0, false, some id, none⟩, ⟨2, true, some id, none⟩], [⟨1, false, some id, none⟩]]
    beforeEvent1 := 10
    afterEvent2 := 5 }

/-- An untraced event, a pair ten or less after it, and an event that ends the wait. -/
def pairAfter (time key : Nat) : List (Event Nat) :=
  [eventAt 2 time 0 key, eventAt 0 100 0 5, eventAt 1 110 0 5]

theorem detail_window_complete_pair :
    ((Trace.init.run beforeTen ((pairAfter 90 7).map Input.sample)).sampleIters beforeTen
      (eventAt 2 120 0 1)).map (fun i => i.start.map fun n => n.time) = [[90, 100, 110, 120]] ∧
    ∀ i ∈ (Trace.init.run beforeTen ((pairAfter 90 7).map Input.sample)).sampleIters beforeTen
      (eventAt 2 120 0 1), i.Complete beforeTen
        (beforeTen.nodes 0 (pairAfter 90 7 ++ [eventAt 2 120 0 1])) := by
  refine ⟨by decide, detail_window_complete beforeTen rfl (pairAfter 90 7) (eventAt 2 120 0 1) ?_ ?_⟩
  · simp [pairAfter, TimeOrdered, eventAt]
  · simp only [Config.Late]
    decide

/-- The start of the window is looked up with the pair's key: an event at that very time with a
smaller key is not reached, though it is still on the timeline. -/
theorem window_start_misses_smaller_key :
    TimeOrdered 0 ((pairAfter 90 1 ++ [eventAt 2 120 0 1]).map Input.sample) ∧
    ∃ i ∈ (Trace.init.run beforeTen ((pairAfter 90 1).map Input.sample)).sampleIters beforeTen
      (eventAt 2 120 0 1),
    ∃ x ∈ beforeTen.nodes 0 (pairAfter 90 1),
      i.event1.time - beforeTen.beforeEvent1 ≤ x.time ∧ x.time ≤ i.event2.time ∧
      x.place ∈ (Trace.init.run beforeTen ((pairAfter 90 1).map Input.sample)).line ∧
      x.place ∉ i.start.map Node.place := by
  refine ⟨by simp [pairAfter, TimeOrdered, eventAt], ?_⟩
  decide

end Run

end PerfProf.MultiTrace
