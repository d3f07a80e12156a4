import PerfProf.Matching

/-! `--detail=+N`: events wait on `pending_list` until N after them has been seen. Matching is
only put off: once the pending events have been handled, it stands where it stands
without the window. -/
namespace PerfProf.MultiTrace
variable {ρ : Type*} {c : Config ρ}

/-- The same options without `after_event2`. -/
def Config.immediate (c : Config ρ) : Config ρ := { c with afterEvent2 := 0 }

section Later
variable {t : Nat} {w : LostNode}

theorem settle_single (h : t < w.startTime) :
    settle t [w] = [w] ∧ crossed t [w] = [] ∧ verdictOf t [w] = .normal := by
  have hw : t ≤ w.startTime := Nat.le_of_lt h
  simp only [settle, crossed, verdictOf, if_pos hw, if_pos h, and_self]

theorem settle_append_later (h : t < w.startTime) (L : List LostNode) :
    settle t (L ++ [w]) = settle t L ++ [w] ∧ crossed t (L ++ [w]) = crossed t L ∧
      verdictOf t (settle t L ++ [w]) = verdictOf t (settle t L) := by
  induction L with
  | nil => exact settle_single h
  | cons x L ih =>
    simp only [List.cons_append, settle, crossed]
    by_cases h1 : t ≤ x.startTime
    · simp only [if_pos h1, List.cons_append, verdictOf, and_self]
    · by_cases h2 : t < x.endTime
      · simp only [if_neg h1, if_pos h2, List.cons_append, verdictOf, and_self]
      · simp only [if_neg h1, if_neg h2]
        exact ⟨ih.1, by rw [ih.2.1], ih.2.2⟩

theorem settle_insertLost_later (h : t < w.startTime) (L : List LostNode) :
    settle t (Trace.insertLost w L) = Trace.insertLost w (settle t L) ∧
      crossed t (Trace.insertLost w L) = crossed t L ∧
      verdictOf t (Trace.insertLost w (settle t L)) = verdictOf t (settle t L) := by
  induction L with
  | nil => exact settle_single h
  | cons x L ih =>
    by_cases hx : w.startTime < x.startTime
    · have hw : t ≤ w.startTime := Nat.le_of_lt h
      have hxt : t ≤ x.startTime := by omega
      have hxt' : t < x.startTime := by omega
      simp only [Trace.insertLost, settle, crossed, verdictOf, if_pos hx, if_pos hw, if_pos hxt,
        if_pos hxt', if_pos h, and_self]
    · simp only [Trace.insertLost, settle, crossed, if_neg hx]
      by_cases h1 : t ≤ x.startTime
      · simp only [if_pos h1, Trace.insertLost, if_neg hx, verdictOf, and_self]
      · by_cases h2 : t < x.endTime
        · simp only [if_neg h1, if_pos h2, Trace.insertLost, if_neg hx, verdictOf, and_self]
        · simp only [if_neg h1, if_neg h2]
          exact ⟨ih.1, by rw [ih.2.1], ih.2.2⟩

/-- A window that starts after an event does not concern it. -/
theorem settle_addWindow (h : t < w.startTime) (L : List LostNode) :
    settle t (c.addWindow w L) = c.addWindow w (settle t L) ∧
    crossed t (c.addWindow w L) = crossed t L ∧
    verdict t (c.addWindow w L) = verdict t L := by
  unfold Config.addWindow
  cases c.lostAffect with
  | insEvent =>
    obtain ⟨h1, h2, h3⟩ := settle_append_later h L
    exact ⟨h1, h2, by rw [verdict, h1, h3]; rfl⟩
  | allEvent =>
    obtain ⟨h1, h2, h3⟩ := settle_insertLost_later h L
    exact ⟨h1, h2, by rw [verdict, h1, h3]; rfl⟩

end Later

namespace Matching

/-- Lost windows that concern all events are one list. -/
def Uniform (c : Config ρ) (m : Matching) : Prop :=
  c.lostAffect = .allEvent → ∀ i j, m.windows i = m.windows j

theorem callTwo_windows (m : Matching) (W : Nat → List LostNode) (e : Node) :
    callTwo c { m with windows := W } e = { m.callTwo c e with windows := W } := by
  unfold callTwo
  by_cases hf : e.needFindPrev = true
  · simp only [if_pos hf]
    generalize (m.backup.find? fun b => b.key = e.key && (e.tp1.isNone || e.tp1 = some b.tp)) = found
    cases found with
    | none =>
      dsimp only
      by_cases ho : (c.implBasedOnCall && c.objectFind e.tp none) = true
      · simp only [if_pos ho]
        rfl
      · simp only [if_neg ho]
    | some prev =>
      dsimp only
      by_cases ho : (c.objectFind prev.tp (some e.tp) && decide (prev.time < e.time)) = true
      · by_cases hr : e.needRemoveFromBackup = true
        · simp only [if_pos ho, if_pos hr]
          rfl
        · simp only [if_pos ho, if_neg hr]
          rfl
      · by_cases hr : e.needRemoveFromBackup = true
        · simp only [if_neg ho, if_pos hr]
          rfl
        · simp only [if_neg ho, if_neg hr]
  · simp only [if_neg hf]

theorem keep_windows (m : Matching) (W : Nat → List LostNode) (e : Node) :
    keep c { m with windows := W } e = { m.keep c e with windows := W } := by
  have hretry : ∀ (fuel : Nat) (m : Matching),
      keepRetry c fuel { m with windows := W } e = { keepRetry c fuel m e with windows := W } := by
    intro fuel
    induction fuel with
    | zero => exact fun m => rfl
    | succ fuel ih =>
      intro m
      simp only [keepRetry]
      generalize (m.backup.find? fun b => c.backupSame b e) = found
      cases found with
      | none => rfl
      | some exist =>
        dsimp only
        by_cases ht : e.time < exist.time
        · simp only [if_pos ht]
        · simp only [if_neg ht]
          exact ih (m.remove exist)
  unfold keep
  by_cases hb : e.needBackup = true
  · simp only [if_pos hb]
    exact hretry _ m
  · simp only [if_neg hb]

/-- What an event does is decided by the windows it has crossed and the verdict on it. -/
theorem handle_eq (m : Matching) (tl : Node) :
    m.handle c tl = { keep c (callTwo c
        { m with backup := c.reclaimAll tl.ins (crossed tl.time (m.windows tl.ins)) m.backup }
        ((verdict tl.time (m.windows tl.ins)).event tl))
        ((verdict tl.time (m.windows tl.ins)).event tl) with
      windows := fun i => if c.lostAffect = .allEvent ∨ i = tl.ins then
        settle tl.time (m.windows tl.ins) else m.windows i } := by
  rw [← keep_windows, ← callTwo_windows]
  rfl

theorem Uniform.handle (m : Matching) (tl : Node) : (m.handle c tl).Uniform c := by
  intro hall i j
  rw [handle_eq]
  simp only [hall, true_or, if_true]

/-- Registering a lost record that starts after the event can wait until it is handled. -/
theorem handle_lost {m : Matching} (hu : m.Uniform c) {tl : Node} (ins : Nat) {w : LostNode}
    (h : tl.time < w.startTime) :
    (m.lost c ins w).handle c tl = (m.handle c tl).lost c ins w := by
  have hown : (m.lost c ins w).windows tl.ins =
      if c.lostAffect = .allEvent ∨ tl.ins = ins then c.addWindow w (m.windows tl.ins)
      else m.windows tl.ins := by
    simp only [lost, setWindows]
    by_cases hi : c.lostAffect = .allEvent ∨ tl.ins = ins
    · have hsame : m.windows ins = m.windows tl.ins := by
        cases hi with
        | inl hall => exact hu hall ins tl.ins
        | inr heq => rw [heq]
      rw [if_pos hi, if_pos hi, hsame]
    · rw [if_neg hi, if_neg hi]
  obtain ⟨hset, hcross, hver⟩ := settle_addWindow (c := c) h (m.windows tl.ins)
  have hcross' : crossed tl.time ((m.lost c ins w).windows tl.ins) =
      crossed tl.time (m.windows tl.ins) := by
    rw [hown]
    split
    · exact hcross
    · rfl
  have hver' : verdict tl.time ((m.lost c ins w).windows tl.ins) =
      verdict tl.time (m.windows tl.ins) := by
    rw [hown]
    split
    · exact hver
    · rfl
  have hbody : ∀ (B : List Node) (e : Node),
      keep c (callTwo c { m.lost c ins w with backup := B } e) e =
        { keep c (callTwo c { m with backup := B } e) e with windows := (m.lost c ins w).windows } := by
    intro B e
    rw [← keep_windows, ← callTwo_windows]
    rfl
  rw [handle_eq, handle_eq, hcross', hver', hbody, hown]
  simp only [lost, setWindows, Matching.mk.injEq, true_and, and_true]
  funext i
  by_cases hall : c.lostAffect = .allEvent
  · simp only [hall, true_or, if_true]
    exact hset
  · simp only [hall, false_or]
    by_cases hi : i = ins
    · subst hi
      by_cases htl : i = tl.ins
      · subst htl
        simp only [if_true]
        exact hset
      · have htl' : ¬ tl.ins = i := fun h => htl h.symm
        simp only [if_neg htl, if_true]
    · by_cases htl : i = tl.ins
      · subst htl
        simp only [if_neg hi, if_true]
      · simp only [if_neg hi, if_neg htl]

/-- So can registering it until all the events before it are handled. -/
theorem handleAll_lost {m : Matching} (hu : m.Uniform c) (ins : Nat) {w : LostNode}
    (es : List Node) (h : ∀ e ∈ es, e.time < w.startTime) :
    es.foldl (handle c) (m.lost c ins w) = (es.foldl (handle c) m).lost c ins w := by
  induction es generalizing m with
  | nil => rfl
  | cons e es ih =>
    rw [List.foldl_cons, List.foldl_cons, handle_lost hu ins (h e (List.mem_cons_self ..))]
    exact ih (Uniform.handle _ e) fun x hx => h x (List.mem_cons_of_mem _ hx)

end Matching

section Run
variable {t p : Trace} {now : Nat} {delivered : List Nat}

theorem matching_uniform (s : Trace) : (s.matching c).Uniform c := by
  intro hall i j
  simp only [Trace.matching, Trace.windowsOf, hall]

theorem matching_lost (ho : c.order = true) (s : Trace) (ins st en : Nat) :
    (s.lost c ins st en).matching c = (s.matching c).lost c ins ⟨ins, false, st, en⟩ := by
  rw [Config.addWindow_lost ho, matching_setWindows]
  rfl

theorem caughtUp_lost (ho : c.order = true) {s : Trace} (ins st en : Nat)
    (h : ∀ q ∈ s.pendingList, q.time < st) :
    (s.lost c ins st en).caughtUp c = (s.caughtUp c).lost c ins ⟨ins, false, st, en⟩ := by
  have hpl : (s.lost c ins st en).pendingList = s.pendingList := by
    rw [Config.addWindow_lost ho]
    exact (setWindows_frame c s ins _).2.2.2.1
  rw [Trace.caughtUp, hpl, matching_lost ho]
  refine Matching.handleAll_lost (matching_uniform s) ins _ ?_
  intro e he
  obtain ⟨q, hq, rfl⟩ := List.mem_map.mp he
  exact h q hq

/-- The mode decides when an event is handled, not how. -/
theorem handle_mode (needTimeline : Bool) (afterEvent2 : Nat) :
    Matching.handle { c with needTimeline := needTimeline, afterEvent2 := afterEvent2 } =
      Matching.handle c := by
  have hretry : ∀ (fuel : Nat) (m : Matching) (tl : Node),
      Matching.keepRetry { c with needTimeline := needTimeline, afterEvent2 := afterEvent2 } fuel m
        tl = Matching.keepRetry c fuel m tl := by
    intro fuel
    induction fuel with
    | zero => exact fun m tl => rfl
    | succ fuel ih =>
      intro m tl
      simp only [Matching.keepRetry, ih]
      rfl
  funext m tl
  simp only [Matching.handle, Matching.keep, hretry]
  rfl

theorem caughtUp_detail (s : Trace) : s.caughtUp c.detail = s.caughtUp c := by
  simp only [Trace.caughtUp]
  rw [show Matching.handle c.detail = Matching.handle c from handle_mode true c.afterEvent2]
  rfl

/-- `t` has the window and lags behind `p`, which handles events as they come. -/
structure Delayed (c : Config ρ) (t p : Trace) (now : Nat) (delivered : List Nat) : Prop where
  line : Line t [] now
  caught : t.caughtUp c = p.matching c
  eventHandled : t.eventHandled = p.eventHandled
  recentTime : t.recentTime = p.recentTime
  last : t.pendingList ≠ [] → now ∈ delivered

theorem Delayed.free (h : Delayed c t p now delivered) :
    Delayed c (t.timelineFreeUnneeded c.detail) p now delivered := by
  obtain ⟨hl, hf⟩ := h.line.timelineFreeUnneeded (c := c.detail)
  have hk := keeps_timelineFreeUnneeded c.detail t
  refine ⟨hl, ?_, hf.eventHandled.trans h.eventHandled, hk.recentTime.trans h.recentTime, ?_⟩
  · rw [Trace.caughtUp, hf.pendingList, hk.spares.matching, hf.backup]
    exact h.caught
  · rw [hf.pendingList]
    exact h.last

theorem Delayed.sample (h : Delayed c t p now delivered) (ha : c.afterEvent2 ≠ 0) (ev : Event ρ)
    (ht : now ≤ ev.time) :
    Delayed c (t.sample c.detail ev) (p.sample c.immediate.plain ev) ev.time
      (ev.time :: delivered) := by
  cases hfind : findTp ev.evsel 0 c.tpList with
  | none =>
    rw [sample_not_found (c := c.detail) hfind, sample_not_found (c := c.immediate.plain) hfind]
    refine ⟨(h.line.later ht).congr rfl rfl rfl rfl rfl rfl rfl, h.caught, h.eventHandled, ?_,
      fun _ => List.mem_cons_self ..⟩
    simp only [h.recentTime]
  | some found =>
    obtain ⟨ref, tp, tp1⟩ := found
    rw [sample_found (c := c.detail) hfind, if_pos (show c.detail.needTimeline = true from rfl),
      sample_found (c := c.immediate.plain) hfind,
      if_neg (show ¬ c.immediate.plain.needTimeline = true from Bool.false_ne_true)]
    obtain ⟨t₁, hadd, hl⟩ := h.line.addCurrent (c := c.detail) ref tp tp1 ht
    obtain ⟨e, he⟩ : ∃ e, mkNode c.detail ref tp tp1 ev t.eventHandled = e := ⟨_, rfl⟩
    have he' : mkNode c.immediate.plain ref tp tp1 ev p.eventHandled = e := by
      rw [← h.eventHandled, ← he]
      rfl
    rw [he] at hadd ⊢
    rw [he']
    have hskip : ¬ (((t.tick ev.time).timeline.isEmpty && e.unneeded &&
        decide (c.detail.beforeEvent1 = 0) && decide (c.detail.afterEvent2 = 0)) = true) := by
      simp [Config.detail, ha]
    have hcaught : t₁.caughtUp c =
        ((p.tick ev.time).samplePlain c.immediate.plain e tp.untraced).matching c := by
      rw [timelineAdd_caughtUp hadd]
      have htick : (t.tick ev.time).caughtUp c = (p.tick ev.time).matching c := h.caught
      cases hu : tp.untraced with
      | true =>
        rw [if_pos rfl, Trace.samplePlain, if_pos rfl]
        exact htick
      | false =>
        have hpop : popped { e with unneeded := false } = e := by
          rw [← he]
          simp [popped, mkNode, hu]
        have hh := matching_handle (c := c.immediate.plain) (p.tick ev.time) e false
        rw [show Matching.handle c.immediate.plain = Matching.handle c from
          handle_mode (c := c) false 0] at hh
        rw [if_neg Bool.false_ne_true, Trace.samplePlain, if_neg Bool.false_ne_true, hpop, htick]
        exact hh.symm
    have hclock : t₁.eventHandled = t.eventHandled + 1 ∧
        t₁.recentTime = max t.recentTime ev.time := by
      obtain ⟨hk, -, -⟩ := timelineAdd_cases hadd
      exact ⟨hk.eventHandled, hk.recentTime⟩
    have hclock' : ((p.tick ev.time).samplePlain c.immediate.plain e tp.untraced).eventHandled =
        p.eventHandled + 1 ∧
        ((p.tick ev.time).samplePlain c.immediate.plain e tp.untraced).recentTime =
          max p.recentTime ev.time := by
      unfold Trace.samplePlain
      split
      · exact ⟨rfl, rfl⟩
      · have hh := handle_spec c.immediate.plain (p.tick ev.time) e false
        exact ⟨hh.eventHandled, hh.recentTime⟩
    have hloop := pendingLoop_caughtUp (c := c.detail) e t₁.pendingList.length t₁ e.unneeded
    rw [caughtUp_detail, caughtUp_detail] at hloop
    obtain ⟨hc1, hc2⟩ := pendingLoop_clock c.detail e t₁.pendingList.length t₁ e.unneeded
    have hdone : Delayed c (Trace.pendingLoop c.detail e t₁.pendingList.length t₁ e.unneeded).1
        ((p.tick ev.time).samplePlain c.immediate.plain e tp.untraced) ev.time
        (ev.time :: delivered) :=
      ⟨hl.pendingLoop rfl e t₁.pendingList.length e.unneeded, hloop.trans hcaught,
        by rw [hc1, hclock.1, hclock'.1, h.eventHandled],
        by rw [hc2, hclock.2, hclock'.2, h.recentTime], fun _ => List.mem_cons_self ..⟩
    rw [Trace.sampleTimeline, if_neg hskip, hadd]
    dsimp only
    split
    · exact hdone.free
    · exact hdone

theorem Delayed.lost (h : Delayed c t p now delivered) (ho : c.order = true) (ins st en : Nat)
    (hst : ∀ t ∈ delivered, t < st) :
    Delayed c (t.lost c.detail ins st en) (p.lost c.immediate.plain ins st en) now delivered := by
  have hline := h.line.lost (c := c.detail) rfl ins st en
  have hpend : ∀ q ∈ t.pendingList, q.time < st := by
    intro q hq
    exact Nat.lt_of_le_of_lt (h.line.pending_time_le hq) (hst now (h.last (List.ne_nil_of_mem hq)))
  have ht := Config.addWindow_lost (c := c.detail) ho t ins st en
  have hp := Config.addWindow_lost (c := c.immediate.plain) ho p ins st en
  obtain ⟨-, -, -, hpl, hte, htr⟩ := setWindows_frame c.detail t ins
    (c.detail.addWindow ⟨ins, false, st, en⟩ (t.windowsOf c.detail ins))
  obtain ⟨-, -, -, -, hpe, hpr⟩ := setWindows_frame c.immediate.plain p ins
    (c.immediate.plain.addWindow ⟨ins, false, st, en⟩ (p.windowsOf c.immediate.plain ins))
  refine ⟨hline, ?_, ?_, ?_, ?_⟩
  · have hcaught := caughtUp_lost (c := c.detail) ho (s := t) ins st en hpend
    rw [caughtUp_detail, caughtUp_detail] at hcaught
    rw [hcaught, h.caught]
    exact (matching_lost (c := c.immediate.plain) ho p ins st en).symm
  · rw [ht, hp, hte, hpe, h.eventHandled]
  · rw [ht, hp, htr, hpr, h.recentTime]
  · rw [ht, hpl]
    exact h.last

/-- Lost records come with --order and start after every sample delivered before them; there is
no flush before the end. -/
def LostAhead (c : Config ρ) (delivered : List Nat) : List (Input ρ) → Prop
  | [] => True
  | .sample ev :: rest => LostAhead c (ev.time :: delivered) rest
  | .lost _ st _ :: rest =>
    c.order = true ∧ (∀ t ∈ delivered, t < st) ∧ LostAhead c delivered rest
  | .flush :: _ => False

theorem Delayed.run (h : Delayed c t p now delivered) (ha : c.afterEvent2 ≠ 0)
    (inputs : List (Input ρ)) (ho : TimeOrdered now inputs) (hl : LostAhead c delivered inputs) :
    ∃ now' delivered', Delayed c (t.run c.detail inputs) (p.run c.immediate.plain inputs) now'
      delivered' := by
  induction inputs generalizing t p now delivered with
  | nil => exact ⟨now, delivered, h⟩
  | cons i rest ih =>
    cases i with
    | sample ev => exact ih (h.sample ha ev ho.1) ho.2.2 hl
    | lost ins st en => exact ih (h.lost hl.1 ins st en hl.2.1) ho hl.2.2
    | flush => exact hl.elim

theorem Delayed.init (c : Config ρ) : Delayed c Trace.init Trace.init 0 [] :=
  ⟨Line.init, rfl, rfl, rfl, fun h => absurd rfl h⟩

/-- What `class->remaining` answers depends neither on the calls made before nor on the recent
time. -/
def Config.Steady (c : Config ρ) : Prop :=
  ∀ calls calls' time time' n rr iter, c.remaining calls time n rr iter =
    c.remaining calls' time' n rr iter

/-- The final flush reports the same events wherever the same events are backed up. -/
theorem handleRemaining_steady (hs : c.Steady) (s s' : Trace) (hr : s.recentTime = s'.recentTime)
    (rr : Reason) (l : List Node) :
    ∃ new, (s.handleRemaining c.detail rr l).calls = s.calls ++ new ∧
      (s'.handleRemaining c.immediate.detail rr l).calls = s'.calls ++ new := by
  induction l generalizing s s' with
  | nil => exact ⟨[], (List.append_nil _).symm, (List.append_nil _).symm⟩
  | cons left rest ih =>
    have hobj : c.detail.objectFind left.tp none = c.immediate.detail.objectFind left.tp none := rfl
    simp only [Trace.handleRemaining, Trace.callRemaining, hobj]
    by_cases ho : c.immediate.detail.objectFind left.tp none = true
    · simp only [if_pos ho]
      have hans : c.detail.remaining s.calls s.recentTime left rr c.detail.needTimeline =
          c.immediate.detail.remaining s'.calls s'.recentTime left rr
            c.immediate.detail.needTimeline := hs ..
      rw [hans]
      cases c.immediate.detail.remaining s'.calls s'.recentTime left rr
          c.immediate.detail.needTimeline with
      | true =>
        refine ⟨[.remaining left left.key s.recentTime rr], rfl, ?_⟩
        rw [hr]
      | false =>
        obtain ⟨new, h1, h2⟩ := ih
          { s with calls := s.calls ++ [.remaining left left.key s.recentTime rr] }
          { s' with calls := s'.calls ++ [.remaining left left.key s'.recentTime rr] } hr
        refine ⟨.remaining left left.key s.recentTime rr :: new, ?_, ?_⟩
        · rw [h1, List.append_assoc]
          rfl
        · rw [h2, List.append_assoc, hr]
          rfl
    · simp only [if_neg ho]
      exact ih s s' hr

/-- The calls that a final flush makes. -/
def Trace.flushCalls (c : Config ρ) (s : Trace) : List ClassCall :=
  (s.flush c).calls.drop s.calls.length

theorem flushCalls_steady (hs : c.Steady) {s s' : Trace} (hr : s.recentTime = s'.recentTime)
    (hb : s.backup = s'.backup) :
    s.flushCalls c.detail = s'.flushCalls c.immediate.detail := by
  obtain ⟨new, h1, h2⟩ := handleRemaining_steady hs _ _ hr .exit s'.backup
  rw [Trace.flushCalls, Trace.flushCalls, (keeps_flush c.detail s).calls,
    (keeps_flush c.immediate.detail s').calls, hb, h1, h2, List.drop_left, List.drop_left]

end Run

/-- `--detail=+N` makes the same pairs and reports the same remaining events as without the
window, if nothing is pending when the final flush comes. -/
theorem after_window_loses_no_pair (c : Config ρ) (hcall : c.implBasedOnCall = false)
    (ha : c.afterEvent2 ≠ 0) (hs : c.Steady)
    (hins : c.lostAffect = .insEvent → Function.Injective c.insKey) (inputs : List (Input ρ))
    (ho : TimeOrdered 0 inputs) (hl : LostAhead c [] inputs)
    (hdone : (Trace.init.run c.detail inputs).pendingList = []) :
    pairsOf (Trace.init.run c.detail (inputs ++ [.flush])).calls =
      pairsOf (Trace.init.run c.immediate.detail (inputs ++ [.flush])).calls ∧
    (Trace.init.run c.detail inputs).flushCalls c.detail =
      (Trace.init.run c.immediate.detail inputs).flushCalls c.immediate.detail := by
  obtain ⟨now, delivered, hd⟩ := (Delayed.init c).run ha inputs ho hl
  obtain ⟨now', hi⟩ := (Alike.init c.immediate).run hcall rfl hins (Nat.two_pow_pos 64) inputs ho
  have hcaught := hd.caught
  rw [caughtUp_nil hdone] at hcaught
  have hpairs : pairsOf (Trace.init.run c.detail inputs).calls =
      pairsOf (Trace.init.run c.immediate.detail inputs).calls := by
    have hdp := congrArg Matching.pairs hcaught
    have hip := congrArg pairsOf hi.twin.twos
    rw [pairsOf_filter, pairsOf_filter] at hip
    exact hdp.trans hip.symm
  have hflush : ∀ d : Config ρ, pairsOf (Trace.init.run d (inputs ++ [.flush])).calls =
      pairsOf (Trace.init.run d inputs).calls := by
    intro d
    rw [Trace.run, List.foldl_append]
    exact (spares_flush d (Trace.init.run d inputs)).pairs
  refine ⟨by rw [hflush, hflush, hpairs], flushCalls_steady hs ?_ ?_⟩
  · exact hd.recentTime.trans hi.twin.recentTime.symm
  · exact (congrArg Matching.backup hcaught).trans hi.twin.backup.symm

/-- `--detail=+100` with event 0, an untraced event 2, and event 1. -/
def afterHundred : Config Nat :=
  { twoLists (some id) true with
    tpList := [[⟨0, false, some id, none⟩, ⟨2, true, some id, none⟩], [⟨1, false, some id, none⟩]]
    afterEvent2 := 100
    remaining := fun _ _ _ _ _ => false }

/-- A pair, an event that stays open, and a later event that brings the deadline past them. -/
def pairThenLater : List (Input Nat) :=
  [.sample (eventAt 0 1000 0 1), .sample (eventAt 1 1010 0 1), .sample (eventAt 0 1020 0 2),
    .sample (eventAt 2 1200 0 0)]

theorem after_window_loses_no_pair_later :
    ((Trace.init.run afterHundred.detail pairThenLater).flushCalls afterHundred.detail).length = 1 ∧
    pairsOf (Trace.init.run afterHundred.detail (pairThenLater ++ [.flush])).calls =
      pairsOf (Trace.init.run afterHundred.immediate.detail (pairThenLater ++ [.flush])).calls ∧
    (Trace.init.run afterHundred.detail pairThenLater).flushCalls afterHundred.detail =
      (Trace.init.run afterHundred.immediate.detail pairThenLater).flushCalls
        afterHundred.immediate.detail := by
  refine ⟨by decide +kernel, after_window_loses_no_pair afterHundred rfl (by decide)
    (fun _ _ _ _ _ _ _ => rfl) nofun pairThenLater ?_ ?_ (by decide +kernel)⟩
  · simp [pairThenLater, TimeOrdered, eventAt]
  · simp [pairThenLater, LostAhead]

/-- The same pair with nothing after it: the flush throws both events away, while without the
window they are paired. -/
theorem pending_pair_lost_at_flush :
    pairsOf (Trace.init.run afterHundred.detail
        [.sample (eventAt 0 1000 0 1), .sample (eventAt 1 1010 0 1), .flush]).calls ≠
      pairsOf (Trace.init.run afterHundred.immediate.detail
        [.sample (eventAt 0 1000 0 1), .sample (eventAt 1 1010 0 1), .flush]).calls := by
  decide +kernel

end PerfProf.MultiTrace
