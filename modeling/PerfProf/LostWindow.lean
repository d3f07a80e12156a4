import Mathlib.Logic.Function.Basic
import PerfProf.TraceFrame

/-! `multi_trace_event_lost`: the loop over the lost windows drops those that an event is past,
reclaims what they affect, and stops at the first window that is not over. -/
namespace PerfProf.MultiTrace
variable {ρ : Type*} {c : Config ρ} {s : Trace} {tl : Node} {t : Nat} {L : List LostNode}

/-- The windows that are left after an event at time `t`. -/
def settle (t : Nat) : List LostNode → List LostNode
  | [] => []
  | w :: rest =>
    if t ≤ w.startTime then w :: rest
    else if t < w.endTime then { w with reclaim := true } :: rest
    else settle t rest

/-- The windows whose start an event at time `t` finds behind it, in the order of the loop. -/
def crossed (t : Nat) : List LostNode → List LostNode
  | [] => []
  | w :: rest =>
    if t ≤ w.startTime then []
    else if t < w.endTime then [w]
    else w :: crossed t rest

inductive Verdict where
  | normal | atStart | inside
deriving DecidableEq

/-- Where an event stands among the windows that are left. -/
def verdictOf (t : Nat) : List LostNode → Verdict
  | [] => .normal
  | w :: _ => if t < w.startTime then .normal else if t = w.startTime then .atStart else .inside

def verdict (t : Nat) (L : List LostNode) : Verdict := verdictOf t (settle t L)

/-- The reclaim of one window, with its start as the recent time. -/
def Trace.lostPass (c : Config ρ) (ins : Nat) (s : Trace) (w : LostNode) : Trace :=
  if w.reclaim then s else
    { { s with recentTime := w.startTime }.lostReclaim c ins with recentTime := s.recentTime }

/-- What becomes of the event and of its place on the timeline. -/
def Verdict.drop (v : Verdict) (s : Trace) (tl : Node) : Trace × Node :=
  match v with
  | .normal => (s, tl)
  | .atStart => s.dropBackup tl
  | .inside => s.dropBackup { tl with needFindPrev := false }

/-- The loop of `multi_trace_event_lost` in terms of the windows. -/
theorem eventLostLoop_eq (c : Config ρ) (tl : Node) (L : List LostNode) (s : Trace) :
    s.eventLostLoop c tl L =
      (((verdict tl.time L).drop ((crossed tl.time L).foldl (Trace.lostPass c tl.ins) s) tl).1,
        ((verdict tl.time L).drop ((crossed tl.time L).foldl (Trace.lostPass c tl.ins) s) tl).2,
        settle tl.time L) := by
  induction L generalizing s with
  | nil => rfl
  | cons w rest ih =>
    unfold Trace.eventLostLoop
    by_cases h1 : tl.time < w.startTime
    · have h1' : tl.time ≤ w.startTime := Nat.le_of_lt h1
      simp only [if_pos h1, verdict, settle, crossed, if_pos h1', verdictOf, Verdict.drop,
        List.foldl_nil]
    · by_cases h2 : tl.time = w.startTime
      · have h2' : tl.time ≤ w.startTime := Nat.le_of_eq h2
        simp only [if_neg h1, if_pos h2, verdict, settle, crossed, if_pos h2', verdictOf,
          Verdict.drop, List.foldl_nil]
      · have h3 : ¬ tl.time ≤ w.startTime := by omega
        by_cases h4 : tl.time < w.endTime
        · simp only [if_neg h1, if_neg h2, if_pos h4, verdict, settle, crossed, if_neg h3, verdictOf,
            Verdict.drop, List.foldl_cons, List.foldl_nil]
          rfl
        · simp only [if_neg h1, if_neg h2, if_neg h4, verdict, settle, crossed, if_neg h3,
            List.foldl_cons]
          exact ih _

theorem lostPass_spares (c : Config ρ) (ins : Nat) (s : Trace) (w : LostNode) :
    Spares s (s.lostPass c ins w) := by
  unfold Trace.lostPass
  split
  · exact (Keeps.refl s).spares
  · have h := (lostReclaim_spec c { s with recentTime := w.startTime } ins).1
    exact ⟨h.twos, rfl, h.eventHandled, h.timelineLost, h.perinsLost, h.handledTime, h.backup,
      h.pendingList⟩

theorem lostPass_backup (c : Config ρ) (ins : Nat) (s : Trace) (w : LostNode) :
    (s.lostPass c ins w).backup = if w.reclaim then s.backup else c.reclaimed ins s.backup := by
  unfold Trace.lostPass
  split
  · rfl
  · exact (lostReclaim_spec c { s with recentTime := w.startTime } ins).2

theorem lostPasses_spares (c : Config ρ) (ins : Nat) (L : List LostNode) (s : Trace) :
    Spares s (L.foldl (Trace.lostPass c ins) s) := by
  induction L generalizing s with
  | nil => exact (Keeps.refl s).spares
  | cons w L ih => exact (lostPass_spares c ins s w).trans (ih _)

theorem drop_keeps (v : Verdict) (s : Trace) (tl : Node) : Keeps s (v.drop s tl).1 := by
  cases v with
  | normal => exact Keeps.refl s
  | atStart => exact keeps_dropBackup s tl
  | inside => exact keeps_dropBackup s _

theorem drop_backup (v : Verdict) (s : Trace) (tl : Node) : (v.drop s tl).1.backup = s.backup := by
  have h : ∀ x : Node, (s.dropBackup x).1.backup = s.backup := by
    intro x
    unfold Trace.dropBackup
    split <;> rfl
  cases v with
  | normal => rfl
  | atStart => exact h tl
  | inside => exact h _

/-- The event after the verdict: inside it looks for no partner, and only a normal event is
backed up. -/
theorem drop_event (v : Verdict) (s : Trace) (tl : Node) :
    (v = .normal → (v.drop s tl).2 = tl) ∧
    (v ≠ .normal → (v.drop s tl).2.needBackup = false) ∧
    (v = .inside → (v.drop s tl).2.needFindPrev = false) ∧
    (v ≠ .inside → (v.drop s tl).2.needFindPrev = tl.needFindPrev) := by
  have h : ∀ x : Node, (s.dropBackup x).2.needBackup = false ∧
      (s.dropBackup x).2.needFindPrev = x.needFindPrev := by
    intro x
    unfold Trace.dropBackup
    by_cases hx : x.needBackup = true
    · rw [if_pos hx]
      exact ⟨rfl, rfl⟩
    · rw [if_neg hx]
      exact ⟨Bool.eq_false_iff.mpr hx, rfl⟩
  cases v with
  | normal => exact ⟨fun _ => rfl, fun h => absurd rfl h, nofun, fun _ => rfl⟩
  | atStart => exact ⟨nofun, fun _ => (h tl).1, nofun, fun _ => (h tl).2⟩
  | inside => exact ⟨nofun, fun _ => (h _).1, fun _ => (h _).2, fun h => absurd rfl h⟩

/-- What `multi_trace_event_lost` may not change of the event it looks at. -/
structure SameEvent (tl tl' : Node) : Prop where
  seq : tl'.seq = tl.seq
  time : tl'.time = tl.time
  size : tl'.size = tl.size
  key : tl'.key = tl.key
  tp : tl'.tp = tl.tp
  ins : tl'.ins = tl.ins

theorem dropBackup_same (s : Trace) (tl : Node) : SameEvent tl (s.dropBackup tl).2 := by
  unfold Trace.dropBackup
  split <;> exact ⟨rfl, rfl, rfl, rfl, rfl, rfl⟩

theorem drop_same (v : Verdict) (s : Trace) (tl : Node) : SameEvent tl (v.drop s tl).2 := by
  cases v with
  | normal => exact ⟨rfl, rfl, rfl, rfl, rfl, rfl⟩
  | atStart => exact dropBackup_same s tl
  | inside =>
    have h := dropBackup_same s { tl with needFindPrev := false }
    exact ⟨h.seq, h.time, h.size, h.key, h.tp, h.ins⟩

/-- The list of lost windows an event of instance `ins` is checked against. -/
def Trace.windowsOf (c : Config ρ) (s : Trace) (ins : Nat) : List LostNode :=
  match c.lostAffect with
  | .insEvent => s.perinsLost ins
  | .allEvent => s.timelineLost

def Trace.setWindows (c : Config ρ) (s : Trace) (ins : Nat) (L : List LostNode) : Trace :=
  match c.lostAffect with
  | .insEvent => { s with perinsLost := Function.update s.perinsLost ins L }
  | .allEvent => { s with timelineLost := L }

theorem Spares.windowsOf {s' : Trace} (h : Spares s s') (i : Nat) : s'.windowsOf c i = s.windowsOf c i := by
  simp only [Trace.windowsOf, h.perinsLost, h.timelineLost]

/-- Does a lost record of instance `ins` affect the event? -/
def Config.affects (c : Config ρ) (ins : Nat) (e : Node) : Prop :=
  c.lostAffect = .allEvent ∨ e.ins = ins

theorem windowsOf_affects {ins : Nat} {e : Node} (h : c.affects ins e) (s : Trace) :
    s.windowsOf c ins = s.windowsOf c e.ins := by
  cases h with
  | inl h => simp only [Trace.windowsOf, h]
  | inr h => rw [h]

theorem windowsOf_setWindows (s : Trace) (ins i : Nat) :
    (s.setWindows c ins L).windowsOf c i =
      if c.lostAffect = .allEvent ∨ i = ins then L else s.windowsOf c i := by
  unfold Trace.setWindows Trace.windowsOf
  cases c.lostAffect with
  | insEvent => simp [Function.update_apply]
  | allEvent => simp

theorem windowsOf_setWindows_self (s : Trace) (ins : Nat) :
    (s.setWindows c ins L).windowsOf c ins = L := by
  rw [windowsOf_setWindows, if_pos (Or.inr rfl)]

theorem windowsOf_setWindows_of_not {ins : Nat} {e : Node} (h : ¬ c.affects ins e) (s : Trace) :
    (s.setWindows c e.ins L).windowsOf c ins = s.windowsOf c ins := by
  rw [windowsOf_setWindows, if_neg]
  exact fun hor => h (hor.imp_right Eq.symm)

/-- `multi_trace_event_lost`, as its loop over the windows of the event's instance. -/
theorem eventLost_eq (c : Config ρ) (s : Trace) (tl : Node) :
    s.eventLost c tl =
      ((((verdict tl.time (s.windowsOf c tl.ins)).drop
        ((crossed tl.time (s.windowsOf c tl.ins)).foldl (Trace.lostPass c tl.ins)
          { s with handledTime := tl.time }) tl).1).setWindows c tl.ins
            (settle tl.time (s.windowsOf c tl.ins)),
        ((verdict tl.time (s.windowsOf c tl.ins)).drop
          ((crossed tl.time (s.windowsOf c tl.ins)).foldl (Trace.lostPass c tl.ins)
            { s with handledTime := tl.time }) tl).2) := by
  unfold Trace.eventLost Trace.windowsOf Trace.setWindows
  cases c.lostAffect with
  | insEvent => simp only [eventLostLoop_eq, (drop_same _ _ _).ins]
  | allEvent => simp only [eventLostLoop_eq]

theorem settle_past (h : ∀ w ∈ L, w.startTime < t ∧ w.endTime ≤ t) : settle t L = [] := by
  induction L with
  | nil => rfl
  | cons w rest ih =>
    have hw := h w (List.mem_cons_self ..)
    rw [settle, if_neg (by omega), if_neg (by omega)]
    exact ih fun w' hw' => h w' (List.mem_cons_of_mem _ hw')

/-- Without windows only the clock of the handled events moves. -/
theorem eventLost_none (h : s.windowsOf c tl.ins = []) :
    s.eventLost c tl = ({ s with handledTime := tl.time }, tl) := by
  rw [eventLost_eq, h]
  have hset : ∀ u : Trace, u.windowsOf c tl.ins = [] → u.setWindows c tl.ins [] = u := by
    intro u hu
    unfold Trace.windowsOf at hu
    unfold Trace.setWindows
    cases hl : c.lostAffect with
    | insEvent =>
      rw [hl] at hu
      dsimp only at hu ⊢
      rw [← hu, Function.update_eq_self]
    | allEvent =>
      rw [hl] at hu
      dsimp only at hu ⊢
      rw [← hu]
  simp only [verdict, settle, verdictOf, crossed, List.foldl_nil, Verdict.drop]
  exact congrArg (·, tl) (hset { s with handledTime := tl.time } h)

theorem setWindows_frame (c : Config ρ) (s : Trace) (ins : Nat) (L : List LostNode) :
    (s.setWindows c ins L).backup = s.backup ∧ (s.setWindows c ins L).calls = s.calls ∧
    (s.setWindows c ins L).handledTime = s.handledTime ∧
    (s.setWindows c ins L).pendingList = s.pendingList ∧
    (s.setWindows c ins L).eventHandled = s.eventHandled ∧
    (s.setWindows c ins L).recentTime = s.recentTime := by
  unfold Trace.setWindows
  cases c.lostAffect <;> exact ⟨rfl, rfl, rfl, rfl, rfl, rfl⟩

/-- What handling an event makes of the state: its windows are settled, and only a normal event is
backed up. -/
structure Handled (c : Config ρ) (s s' : Trace) (tl : Node) : Prop where
  own : ∀ i, c.affects i tl → s'.windowsOf c i = settle tl.time (s.windowsOf c i)
  other : ∀ i, ¬ c.affects i tl → s'.windowsOf c i = s.windowsOf c i
  pendingList : s'.pendingList.Sublist s.pendingList
  backup : ∀ b ∈ s'.backup, b ∈ s.backup ∨
    b.key = tl.key ∧ verdict tl.time (s.windowsOf c tl.ins) = .normal
  eventHandled : s'.eventHandled = s.eventHandled
  recentTime : s'.recentTime = s.recentTime

theorem Handled.spares {s' s'' : Trace} (h : Handled c s s' tl) (hs : Spares s' s'') :
    Handled c s s'' tl := by
  refine ⟨?_, ?_, hs.pendingList.trans h.pendingList, fun b hb => h.backup b (hs.backup.subset hb),
    hs.eventHandled.trans h.eventHandled, hs.recentTime.trans h.recentTime⟩
  · intro i hi
    rw [hs.windowsOf]
    exact h.own i hi
  · intro i hi
    rw [hs.windowsOf]
    exact h.other i hi

theorem eventLost_handled (c : Config ρ) (s : Trace) (tl : Node) :
    Handled c s (s.eventLost c tl).1 tl := by
  obtain ⟨L, hL⟩ : ∃ L, s.windowsOf c tl.ins = L := ⟨_, rfl⟩
  rw [eventLost_eq, hL]
  have hsp := (lostPasses_spares c tl.ins (crossed tl.time L) { s with handledTime := tl.time }).trans
    (drop_keeps (verdict tl.time L) _ tl).spares
  obtain ⟨hb, -, -, hp, he, hr⟩ := setWindows_frame c ((verdict tl.time L).drop
    ((crossed tl.time L).foldl (Trace.lostPass c tl.ins) { s with handledTime := tl.time }) tl).1
    tl.ins (settle tl.time L)
  refine ⟨?_, ?_, ?_, ?_, he.trans hsp.eventHandled, hr.trans hsp.recentTime⟩
  · intro i hi
    rw [windowsOf_affects hi, windowsOf_setWindows_self, windowsOf_affects hi, hL]
  · intro i hi
    rw [windowsOf_setWindows_of_not hi, hsp.windowsOf]
    rfl
  · rw [hp]
    exact hsp.pendingList
  · rw [hb]
    exact fun b hmem => Or.inl (hsp.backup.subset hmem)

theorem handle_spec (c : Config ρ) (s : Trace) (tl : Node) (needFree : Bool) :
    Handled c s (s.handle c tl needFree).1 tl := by
  have hlost := eventLost_handled c s tl
  have hsame : SameEvent tl (s.eventLost c tl).2 := by
    rw [eventLost_eq]
    exact drop_same _ _ _
  have hdrop : (s.eventLost c tl).2.needBackup = true →
      verdict tl.time (s.windowsOf c tl.ins) = .normal := by
    rw [eventLost_eq]
    intro hb
    by_contra hv
    rw [(drop_event _ _ tl).2.1 hv] at hb
    cases hb
  unfold Trace.handle
  obtain ⟨⟨s₁, e⟩, he⟩ : ∃ x, s.eventLost c tl = x := ⟨_, rfl⟩
  rw [he] at hlost hsame hdrop ⊢
  dsimp only at hlost hsame hdrop ⊢
  obtain ⟨calls, hk, -⟩ := tryCallTwo_cases c s₁ e needFree
  obtain ⟨s₃, hk₃, hor⟩ := tryBackup_cases c (s₁.tryCallTwo c e needFree).1 e
    (s₁.tryCallTwo c e needFree).2
  have hcalls : Handled c s { s₁ with calls := calls } tl :=
    ⟨hlost.own, hlost.other, hlost.pendingList, hlost.backup, hlost.eventHandled, hlost.recentTime⟩
  have h₃ : Handled c s s₃ tl := (hcalls.spares hk.spares).spares hk₃.spares
  rcases hor with hor | ⟨hneed, hor⟩
  · rw [hor]
    exact h₃
  · obtain ⟨hb, hins⟩ := backupInsert_spec c s₃ e
    rw [hor]
    refine Handled.spares ?_ hins.spares
    refine ⟨h₃.own, h₃.other, h₃.pendingList, ?_, h₃.eventHandled, h₃.recentTime⟩
    intro b hmem
    rw [hb] at hmem
    cases mem_insertBy.mp hmem with
    | inl hbe => exact Or.inr ⟨by rw [hbe, hsame.key], hdrop hneed⟩
    | inr hold => exact h₃.backup b hold

theorem pendingLoop_clock (c : Config ρ) (tail : Node) (fuel : Nat) (s : Trace) (needFree : Bool) :
    (Trace.pendingLoop c tail fuel s needFree).1.eventHandled = s.eventHandled ∧
      (Trace.pendingLoop c tail fuel s needFree).1.recentTime = s.recentTime := by
  induction fuel generalizing s needFree with
  | zero => exact ⟨rfl, rfl⟩
  | succ fuel ih =>
    unfold Trace.pendingLoop
    split
    · exact ⟨rfl, rfl⟩
    · rename_i first s₁ hfirst
      have hk := keeps_firstPending hfirst
      have hh := handle_spec c s₁ first needFree
      have hl := ih (s₁.handle c first needFree).1 (s₁.handle c first needFree).2
      exact ⟨hl.1.trans (hh.eventHandled.trans hk.eventHandled),
        hl.2.trans (hh.recentTime.trans hk.recentTime)⟩

/-- An event that has a tracepoint is counted once. -/
theorem sample_clock {ev : Event ρ} {ref : TpRef} {tp : Tp ρ} {tp1 : Option TpRef}
    (hfind : findTp ev.evsel 0 c.tpList = some (ref, tp, tp1)) :
    (s.sample c ev).eventHandled = s.eventHandled + 1 ∧
      (s.sample c ev).recentTime = max s.recentTime ev.time := by
  rw [sample_found hfind]
  split
  · unfold Trace.sampleTimeline
    split
    · exact ⟨rfl, rfl⟩
    · split
      · exact ⟨rfl, rfl⟩
      · rename_i s₁ hadd
        obtain ⟨hk, -, -⟩ := timelineAdd_cases hadd
        have hl := pendingLoop_clock c (mkNode c ref tp tp1 ev s.eventHandled) s₁.pendingList.length
          s₁ (mkNode c ref tp tp1 ev s.eventHandled).unneeded
        dsimp only
        split
        · have hf := keeps_timelineFreeUnneeded c (Trace.pendingLoop c
            (mkNode c ref tp tp1 ev s.eventHandled) s₁.pendingList.length s₁
            (mkNode c ref tp tp1 ev s.eventHandled).unneeded).1
          exact ⟨hf.eventHandled.trans (hl.1.trans hk.eventHandled),
            hf.recentTime.trans (hl.2.trans hk.recentTime)⟩
        · exact ⟨hl.1.trans hk.eventHandled, hl.2.trans hk.recentTime⟩
  · unfold Trace.samplePlain
    split
    · exact ⟨rfl, rfl⟩
    · have hh := handle_spec c (s.tick ev.time) (mkNode c ref tp tp1 ev s.eventHandled) false
      exact ⟨hh.eventHandled, hh.recentTime⟩

end PerfProf.MultiTrace
