import PerfProf.NestedStack
import PerfProf.DetailRefine

/-! What handling events comes to, without the timeline: events wait in `backup`, lost windows
close over them, pairs are made. Both modes of multi-trace are this machine; they differ
in when an event is handled. -/
namespace PerfProf.MultiTrace
variable {ρ : Type*}

structure Matching where
  backup : List Node
  windows : Nat → List LostNode
  pairs : List (Node × Option Node)

/-- What an event is taken for after the verdict on it. -/
def Verdict.event (v : Verdict) (tl : Node) : Node :=
  let drop (tl : Node) : Node :=
    if tl.needBackup then { tl with needBackup := false, unneeded := true } else tl
  match v with
  | .normal => tl
  | .atStart => drop tl
  | .inside => drop { tl with needFindPrev := false }

/-- `backup` after the windows that an event of instance `ins` has crossed. -/
def Config.reclaimAll (c : Config ρ) (ins : Nat) (W : List LostNode) (backup : List Node) :
    List Node :=
  W.foldl (fun b w => if w.reclaim then b else c.reclaimed ins b) backup

namespace Matching

def setWindows (c : Config ρ) (m : Matching) (ins : Nat) (L : List LostNode) : Matching :=
  { m with windows := fun i => if c.lostAffect = .allEvent ∨ i = ins then L else m.windows i }

def remove (m : Matching) (b : Node) : Matching :=
  { m with backup := m.backup.filter fun n => n.seq ≠ b.seq }

def pair (m : Matching) (a : Node) (b : Option Node) : Matching :=
  { m with pairs := m.pairs ++ [(a, b)] }

def callTwo (c : Config ρ) (m : Matching) (tl : Node) : Matching :=
  if tl.needFindPrev then
    match m.backup.find? fun b => b.key = tl.key && (tl.tp1.isNone || tl.tp1 = some b.tp) with
    | some prev =>
      let m := if c.objectFind prev.tp (some tl.tp) && prev.time < tl.time then
        m.pair prev (some tl) else m
      if tl.needRemoveFromBackup then m.remove prev else m
    | none => if c.implBasedOnCall && c.objectFind tl.tp none then m.pair tl none else m
  else m

def keepRetry (c : Config ρ) : Nat → Matching → Node → Matching
  | 0, m, _ => m
  | fuel+1, m, tl =>
    match m.backup.find? fun b => c.backupSame b tl with
    | some exist => if tl.time < exist.time then m else keepRetry c fuel (m.remove exist) tl
    | none => { m with backup := insertBy c.backupBefore tl m.backup }

def keep (c : Config ρ) (m : Matching) (tl : Node) : Matching :=
  if tl.needBackup then keepRetry c (m.backup.length + 1) m tl else m

def handle (c : Config ρ) (m : Matching) (tl : Node) : Matching :=
  let L := m.windows tl.ins
  let e := (verdict tl.time L).event tl
  let m := { m with backup := c.reclaimAll tl.ins (crossed tl.time L) m.backup }
  ((m.setWindows c tl.ins (settle tl.time L)).callTwo c e).keep c e

/-- A lost record is registered. -/
def lost (c : Config ρ) (m : Matching) (ins : Nat) (w : LostNode) : Matching :=
  m.setWindows c ins (c.addWindow w (m.windows ins))

end Matching

def Trace.matching (c : Config ρ) (s : Trace) : Matching :=
  ⟨s.backup, s.windowsOf c, pairsOf s.calls⟩

section Refine
variable {c : Config ρ} {s s' : Trace} {tl : Node}

theorem pairsOf_filter (calls : List ClassCall) : pairsOf (calls.filter isTwo) = pairsOf calls := by
  unfold pairsOf
  rw [List.filterMap_filter]
  apply List.filterMap_congr
  intro call _
  cases call <;> rfl

theorem Spares.pairs (h : Spares s s') : pairsOf s'.calls = pairsOf s.calls := by
  rw [← pairsOf_filter, h.twos, pairsOf_filter]

theorem Spares.matching (h : Spares s s') :
    s'.matching c = { s.matching c with backup := s'.backup } := by
  have hw : s'.windowsOf c = s.windowsOf c := funext h.windowsOf
  simp only [Trace.matching, hw, h.pairs]

theorem matching_setWindows (s : Trace) (ins : Nat) (L : List LostNode) :
    (s.setWindows c ins L).matching c = (s.matching c).setWindows c ins L := by
  obtain ⟨hb, hc, -, -, -, -⟩ := setWindows_frame c s ins L
  have hw : (s.setWindows c ins L).windowsOf c =
      fun i => if c.lostAffect = .allEvent ∨ i = ins then L else s.windowsOf c i :=
    funext fun i => windowsOf_setWindows s ins i
  simp only [Trace.matching, hb, hc, hw, Matching.setWindows]

theorem drop_eq_event (v : Verdict) (s : Trace) (tl : Node) : (v.drop s tl).2 = v.event tl := by
  have h : ∀ x : Node, (s.dropBackup x).2 =
      if x.needBackup then { x with needBackup := false, unneeded := true } else x := by
    intro x
    unfold Trace.dropBackup
    split <;> rfl
  cases v with
  | normal => rfl
  | atStart => exact h tl
  | inside => exact h _

theorem lostPasses_backup (ins : Nat) (W : List LostNode) (s : Trace) :
    (W.foldl (Trace.lostPass c ins) s).backup = c.reclaimAll ins W s.backup := by
  induction W generalizing s with
  | nil => rfl
  | cons w W ih =>
    rw [List.foldl_cons, ih, lostPass_backup]
    rfl

theorem matching_eventLost (s : Trace) (tl : Node) :
    (s.eventLost c tl).1.matching c =
      Matching.setWindows c { s.matching c with
        backup := c.reclaimAll tl.ins (crossed tl.time (s.windowsOf c tl.ins)) s.backup } tl.ins
        (settle tl.time (s.windowsOf c tl.ins)) ∧
    (s.eventLost c tl).2 = (verdict tl.time (s.windowsOf c tl.ins)).event tl := by
  rw [eventLost_eq]
  refine ⟨?_, drop_eq_event _ _ _⟩
  have hpass := lostPasses_spares c tl.ins (crossed tl.time (s.windowsOf c tl.ins))
    { s with handledTime := tl.time }
  have hdrop := (drop_keeps (verdict tl.time (s.windowsOf c tl.ins))
    ((crossed tl.time (s.windowsOf c tl.ins)).foldl (Trace.lostPass c tl.ins)
      { s with handledTime := tl.time }) tl).spares
  rw [matching_setWindows, (hpass.trans hdrop).matching, drop_backup, lostPasses_backup]
  rfl

theorem matching_backupRemove (s : Trace) (b : Node) :
    (s.backupRemove c b).matching c = (s.matching c).remove b := by
  rw [(keeps_backupRemove c s b).spares.matching, backupRemove_backup]
  rfl

theorem matching_addTwo (s : Trace) (a : Node) (ob : Option Node) (k t : Nat) :
    Trace.matching c { s with calls := s.calls ++ [.two a ob k t] } =
      (s.matching c).pair a ob := by
  simp only [Trace.matching, Matching.pair, pairsOf_append_two]
  rfl

theorem matching_tryCallTwo (s : Trace) (tl : Node) (needFree : Bool) :
    (s.tryCallTwo c tl needFree).1.matching c = (s.matching c).callTwo c tl := by
  unfold Trace.tryCallTwo Matching.callTwo
  by_cases hf : tl.needFindPrev = true
  · rw [if_pos hf, if_pos hf]
    have hfind : s.findPrev tl.key tl.tp1 = (s.matching c).backup.find? fun b =>
        b.key = tl.key && (tl.tp1.isNone || tl.tp1 = some b.tp) := rfl
    rw [hfind]
    cases (s.matching c).backup.find? fun b =>
        b.key = tl.key && (tl.tp1.isNone || tl.tp1 = some b.tp) with
    | none =>
      dsimp only
      split
      · exact matching_addTwo s tl none tl.key 0
      · rfl
    | some prev =>
      dsimp only
      have hpair : Trace.matching c
          (if (c.objectFind prev.tp (some tl.tp) && decide (prev.time < tl.time)) = true then
            { s with calls := s.calls ++ [.two prev (some tl) tl.key s.recentTime] } else s) =
          if (c.objectFind prev.tp (some tl.tp) && decide (prev.time < tl.time)) = true then
            (s.matching c).pair prev (some tl) else s.matching c := by
        split
        · exact matching_addTwo s prev (some tl) tl.key s.recentTime
        · rfl
      by_cases hr : tl.needRemoveFromBackup = true
      · rw [if_pos hr, if_pos hr, matching_backupRemove, hpair]
      · rw [if_neg hr, if_neg hr, hpair]
  · rw [if_neg hf, if_neg hf]

theorem matching_backupRetry (fuel : Nat) (s : Trace) (tl : Node) (needFree : Bool) :
    (Trace.backupRetry c fuel s tl needFree).1.matching c =
      Matching.keepRetry c fuel (s.matching c) tl := by
  induction fuel generalizing s needFree with
  | zero => rfl
  | succ fuel ih =>
    unfold Trace.backupRetry Matching.keepRetry
    have hback : (s.matching c).backup = s.backup := rfl
    rw [hback]
    cases s.backup.find? fun b => c.backupSame b tl with
    | none =>
      obtain ⟨hb, hk⟩ := backupInsert_spec c s tl
      dsimp only
      rw [hk.spares.matching, hb]
      rfl
    | some exist =>
      dsimp only
      split
      · exact (keeps_setUnneeded s tl).spares.matching
      · rw [ih, matching_backupRemove]

theorem matching_tryBackup (s : Trace) (tl : Node) (needFree : Bool) :
    (s.tryBackup c tl needFree).1.matching c = (s.matching c).keep c tl := by
  unfold Trace.tryBackup Matching.keep
  split
  · exact matching_backupRetry _ s tl needFree
  · rfl

/-- Handling an event refines the machine. -/
theorem matching_handle (s : Trace) (tl : Node) (needFree : Bool) :
    (s.handle c tl needFree).1.matching c = (s.matching c).handle c tl := by
  obtain ⟨hm, he⟩ := matching_eventLost (c := c) s tl
  unfold Trace.handle Matching.handle
  obtain ⟨⟨s₁, e⟩, hs⟩ : ∃ x, s.eventLost c tl = x := ⟨_, rfl⟩
  rw [hs] at hm he ⊢
  dsimp only at hm he ⊢
  rw [matching_tryBackup, matching_tryCallTwo, hm, he]
  rfl

end Refine

section Pending
variable {c : Config ρ} {tl : Node}

theorem backupExit_pendingList (c : Config ρ) (s : Trace) :
    (s.backupExit c).pendingList = s.pendingList := by
  have hall : ∀ (l : List Node) (s : Trace),
      (l.foldl (fun s b => s.backupRemove c b) s).pendingList = s.pendingList := by
    intro l
    induction l with
    | nil => exact fun s => rfl
    | cons b l ih =>
      intro s
      rw [List.foldl_cons, ih]
      exact (backupRemove_frame c s b).2
  exact hall s.backup s

theorem reclaimNodes_pendingList (rr : Reason) (l : List Node) (stop : Bool) (s : Trace) :
    (s.reclaimNodes c rr stop l).pendingList = s.pendingList := by
  induction l generalizing s stop with
  | nil => cases stop <;> rfl
  | cons b l ih =>
    cases stop with
    | true =>
      rw [Trace.reclaimNodes, ih]
      exact (backupRemove_frame c s b).2
    | false =>
      obtain ⟨calls, hcalls, -⟩ := callRemaining_fst c s b rr
      rw [Trace.reclaimNodes]
      split
      rename_i s₁ stop' hs
      rw [hs] at hcalls
      rw [ih, (backupRemove_frame c s₁ b).2, show s₁ = { s with calls := calls } from hcalls]

theorem lostReclaim_pendingList (s : Trace) (ins : Nat) :
    (s.lostReclaim c ins).pendingList = s.pendingList := by
  unfold Trace.lostReclaim
  split
  · exact reclaimNodes_pendingList .lost _ false s
  · obtain ⟨calls, hcalls, -⟩ := handleRemaining_fst c s .lost s.backup
    rw [hcalls, backupExit_pendingList]

theorem lostPasses_pendingList (ins : Nat) (W : List LostNode) (s : Trace) :
    (W.foldl (Trace.lostPass c ins) s).pendingList = s.pendingList := by
  induction W generalizing s with
  | nil => rfl
  | cons w W ih =>
    rw [List.foldl_cons, ih]
    unfold Trace.lostPass
    split
    · rfl
    · exact lostReclaim_pendingList { s with recentTime := w.startTime } ins

theorem eventLost_pendingList (s : Trace) (tl : Node) :
    (s.eventLost c tl).1.pendingList = s.pendingList := by
  have hdrop : ∀ (v : Verdict) (u : Trace), (v.drop u tl).1.pendingList = u.pendingList := by
    intro v u
    have h : ∀ x : Node, (u.dropBackup x).1.pendingList = u.pendingList := by
      intro x
      unfold Trace.dropBackup
      split <;> rfl
    cases v with
    | normal => rfl
    | atStart => exact h tl
    | inside => exact h _
  rw [eventLost_eq, (setWindows_frame c _ _ _).2.2.2.1, hdrop, lostPasses_pendingList]

theorem tryCallTwo_pendingList (s : Trace) (tl : Node) (needFree : Bool) :
    (s.tryCallTwo c tl needFree).1.pendingList = s.pendingList := by
  unfold Trace.tryCallTwo
  split
  · split
    · dsimp only
      split
      · rw [(backupRemove_frame c _ _).2]
        split <;> rfl
      · dsimp only
        split <;> rfl
    · split <;> rfl
  · rfl

theorem tryBackup_pendingList (s : Trace) (tl : Node) (needFree : Bool) :
    (s.tryBackup c tl needFree).1.pendingList = s.pendingList := by
  have hretry : ∀ (fuel : Nat) (s : Trace) (nf : Bool),
      (Trace.backupRetry c fuel s tl nf).1.pendingList = s.pendingList := by
    intro fuel
    induction fuel with
    | zero => exact fun s nf => rfl
    | succ fuel ih =>
      intro s nf
      unfold Trace.backupRetry
      split
      · split
        · rfl
        · rw [ih, (backupRemove_frame c s _).2]
      · exact backupInsert_pendingList c s tl
  unfold Trace.tryBackup
  split
  · exact hretry _ s needFree
  · rfl

theorem handle_pendingList (s : Trace) (tl : Node) (needFree : Bool) :
    (s.handle c tl needFree).1.pendingList = s.pendingList := by
  unfold Trace.handle
  dsimp only
  rw [tryBackup_pendingList, tryCallTwo_pendingList, eventLost_pendingList]

end Pending

section Delay
variable {c : Config ρ} {s s' : Trace}

/-- Where matching will stand once the pending events have been handled. -/
def Trace.caughtUp (c : Config ρ) (s : Trace) : Matching :=
  (s.pendingList.map popped).foldl (Matching.handle c) (s.matching c)

theorem caughtUp_nil (h : s.pendingList = []) : s.caughtUp c = s.matching c := by
  rw [Trace.caughtUp, h]
  rfl

/-- Handling pending events, as many as are due, is on the way there. -/
theorem pendingLoop_caughtUp (tail : Node) (fuel : Nat) (s : Trace) (needFree : Bool) :
    (Trace.pendingLoop c tail fuel s needFree).1.caughtUp c = s.caughtUp c := by
  induction fuel generalizing s needFree with
  | zero => rfl
  | succ fuel ih =>
    unfold Trace.pendingLoop
    cases hfirst : s.firstPending c (some tail) with
    | none => rfl
    | some found =>
      obtain ⟨first, s₁⟩ := found
      obtain ⟨p, rest, hp, hpop, hs₁⟩ := firstPending_cases hfirst
      have hrest : s₁.pendingList = rest := by
        rw [hs₁]
        split <;> rfl
      have hback : s₁.backup = s.backup := by
        rw [hs₁]
        split <;> rfl
      have hm : s₁.matching c = s.matching c := by
        rw [(keeps_firstPending hfirst).spares.matching, hback]
        rfl
      dsimp only
      rw [ih, Trace.caughtUp, handle_pendingList, matching_handle, hrest, hm, Trace.caughtUp, hp,
        hpop]
      rfl

theorem timelineAdd_caughtUp {e : Node} {untraced : Bool}
    (hadd : s.timelineAdd e untraced = some s') :
    s'.caughtUp c = if untraced then s.caughtUp c
      else (s.caughtUp c).handle c (popped { e with unneeded := false }) := by
  obtain ⟨hk, hb, hpl⟩ := timelineAdd_cases hadd
  have hm : s'.matching c = s.matching c := by
    rw [hk.spares.matching, hb]
    rfl
  rw [Trace.caughtUp, hm, hpl]
  split
  · rfl
  · rw [List.map_append, List.foldl_append]
    rfl

end Delay

end PerfProf.MultiTrace
