import Mathlib.Data.List.Basic
import PerfProf.MultiTrace

/-! What the operations of the context leave alone: taking nodes off the lists and trees, and
calling `class->remaining` for the events a lost record reclaims. -/
namespace PerfProf.MultiTrace
variable {ρ : Type*} {c : Config ρ} {s s' s'' : Trace}

/-- Nodes go, and nothing else happens. -/
structure Keeps (s s' : Trace) : Prop where
  calls : s'.calls = s.calls
  recentTime : s'.recentTime = s.recentTime
  eventHandled : s'.eventHandled = s.eventHandled
  timelineLost : s'.timelineLost = s.timelineLost
  perinsLost : s'.perinsLost = s.perinsLost
  handledTime : s'.handledTime = s.handledTime
  backup : s'.backup.Sublist s.backup
  pendingList : s'.pendingList.Sublist s.pendingList

theorem Keeps.refl (s : Trace) : Keeps s s :=
  ⟨rfl, rfl, rfl, rfl, rfl, rfl, List.Sublist.refl _, List.Sublist.refl _⟩

theorem Keeps.trans (h : Keeps s s') (h' : Keeps s' s'') : Keeps s s'' :=
  ⟨h'.calls.trans h.calls, h'.recentTime.trans h.recentTime, h'.eventHandled.trans h.eventHandled,
    h'.timelineLost.trans h.timelineLost, h'.perinsLost.trans h.perinsLost,
    h'.handledTime.trans h.handledTime, h'.backup.trans h.backup,
    h'.pendingList.trans h.pendingList⟩

theorem Keeps.foldl {f : Trace → Node → Trace} (hf : ∀ s b, Keeps s (f s b)) (l : List Node)
    (s : Trace) : Keeps s (l.foldl f s) := by
  induction l generalizing s with
  | nil => exact Keeps.refl s
  | cons b l ih => exact (hf s b).trans (ih (f s b))

theorem keeps_setUnneeded (s : Trace) (b : Node) : Keeps s (s.setUnneeded b) :=
  ⟨rfl, rfl, rfl, rfl, rfl, rfl, List.Sublist.refl _, List.Sublist.refl _⟩

theorem keeps_dropBackup (s : Trace) (tl : Node) : Keeps s (s.dropBackup tl).1 := by
  unfold Trace.dropBackup
  split
  · exact keeps_setUnneeded s tl
  · exact Keeps.refl s

theorem keeps_backupRemove (c : Config ρ) (s : Trace) (b : Node) : Keeps s (s.backupRemove c b) := by
  unfold Trace.backupRemove Trace.backupNodeDelete
  split <;> exact ⟨rfl, rfl, rfl, rfl, rfl, rfl, List.filter_sublist, List.Sublist.refl _⟩

theorem keeps_backupExit (c : Config ρ) (s : Trace) : Keeps s (s.backupExit c) :=
  Keeps.foldl (keeps_backupRemove c) s.backup s

theorem keeps_timelineRemove (s : Trace) (b : Node) : Keeps s (s.timelineRemove b) := by
  unfold Trace.timelineRemove
  dsimp only
  split <;> split <;>
    exact ⟨rfl, rfl, rfl, rfl, rfl, rfl, List.Sublist.refl _, by
      first | exact List.filter_sublist | exact List.Sublist.refl _⟩

theorem keeps_timelineExit (s : Trace) : Keeps s s.timelineExit :=
  Keeps.foldl keeps_timelineRemove s.timeline s

theorem keeps_freeNode (c : Config ρ) (s : Trace) (tl : Node) : Keeps s (s.freeNode c tl) := by
  unfold Trace.freeNode
  split
  · exact keeps_timelineRemove s tl
  · split
    · exact (keeps_backupRemove c s _).trans (keeps_timelineRemove _ _)
    · have h : Keeps s { s with bugs := s.bugs + 1 } :=
        ⟨rfl, rfl, rfl, rfl, rfl, rfl, List.Sublist.refl _, List.Sublist.refl _⟩
      exact h.trans (keeps_timelineRemove _ _)

theorem keeps_freeLoop (c : Config ρ) (limit fuel : Nat) (s : Trace) :
    Keeps s (Trace.freeLoop c limit fuel s) := by
  induction fuel generalizing s with
  | zero => exact Keeps.refl s
  | succ fuel ih =>
    unfold Trace.freeLoop
    split
    · exact Keeps.refl s
    · split
      · exact (keeps_freeNode c s _).trans (ih _)
      · exact Keeps.refl s

theorem keeps_timelineFreeUnneeded (c : Config ρ) (s : Trace) :
    Keeps s (s.timelineFreeUnneeded c) :=
  keeps_freeLoop c _ _ s

/-- The first pending event is taken off its list. -/
def Trace.popPending (s : Trace) (first : Node) (rest : List Node) : Trace :=
  ({ s with pendingList := rest }).count fun st =>
    { st with pending := st.pending - 1, pendingBytes := st.pendingBytes - first.size }

/-- What `multi_trace_first_pending` does when it returns an event. -/
theorem firstPending_cases {tail : Option Node} {first : Node}
    (h : s.firstPending c tail = some (first, s')) :
    ∃ p rest, s.pendingList = p :: rest ∧ first = { p with unneeded := !p.needBackup } ∧
      s' = if p.needBackup then s.popPending p rest else (s.popPending p rest).setUnneeded p := by
  unfold Trace.firstPending at h
  split at h
  · cases h
  · rename_i p rest hp
    simp only at h
    split at h
    · refine ⟨p, rest, hp, ?_⟩
      by_cases hn : p.needBackup = true
      · rw [if_pos hn] at h
        cases h
        rw [if_pos hn, hn]
        exact ⟨rfl, rfl⟩
      · rw [if_neg hn] at h
        cases h
        rw [if_neg hn, Bool.eq_false_iff.mpr hn]
        exact ⟨rfl, rfl⟩
    · cases h

/-- The node `multi_trace_first_pending` returns for a pending one. -/
def popped (p : Node) : Node := { p with unneeded := !p.needBackup }

/-- Without `after_event2` no pending event has to wait. -/
theorem firstPending_isSome (ha : c.afterEvent2 = 0) {p : Node} {ps : List Node}
    (hp : s.pendingList = p :: ps) (ht : p.time < 2 ^ 64) (tail : Node) :
    s.firstPending c (some tail) ≠ none := by
  have hd : p.time ≤ Trace.deadline c (some tail) := by
    simp only [Trace.deadline, ha, ne_eq, not_true_eq_false, if_false]
    omega
  unfold Trace.firstPending
  rw [hp]
  simp only [if_pos hd]
  split <;> exact nofun

theorem keeps_popPending {p : Node} {rest : List Node} (hp : s.pendingList = p :: rest) :
    Keeps s (s.popPending p rest) :=
  ⟨rfl, rfl, rfl, rfl, rfl, rfl, List.Sublist.refl _, by
    rw [hp]
    exact List.sublist_cons_self p rest⟩

theorem keeps_firstPending {tail : Option Node} {first : Node}
    (h : s.firstPending c tail = some (first, s')) : Keeps s s' := by
  obtain ⟨p, rest, hp, -, rfl⟩ := firstPending_cases h
  split
  · exact keeps_popPending hp
  · exact (keeps_popPending hp).trans (keeps_setUnneeded _ _)

theorem keeps_drainPending (c : Config ρ) (fuel : Nat) (s : Trace) :
    Keeps s (Trace.drainPending c fuel s) := by
  induction fuel generalizing s with
  | zero => exact Keeps.refl s
  | succ fuel ih =>
    unfold Trace.drainPending
    split
    · exact Keeps.refl s
    · rename_i first s₁ hfirst
      exact (keeps_firstPending hfirst).trans (ih s₁)

/-- Only `multi_trace_handle_remaining` of the final flush calls the class. -/
theorem keeps_flush (c : Config ρ) (s : Trace) :
    Keeps (s.handleRemaining c .exit s.backup) (s.flush c) :=
  ((keeps_drainPending c _ _).trans (keeps_backupExit c _)).trans (keeps_timelineExit _)

theorem removeAll_backup (c : Config ρ) (s : Trace) (l : List Node) :
    (l.foldl (fun s b => s.backupRemove c b) s).backup =
      s.backup.filter fun n => n.seq ∉ l.map Node.seq := by
  induction l generalizing s with
  | nil => simp
  | cons b l ih =>
    have hb : (s.backupRemove c b).backup = s.backup.filter fun n => n.seq ≠ b.seq := by
      unfold Trace.backupRemove Trace.backupNodeDelete
      split <;> rfl
    rw [List.foldl_cons, ih, hb, List.filter_filter]
    apply List.filter_congr
    intro n _
    simp only [List.map_cons, List.mem_cons, not_or, decide_not, Bool.decide_and]
    exact Bool.and_comm ..

theorem backupExit_backup (c : Config ρ) (s : Trace) : (s.backupExit c).backup = [] := by
  rw [Trace.backupExit, removeAll_backup, List.filter_eq_nil_iff]
  intro n hn
  simpa using ⟨n, hn, rfl⟩

section Reclaim

def isTwo : ClassCall → Bool
  | .two .. => true
  | .remaining .. => false

/-- Nodes go, and `class->remaining` may be called. -/
structure Spares (s s' : Trace) : Prop where
  twos : s'.calls.filter isTwo = s.calls.filter isTwo
  recentTime : s'.recentTime = s.recentTime
  eventHandled : s'.eventHandled = s.eventHandled
  timelineLost : s'.timelineLost = s.timelineLost
  perinsLost : s'.perinsLost = s.perinsLost
  handledTime : s'.handledTime = s.handledTime
  backup : s'.backup.Sublist s.backup
  pendingList : s'.pendingList.Sublist s.pendingList

theorem Keeps.spares (h : Keeps s s') : Spares s s' :=
  ⟨congrArg _ h.calls, h.recentTime, h.eventHandled, h.timelineLost, h.perinsLost, h.handledTime,
    h.backup, h.pendingList⟩

theorem Spares.trans (h : Spares s s') (h' : Spares s' s'') : Spares s s'' :=
  ⟨h'.twos.trans h.twos, h'.recentTime.trans h.recentTime, h'.eventHandled.trans h.eventHandled,
    h'.timelineLost.trans h.timelineLost, h'.perinsLost.trans h.perinsLost,
    h'.handledTime.trans h.handledTime, h'.backup.trans h.backup,
    h'.pendingList.trans h.pendingList⟩

/-- `multi_trace_call_remaining` changes the calls, and by remaining calls only. -/
theorem callRemaining_fst (c : Config ρ) (s : Trace) (left : Node) (rr : Reason) :
    ∃ calls, (s.callRemaining c left rr).1 = { s with calls := calls } ∧
      calls.filter isTwo = s.calls.filter isTwo := by
  unfold Trace.callRemaining
  split
  · exact ⟨_, rfl, by simp [isTwo]⟩
  · exact ⟨s.calls, rfl, rfl⟩

theorem handleRemaining_fst (c : Config ρ) (s : Trace) (rr : Reason) (l : List Node) :
    ∃ calls, s.handleRemaining c rr l = { s with calls := calls } ∧
      calls.filter isTwo = s.calls.filter isTwo := by
  induction l generalizing s with
  | nil => exact ⟨s.calls, rfl, rfl⟩
  | cons left rest ih =>
    obtain ⟨calls, hcalls, htwo⟩ := callRemaining_fst c s left rr
    unfold Trace.handleRemaining
    split
    · rename_i s₁ hs
      rw [hs] at hcalls
      exact ⟨calls, hcalls, htwo⟩
    · rename_i s₁ hs
      rw [hs] at hcalls
      obtain ⟨calls', h', htwo'⟩ := ih s₁
      rw [show s₁ = _ from hcalls] at h' htwo'
      exact ⟨calls', by rw [show s₁ = _ from hcalls, h'], htwo'.trans htwo⟩

theorem spares_calls {calls : List ClassCall} (h : calls.filter isTwo = s.calls.filter isTwo) :
    Spares s { s with calls := calls } :=
  ⟨h, rfl, rfl, rfl, rfl, rfl, List.Sublist.refl _, List.Sublist.refl _⟩

/-- The loop of `reclaim` takes the nodes off whether `class->remaining` breaks or not. -/
theorem reclaimNodes_spec (c : Config ρ) (rr : Reason) (l : List Node) (stop : Bool) (s : Trace) :
    Spares s (s.reclaimNodes c rr stop l) ∧
      (s.reclaimNodes c rr stop l).backup = s.backup.filter fun n => n.seq ∉ l.map Node.seq := by
  induction l generalizing s stop with
  | nil =>
    cases stop <;> exact ⟨(Keeps.refl s).spares, by simp [Trace.reclaimNodes]⟩
  | cons b l ih =>
    have hstep : ∀ (calls : List ClassCall) (stop' : Bool),
        calls.filter isTwo = s.calls.filter isTwo →
        Spares s (({ s with calls := calls }.backupRemove c b).reclaimNodes c rr stop' l) ∧
        (({ s with calls := calls }.backupRemove c b).reclaimNodes c rr stop' l).backup =
          s.backup.filter fun n => n.seq ∉ (b :: l).map Node.seq := by
      intro calls stop' hcalls
      obtain ⟨hs, hb⟩ := ih stop' ({ s with calls := calls }.backupRemove c b)
      refine ⟨((spares_calls hcalls).trans (keeps_backupRemove c _ b).spares).trans hs, ?_⟩
      rw [hb, ← removeAll_backup c _ l]
      exact removeAll_backup c { s with calls := calls } (b :: l)
    cases stop with
    | true => exact hstep s.calls true rfl
    | false =>
      obtain ⟨calls, hcalls, htwo⟩ := callRemaining_fst c s b rr
      rw [Trace.reclaimNodes]
      split
      rename_i s₁ stop' hs
      rw [hs] at hcalls
      rw [show s₁ = { s with calls := calls } from hcalls]
      exact hstep calls stop' htwo

/-- What a lost record of instance `ins` leaves in `backup`. -/
def Config.reclaimed (c : Config ρ) (ins : Nat) (backup : List Node) : List Node :=
  match c.lostAffect with
  | .insEvent =>
    backup.filter fun n => n.seq ∉ (backup.filter fun b => b.key = c.insKey ins).map Node.seq
  | .allEvent => []

theorem lostReclaim_spec (c : Config ρ) (s : Trace) (ins : Nat) :
    Spares s (s.lostReclaim c ins) ∧ (s.lostReclaim c ins).backup = c.reclaimed ins s.backup := by
  unfold Trace.lostReclaim Config.reclaimed
  cases c.lostAffect with
  | insEvent => exact reclaimNodes_spec c .lost _ false s
  | allEvent =>
    obtain ⟨calls, hcalls, htwo⟩ := handleRemaining_fst c s .lost s.backup
    simp only [hcalls]
    exact ⟨(spares_calls htwo).trans (keeps_backupExit c _).spares, backupExit_backup c _⟩

theorem spares_flush (c : Config ρ) (s : Trace) : Spares s (s.flush c) := by
  obtain ⟨calls, hcalls, htwo⟩ := handleRemaining_fst c s .exit s.backup
  have h := (keeps_flush c s).spares
  rw [hcalls] at h
  exact (spares_calls htwo).trans h

end Reclaim

theorem timelineAdd_cases {e : Node} {untraced : Bool} (h : s.timelineAdd e untraced = some s') :
    Keeps { s with pendingList := s'.pendingList } s' ∧ s'.backup = s.backup ∧
      s'.pendingList = if untraced then s.pendingList
        else s.pendingList ++ [{ e with unneeded := false }] := by
  unfold Trace.timelineAdd at h
  split at h
  · cases h
  · cases h
    cases untraced with
    | true =>
      cases hu : e.unneeded <;> simp only [hu, if_true, Bool.false_eq_true, if_false] <;>
        exact ⟨⟨rfl, rfl, rfl, rfl, rfl, rfl, List.Sublist.refl _, List.Sublist.refl _⟩, rfl, rfl⟩
    | false =>
      exact ⟨⟨rfl, rfl, rfl, rfl, rfl, rfl, List.Sublist.refl _, List.Sublist.refl _⟩, rfl, rfl⟩

/-- `multi_trace_tryto_call_two`: at most one call, with a backed up event or alone. -/
theorem tryCallTwo_cases (c : Config ρ) (s : Trace) (tl : Node) (needFree : Bool) :
    ∃ calls, Keeps { s with calls := calls } (s.tryCallTwo c tl needFree).1 ∧
      (calls = s.calls ∨ tl.needFindPrev = true ∧
        ((∃ prev ∈ s.backup, calls = s.calls ++ [.two prev (some tl) tl.key s.recentTime]) ∨
          calls = s.calls ++ [.two tl none tl.key 0])) := by
  unfold Trace.tryCallTwo
  by_cases hf : tl.needFindPrev = true
  · rw [if_pos hf]
    cases hprev : s.findPrev tl.key tl.tp1 with
    | none =>
      dsimp only
      split
      · exact ⟨_, Keeps.refl _, Or.inr ⟨hf, Or.inr rfl⟩⟩
      · exact ⟨s.calls, Keeps.refl _, Or.inl rfl⟩
    | some prev =>
      have hmem : prev ∈ s.backup := List.mem_of_find?_eq_some hprev
      have hfst : ∀ u : Trace, Keeps u (if tl.needRemoveFromBackup = true then
          (u.backupRemove c prev, true) else (u, needFree)).1 := by
        intro u
        split
        · exact keeps_backupRemove c u prev
        · exact Keeps.refl u
      dsimp only
      by_cases ho : (c.objectFind prev.tp (some tl.tp) && decide (prev.time < tl.time)) = true
      · rw [if_pos ho]
        exact ⟨_, hfst _, Or.inr ⟨hf, Or.inl ⟨prev, hmem, rfl⟩⟩⟩
      · rw [if_neg ho]
        exact ⟨s.calls, hfst s, Or.inl rfl⟩
  · rw [if_neg hf]
    exact ⟨s.calls, Keeps.refl _, Or.inl rfl⟩

/-- `multi_trace_tryto_backup`: events are replaced, and at most this one is inserted. -/
theorem tryBackup_cases (c : Config ρ) (s : Trace) (tl : Node) (needFree : Bool) :
    ∃ s₁, Keeps s s₁ ∧ ((s.tryBackup c tl needFree).1 = s₁ ∨
      (tl.needBackup = true ∧ (s.tryBackup c tl needFree).1 = s₁.backupInsert c tl)) := by
  have hretry : ∀ (fuel : Nat) (s : Trace) (nf : Bool), ∃ s₁, Keeps s s₁ ∧
      ((Trace.backupRetry c fuel s tl nf).1 = s₁ ∨
        (Trace.backupRetry c fuel s tl nf).1 = s₁.backupInsert c tl) := by
    intro fuel
    induction fuel with
    | zero => exact fun s nf => ⟨s, Keeps.refl s, Or.inl rfl⟩
    | succ fuel ih =>
      intro s nf
      unfold Trace.backupRetry
      split
      · split
        · exact ⟨_, keeps_setUnneeded s tl, Or.inl rfl⟩
        · rename_i exist _ _
          obtain ⟨s₁, hk, hor⟩ := ih (s.backupRemove c exist) true
          exact ⟨s₁, (keeps_backupRemove c s exist).trans hk, hor⟩
      · exact ⟨s, Keeps.refl s, Or.inr rfl⟩
  unfold Trace.tryBackup
  by_cases hb : tl.needBackup = true
  · rw [if_pos hb]
    obtain ⟨s₁, hk, hor⟩ := hretry (s.backup.length + 1) s needFree
    exact ⟨s₁, hk, hor.imp_right fun h => ⟨hb, h⟩⟩
  · rw [if_neg hb]
    exact ⟨s, Keeps.refl s, Or.inl rfl⟩

theorem mem_insertBy {before : Node → Node → Bool} {e n : Node} {l : List Node} :
    n ∈ insertBy before e l ↔ n = e ∨ n ∈ l := by
  induction l with
  | nil => simp [insertBy]
  | cons b l ih =>
    unfold insertBy
    split
    · rw [List.mem_cons, ih, List.mem_cons]
      exact ⟨fun h => h.elim (fun h => Or.inr (Or.inl h)) (Or.imp_right Or.inr),
        fun h => h.elim (fun h => Or.inr (Or.inl h)) (Or.imp_right Or.inr)⟩
    · rw [List.mem_cons]

theorem backupInsert_spec (c : Config ρ) (s : Trace) (e : Node) :
    (s.backupInsert c e).backup = insertBy c.backupBefore e s.backup ∧
      Keeps { s with backup := (s.backupInsert c e).backup } (s.backupInsert c e) := by
  unfold Trace.backupInsert
  dsimp only
  split <;>
    exact ⟨rfl, ⟨rfl, rfl, rfl, rfl, rfl, rfl, List.Sublist.refl _, List.Sublist.refl _⟩⟩

/-- The state in which `multi_trace_sample` has counted an event. -/
def Trace.tick (s : Trace) (time : Nat) : Trace :=
  { { s with recentTime := max s.recentTime time } with eventHandled := s.eventHandled + 1 }

theorem sample_not_found {ev : Event ρ} (h : findTp ev.evsel 0 c.tpList = none) :
    s.sample c ev = { s with recentTime := max s.recentTime ev.time } := by
  simp only [Trace.sample, h]

theorem sample_found {ev : Event ρ} {ref : TpRef} {tp : Tp ρ} {tp1 : Option TpRef}
    (h : findTp ev.evsel 0 c.tpList = some (ref, tp, tp1)) :
    s.sample c ev =
      if c.needTimeline then
        (s.tick ev.time).sampleTimeline c (mkNode c ref tp tp1 ev s.eventHandled) tp.untraced
      else (s.tick ev.time).samplePlain c (mkNode c ref tp tp1 ev s.eventHandled) tp.untraced := by
  simp only [Trace.sample, h]
  rfl

theorem findIn_spec {evsel k j : Nat} {tp1 tp1' : Option TpRef} {l : List (Tp ρ)} {ref : TpRef}
    {tp : Tp ρ} (h : findIn evsel k j tp1 l = some (ref, tp, tp1')) :
    ref.list = k ∧ j ≤ ref.idx ∧ l[ref.idx - j]? = some tp := by
  induction l generalizing j tp1 with
  | nil => cases h
  | cons x l ih =>
    unfold findIn at h
    split at h
    · cases h
      exact ⟨rfl, Nat.le_refl _, by simp⟩
    · obtain ⟨h1, h2, h3⟩ := ih h
      refine ⟨h1, by omega, ?_⟩
      rw [show ref.idx - j = (ref.idx - (j+1)) + 1 by omega, List.getElem?_cons_succ]
      exact h3

theorem findTp_spec {evsel k : Nat} {lists : List (List (Tp ρ))} {ref : TpRef} {tp : Tp ρ}
    {tp1 : Option TpRef} (h : findTp evsel k lists = some (ref, tp, tp1)) :
    k ≤ ref.list ∧ (lists.getD (ref.list - k) [])[ref.idx]? = some tp := by
  induction lists generalizing k with
  | nil => cases h
  | cons l lists ih =>
    unfold findTp at h
    split at h
    · rename_i found hfound
      cases h
      obtain ⟨h1, -, h3⟩ := findIn_spec hfound
      refine ⟨by omega, ?_⟩
      rw [h1, Nat.sub_self]
      exact h3
    · obtain ⟨h1, h2⟩ := ih h
      refine ⟨by omega, ?_⟩
      rw [show ref.list - k = (ref.list - (k+1)) + 1 by omega, List.getD_cons_succ]
      exact h2

theorem findTp_lt {evsel : Nat} {ref : TpRef} {tp : Tp ρ} {tp1 : Option TpRef}
    (h : findTp evsel 0 c.tpList = some (ref, tp, tp1)) : ref.list < c.nrList := by
  by_contra hge
  have := (findTp_spec h).2
  rw [Nat.sub_zero, List.getD_eq_getElem?_getD, List.getElem?_eq_none (Nat.le_of_not_lt hge)] at this
  simp at this

theorem mkNode_key {ref : TpRef} {tp : Tp ρ} {tp1 : Option TpRef} {ev : Event ρ} {seq : Nat}
    (hl : c.lostAffect = .insEvent) (hfind : findTp ev.evsel 0 c.tpList = some (ref, tp, tp1)) :
    (mkNode c ref tp tp1 ev seq).key = c.insKey ev.ins := by
  obtain ⟨-, hget⟩ := findTp_spec hfind
  rw [Nat.sub_zero] at hget
  have htp : tp ∈ c.tpList.getD ref.list [] := List.mem_of_getElem? hget
  have hlist : c.tpList.getD ref.list [] ∈ c.tpList := by
    rw [List.getD_eq_getElem?_getD] at htp ⊢
    cases hk : c.tpList[ref.list]? with
    | none => rw [hk] at htp; cases htp
    | some l => exact List.mem_of_getElem? hk
  have hnone : tp.keyProg = none := by
    by_contra hsome
    have hany : (c.tpList.any fun l => l.any fun tp => tp.keyProg.isSome) = true := by
      rw [List.any_eq_true]
      refine ⟨_, hlist, ?_⟩
      rw [List.any_eq_true]
      exact ⟨tp, htp, Option.isSome_iff_ne_none.mpr hsome⟩
    simp only [Config.lostAffect, hany, if_true] at hl
    cases hl
  simp only [mkNode, hnone]

end PerfProf.MultiTrace
