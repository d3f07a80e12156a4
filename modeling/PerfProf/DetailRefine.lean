import PerfProf.LostSafe
import PerfProf.Timeline

/-! The option --detail makes the same calls as the plain mode. Both keep the same events backed up; only
the lists of lost windows may lag behind under --detail, where an event that finds the
timeline empty is skipped, and then they affect nothing that is backed up. -/
namespace PerfProf.MultiTrace
variable {ρ : Type*} {c : Config ρ}

section Lag
variable {L M : List LostNode} {w : LostNode} {t now : Nat}

/-- Over at time `t`, and dropped by an event of that time that gets to it. -/
def LostNode.isOver (t : Nat) (w : LostNode) : Bool := decide (w.startTime < t ∧ w.endTime ≤ t)

def LostNode.started (t : Nat) (w : LostNode) : LostNode :=
  { w with reclaim := w.reclaim || decide (w.startTime < t) }

/-- The windows that are not over at time `t`, marked if they have started. -/
def live (t : Nat) (L : List LostNode) : List LostNode :=
  (L.filter fun w => !w.isOver t).map (LostNode.started t)

theorem live_cons (t : Nat) (w : LostNode) (L : List LostNode) :
    live t (w :: L) = if w.isOver t then live t L else w.started t :: live t L := by
  unfold live
  cases h : w.isOver t with
  | true => simp [h]
  | false => simp [h]

theorem isOver_iff : w.isOver t = true ↔ w.startTime < t ∧ w.endTime ≤ t := decide_eq_true_iff

theorem settle_cons (t : Nat) (w : LostNode) (L : List LostNode) :
    settle t (w :: L) = if w.isOver t then settle t L else
      (if w.startTime < t then { w with reclaim := true } else w) :: L := by
  rw [settle]
  by_cases h1 : t ≤ w.startTime
  · have : ¬ w.startTime < t := by omega
    rw [if_pos h1, if_neg (by rw [isOver_iff]; omega), if_neg this]
  · have hst : w.startTime < t := by omega
    rw [if_neg h1]
    by_cases h2 : t < w.endTime
    · rw [if_pos h2, if_neg (by rw [isOver_iff]; omega), if_pos hst]
    · rw [if_neg h2, if_pos (by rw [isOver_iff]; omega)]

theorem started_eq (t : Nat) (w : LostNode) :
    (if w.startTime < t then { w with reclaim := true } else w) = w.started t := by
  unfold LostNode.started
  by_cases h : w.startTime < t
  · rw [if_pos h]
    simp [h]
  · rw [if_neg h]
    simp [h]

theorem started_started {t' : Nat} (h : t ≤ t') (w : LostNode) :
    (w.started t).started t' = w.started t' := by
  unfold LostNode.started
  by_cases hst : w.startTime < t
  · have : w.startTime < t' := by omega
    simp [hst, this]
  · simp [hst]

theorem live_settle (t : Nat) (L : List LostNode) : live t (settle t L) = live t L := by
  induction L with
  | nil => rfl
  | cons w L ih =>
    rw [settle_cons, live_cons]
    split
    · exact ih
    · rename_i hover
      have hover' : (w.started t).isOver t = false := Bool.eq_false_iff.mpr hover
      rw [started_eq, live_cons, hover', if_neg Bool.false_ne_true,
        started_started (Nat.le_refl t)]

/-- What is over stays over. -/
theorem live_live {t' : Nat} (h : t ≤ t') (L : List LostNode) : live t' (live t L) = live t' L := by
  induction L with
  | nil => rfl
  | cons w L ih =>
    rw [live_cons, live_cons]
    by_cases hover : w.isOver t = true
    · have hover' : w.isOver t' = true := by
        rw [isOver_iff] at hover ⊢
        omega
      rw [if_pos hover, if_pos hover', ih]
    · rw [if_neg hover, live_cons, ih]
      have hsame : (w.started t).isOver t' = w.isOver t' := rfl
      rw [hsame, started_started h]

theorem verdict_live (t : Nat) (L : List LostNode) : verdict t L = verdictOf t (live t L) := by
  unfold verdict
  induction L with
  | nil => rfl
  | cons w L ih =>
    rw [settle_cons, live_cons]
    split
    · exact ih
    · rw [started_eq]
      rfl

theorem settle_settle {t' : Nat} (h : t ≤ t') (L : List LostNode) :
    settle t' (settle t L) = settle t' L := by
  induction L with
  | nil => rfl
  | cons w L ih =>
    rw [settle_cons, settle_cons]
    by_cases hover : w.isOver t = true
    · have hover' : w.isOver t' = true := by
        rw [isOver_iff] at hover ⊢
        omega
      rw [if_pos hover, if_pos hover', ih]
    · rw [if_neg hover, started_eq, started_eq, settle_cons, started_eq]
      have hsame : (w.started t).isOver t' = w.isOver t' := rfl
      rw [hsame, started_started h]

theorem settle_append (t : Nat) (L : List LostNode) (w : LostNode) :
    settle t (L ++ [w]) = if settle t L = [] then settle t [w] else settle t L ++ [w] := by
  induction L with
  | nil => rfl
  | cons x L ih =>
    rw [List.cons_append, settle_cons, settle_cons]
    split
    · exact ih
    · rw [if_neg (List.cons_ne_nil _ _)]
      rfl

/-- Inserting commutes with dropping what is over, in a sorted list. -/
theorem live_insertLost (hs : L.Pairwise fun a b => a.startTime ≤ b.startTime) (w : LostNode) :
    live t (Trace.insertLost w L) =
      if w.isOver t then live t L else Trace.insertLost (w.started t) (live t L) := by
  induction L with
  | nil =>
    rw [Trace.insertLost, live_cons]
    rfl
  | cons pos rest ih =>
    rw [List.pairwise_cons] at hs
    have hins : Trace.insertLost w (pos :: rest) = if w.startTime < pos.startTime then
        w :: pos :: rest else pos :: Trace.insertLost w rest := rfl
    rw [hins]
    by_cases hlt : w.startTime < pos.startTime
    · rw [if_pos hlt, live_cons]
      split
      · rfl
      · -- everything that is left starts later
        have hfront : ∀ M : List LostNode, (∀ x ∈ M, pos.startTime ≤ x.startTime) →
            Trace.insertLost (w.started t) M = w.started t :: M := by
          intro M hM
          cases M with
          | nil => rfl
          | cons x M =>
            have : (w.started t).startTime < x.startTime :=
              Nat.lt_of_lt_of_le hlt (hM x (List.mem_cons_self ..))
            rw [Trace.insertLost, if_pos this]
        rw [hfront]
        intro x hx
        obtain ⟨y, hy, rfl⟩ := List.mem_map.mp hx
        cases List.mem_cons.mp (List.mem_filter.mp hy).1 with
        | inl he => rw [he]; exact Nat.le_refl _
        | inr hr => exact hs.1 y hr
    · rw [if_neg hlt, live_cons, ih hs.2, live_cons]
      have hlt' : ¬ (w.started t).startTime < (pos.started t).startTime := hlt
      by_cases hpos : pos.isOver t = true
      · rw [if_pos hpos, if_pos hpos]
      · rw [if_neg hpos, if_neg hpos]
        split
        · rfl
        · rw [Trace.insertLost, if_neg hlt']

/-- The windows under --detail and in the plain mode, from `now` on. Where the list is sorted, it
may keep windows that are over behind others; else it may keep them in front only. -/
def Lagging (c : Config ρ) (now : Nat) (L M : List LostNode) : Prop :=
  match c.lostAffect with
  | .insEvent => ∀ t, now ≤ t → settle t L = settle t M
  | .allEvent => L.Pairwise (fun a b => a.startTime ≤ b.startTime) ∧
    M.Pairwise (fun a b => a.startTime ≤ b.startTime) ∧ live now L = live now M

theorem Lagging.later (h : Lagging c now L M) (ht : now ≤ t) : Lagging c t L M := by
  unfold Lagging at h ⊢
  cases hl : c.lostAffect with
  | insEvent =>
    rw [hl] at h
    exact fun t' ht' => h t' (Nat.le_trans ht ht')
  | allEvent =>
    rw [hl] at h
    obtain ⟨h1, h2, h3⟩ := h
    exact ⟨h1, h2, by rw [← live_live ht L, h3, live_live ht M]⟩

theorem Lagging.verdict_eq (h : Lagging c now L M) (ht : now ≤ t) : verdict t L = verdict t M := by
  have h := h.later ht
  unfold Lagging at h
  cases hl : c.lostAffect with
  | insEvent =>
    rw [hl] at h
    rw [verdict, verdict, h t (Nat.le_refl t)]
  | allEvent =>
    rw [hl] at h
    rw [verdict_live, verdict_live, h.2.2]

theorem Lagging.settle_right (h : Lagging c now L M) (ht : now ≤ t) :
    Lagging c t L (settle t M) := by
  have h := h.later ht
  unfold Lagging at h ⊢
  cases hl : c.lostAffect with
  | insEvent =>
    rw [hl] at h
    exact fun t' ht' => (h t' ht').trans (settle_settle ht' M).symm
  | allEvent =>
    rw [hl] at h
    exact ⟨h.1, settle_sorted h.2.1, h.2.2.trans (live_settle t M).symm⟩

theorem Lagging.settle_both (h : Lagging c now L M) (ht : now ≤ t) :
    Lagging c t (settle t L) (settle t M) := by
  have h := h.settle_right ht
  unfold Lagging at h ⊢
  cases hl : c.lostAffect with
  | insEvent =>
    rw [hl] at h
    exact fun t' ht' => (settle_settle ht' L).trans (h t' ht')
  | allEvent =>
    rw [hl] at h
    exact ⟨settle_sorted h.1, h.2.1, (live_settle t L).trans h.2.2⟩

theorem settle_eq_live (hs : L.Pairwise fun a b => a.startTime ≤ b.startTime)
    (hv : verdict t L ≠ .inside) : settle t L = live t L := by
  have hall : ∀ w ∈ settle t L, t ≤ w.startTime := fun w hw => (le_of_verdict hs hw).1 hv
  rw [← live_settle]
  unfold live
  have hfilter : ((settle t L).filter fun w => !w.isOver t) = settle t L := by
    rw [List.filter_eq_self]
    intro w hw
    have := hall w hw
    simp only [LostNode.isOver, Bool.not_eq_true', decide_eq_false_iff_not]
    omega
  rw [hfilter]
  conv => lhs; rw [← List.map_id (settle t L)]
  apply List.map_congr_left
  intro w hw
  have : ¬ w.startTime < t := Nat.not_lt.mpr (hall w hw)
  simp [LostNode.started, this]

/-- An event that is not inside a window brings the two lists together. -/
theorem Lagging.settle_eq (h : Lagging c now L M) (ht : now ≤ t) (hv : verdict t L ≠ .inside) :
    settle t L = settle t M := by
  have hv' : verdict t M ≠ .inside := h.verdict_eq ht ▸ hv
  have h := h.later ht
  unfold Lagging at h
  cases hl : c.lostAffect with
  | insEvent =>
    rw [hl] at h
    exact h t (Nat.le_refl t)
  | allEvent =>
    rw [hl] at h
    rw [settle_eq_live h.1 hv, settle_eq_live h.2.1 hv', h.2.2]

/-- A new window in both lists. -/
def Config.addWindow (c : Config ρ) (w : LostNode) (L : List LostNode) : List LostNode :=
  match c.lostAffect with
  | .insEvent => L ++ [w]
  | .allEvent => Trace.insertLost w L

theorem Lagging.add (h : Lagging c now L M) (w : LostNode) :
    Lagging c now (c.addWindow w L) (c.addWindow w M) := by
  unfold Lagging at h ⊢
  unfold Config.addWindow
  cases hl : c.lostAffect with
  | insEvent =>
    rw [hl] at h
    intro t ht
    dsimp only
    rw [settle_append, settle_append, h t ht]
  | allEvent =>
    rw [hl] at h
    obtain ⟨h1, h2, h3⟩ := h
    refine ⟨insertLost_sorted h1, insertLost_sorted h2, ?_⟩
    dsimp only
    rw [live_insertLost h1, live_insertLost h2, h3]

end Lag

section Twin
variable {t p : Trace} {tl : Node}

def Config.detail (c : Config ρ) : Config ρ := { c with needTimeline := true }
def Config.plain (c : Config ρ) : Config ρ := { c with needTimeline := false }

/-- What `class->remaining` returns does not depend on whether it is given an iterator. -/
def Config.IterFree (c : Config ρ) : Prop :=
  ∀ calls recentTime n rr, c.remaining calls recentTime n rr true =
    c.remaining calls recentTime n rr false

/-- The two modes have made the same calls and keep the same events backed up. -/
structure Twin (c : Config ρ) (t p : Trace) : Prop where
  backup : t.backup = p.backup
  recentTime : t.recentTime = p.recentTime
  eventHandled : t.eventHandled = p.eventHandled
  twos : t.calls.filter isTwo = p.calls.filter isTwo
  calls : c.IterFree → t.calls = p.calls

theorem Twin.congr {t' p' : Trace} (h : Twin c t p) (ht : Keeps t t') (hp : Keeps p p')
    (hb : t'.backup = p'.backup) : Twin c t' p' :=
  ⟨hb, by rw [ht.recentTime, hp.recentTime, h.recentTime],
    by rw [ht.eventHandled, hp.eventHandled, h.eventHandled], by rw [ht.calls, hp.calls, h.twos],
    fun hi => by rw [ht.calls, hp.calls, h.calls hi]⟩

theorem callRemaining_twin (hi : c.IterFree) (hc : t.calls = p.calls)
    (hr : t.recentTime = p.recentTime) (left : Node) (rr : Reason) :
    (t.callRemaining c.detail left rr).1.calls = (p.callRemaining c.plain left rr).1.calls ∧
    (t.callRemaining c.detail left rr).1.recentTime = (p.callRemaining c.plain left rr).1.recentTime ∧
    (t.callRemaining c.detail left rr).2 = (p.callRemaining c.plain left rr).2 := by
  have hobj : c.detail.objectFind left.tp none = c.plain.objectFind left.tp none := rfl
  unfold Trace.callRemaining
  rw [hobj]
  split
  · simp only [hc, hr]
    exact ⟨trivial, trivial, hi ..⟩
  · exact ⟨hc, hr, rfl⟩

theorem handleRemaining_twin (hi : c.IterFree) (hc : t.calls = p.calls)
    (hr : t.recentTime = p.recentTime) (rr : Reason) (l : List Node) :
    (t.handleRemaining c.detail rr l).calls = (p.handleRemaining c.plain rr l).calls := by
  induction l generalizing t p with
  | nil => exact hc
  | cons left l ih =>
    obtain ⟨h1, h2, h3⟩ := callRemaining_twin hi hc hr left rr
    unfold Trace.handleRemaining
    obtain ⟨⟨t₁, stop⟩, ht⟩ : ∃ x, t.callRemaining c.detail left rr = x := ⟨_, rfl⟩
    obtain ⟨⟨p₁, stop'⟩, hp⟩ : ∃ x, p.callRemaining c.plain left rr = x := ⟨_, rfl⟩
    rw [ht, hp] at h1 h2 h3
    dsimp only at h1 h2 h3
    subst h3
    rw [ht, hp]
    cases stop with
    | true => exact h1
    | false => exact ih h1 h2

theorem reclaimNodes_twin (hi : c.IterFree) (hc : t.calls = p.calls)
    (hr : t.recentTime = p.recentTime) (rr : Reason) (stop : Bool) (l : List Node) :
    (t.reclaimNodes c.detail rr stop l).calls = (p.reclaimNodes c.plain rr stop l).calls := by
  induction l generalizing t p stop with
  | nil => cases stop <;> exact hc
  | cons b l ih =>
    have hstep : ∀ (t₁ p₁ : Trace) (stop' : Bool), t₁.calls = p₁.calls →
        t₁.recentTime = p₁.recentTime →
        ((t₁.backupRemove c.detail b).reclaimNodes c.detail rr stop' l).calls =
          ((p₁.backupRemove c.plain b).reclaimNodes c.plain rr stop' l).calls := by
      intro t₁ p₁ stop' h1 h2
      have hkt := keeps_backupRemove c.detail t₁ b
      have hkp := keeps_backupRemove c.plain p₁ b
      exact ih (by rw [hkt.calls, hkp.calls, h1]) (by rw [hkt.recentTime, hkp.recentTime, h2]) stop'
    cases stop with
    | true => exact hstep t p true hc hr
    | false =>
      obtain ⟨h1, h2, h3⟩ := callRemaining_twin hi hc hr b rr
      rw [Trace.reclaimNodes, Trace.reclaimNodes]
      obtain ⟨⟨t₁, stop₁⟩, ht⟩ : ∃ x, t.callRemaining c.detail b rr = x := ⟨_, rfl⟩
      obtain ⟨⟨p₁, stop₂⟩, hp⟩ : ∃ x, p.callRemaining c.plain b rr = x := ⟨_, rfl⟩
      rw [ht, hp] at h1 h2 h3
      dsimp only at h1 h2 h3
      subst h3
      rw [ht, hp]
      exact hstep t₁ p₁ stop₁ h1 h2

theorem Twin.handleRemaining (h : Twin c t p) (rr : Reason) (l : List Node) :
    Twin c (t.handleRemaining c.detail rr l) (p.handleRemaining c.plain rr l) := by
  have hcalls := fun hi => handleRemaining_twin hi (h.calls hi) h.recentTime rr l
  obtain ⟨ct, ht, htt⟩ := handleRemaining_fst c.detail t rr l
  obtain ⟨cp, hp, hpt⟩ := handleRemaining_fst c.plain p rr l
  rw [ht, hp] at hcalls ⊢
  exact ⟨h.backup, h.recentTime, h.eventHandled, by rw [htt, hpt, h.twos], hcalls⟩

theorem Twin.lostReclaim (h : Twin c t p) (ins : Nat) :
    Twin c (t.lostReclaim c.detail ins) (p.lostReclaim c.plain ins) := by
  obtain ⟨ht, htb⟩ := lostReclaim_spec c.detail t ins
  obtain ⟨hp, hpb⟩ := lostReclaim_spec c.plain p ins
  refine ⟨?_, by rw [ht.recentTime, hp.recentTime, h.recentTime],
    by rw [ht.eventHandled, hp.eventHandled, h.eventHandled], by rw [ht.twos, hp.twos, h.twos], ?_⟩
  · rw [htb, hpb, h.backup]
    rfl
  · intro hi
    have hmode : c.detail.lostAffect = c.plain.lostAffect := rfl
    unfold Trace.lostReclaim
    rw [hmode]
    split
    · unfold Trace.reclaim
      rw [h.backup]
      exact reclaimNodes_twin hi (h.calls hi) h.recentTime .lost false _
    · rw [(keeps_backupExit c.detail _).calls, (keeps_backupExit c.plain _).calls, h.backup]
      exact handleRemaining_twin hi (h.calls hi) h.recentTime .lost p.backup

theorem Twin.lostPass (h : Twin c t p) (ins : Nat) (w : LostNode) :
    Twin c (t.lostPass c.detail ins w) (p.lostPass c.plain ins w) := by
  unfold Trace.lostPass
  split
  · exact h
  · have h₁ : Twin c { t with recentTime := w.startTime } { p with recentTime := w.startTime } :=
      ⟨h.backup, rfl, h.eventHandled, h.twos, h.calls⟩
    have h₂ := h₁.lostReclaim ins
    exact ⟨h₂.backup, h.recentTime, h₂.eventHandled, h₂.twos, h₂.calls⟩

theorem Twin.lostPasses (h : Twin c t p) (ins : Nat) (W : List LostNode) :
    Twin c (W.foldl (Trace.lostPass c.detail ins) t) (W.foldl (Trace.lostPass c.plain ins) p) := by
  induction W generalizing t p with
  | nil => exact h
  | cons w W ih => exact ih (h.lostPass ins w)

/-- Would a lost record of instance `ins` reclaim the event? -/
def Config.hits (c : Config ρ) (ins : Nat) (b : Node) : Prop :=
  c.lostAffect = .allEvent ∨ b.key = c.insKey ins

theorem lostReclaim_idle {s : Trace} {ins : Nat} (h : ∀ b ∈ s.backup, ¬ c.hits ins b) :
    s.lostReclaim c ins = s := by
  unfold Config.hits at h
  unfold Trace.lostReclaim
  cases hl : c.lostAffect with
  | insEvent =>
    rw [hl] at h
    have hnone : (s.backup.filter fun b => b.key = c.insKey ins) = [] := by
      rw [List.filter_eq_nil_iff]
      intro b hb hk
      exact h b hb (Or.inr (by simpa using hk))
    simp only [Trace.reclaim, hnone]
    rfl
  | allEvent =>
    rw [hl] at h
    have hnone : s.backup = [] := by
      rw [List.eq_nil_iff_forall_not_mem]
      exact fun b hb => h b hb (Or.inl rfl)
    simp only [hnone, Trace.handleRemaining, Trace.backupExit, List.foldl_nil]

theorem lostPasses_idle {s : Trace} {ins : Nat} (h : ∀ b ∈ s.backup, ¬ c.hits ins b)
    (W : List LostNode) : W.foldl (Trace.lostPass c ins) s = s := by
  induction W with
  | nil => rfl
  | cons w W ih =>
    have hpass : s.lostPass c ins w = s := by
      unfold Trace.lostPass
      split
      · rfl
      · rw [lostReclaim_idle (s := { s with recentTime := w.startTime }) h]
    rw [List.foldl_cons, hpass]
    exact ih

theorem drop_snd (v : Verdict) (s s' : Trace) (tl : Node) : (v.drop s tl).2 = (v.drop s' tl).2 := by
  have h : ∀ x : Node, (s.dropBackup x).2 = (s'.dropBackup x).2 := by
    intro x
    unfold Trace.dropBackup
    split <;> rfl
  cases v with
  | normal => rfl
  | atStart => exact h tl
  | inside => exact h _

theorem Twin.setWindows (h : Twin c t p) (ins : Nat) (L M : List LostNode) :
    Twin c (t.setWindows c.detail ins L) (p.setWindows c.plain ins M) := by
  obtain ⟨tb, tc, -, -, te, tr⟩ := setWindows_frame c.detail t ins L
  obtain ⟨pb, pc, -, -, pe, pr⟩ := setWindows_frame c.plain p ins M
  exact ⟨by rw [tb, pb, h.backup], by rw [tr, pr, h.recentTime], by rw [te, pe, h.eventHandled],
    by rw [tc, pc, h.twos], fun hi => by rw [tc, pc, h.calls hi]⟩

/-- Where the lists differ, no window has anything to reclaim. -/
theorem Twin.eventLost (h : Twin c t p)
    (hv : verdict tl.time (t.windowsOf c tl.ins) = verdict tl.time (p.windowsOf c tl.ins))
    (hlag : t.windowsOf c tl.ins ≠ p.windowsOf c tl.ins → ∀ b ∈ p.backup, ¬ c.hits tl.ins b) :
    Twin c (t.eventLost c.detail tl).1 (p.eventLost c.plain tl).1 ∧
      (t.eventLost c.detail tl).2 = (p.eventLost c.plain tl).2 := by
  rw [eventLost_eq c.detail t tl, eventLost_eq c.plain p tl]
  have ht : t.windowsOf c.detail tl.ins = t.windowsOf c tl.ins := rfl
  have hp : p.windowsOf c.plain tl.ins = p.windowsOf c tl.ins := rfl
  rw [ht, hp, hv]
  have h₀ : Twin c { t with handledTime := tl.time } { p with handledTime := tl.time } :=
    ⟨h.backup, h.recentTime, h.eventHandled, h.twos, h.calls⟩
  have h₁ : Twin c
      ((crossed tl.time (t.windowsOf c tl.ins)).foldl (Trace.lostPass c.detail tl.ins)
        { t with handledTime := tl.time })
      ((crossed tl.time (p.windowsOf c tl.ins)).foldl (Trace.lostPass c.plain tl.ins)
        { p with handledTime := tl.time }) := by
    by_cases heq : t.windowsOf c tl.ins = p.windowsOf c tl.ins
    · rw [heq]
      exact h₀.lostPasses tl.ins _
    · have hidle := hlag heq
      rw [lostPasses_idle (c := c.plain) (s := { p with handledTime := tl.time }) hidle,
        lostPasses_idle (c := c.detail) (s := { t with handledTime := tl.time })
          (fun b hb => hidle b (h.backup ▸ hb))]
      exact h₀
  refine ⟨Twin.setWindows ?_ _ _ _, drop_snd _ _ _ _⟩
  exact h₁.congr (drop_keeps _ _ _) (drop_keeps _ _ _) (by rw [drop_backup, drop_backup, h₁.backup])

theorem Twin.backupRemove (h : Twin c t p) (b : Node) :
    Twin c (t.backupRemove c.detail b) (p.backupRemove c.plain b) := by
  refine h.congr (keeps_backupRemove _ _ _) (keeps_backupRemove _ _ _) ?_
  rw [backupRemove_backup, backupRemove_backup, h.backup]

theorem Twin.backupInsert (h : Twin c t p) (b : Node) :
    Twin c (t.backupInsert c.detail b) (p.backupInsert c.plain b) := by
  obtain ⟨tb, tk⟩ := backupInsert_spec c.detail t b
  obtain ⟨pb, pk⟩ := backupInsert_spec c.plain p b
  refine ⟨?_, by rw [tk.recentTime, pk.recentTime, h.recentTime],
    by rw [tk.eventHandled, pk.eventHandled, h.eventHandled], by rw [tk.calls, pk.calls, h.twos],
    fun hi => by rw [tk.calls, pk.calls, h.calls hi]⟩
  rw [tb, pb, h.backup]
  rfl

theorem Twin.addCall (h : Twin c t p) (call : ClassCall) :
    Twin c { t with calls := t.calls ++ [call] } { p with calls := p.calls ++ [call] } :=
  ⟨h.backup, h.recentTime, h.eventHandled, by simp only [List.filter_append, h.twos],
    fun hi => by rw [h.calls hi]⟩

theorem Twin.tryCallTwo (h : Twin c t p) (tl : Node) (nt np : Bool) :
    Twin c (t.tryCallTwo c.detail tl nt).1 (p.tryCallTwo c.plain tl np).1 := by
  have hfind : t.findPrev tl.key tl.tp1 = p.findPrev tl.key tl.tp1 := by
    rw [Trace.findPrev, h.backup]
    rfl
  unfold Trace.tryCallTwo
  rw [hfind]
  by_cases hf : tl.needFindPrev = true
  · rw [if_pos hf, if_pos hf]
    cases p.findPrev tl.key tl.tp1 with
    | none =>
      have hobj : (c.detail.implBasedOnCall && c.detail.objectFind tl.tp none) =
          (c.plain.implBasedOnCall && c.plain.objectFind tl.tp none) := rfl
      dsimp only
      rw [hobj]
      split
      · exact h.addCall _
      · exact h
    | some prev =>
      have hobj : c.detail.objectFind prev.tp (some tl.tp) = c.plain.objectFind prev.tp (some tl.tp) :=
        rfl
      dsimp only
      rw [hobj]
      have h₁ : Twin c
          (if (c.plain.objectFind prev.tp (some tl.tp) && decide (prev.time < tl.time)) = true then
            { t with calls := t.calls ++ [.two prev (some tl) tl.key t.recentTime] } else t)
          (if (c.plain.objectFind prev.tp (some tl.tp) && decide (prev.time < tl.time)) = true then
            { p with calls := p.calls ++ [.two prev (some tl) tl.key p.recentTime] } else p) := by
        split
        · have h₂ := h.addCall (.two prev (some tl) tl.key p.recentTime)
          exact ⟨h₂.backup, h₂.recentTime, h₂.eventHandled, by rw [h.recentTime]; exact h₂.twos,
            fun hi => by rw [h.recentTime]; exact h₂.calls hi⟩
        · exact h
      split
      · exact h₁.backupRemove prev
      · exact h₁
  · rw [if_neg hf, if_neg hf]
    exact h

theorem Twin.tryBackup (h : Twin c t p) (tl : Node) (nt np : Bool) :
    Twin c (t.tryBackup c.detail tl nt).1 (p.tryBackup c.plain tl np).1 := by
  have hretry : ∀ (fuel : Nat) (t p : Trace) (nt np : Bool), Twin c t p →
      Twin c (Trace.backupRetry c.detail fuel t tl nt).1
        (Trace.backupRetry c.plain fuel p tl np).1 := by
    intro fuel
    induction fuel with
    | zero => exact fun t p _ _ h => h
    | succ fuel ih =>
      intro t p nt np h
      have hsame : c.detail.backupSame = c.plain.backupSame := rfl
      unfold Trace.backupRetry
      rw [h.backup, hsame]
      split
      · split
        · exact h.congr (keeps_setUnneeded _ _) (keeps_setUnneeded _ _) h.backup
        · exact ih _ _ _ _ (h.backupRemove _)
      · exact h.backupInsert tl
  unfold Trace.tryBackup
  split
  · rw [h.backup]
    exact hretry _ t p nt np h
  · exact h

theorem Twin.handle (h : Twin c t p)
    (hv : verdict tl.time (t.windowsOf c tl.ins) = verdict tl.time (p.windowsOf c tl.ins))
    (hlag : t.windowsOf c tl.ins ≠ p.windowsOf c tl.ins → ∀ b ∈ p.backup, ¬ c.hits tl.ins b)
    (nt np : Bool) : Twin c (t.handle c.detail tl nt).1 (p.handle c.plain tl np).1 := by
  obtain ⟨h₁, he⟩ := h.eventLost hv hlag
  unfold Trace.handle
  obtain ⟨⟨t₁, e⟩, ht⟩ : ∃ x, t.eventLost c.detail tl = x := ⟨_, rfl⟩
  obtain ⟨⟨p₁, e'⟩, hp⟩ : ∃ x, p.eventLost c.plain tl = x := ⟨_, rfl⟩
  rw [ht, hp] at h₁ he
  rw [ht, hp]
  dsimp only at h₁ he ⊢
  subst he
  exact (h₁.tryCallTwo e nt np).tryBackup e _ _

end Twin

section Alike
variable {t p t' p' : Trace} {tl : Node} {now : Nat}

/-- How far the windows of --detail may lag behind. -/
structure Lags (c : Config ρ) (t p : Trace) (now : Nat) : Prop where
  windows : ∀ i, Lagging c now (t.windowsOf c i) (p.windowsOf c i)
  idle : ∀ i, t.windowsOf c i ≠ p.windowsOf c i → ∀ b ∈ p.backup, ¬ c.hits i b

theorem Lags.spares (h : Lags c t p now) (ht : Spares t t') (hp : Spares p p') : Lags c t' p' now := by
  refine ⟨?_, ?_⟩
  · intro i
    rw [ht.windowsOf, hp.windowsOf]
    exact h.windows i
  · intro i hne b hb
    rw [ht.windowsOf, hp.windowsOf] at hne
    exact h.idle i hne b (hp.backup.subset hb)

/-- Both modes handle the event. -/
theorem Lags.handled (h : Lags c t p now) (ht : Handled c t t' tl) (hp : Handled c p p' tl)
    (hnow : now ≤ tl.time) (hins : c.lostAffect = .insEvent → Function.Injective c.insKey)
    (hkey : c.lostAffect = .insEvent → tl.key = c.insKey tl.ins) : Lags c t' p' tl.time := by
  refine ⟨?_, ?_⟩
  · intro i
    by_cases hi : c.affects i tl
    · rw [ht.own i hi, hp.own i hi]
      exact (h.windows i).settle_both hnow
    · rw [ht.other i hi, hp.other i hi]
      exact (h.windows i).later hnow
  · intro i hne b hb
    by_cases hi : c.affects i tl
    · rw [ht.own i hi, hp.own i hi] at hne
      have hold : t.windowsOf c i ≠ p.windowsOf c i := fun he => hne (by rw [he])
      have hv : verdict tl.time (t.windowsOf c i) = .inside := by
        by_contra hv
        exact hne ((h.windows i).settle_eq hnow hv)
      cases hp.backup b hb with
      | inl hb => exact h.idle i hold b hb
      | inr hnew =>
        have hv' := hnew.2
        rw [← windowsOf_affects hi, ← (h.windows i).verdict_eq hnow, hv] at hv'
        cases hv'
    · rw [ht.other i hi, hp.other i hi] at hne
      cases hp.backup b hb with
      | inl hb => exact h.idle i hne b hb
      | inr hnew =>
        intro hhit
        cases hhit with
        | inl hall => exact hi (Or.inl hall)
        | inr hk =>
          cases hl : c.lostAffect with
          | allEvent => exact hi (Or.inl hl)
          | insEvent =>
            rw [hnew.1, hkey hl] at hk
            exact hi (Or.inr (hins hl hk))

/-- Only the plain mode handles the event, with nothing backed up. -/
theorem Lags.handled_right (h : Lags c t p now) (hp : Handled c p p' tl) (hb : p'.backup = [])
    (hnow : now ≤ tl.time) : Lags c t p' tl.time := by
  refine ⟨?_, ?_⟩
  · intro i
    by_cases hi : c.affects i tl
    · rw [hp.own i hi]
      exact (h.windows i).settle_right hnow
    · rw [hp.other i hi]
      exact (h.windows i).later hnow
  · intro i _ b hmem
    rw [hb] at hmem
    cases hmem

/-- The simulation of the plain mode by --detail. -/
structure Alike (c : Config ρ) (t p : Trace) (now : Nat) : Prop where
  line : Line t [] now
  noPending : t.pendingList = []
  twin : Twin c t p
  lags : Lags c t p now

theorem Alike.keeps (h : Alike c t p now) (hl : Line t' [] now) (hk : Keeps t t')
    (hb : t'.backup = t.backup) : Alike c t' p now :=
  ⟨hl, List.sublist_nil.mp (h.noPending ▸ hk.pendingList),
    h.twin.congr hk (Keeps.refl p) (hb.trans h.twin.backup),
    h.lags.spares hk.spares (Keeps.refl p).spares⟩

theorem Alike.tick (h : Alike c t p now) {time : Nat} (ht : now ≤ time) :
    Alike c (t.tick time) (p.tick time) time := by
  refine ⟨h.line.tick ht, h.noPending, ⟨h.twin.backup, ?_, ?_, h.twin.twos, h.twin.calls⟩,
    ⟨fun i => (h.lags.windows i).later ht, h.lags.idle⟩⟩
  · simp only [Trace.tick, h.twin.recentTime]
  · simp only [Trace.tick, h.twin.eventHandled]

theorem handled_detail (t : Trace) (tl : Node) (needFree : Bool) :
    Handled c t (t.handle c.detail tl needFree).1 tl := by
  have h := handle_spec c.detail t tl needFree
  exact ⟨h.own, h.other, h.pendingList, h.backup, h.eventHandled, h.recentTime⟩

theorem handled_plain (p : Trace) (tl : Node) (needFree : Bool) :
    Handled c p (p.handle c.plain tl needFree).1 tl := by
  have h := handle_spec c.plain p tl needFree
  exact ⟨h.own, h.other, h.pendingList, h.backup, h.eventHandled, h.recentTime⟩

/-- With nothing backed up, an event that is not backed up itself only settles its windows. -/
theorem handle_idle {s : Trace} (hcall : c.implBasedOnCall = false) (hb : s.backup = [])
    (hneed : tl.needBackup = false) (needFree : Bool) :
    ∃ s₁, (s.handle c tl needFree).1 = s₁ ∧ s₁.backup = [] ∧ s₁.calls = s.calls := by
  have hnone : ∀ b ∈ s.backup, ¬ c.hits tl.ins b := by
    rw [hb]
    exact fun b hb => absurd hb (List.not_mem_nil)
  have hlost := eventLost_eq c s tl
  rw [lostPasses_idle (s := { s with handledTime := tl.time }) hnone] at hlost
  obtain ⟨hsb, hsc, -, -, -, -⟩ := setWindows_frame c
    ((verdict tl.time (s.windowsOf c tl.ins)).drop { s with handledTime := tl.time } tl).1 tl.ins
    (settle tl.time (s.windowsOf c tl.ins))
  have hnb : ((verdict tl.time (s.windowsOf c tl.ins)).drop { s with handledTime := tl.time }
      tl).2.needBackup = false := by
    by_cases hv : verdict tl.time (s.windowsOf c tl.ins) = .normal
    · rw [(drop_event _ _ tl).1 hv]
      exact hneed
    · exact (drop_event _ _ tl).2.1 hv
  obtain ⟨s₁, hs₁⟩ : ∃ s₁, (s.eventLost c tl).1 = s₁ := ⟨_, rfl⟩
  obtain ⟨e, he⟩ : ∃ e, (s.eventLost c tl).2 = e := ⟨_, rfl⟩
  have hb₁ : s₁.backup = [] := by
    rw [← hs₁, hlost]
    exact hsb.trans ((drop_backup _ _ _).trans hb)
  have hc₁ : s₁.calls = s.calls := by
    rw [← hs₁, hlost]
    exact hsc.trans (drop_keeps _ _ _).calls
  have hn₁ : e.needBackup = false := by
    rw [← he, hlost]
    exact hnb
  refine ⟨s₁, ?_, hb₁, hc₁⟩
  have htwo : s₁.tryCallTwo c e needFree = (s₁, needFree) := by
    unfold Trace.tryCallTwo
    simp only [Trace.findPrev, hb₁, List.find?_nil, hcall, Bool.false_and, Bool.false_eq_true,
      if_false, ite_self]
  have hpair : s.eventLost c tl = (s₁, e) := Prod.ext hs₁ he
  unfold Trace.handle
  rw [hpair]
  dsimp only
  rw [htwo, Trace.tryBackup, if_neg (by rw [hn₁]; exact Bool.false_ne_true)]

/-- An event that finds the timeline empty and is not needed is skipped under --detail. -/
theorem Alike.skip (h : Alike c t p now) (hcall : c.implBasedOnCall = false)
    (hempty : t.timeline = []) (hneed : tl.needBackup = false) (hnow : now = tl.time)
    (needFree : Bool) : Alike c t (p.handle c.plain tl needFree).1 now := by
  have hchain : ∀ x ∈ t.chain [], False := by
    intro x hx
    obtain ⟨n, hn, -⟩ := h.line.ok.onLine x hx
    rw [hempty] at hn
    cases hn
  have hneeded : t.neededList = [] := by
    rw [List.eq_nil_iff_forall_not_mem]
    intro x hx
    refine hchain x ?_
    simp only [Trace.chain, List.mem_append]
    exact Or.inl (Or.inl hx)
  have hback : t.backup = [] := by
    have hperm := h.line.backup
    rw [hneeded] at hperm
    exact List.perm_nil.mp hperm
  have hpb : p.backup = [] := h.twin.backup.symm.trans hback
  have hh := handled_plain (c := c) p tl needFree
  obtain ⟨p₁, hp₁, hb₁, hc₁⟩ := handle_idle (c := c.plain) hcall hpb hneed needFree
  rw [hp₁] at hh ⊢
  refine ⟨h.line, h.noPending, ⟨hback.trans hb₁.symm, ?_, ?_, ?_, ?_⟩, ?_⟩
  · rw [hh.recentTime, h.twin.recentTime]
  · rw [hh.eventHandled, h.twin.eventHandled]
  · rw [hc₁, h.twin.twos]
  · intro hi
    rw [hc₁, h.twin.calls hi]
  · have hlags := h.lags.handled_right hh hb₁ (Nat.le_of_eq hnow)
    rwa [← hnow] at hlags

/-- The event that has just been added is the only pending one, and its turn has come. -/
theorem pendingLoop_one {s : Trace} {q : Node} (ha : c.afterEvent2 = 0) (hp : s.pendingList = [q])
    (ht : q.time < 2 ^ 64) (tail : Node) (needFree : Bool) :
    ∃ s₁, Trace.pendingLoop c tail s.pendingList.length s needFree = s₁.handle c (popped q) needFree ∧
      Keeps s s₁ ∧ s₁.backup = s.backup ∧ s₁.pendingList = [] := by
  rw [hp, List.length_singleton, Trace.pendingLoop]
  cases hfirst : s.firstPending c (some tail) with
  | none => exact absurd hfirst (firstPending_isSome ha hp ht tail)
  | some found =>
    obtain ⟨first, s₁⟩ := found
    obtain ⟨x, rest, hx, hxq, hs₁⟩ := firstPending_cases hfirst
    rw [hp] at hx
    cases hx
    refine ⟨s₁, ?_, keeps_firstPending hfirst, ?_, ?_⟩
    · rw [show first = popped q from hxq]
      rfl
    · rw [hs₁]
      split <;> rfl
    · rw [hs₁]
      split <;> rfl

theorem Alike.free (h : Alike c t p now) : Alike c (t.timelineFreeUnneeded c.detail) p now :=
  h.keeps h.line.timelineFreeUnneeded.1 (keeps_timelineFreeUnneeded c.detail t)
    h.line.timelineFreeUnneeded.2.backup

/-- The new event goes through the timeline in one mode and is handled at once in the other. -/
theorem Alike.added {ref : TpRef} {tp : Tp ρ} {tp1 : Option TpRef} {ev : Event ρ} {seq : Nat}
    (h : Alike c t p ev.time) (ha : c.afterEvent2 = 0) (ht : ev.time < 2 ^ 64)
    (hins : c.lostAffect = .insEvent → Function.Injective c.insKey)
    (hfind : findTp ev.evsel 0 c.tpList = some (ref, tp, tp1))
    (hadd : t.timelineAdd (mkNode c ref tp tp1 ev seq) tp.untraced = some t')
    (hl : Line t' [] ev.time) (nt : Bool) :
    Alike c (Trace.pendingLoop c.detail (mkNode c ref tp tp1 ev seq) t'.pendingList.length t' nt).1
      (p.samplePlain c.plain (mkNode c ref tp tp1 ev seq) tp.untraced) ev.time := by
  obtain ⟨e, he⟩ : ∃ e, mkNode c ref tp tp1 ev seq = e := ⟨_, rfl⟩
  have htime : e.time = ev.time := by rw [← he]; rfl
  have hline := hl.pendingLoop (c := c.detail) rfl e t'.pendingList.length nt
  rw [he] at hadd ⊢
  obtain ⟨hk, hb, hpl⟩ := timelineAdd_cases hadd
  rw [h.noPending] at hpl
  cases hu : tp.untraced with
  | true =>
    rw [hu, if_pos rfl] at hpl
    rw [hpl, ← h.noPending] at hk
    rw [hpl, Trace.samplePlain, if_pos rfl]
    exact h.keeps hl hk hb
  | false =>
    have hpop : popped { e with unneeded := false } = e := by
      rw [← he]
      simp [popped, mkNode, hu]
    rw [hu, if_neg Bool.false_ne_true, List.nil_append] at hpl
    rw [Trace.samplePlain, if_neg Bool.false_ne_true]
    obtain ⟨s₁, hloop, hk₁, hb₁, hp₁⟩ := pendingLoop_one (c := c.detail) ha hpl
      (by show e.time < 2 ^ 64; rw [htime]; exact ht) e nt
    rw [hloop, hpop] at hline ⊢
    have htwin₀ : Twin c { t with pendingList := t'.pendingList } p :=
      ⟨h.twin.backup, h.twin.recentTime, h.twin.eventHandled, h.twin.twos, h.twin.calls⟩
    have htwin : Twin c s₁ p :=
      htwin₀.congr (hk.trans hk₁) (Keeps.refl p) (by rw [hb₁, hb, h.twin.backup])
    have hlags₀ : Lags c { t with pendingList := t'.pendingList } p ev.time :=
      ⟨h.lags.windows, h.lags.idle⟩
    have hlags : Lags c s₁ p ev.time := hlags₀.spares (hk.trans hk₁).spares (Keeps.refl p).spares
    have hnow : ev.time ≤ e.time := Nat.le_of_eq htime.symm
    have hkey : c.lostAffect = .insEvent → e.key = c.insKey e.ins := by
      intro hl
      rw [← he]
      exact mkNode_key hl hfind
    have hdetail := handled_detail (c := c) s₁ e nt
    refine ⟨hline, List.sublist_nil.mp (hp₁ ▸ hdetail.pendingList),
      htwin.handle ((hlags.windows e.ins).verdict_eq hnow) (hlags.idle e.ins) nt false, ?_⟩
    rw [← htime]
    exact hlags.handled hdetail (handled_plain p e false) hnow hins hkey

theorem Alike.sample (h : Alike c t p now) (hcall : c.implBasedOnCall = false)
    (ha : c.afterEvent2 = 0) (hins : c.lostAffect = .insEvent → Function.Injective c.insKey)
    (ev : Event ρ) (ht : now ≤ ev.time) (hlt : ev.time < 2 ^ 64) :
    Alike c (t.sample c.detail ev) (p.sample c.plain ev) ev.time := by
  cases hfind : findTp ev.evsel 0 c.tpList with
  | none =>
    rw [sample_not_found (c := c.detail) hfind, sample_not_found (c := c.plain) hfind]
    refine ⟨(h.line.later ht).congr rfl rfl rfl rfl rfl rfl rfl, h.noPending,
      ⟨h.twin.backup, ?_, h.twin.eventHandled, h.twin.twos, h.twin.calls⟩,
      ⟨fun i => (h.lags.windows i).later ht, h.lags.idle⟩⟩
    simp only [h.twin.recentTime]
  | some found =>
    obtain ⟨ref, tp, tp1⟩ := found
    rw [sample_found (c := c.detail) hfind, if_pos (show c.detail.needTimeline = true from rfl),
      sample_found (c := c.plain) hfind,
      if_neg (show ¬ c.plain.needTimeline = true from Bool.false_ne_true)]
    obtain ⟨t₁, hadd, hl⟩ := h.line.addCurrent (c := c.detail) ref tp tp1 ht
    have hmk : mkNode c.detail ref tp tp1 ev t.eventHandled =
        mkNode c ref tp tp1 ev p.eventHandled := by
      rw [h.twin.eventHandled]
      rfl
    have hmk' : mkNode c.plain ref tp tp1 ev p.eventHandled =
        mkNode c ref tp tp1 ev p.eventHandled := rfl
    rw [hmk] at hadd ⊢
    rw [hmk']
    have htick := h.tick ht
    unfold Trace.sampleTimeline
    split
    · rename_i hskip
      simp only [Bool.and_eq_true, List.isEmpty_iff, decide_eq_true_eq] at hskip
      obtain ⟨⟨⟨hempty, hun⟩, -⟩, -⟩ := hskip
      cases hu : tp.untraced with
      | true => exact htick
      | false =>
        have hneed : (mkNode c ref tp tp1 ev p.eventHandled).needBackup = false := by
          simpa [mkNode, hu] using hun
        rw [Trace.samplePlain, if_neg Bool.false_ne_true]
        exact htick.skip hcall hempty hneed rfl false
    · rw [hadd]
      have hdone := htick.added ha hlt hins hfind hadd hl
        (mkNode c ref tp tp1 ev p.eventHandled).unneeded
      dsimp only
      split
      · exact hdone.free
      · exact hdone

theorem Config.addWindow_lost (ho : c.order = true) (s : Trace) (ins st en : Nat) :
    s.lost c ins st en =
      s.setWindows c ins (c.addWindow ⟨ins, false, st, en⟩ (s.windowsOf c ins)) := by
  unfold Trace.lost Trace.setWindows Config.addWindow Trace.windowsOf
  simp only [ho, Bool.not_true, Bool.false_and, Bool.false_eq_true, if_false]
  cases c.lostAffect <;> rfl

/-- A window is added to the lists of both modes. -/
theorem Lags.addWindow (h : Lags c t p now) (ins : Nat) (w : LostNode) :
    Lags c (t.setWindows c ins (c.addWindow w (t.windowsOf c ins)))
      (p.setWindows c ins (c.addWindow w (p.windowsOf c ins))) now := by
  have hsame : ∀ (s : Trace) (i : Nat), c.lostAffect = .allEvent ∨ i = ins →
      s.windowsOf c ins = s.windowsOf c i := by
    intro s i hi
    cases hi with
    | inl hall => simp only [Trace.windowsOf, hall]
    | inr hi => rw [hi]
  refine ⟨?_, ?_⟩
  · intro i
    rw [windowsOf_setWindows, windowsOf_setWindows]
    split
    · exact (h.windows ins).add w
    · exact h.windows i
  · intro i hne
    rw [windowsOf_setWindows, windowsOf_setWindows] at hne
    rw [(setWindows_frame c p ins _).1]
    refine h.idle i fun heq => hne ?_
    split
    · rename_i hi
      rw [hsame t i hi, hsame p i hi, heq]
    · exact heq

theorem Alike.lost (h : Alike c t p now) (ha : c.afterEvent2 = 0) (ins st en : Nat) :
    Alike c (t.lost c.detail ins st en) (p.lost c.plain ins st en) now := by
  have hline := h.line.lost (c := c.detail) rfl ins st en
  cases ho : c.order with
  | false =>
    have hdetail : (!c.detail.order && decide (c.detail.afterEvent2 = 0)) = true := by
      simp [Config.detail, ho, ha]
    have hplain : (!c.plain.order && decide (c.plain.afterEvent2 = 0)) = true := by
      simp [Config.plain, ho, ha]
    obtain ⟨ht, -⟩ := lostReclaim_spec c.detail t ins
    obtain ⟨hp, -⟩ := lostReclaim_spec c.plain p ins
    have h₁ : Alike c (t.lostReclaim c.detail ins) (p.lostReclaim c.plain ins) now :=
      ⟨h.line.lostReclaim rfl ins, List.sublist_nil.mp (h.noPending ▸ ht.pendingList),
        h.twin.lostReclaim ins, h.lags.spares ht hp⟩
    rw [Trace.lost, if_pos hdetail, Trace.lost, if_pos hplain]
    exact h₁.free
  | true =>
    rw [Config.addWindow_lost (c := c.detail) ho] at hline ⊢
    rw [Config.addWindow_lost (c := c.plain) ho]
    refine ⟨hline, ?_, h.twin.setWindows ins _ _, h.lags.addWindow ins _⟩
    rw [(setWindows_frame c.detail t ins _).2.2.2.1]
    exact h.noPending

theorem Alike.flush (h : Alike c t p now) (hnow : now < 2 ^ 64) :
    Alike c (t.flush c.detail) (p.flush c.plain) now := by
  have hback : ∀ (d : Config ρ) (s : Trace), (s.flush d).backup = [] := by
    intro d s
    have hsub := (keeps_timelineExit ((Trace.drainPending d
      (s.handleRemaining d .exit s.backup).pendingList.length
      (s.handleRemaining d .exit s.backup)).backupExit d)).backup
    rw [backupExit_backup] at hsub
    exact List.sublist_nil.mp hsub
  have hsame : t.handleRemaining c.detail .exit t.backup = t.handleRemaining c.detail .exit p.backup := by
    rw [h.twin.backup]
  have hkeep := keeps_flush c.detail t
  rw [hsame] at hkeep
  refine ⟨h.line.flush rfl hnow, ?_, ?_, ?_⟩
  · exact List.sublist_nil.mp (h.noPending ▸ (spares_flush c.detail t).pendingList)
  · exact (h.twin.handleRemaining .exit p.backup).congr hkeep (keeps_flush c.plain p)
      ((hback c.detail t).trans (hback c.plain p).symm)
  · exact h.lags.spares (spares_flush c.detail t) (spares_flush c.plain p)

theorem Alike.init (c : Config ρ) : Alike c Trace.init Trace.init 0 := by
  refine ⟨Line.init, rfl, ⟨rfl, rfl, rfl, rfl, fun _ => rfl⟩, ⟨?_, fun _ hne => absurd rfl hne⟩⟩
  intro i
  have hw : Trace.init.windowsOf c i = [] := by
    unfold Trace.windowsOf
    cases c.lostAffect <;> rfl
  rw [hw]
  unfold Lagging
  cases c.lostAffect with
  | insEvent => exact fun _ _ => rfl
  | allEvent => exact ⟨List.Pairwise.nil, List.Pairwise.nil, rfl⟩

theorem Alike.run (h : Alike c t p now) (hcall : c.implBasedOnCall = false)
    (ha : c.afterEvent2 = 0) (hins : c.lostAffect = .insEvent → Function.Injective c.insKey)
    (hnow : now < 2 ^ 64) (inputs : List (Input ρ)) (ho : TimeOrdered now inputs) :
    ∃ now', Alike c (t.run c.detail inputs) (p.run c.plain inputs) now' := by
  induction inputs generalizing t p now with
  | nil => exact ⟨now, h⟩
  | cons i rest ih =>
    cases i with
    | sample ev => exact ih (h.sample hcall ha hins ev ho.1 ho.2.1) ho.2.1 ho.2.2
    | lost ins st en => exact ih (h.lost ha ins st en) hnow ho
    | flush => exact ih (h.flush hnow) hnow ho

/-- Both modes make the same calls of `two`, and of `remaining` too if what it returns does not
depend on the iterator, which only --detail has. -/
theorem detail_refines_plain (c : Config ρ) (hcall : c.implBasedOnCall = false)
    (ha : c.afterEvent2 = 0) (hins : c.lostAffect = .insEvent → Function.Injective c.insKey)
    (inputs : List (Input ρ)) (ho : TimeOrdered 0 inputs) :
    (Trace.init.run c.detail inputs).calls.filter isTwo =
      (Trace.init.run c.plain inputs).calls.filter isTwo ∧
    (c.IterFree → (Trace.init.run c.detail inputs).calls = (Trace.init.run c.plain inputs).calls) := by
  obtain ⟨now, h⟩ := (Alike.init c).run hcall ha hins (Nat.two_pow_pos 64) inputs ho
  exact ⟨h.twin.twos, h.twin.calls⟩

/-- Two keys are open when a window starts; the pair after the window is complete. -/
def lostBetween : List (Input Nat) :=
  [.sample (eventAt 0 10 0 1), .sample (eventAt 0 20 0 2), .lost 0 22 30,
    .sample (eventAt 0 40 0 1), .sample (eventAt 1 50 0 1)]

theorem detail_refines_plain_lost :
    ((Trace.init.run (twoLists (some id) true).detail lostBetween).calls.filter isTwo).length = 1 ∧
    (Trace.init.run (twoLists (some id) true).detail lostBetween).calls.filter isTwo =
      (Trace.init.run (twoLists (some id) true).plain lostBetween).calls.filter isTwo := by
  refine ⟨by decide, (detail_refines_plain (twoLists (some id) true) rfl rfl nofun lostBetween ?_).1⟩
  simp [lostBetween, TimeOrdered, eventAt]

/-- A call without `info->recent_time`. -/
def ClassCall.brief : ClassCall → ClassCall
  | .two event1 event2 key _ => .two event1 event2 key 0
  | .remaining event key _ rr => .remaining event key 0 rr

/-- `delay_remaining` breaks off when it has no iterator: at the lost record --detail goes through
both open events, the plain mode stops after the first. -/
theorem detail_remaining_differs :
    ¬ ∀ (c : Config Nat) (inputs : List (Input Nat)), c.nested = false →
      c.implBasedOnCall = false → c.afterEvent2 = 0 → Function.Injective c.insKey →
      TimeOrdered 0 inputs →
      (Trace.init.run c.detail inputs).calls.map ClassCall.brief =
        (Trace.init.run c.plain inputs).calls.map ClassCall.brief := by
  intro hall
  have ho : TimeOrdered 0 lostBetween := by simp [lostBetween, TimeOrdered, eventAt]
  have heq := hall (twoLists (some id) true) lostBetween rfl rfl rfl (fun _ _ h => h) ho
  have hlen := congrArg List.length heq
  rw [List.length_map, List.length_map] at hlen
  revert hlen
  decide

end Alike

end PerfProf.MultiTrace
