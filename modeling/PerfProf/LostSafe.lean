import PerfProf.LostWindow

/-! No pair straddles a lost window. A window that has been passed leaves behind no event it
affects; a window that is still listed lies ahead of the events handled so far, or the
event in hand is inside it. -/
namespace PerfProf.MultiTrace
variable {ρ : Type*} {c : Config ρ} {s s' : Trace} {tl : Node} {t : Nat} {L : List LostNode}

section Windows

theorem mem_settle {w' : LostNode} (h : w' ∈ settle t L) :
    ∃ w ∈ L, w.startTime = w'.startTime ∧ w.endTime = w'.endTime ∧
      (w'.reclaim = true → w.reclaim = true ∨ (w ∈ crossed t L ∧ w.startTime < t)) := by
  induction L with
  | nil => cases h
  | cons w rest ih =>
    unfold settle at h
    unfold crossed
    split at h
    · exact ⟨w', h, rfl, rfl, Or.inl⟩
    · rename_i hstart
      rw [if_neg hstart]
      split at h
      · rename_i hend
        rw [if_pos hend]
        cases List.mem_cons.mp h with
        | inl he =>
          refine ⟨w, List.mem_cons_self .., by rw [he], by rw [he], fun _ => Or.inr ?_⟩
          exact ⟨List.mem_cons_self .., by omega⟩
        | inr hr => exact ⟨w', List.mem_cons_of_mem _ hr, rfl, rfl, Or.inl⟩
      · rename_i hend
        rw [if_neg hend]
        obtain ⟨w₀, hw₀, h1, h2, h3⟩ := ih h
        refine ⟨w₀, List.mem_cons_of_mem _ hw₀, h1, h2, fun hr => ?_⟩
        cases h3 hr with
        | inl h3 => exact Or.inl h3
        | inr h3 => exact Or.inr ⟨List.mem_cons_of_mem _ h3.1, h3.2⟩

/-- A window is left or has been passed. -/
theorem settle_or_passed {w : LostNode} (h : w ∈ L) :
    (∃ w' ∈ settle t L, w'.startTime = w.startTime ∧ w'.endTime = w.endTime) ∨
      (crossed t L ≠ [] ∧ w.startTime < t ∧ w.endTime ≤ t) := by
  induction L with
  | nil => cases h
  | cons w₀ rest ih =>
    unfold settle crossed
    by_cases hstart : t ≤ w₀.startTime
    · rw [if_pos hstart]
      exact Or.inl ⟨w, h, rfl, rfl⟩
    · rw [if_neg hstart, if_neg hstart]
      by_cases hend : t < w₀.endTime
      · rw [if_pos hend]
        cases List.mem_cons.mp h with
        | inl he => exact Or.inl ⟨_, List.mem_cons_self .., by rw [he], by rw [he]⟩
        | inr hr => exact Or.inl ⟨w, List.mem_cons_of_mem _ hr, rfl, rfl⟩
      · rw [if_neg hend, if_neg hend]
        cases List.mem_cons.mp h with
        | inl he => exact Or.inr ⟨List.cons_ne_nil _ _, by rw [he]; omega, by rw [he]; omega⟩
        | inr hr =>
          cases ih hr with
          | inl h => exact Or.inl h
          | inr h => exact Or.inr ⟨List.cons_ne_nil _ _, h.2⟩

theorem crossed_subset {w : LostNode} (h : w ∈ crossed t L) : w ∈ L := by
  induction L with
  | nil => cases h
  | cons w₀ rest ih =>
    unfold crossed at h
    split at h
    · cases h
    · split at h
      · rw [List.mem_singleton.mp h]
        exact List.mem_cons_self ..
      · cases List.mem_cons.mp h with
        | inl h => exact h ▸ List.mem_cons_self ..
        | inr h => exact List.mem_cons_of_mem _ (ih h)

theorem settle_sorted (h : L.Pairwise fun a b => a.startTime ≤ b.startTime) :
    (settle t L).Pairwise fun a b => a.startTime ≤ b.startTime := by
  induction L with
  | nil => exact h
  | cons w rest ih =>
    unfold settle
    split
    · exact h
    · split
      · exact List.pairwise_cons.mpr (List.pairwise_cons.mp h)
      · exact ih (List.pairwise_cons.mp h).2

/-- Unless the event is inside a window, the windows that are left start no earlier. -/
theorem le_of_verdict (hs : L.Pairwise fun a b => a.startTime ≤ b.startTime) {w : LostNode}
    (hw : w ∈ settle t L) :
    (verdict t L ≠ .inside → t ≤ w.startTime) ∧ (verdict t L = .normal → t < w.startTime) := by
  have hsorted := settle_sorted (t := t) hs
  unfold verdict verdictOf
  cases hset : settle t L with
  | nil => rw [hset] at hw; cases hw
  | cons w₀ rest =>
    rw [hset] at hw hsorted
    have hle : w₀.startTime ≤ w.startTime := by
      cases List.mem_cons.mp hw with
      | inl h => exact h ▸ Nat.le_refl _
      | inr h => exact (List.pairwise_cons.mp hsorted).1 w h
    by_cases h1 : t < w₀.startTime
    · simp only [if_pos h1]
      exact ⟨fun _ => by omega, fun _ => by omega⟩
    · by_cases h2 : t = w₀.startTime
      · simp only [if_neg h1, if_pos h2]
        exact ⟨fun _ => by omega, nofun⟩
      · simp only [if_neg h1, if_neg h2]
        exact ⟨fun h => absurd rfl h, nofun⟩

/-- In INS mode the events of an instance are those of its key. -/
theorem not_affects_reclaimed {backup : List Node} {ins : Nat} {b : Node}
    (hk : c.lostAffect = .insEvent → ∀ b ∈ backup, b.key = c.insKey b.ins)
    (hb : b ∈ c.reclaimed ins backup) : ¬ c.affects ins b := by
  unfold Config.reclaimed at hb
  unfold Config.affects
  cases hl : c.lostAffect with
  | allEvent => rw [hl] at hb; cases hb
  | insEvent =>
    rw [hl] at hb
    simp only [reduceCtorEq, false_or]
    intro hins
    have hmem := List.mem_filter.mp hb
    simp only [decide_eq_true_eq] at hmem
    apply hmem.2
    apply List.mem_map_of_mem
    rw [List.mem_filter, decide_eq_true_eq]
    exact ⟨hmem.1, by rw [hk hl b hmem.1, hins]⟩

/-- Once an event has crossed a window, nothing that window affects is backed up. -/
theorem crossed_clears {W : List LostNode} {ins : Nat} (hW : W ≠ [])
    (hk : c.lostAffect = .insEvent → ∀ b ∈ s.backup, b.key = c.insKey b.ins)
    (hr : ∀ w ∈ W, w.reclaim = true → ∀ b ∈ s.backup, ¬ c.affects ins b) :
    ∀ b ∈ (W.foldl (Trace.lostPass c ins) s).backup, ¬ c.affects ins b := by
  cases W with
  | nil => exact absurd rfl hW
  | cons w W =>
    intro b hb
    have hb' := (lostPasses_spares c ins W (s.lostPass c ins w)).backup.subset hb
    rw [lostPass_backup] at hb'
    split at hb'
    · rename_i hw
      exact hr w (List.mem_cons_self ..) hw b hb'
    · exact not_affects_reclaimed hk hb'

end Windows

section Guard
variable {R : List LostNode}

/-- The record is over, and what it affects has been reclaimed. -/
structure Past (c : Config ρ) (s : Trace) (r : LostNode) : Prop where
  started : r.startTime < s.handledTime
  ended : r.endTime ≤ s.handledTime
  clear : ∀ b ∈ s.backup, c.affects r.ins b → r.startTime < b.time ∧ r.endTime ≤ b.time

/-- The pair lies on one side of the lost record, and none of it inside. -/
def Apart (c : Config ρ) (r : LostNode) (a : Node) (ob : Option Node) : Prop :=
  (∀ e ∈ a :: ob.toList, c.affects r.ins e) →
    (∀ e ∈ a :: ob.toList, ¬ (r.startTime < e.time ∧ e.time < r.endTime)) ∧
    ∀ b, ob = some b → ¬ (a.time ≤ r.startTime ∧ r.startTime < b.time)

/-- The invariant for the lost records `R` registered so far. -/
structure Guarded (c : Config ρ) (R : List LostNode) (s : Trace) : Prop where
  sorted : ∀ i, (s.windowsOf c i).Pairwise fun a b => a.startTime ≤ b.startTime
  reclaimed : ∀ i, ∀ w ∈ s.windowsOf c i, w.reclaim = true →
    w.startTime < s.handledTime ∧ ∀ b ∈ s.backup, ¬ c.affects i b
  known : ∀ i, ∀ w ∈ s.windowsOf c i, ∃ r ∈ R, (c.lostAffect = .allEvent ∨ r.ins = i) ∧
    r.startTime = w.startTime ∧ r.endTime = w.endTime
  tracked : ∀ r ∈ R,
    (∃ w ∈ s.windowsOf c r.ins, w.startTime = r.startTime ∧ w.endTime = r.endTime) ∨ Past c s r
  backupTime : ∀ b ∈ s.backup, b.time ≤ s.handledTime
  keys : c.lostAffect = .insEvent → ∀ b ∈ s.backup, b.key = c.insKey b.ins
  calls : ∀ a ob k t, ClassCall.two a ob k t ∈ s.calls →
    (∀ e ∈ a :: ob.toList, e.time ≤ s.handledTime) ∧ ∀ r ∈ R, Apart c r a ob

theorem two_mem_of_filter {calls calls' : List ClassCall}
    (h : calls'.filter isTwo = calls.filter isTwo) {a : Node} {ob : Option Node} {k t : Nat}
    (hm : ClassCall.two a ob k t ∈ calls') : ClassCall.two a ob k t ∈ calls := by
  have h' : ClassCall.two a ob k t ∈ calls'.filter isTwo := List.mem_filter.mpr ⟨hm, rfl⟩
  rw [h] at h'
  exact (List.mem_filter.mp h').1

theorem Past.spares {r : LostNode} (h : Past c s r) (hs : Spares s s') : Past c s' r := by
  refine ⟨by rw [hs.handledTime]; exact h.started, by rw [hs.handledTime]; exact h.ended, ?_⟩
  intro b hb
  exact h.clear b (hs.backup.subset hb)

theorem Guarded.spares (h : Guarded c R s) (hs : Spares s s') : Guarded c R s' := by
  refine ⟨?_, ?_, ?_, ?_, ?_, ?_, ?_⟩
  · intro i
    rw [hs.windowsOf]
    exact h.sorted i
  · intro i w hw hr
    rw [hs.windowsOf] at hw
    rw [hs.handledTime]
    obtain ⟨h1, h2⟩ := h.reclaimed i w hw hr
    exact ⟨h1, fun b hb => h2 b (hs.backup.subset hb)⟩
  · intro i w hw
    rw [hs.windowsOf] at hw
    exact h.known i w hw
  · intro r hr
    rw [hs.windowsOf]
    exact (h.tracked r hr).imp_right fun hp => hp.spares hs
  · intro b hb
    rw [hs.handledTime]
    exact h.backupTime b (hs.backup.subset hb)
  · intro hl b hb
    exact h.keys hl b (hs.backup.subset hb)
  · intro a ob k t hm
    rw [hs.handledTime]
    exact h.calls a ob k t (two_mem_of_filter hs.twos hm)

/-- What holds of an event that `multi_trace_event_lost` lets look for a partner. -/
def Clear (c : Config ρ) (R : List LostNode) (s : Trace) (tl : Node) : Prop :=
  ∀ r ∈ R, c.affects r.ins tl → tl.time ≤ r.startTime ∨ Past c s r

/-- What holds of an event that it lets be backed up. -/
structure Free (c : Config ρ) (R : List LostNode) (s : Trace) (tl : Node) : Prop where
  records : ∀ r ∈ R, c.affects r.ins tl →
    tl.time < r.startTime ∨ (r.startTime < tl.time ∧ r.endTime ≤ tl.time)
  windows : ∀ i, c.affects i tl → ∀ w ∈ s.windowsOf c i, tl.time < w.startTime

theorem affects_congr {i : Nat} {e b : Node} (h : c.affects i e) :
    c.affects i b ↔ c.affects e.ins b := by
  cases h with
  | inl h => exact ⟨fun _ => Or.inl h, fun _ => Or.inl h⟩
  | inr h => rw [h]

theorem Past.later {r : LostNode} (h : Past c s r) (ht : s.handledTime ≤ s'.handledTime)
    (hb : ∀ b ∈ s'.backup, b ∈ s.backup) : Past c s' r :=
  ⟨Nat.lt_of_lt_of_le h.started ht, Nat.le_trans h.ended ht, fun b hb' => h.clear b (hb b hb')⟩

/-- What `multi_trace_event_lost` makes of the state: the event's windows are settled, and a
crossed window leaves no event it affects. -/
structure Settled (c : Config ρ) (s s' : Trace) (tl : Node) : Prop where
  handledTime : s'.handledTime = tl.time
  own : ∀ i, c.affects i tl → s'.windowsOf c i = settle tl.time (s.windowsOf c tl.ins)
  other : ∀ i, ¬ c.affects i tl → s'.windowsOf c i = s.windowsOf c i
  backup : s'.backup.Sublist s.backup
  pendingList : s'.pendingList.Sublist s.pendingList
  twos : s'.calls.filter isTwo = s.calls.filter isTwo
  clear : crossed tl.time (s.windowsOf c tl.ins) ≠ [] → ∀ b ∈ s'.backup, ¬ c.affects tl.ins b

theorem Guarded.settled (h : Guarded c R s) : Settled c s (s.eventLost c tl).1 tl := by
  obtain ⟨L, hL⟩ : ∃ L, s.windowsOf c tl.ins = L := ⟨_, rfl⟩
  rw [eventLost_eq, hL]
  obtain ⟨s₁, hs₁⟩ : ∃ s₁, (crossed tl.time L).foldl (Trace.lostPass c tl.ins)
      { s with handledTime := tl.time } = s₁ := ⟨_, rfl⟩
  rw [hs₁]
  have hsp : Spares { s with handledTime := tl.time } ((verdict tl.time L).drop s₁ tl).1 :=
    (hs₁ ▸ lostPasses_spares c tl.ins _ _).trans (drop_keeps _ s₁ tl).spares
  obtain ⟨hb, hc, ht, hp, -, -⟩ := setWindows_frame c ((verdict tl.time L).drop s₁ tl).1 tl.ins
    (settle tl.time L)
  refine ⟨ht.trans hsp.handledTime, ?_, ?_, ?_, ?_, ?_, ?_⟩
  · intro i hi
    rw [windowsOf_affects hi, windowsOf_setWindows_self, hL]
  · intro i hi
    rw [windowsOf_setWindows_of_not hi, hsp.windowsOf]
    rfl
  · rw [hb]
    exact hsp.backup
  · rw [hp]
    exact hsp.pendingList
  · rw [hc]
    exact hsp.twos
  · intro hne b hmem
    rw [hb, drop_backup, ← hs₁] at hmem
    rw [hL] at hne
    refine crossed_clears (s := { s with handledTime := tl.time }) hne h.keys ?_ b hmem
    intro w hw hr
    exact (h.reclaimed tl.ins w (hL ▸ crossed_subset hw) hr).2

theorem Guarded.of_settled (h : Guarded c R s) (ht : s.handledTime ≤ tl.time)
    (hs : Settled c s s' tl) : Guarded c R s' := by
  have hle : s.handledTime ≤ s'.handledTime := by
    rw [hs.handledTime]
    exact ht
  have hback : ∀ b ∈ s'.backup, b ∈ s.backup := fun b hb => hs.backup.subset hb
  refine ⟨?_, ?_, ?_, ?_, ?_, ?_, ?_⟩
  · intro i
    by_cases hi : c.affects i tl
    · rw [hs.own i hi]
      exact settle_sorted (h.sorted tl.ins)
    · rw [hs.other i hi]
      exact h.sorted i
  · intro i w hw hr
    by_cases hi : c.affects i tl
    · rw [hs.own i hi] at hw
      obtain ⟨w₀, hw₀, hst, -, hor⟩ := mem_settle hw
      cases hor hr with
      | inl hr₀ =>
        obtain ⟨h1, h2⟩ := h.reclaimed tl.ins w₀ hw₀ hr₀
        refine ⟨by omega, fun b hb => ?_⟩
        rw [affects_congr hi]
        exact h2 b (hback b hb)
      | inr hcr =>
        refine ⟨by rw [hs.handledTime]; omega, fun b hb => ?_⟩
        rw [affects_congr hi]
        exact hs.clear (List.ne_nil_of_mem hcr.1) b hb
    · rw [hs.other i hi] at hw
      obtain ⟨h1, h2⟩ := h.reclaimed i w hw hr
      exact ⟨Nat.lt_of_lt_of_le h1 hle, fun b hb => h2 b (hback b hb)⟩
  · intro i w hw
    by_cases hi : c.affects i tl
    · rw [hs.own i hi] at hw
      obtain ⟨w₀, hw₀, hst, hen, -⟩ := mem_settle hw
      rw [← windowsOf_affects hi] at hw₀
      obtain ⟨r, hr, hri, h1, h2⟩ := h.known i w₀ hw₀
      exact ⟨r, hr, hri, h1.trans hst, h2.trans hen⟩
    · rw [hs.other i hi] at hw
      exact h.known i w hw
  · intro r hr
    cases h.tracked r hr with
    | inr hp => exact Or.inr (hp.later hle hback)
    | inl hw =>
      obtain ⟨w, hw, hst, hen⟩ := hw
      by_cases hi : c.affects r.ins tl
      · rw [windowsOf_affects hi] at hw
        rw [hs.own r.ins hi]
        cases settle_or_passed (t := tl.time) hw with
        | inl hleft =>
          obtain ⟨w', hw', h1, h2⟩ := hleft
          exact Or.inl ⟨w', hw', h1.trans hst, h2.trans hen⟩
        | inr hpass =>
          obtain ⟨hne, h1, h2⟩ := hpass
          refine Or.inr ⟨by rw [hs.handledTime]; omega, by rw [hs.handledTime]; omega, ?_⟩
          intro b hb hab
          exact absurd ((affects_congr hi).mp hab) (hs.clear hne b hb)
      · rw [hs.other r.ins hi]
        exact Or.inl ⟨w, hw, hst, hen⟩
  · intro b hb
    exact Nat.le_trans (h.backupTime b (hback b hb)) hle
  · intro hl b hb
    exact h.keys hl b (hback b hb)
  · intro a ob k t hm
    obtain ⟨h1, h2⟩ := h.calls a ob k t (two_mem_of_filter hs.twos hm)
    exact ⟨fun e he => Nat.le_trans (h1 e he) hle, h2⟩

/-- Not inside a window: every record that affects the event is ahead or over. -/
theorem Guarded.clear (h : Guarded c R s) (ht : s.handledTime ≤ tl.time)
    (hf : (s.eventLost c tl).2.needFindPrev = true) : Clear c R (s.eventLost c tl).1 tl := by
  have hs : Settled c s (s.eventLost c tl).1 tl := h.settled
  have hg := h.of_settled ht hs
  have hv : verdict tl.time (s.windowsOf c tl.ins) ≠ .inside := by
    intro hin
    rw [eventLost_eq, hin] at hf
    rw [(drop_event .inside _ tl).2.2.1 rfl] at hf
    cases hf
  intro r hr hi
  cases hg.tracked r hr with
  | inr hp => exact Or.inr hp
  | inl hw =>
    obtain ⟨w, hw, hst, -⟩ := hw
    rw [hs.own r.ins hi] at hw
    rw [← hst]
    exact Or.inl ((le_of_verdict (h.sorted tl.ins) hw).1 hv)

/-- Backed up: every record that affects the event starts later or is over. -/
theorem Guarded.free (h : Guarded c R s) (ht : s.handledTime ≤ tl.time)
    (hb : (s.eventLost c tl).2.needBackup = true) : Free c R (s.eventLost c tl).1 tl := by
  have hs : Settled c s (s.eventLost c tl).1 tl := h.settled
  have hg := h.of_settled ht hs
  have hv : verdict tl.time (s.windowsOf c tl.ins) = .normal := by
    by_contra hno
    rw [eventLost_eq, (drop_event _ _ tl).2.1 hno] at hb
    cases hb
  refine ⟨?_, ?_⟩
  · intro r hr hi
    cases hg.tracked r hr with
    | inr hp =>
      have h1 := hp.started
      have h2 := hp.ended
      rw [hs.handledTime] at h1 h2
      exact Or.inr ⟨h1, h2⟩
    | inl hw =>
      obtain ⟨w, hw, hst, -⟩ := hw
      rw [hs.own r.ins hi] at hw
      rw [← hst]
      exact Or.inl ((le_of_verdict (h.sorted tl.ins) hw).2 hv)
  · intro i hi w hw
    rw [hs.own i hi] at hw
    exact (le_of_verdict (h.sorted tl.ins) hw).2 hv

theorem Guarded.addTwo (h : Guarded c R s) {a : Node} {ob : Option Node} {k t : Nat}
    (ht : ∀ e ∈ a :: ob.toList, e.time ≤ s.handledTime) (hap : ∀ r ∈ R, Apart c r a ob) :
    Guarded c R { s with calls := s.calls ++ [.two a ob k t] } := by
  refine ⟨h.sorted, h.reclaimed, h.known, ?_, h.backupTime, h.keys, ?_⟩
  · intro r hr
    exact (h.tracked r hr).imp_right fun hp => ⟨hp.started, hp.ended, hp.clear⟩
  · intro a' ob' k' t' hm
    cases List.mem_append.mp hm with
    | inl hm => exact h.calls a' ob' k' t' hm
    | inr hm =>
      cases List.mem_singleton.mp hm
      exact ⟨ht, hap⟩

/-- Both events of a pair are on the same side of every record that affects them. -/
theorem Guarded.tryCallTwo (h : Guarded c R s) (ht : s.handledTime = tl.time)
    (hc : tl.needFindPrev = true → Clear c R s tl) (needFree : Bool) :
    Guarded c R (s.tryCallTwo c tl needFree).1 := by
  obtain ⟨calls, hk, hor⟩ := tryCallTwo_cases c s tl needFree
  refine Guarded.spares ?_ hk.spares
  rcases hor with rfl | ⟨hf, ⟨prev, hmem, rfl⟩ | rfl⟩
  · exact h
  · have hle := h.backupTime prev hmem
    apply h.addTwo
    · intro e he
      simp only [Option.toList_some, List.mem_cons, List.not_mem_nil, or_false] at he
      rcases he with rfl | rfl <;> omega
    · intro r hr haff
      simp only [Option.toList_some, List.mem_cons, List.not_mem_nil, or_false, forall_eq_or_imp,
        forall_eq, Option.some.injEq, forall_eq'] at haff ⊢
      cases hc hf r hr haff.2 with
      | inl hahead => omega
      | inr hp =>
        have h1 := hp.clear prev hmem haff.1
        have h2 := hp.ended
        omega
  · apply h.addTwo
    · intro e he
      simp only [Option.toList_none, List.mem_cons, List.not_mem_nil, or_false] at he
      exact Nat.le_of_eq (by rw [he, ht])
    · intro r hr haff
      simp only [Option.toList_none, List.mem_cons, List.not_mem_nil, or_false, forall_eq,
        reduceCtorEq, false_implies, implies_true, and_true] at haff ⊢
      cases hc hf r hr haff with
      | inl hahead => omega
      | inr hp =>
        have h2 := hp.ended
        omega

theorem Guarded.backupInsert (h : Guarded c R s) (ht : s.handledTime = tl.time)
    (hf : Free c R s tl) (hk : c.lostAffect = .insEvent → tl.key = c.insKey tl.ins) :
    Guarded c R (s.backupInsert c tl) := by
  obtain ⟨hb, hkeep⟩ := backupInsert_spec c s tl
  refine Guarded.spares ?_ hkeep.spares
  rw [hb]
  refine ⟨h.sorted, ?_, h.known, ?_, ?_, ?_, h.calls⟩
  · intro i w hw hr
    obtain ⟨h1, h2⟩ := h.reclaimed i w hw hr
    refine ⟨h1, fun b hmem => ?_⟩
    cases mem_insertBy.mp hmem with
    | inr hmem => exact h2 b hmem
    | inl he =>
      subst he
      intro hi
      have h3 : b.time < w.startTime := hf.windows i hi w hw
      have h4 : w.startTime < s.handledTime := h1
      omega
  · intro r hr
    refine (h.tracked r hr).imp_right fun hp => ⟨hp.started, hp.ended, ?_⟩
    intro b hmem haff
    cases mem_insertBy.mp hmem with
    | inr hmem => exact hp.clear b hmem haff
    | inl he =>
      subst he
      have h1 := hp.started
      cases hf.records r hr haff with
      | inl hahead => omega
      | inr hover => exact hover
  · intro b hmem
    cases mem_insertBy.mp hmem with
    | inr hmem => exact h.backupTime b hmem
    | inl he => exact Nat.le_of_eq (by rw [he]; exact ht.symm)
  · intro hl b hmem
    cases mem_insertBy.mp hmem with
    | inr hmem => exact h.keys hl b hmem
    | inl he => rw [he]; exact hk hl

theorem Guarded.handle (h : Guarded c R s) (ht : s.handledTime ≤ tl.time)
    (hk : c.lostAffect = .insEvent → tl.key = c.insKey tl.ins) (needFree : Bool) :
    Guarded c R (s.handle c tl needFree).1 ∧ (s.handle c tl needFree).1.handledTime = tl.time ∧
      (s.handle c tl needFree).1.pendingList.Sublist s.pendingList := by
  have hs : Settled c s (s.eventLost c tl).1 tl := h.settled
  have hsame : SameEvent tl (s.eventLost c tl).2 := by
    rw [eventLost_eq]
    exact drop_same _ _ _
  have h₁ := h.of_settled ht hs
  have hclear := h.clear ht
  have hfree := h.free ht
  unfold Trace.handle
  obtain ⟨⟨s₁, e⟩, he⟩ : ∃ x, s.eventLost c tl = x := ⟨_, rfl⟩
  rw [he] at hs hsame h₁ hclear hfree ⊢
  dsimp only at hs hsame h₁ hclear hfree ⊢
  have hti : s₁.handledTime = e.time := hs.handledTime.trans hsame.time.symm
  have haff : ∀ i, c.affects i e ↔ c.affects i tl := by
    intro i
    rw [Config.affects, Config.affects, hsame.ins]
  have h₂ : Guarded c R (s₁.tryCallTwo c e needFree).1 := by
    refine h₁.tryCallTwo hti (fun hf r hr hi => ?_) needFree
    rw [hsame.time]
    exact hclear hf r hr ((haff _).mp hi)
  obtain ⟨calls, hkeep, -⟩ := tryCallTwo_cases c s₁ e needFree
  obtain ⟨⟨s₂, nf⟩, he₂⟩ : ∃ x, s₁.tryCallTwo c e needFree = x := ⟨_, rfl⟩
  rw [he₂] at h₂ hkeep ⊢
  dsimp only at h₂ hkeep ⊢
  obtain ⟨s₃, hkeep₃, hor⟩ := tryBackup_cases c s₂ e nf
  have h₃ := h₂.spares hkeep₃.spares
  have hti₃ : s₃.handledTime = tl.time :=
    (hkeep₃.handledTime.trans hkeep.handledTime).trans hs.handledTime
  have hpl₃ : s₃.pendingList.Sublist s.pendingList :=
    (hkeep₃.pendingList.trans hkeep.pendingList).trans hs.pendingList
  rcases hor with hor | ⟨hb, hor⟩
  · rw [hor]
    exact ⟨h₃, hti₃, hpl₃⟩
  · obtain ⟨-, hins⟩ := backupInsert_spec c s₃ e
    rw [hor]
    refine ⟨h₃.backupInsert (hti₃.trans hsame.time.symm) ?_ ?_, hins.handledTime.trans hti₃,
      hins.pendingList.trans hpl₃⟩
    · have hf := hfree hb
      refine ⟨?_, ?_⟩
      · intro r hr hi
        rw [hsame.time]
        exact hf.records r hr ((haff _).mp hi)
      · intro i hi w hw
        rw [hkeep₃.spares.windowsOf, hkeep.spares.windowsOf] at hw
        rw [hsame.time]
        exact hf.windows i ((haff _).mp hi) w hw
    · intro hl
      rw [hsame.key, hsame.ins]
      exact hk hl

end Guard

section Run
variable {R : List LostNode} {now : Nat}

/-- The pending events come after the events handled so far. -/
structure Waiting (c : Config ρ) (s : Trace) (now : Nat) : Prop where
  sorted : s.pendingList.Pairwise fun a b => a.time ≤ b.time
  after : ∀ p ∈ s.pendingList, s.handledTime ≤ p.time
  bound : ∀ p ∈ s.pendingList, p.time ≤ now
  keys : c.lostAffect = .insEvent → ∀ p ∈ s.pendingList, p.key = c.insKey p.ins
  handled : s.handledTime ≤ now
  plain : c.needTimeline = false → s.pendingList = []

theorem Waiting.shrink (h : Waiting c s now) (ht : s'.handledTime = s.handledTime)
    (hp : s'.pendingList.Sublist s.pendingList) : Waiting c s' now := by
  refine ⟨h.sorted.sublist hp, ?_, fun p hm => h.bound p (hp.subset hm),
    fun hl p hm => h.keys hl p (hp.subset hm), by rw [ht]; exact h.handled,
    fun hc => List.sublist_nil.mp (h.plain hc ▸ hp)⟩
  intro p hm
  rw [ht]
  exact h.after p (hp.subset hm)

/-- Both invariants. -/
structure Watched (c : Config ρ) (R : List LostNode) (s : Trace) (now : Nat) : Prop where
  guarded : Guarded c R s
  waiting : Waiting c s now

theorem Watched.spares (h : Watched c R s now) (hs : Spares s s') : Watched c R s' now :=
  ⟨h.guarded.spares hs, h.waiting.shrink hs.handledTime hs.pendingList⟩

/-- An event at the present time, or the first pending one, is handled. -/
theorem Watched.handle (h : Watched c R s now) (ht : s.handledTime ≤ tl.time)
    (hp : ∀ p ∈ s.pendingList, tl.time ≤ p.time) (hnow : tl.time ≤ now)
    (hk : c.lostAffect = .insEvent → tl.key = c.insKey tl.ins) (needFree : Bool) :
    Watched c R (s.handle c tl needFree).1 now := by
  obtain ⟨hg, hti, hsub⟩ := h.guarded.handle ht hk needFree
  refine ⟨hg, h.waiting.sorted.sublist hsub, ?_, fun p hm => h.waiting.bound p (hsub.subset hm),
    fun hl p hm => h.waiting.keys hl p (hsub.subset hm), by rw [hti]; exact hnow,
    fun hc => List.sublist_nil.mp (h.waiting.plain hc ▸ hsub)⟩
  intro p hm
  rw [hti]
  exact hp p (hsub.subset hm)

theorem Watched.pendingLoop (h : Watched c R s now) (tail : Node) (fuel : Nat) (needFree : Bool) :
    Watched c R (Trace.pendingLoop c tail fuel s needFree).1 now := by
  induction fuel generalizing s needFree with
  | zero => exact h
  | succ fuel ih =>
    unfold Trace.pendingLoop
    split
    · exact h
    · rename_i first s₁ hfirst
      obtain ⟨p, rest, hp, hf, hs₁⟩ := firstPending_cases hfirst
      have h₁ := h.spares (keeps_firstPending hfirst).spares
      have hhead : p ∈ s.pendingList := by
        rw [hp]
        exact List.mem_cons_self ..
      have hrest : s₁.pendingList = rest := by
        rw [hs₁]
        split <;> rfl
      have hsorted := h.waiting.sorted
      rw [hp, List.pairwise_cons] at hsorted
      have htime : first.time = p.time := by rw [hf]
      have hkey : first.key = p.key ∧ first.ins = p.ins := by
        rw [hf]
        exact ⟨rfl, rfl⟩
      refine ih (h₁.handle ?_ ?_ ?_ ?_ needFree) _
      · rw [(keeps_firstPending hfirst).handledTime, htime]
        exact h.waiting.after p hhead
      · rw [hrest, htime]
        exact hsorted.1
      · rw [htime]
        exact h.waiting.bound p hhead
      · intro hl
        rw [hkey.1, hkey.2]
        exact h.waiting.keys hl p hhead

theorem Watched.clock (h : Watched c R s now) {now' : Nat} (ht : now ≤ now') (x y : Nat) :
    Watched c R { s with recentTime := x, eventHandled := y } now' :=
  ⟨⟨h.guarded.sorted, h.guarded.reclaimed, h.guarded.known,
    fun r hr => (h.guarded.tracked r hr).imp_right fun hp => ⟨hp.started, hp.ended, hp.clear⟩,
    h.guarded.backupTime, h.guarded.keys, h.guarded.calls⟩,
    ⟨h.waiting.sorted, h.waiting.after, fun p hp => Nat.le_trans (h.waiting.bound p hp) ht,
      h.waiting.keys, Nat.le_trans h.waiting.handled ht, h.waiting.plain⟩⟩

/-- A new event goes to the end of the pending list. -/
theorem Watched.timelineAdd (h : Watched c R s tl.time) (hle : ∀ p ∈ s.pendingList, p.time ≤ tl.time)
    (hk : c.lostAffect = .insEvent → tl.key = c.insKey tl.ins) (hc : c.needTimeline = true)
    {untraced : Bool} (hadd : s.timelineAdd tl untraced = some s') : Watched c R s' tl.time := by
  obtain ⟨hkeep, -, hpl⟩ := timelineAdd_cases hadd
  refine Watched.spares ?_ hkeep.spares
  refine ⟨⟨h.guarded.sorted, h.guarded.reclaimed, h.guarded.known,
    fun r hr => (h.guarded.tracked r hr).imp_right fun hp => ⟨hp.started, hp.ended, hp.clear⟩,
    h.guarded.backupTime, h.guarded.keys, h.guarded.calls⟩, ?_⟩
  rw [hpl]
  cases untraced with
  | true => exact ⟨h.waiting.sorted, h.waiting.after, h.waiting.bound, h.waiting.keys,
      h.waiting.handled, h.waiting.plain⟩
  | false =>
    refine ⟨?_, ?_, ?_, ?_, h.waiting.handled, fun hp => absurd hp (by rw [hc]; exact nofun)⟩
    · refine List.pairwise_append.mpr ⟨h.waiting.sorted, List.pairwise_singleton _ _, ?_⟩
      intro p hp q hq
      rw [List.mem_singleton.mp hq]
      exact hle p hp
    · intro p hp
      cases List.mem_append.mp hp with
      | inl hp => exact h.waiting.after p hp
      | inr hp =>
        rw [List.mem_singleton.mp hp]
        exact h.waiting.handled
    · intro p hp
      cases List.mem_append.mp hp with
      | inl hp => exact h.waiting.bound p hp
      | inr hp =>
        have heq := List.mem_singleton.mp hp
        have htime : p.time = tl.time := by rw [heq]
        exact Nat.le_of_eq htime
    · intro hl p hp
      cases List.mem_append.mp hp with
      | inl hp => exact h.waiting.keys hl p hp
      | inr hp =>
        rw [List.mem_singleton.mp hp]
        exact hk hl

theorem Watched.sample (h : Watched c R s now) (ev : Event ρ) (ht : now ≤ ev.time) :
    Watched c R (s.sample c ev) ev.time := by
  unfold Trace.sample
  cases hfind : findTp ev.evsel 0 c.tpList with
  | none => exact h.clock ht _ _
  | some found =>
    obtain ⟨ref, tp, tp1⟩ := found
    have h₁ := h.clock ht (max s.recentTime ev.time) (s.eventHandled + 1)
    have hk : c.lostAffect = .insEvent → (mkNode c ref tp tp1 ev s.eventHandled).key =
        c.insKey (mkNode c ref tp tp1 ev s.eventHandled).ins := fun hl => mkNode_key hl hfind
    dsimp only
    split
    · rename_i hc
      unfold Trace.sampleTimeline
      split
      · exact h₁
      · cases hadd : Trace.timelineAdd _ _ tp.untraced with
        | none => exact h₁
        | some s₁ =>
          have h₂ := Watched.timelineAdd h₁
            h₁.waiting.bound hk hc hadd
          have h₃ := h₂.pendingLoop (mkNode c ref tp tp1 ev s.eventHandled) s₁.pendingList.length
            (mkNode c ref tp tp1 ev s.eventHandled).unneeded
          dsimp only
          split
          · exact h₃.spares (keeps_timelineFreeUnneeded c _).spares
          · exact h₃
    · rename_i hc
      unfold Trace.samplePlain
      split
      · exact h₁
      · refine Watched.handle h₁
          (Nat.le_trans h.waiting.handled ht) ?_ (Nat.le_refl _) hk false
        intro p hp
        rw [h₁.waiting.plain (Bool.eq_false_iff.mpr hc)] at hp
        cases hp

theorem mem_insertLost {w w' : LostNode} :
    w' ∈ Trace.insertLost w L ↔ w' = w ∨ w' ∈ L := by
  induction L with
  | nil => simp [Trace.insertLost]
  | cons pos rest ih =>
    unfold Trace.insertLost
    split
    · rw [List.mem_cons]
    · rw [List.mem_cons, ih, List.mem_cons]
      exact ⟨fun h => h.elim (fun h => Or.inr (Or.inl h)) (Or.imp_right Or.inr),
        fun h => h.elim (fun h => Or.inr (Or.inl h)) (Or.imp_right Or.inr)⟩

theorem insertLost_sorted {w : LostNode} (h : L.Pairwise fun a b => a.startTime ≤ b.startTime) :
    (Trace.insertLost w L).Pairwise fun a b => a.startTime ≤ b.startTime := by
  induction L with
  | nil => exact List.pairwise_singleton _ _
  | cons pos rest ih =>
    rw [List.pairwise_cons] at h
    unfold Trace.insertLost
    split
    · rename_i hlt
      rw [List.pairwise_cons]
      refine ⟨?_, List.pairwise_cons.mpr h⟩
      intro w' hw'
      cases List.mem_cons.mp hw' with
      | inl he => rw [he]; omega
      | inr hr => exact Nat.le_trans (Nat.le_of_lt hlt) (h.1 w' hr)
    · rename_i hge
      rw [List.pairwise_cons]
      refine ⟨?_, ih h.2⟩
      intro w' hw'
      cases mem_insertLost.mp hw' with
      | inl he => rw [he]; omega
      | inr hr => exact h.1 w' hr

/-- The windows after `multi_trace_lost` with --order. -/
theorem lost_windowsOf (ho : c.order = true) (s : Trace) (ins st en i : Nat) :
    (s.lost c ins st en).windowsOf c i =
      match c.lostAffect with
      | .insEvent => if i = ins then s.perinsLost ins ++ [⟨ins, false, st, en⟩] else s.perinsLost i
      | .allEvent => Trace.insertLost ⟨ins, false, st, en⟩ s.timelineLost := by
  unfold Trace.lost Trace.windowsOf
  simp only [ho, Bool.not_true, Bool.false_and, Bool.false_eq_true, if_false]
  cases c.lostAffect with
  | insEvent => exact Function.update_apply ..
  | allEvent => rfl

theorem mem_lost_windowsOf (ho : c.order = true) {ins st en i : Nat} {w : LostNode} :
    w ∈ (s.lost c ins st en).windowsOf c i ↔
      w ∈ s.windowsOf c i ∨ w = ⟨ins, false, st, en⟩ ∧ (c.lostAffect = .allEvent ∨ ins = i) := by
  rw [lost_windowsOf ho]
  unfold Trace.windowsOf
  cases c.lostAffect with
  | allEvent =>
    rw [mem_insertLost]
    simp only [true_or, and_true]
    exact or_comm
  | insEvent =>
    simp only [reduceCtorEq, false_or]
    by_cases hi : i = ins
    · subst hi
      simp only [if_true, List.mem_append, List.mem_singleton, and_true]
    · simp only [if_neg hi, iff_self_or]
      exact fun h => absurd h.2.symm hi

theorem lost_sorted (h : Guarded c R s) (ho : c.order = true) {ins st en : Nat}
    (hins : c.lostAffect = .insEvent → ∀ r ∈ R, r.ins = ins → r.startTime ≤ st) (i : Nat) :
    ((s.lost c ins st en).windowsOf c i).Pairwise fun a b => a.startTime ≤ b.startTime := by
  have hold := h.sorted
  have hknown := h.known
  rw [lost_windowsOf ho]
  unfold Trace.windowsOf at hold hknown
  cases hl : c.lostAffect with
  | allEvent =>
    rw [hl] at hold
    exact insertLost_sorted (hold i)
  | insEvent =>
    rw [hl] at hold hknown
    dsimp only at hold hknown ⊢
    split
    · refine List.pairwise_append.mpr ⟨hold ins, List.pairwise_singleton _ _, ?_⟩
      intro w hw w' hw'
      rw [List.mem_singleton.mp hw']
      obtain ⟨r, hr, hri, hrs, -⟩ := hknown ins w hw
      rw [← hrs]
      exact hins hl r hr (hri.resolve_left nofun)
    · exact hold i

theorem lost_frame (ho : c.order = true) (s : Trace) (ins st en : Nat) :
    (s.lost c ins st en).backup = s.backup ∧ (s.lost c ins st en).calls = s.calls ∧
    (s.lost c ins st en).handledTime = s.handledTime ∧
    (s.lost c ins st en).pendingList = s.pendingList := by
  unfold Trace.lost
  simp only [ho, Bool.not_true, Bool.false_and, Bool.false_eq_true, if_false]
  cases c.lostAffect <;> exact ⟨rfl, rfl, rfl, rfl⟩

theorem Watched.lost (h : Watched c R s now) (ho : c.order = true) {ins st en : Nat}
    (hst : s.handledTime ≤ st)
    (hins : c.lostAffect = .insEvent → ∀ r ∈ R, r.ins = ins → r.startTime ≤ st) :
    Watched c (R ++ [⟨ins, false, st, en⟩]) (s.lost c ins st en) now := by
  obtain ⟨hb, hc, ht, hp⟩ := lost_frame ho s ins st en
  refine ⟨⟨fun i => lost_sorted h.guarded ho hins i, ?_, ?_, ?_, ?_, ?_, ?_⟩,
    h.waiting.shrink ht (by rw [hp])⟩
  · intro i w hw hr
    rw [ht, hb]
    cases (mem_lost_windowsOf ho).mp hw with
    | inl hw => exact h.guarded.reclaimed i w hw hr
    | inr hw => rw [hw.1] at hr; cases hr
  · intro i w hw
    cases (mem_lost_windowsOf ho).mp hw with
    | inl hw =>
      obtain ⟨r, hr, hrest⟩ := h.guarded.known i w hw
      exact ⟨r, List.mem_append_left _ hr, hrest⟩
    | inr hw =>
      refine ⟨_, List.mem_append_right _ (List.mem_singleton_self _), hw.2, ?_, ?_⟩ <;> rw [hw.1]
  · intro r hr
    cases List.mem_append.mp hr with
    | inl hr =>
      refine (h.guarded.tracked r hr).imp ?_ ?_
      · intro ⟨w, hw, h1, h2⟩
        exact ⟨w, (mem_lost_windowsOf ho).mpr (Or.inl hw), h1, h2⟩
      · intro hpast
        exact hpast.later (Nat.le_of_eq ht.symm) (fun b hm => hb ▸ hm)
    | inr hr =>
      rw [List.mem_singleton.mp hr]
      exact Or.inl ⟨_, (mem_lost_windowsOf ho).mpr (Or.inr ⟨rfl, Or.inr rfl⟩), rfl, rfl⟩
  · rw [hb, ht]
    exact h.guarded.backupTime
  · rw [hb]
    exact h.guarded.keys
  · intro a ob k t hm
    rw [hc] at hm
    obtain ⟨h1, h2⟩ := h.guarded.calls a ob k t hm
    rw [ht]
    refine ⟨h1, fun r hr => ?_⟩
    cases List.mem_append.mp hr with
    | inl hr => exact h2 r hr
    | inr hr =>
      -- the pairs made so far lie before the new window
      rw [List.mem_singleton.mp hr]
      intro _
      refine ⟨fun e he => ?_, fun b hob => ?_⟩
      · have := h1 e he
        dsimp only
        omega
      · have := h1 b (by rw [hob]; simp)
        dsimp only
        omega

/-- The lost records of a run. -/
def lostRecord : Input ρ → Option LostNode
  | .lost ins lostStart lostEnd => some ⟨ins, false, lostStart, lostEnd⟩
  | _ => none

/-- Each lost record comes before an event later than its start is handled. -/
def LostInTime (c : Config ρ) : Trace → List (Input ρ) → Prop
  | _, [] => True
  | s, i :: rest =>
    (∀ r, lostRecord i = some r → s.handledTime ≤ r.startTime) ∧ LostInTime c (s.step c i) rest

theorem Watched.run (h : Watched c R s now) (ho : c.order = true) (inputs : List (Input ρ))
    (ht : TimeOrdered now inputs) (hl : LostInTime c s inputs)
    (hs : c.lostAffect = .insEvent → (R ++ inputs.filterMap lostRecord).Pairwise
      fun a b => a.ins = b.ins → a.startTime ≤ b.startTime) :
    ∃ now', Watched c (R ++ inputs.filterMap lostRecord) (s.run c inputs) now' := by
  induction inputs generalizing s now R with
  | nil =>
    rw [List.filterMap_nil, List.append_nil]
    exact ⟨now, h⟩
  | cons i rest ih =>
    cases i with
    | sample ev => exact ih (h.sample ev ht.1) ht.2.2 hl.2 hs
    | flush => exact ih (h.spares (spares_flush c s)) ht hl.2 hs
    | lost ins st en =>
      have hcons : R ++ (Input.lost ins st en :: rest).filterMap lostRecord =
          (R ++ [⟨ins, false, st, en⟩]) ++ rest.filterMap lostRecord := by
        simp only [List.append_assoc, List.singleton_append]
        rfl
      rw [hcons] at hs ⊢
      refine ih (h.lost ho (hl.1 _ rfl) ?_) ht hl.2 hs
      intro hmode r hr hri
      have hpair := List.pairwise_append.mp (List.pairwise_append.mp (hs hmode)).1
      exact hpair.2.2 r hr _ (List.mem_singleton_self _) hri

theorem Watched.init (c : Config ρ) : Watched c [] Trace.init 0 := by
  have hw : ∀ i, Trace.init.windowsOf c i = [] := by
    intro i
    unfold Trace.windowsOf
    cases c.lostAffect <;> rfl
  refine ⟨⟨?_, ?_, ?_, nofun, nofun, fun _ => nofun, fun _ _ _ _ => nofun⟩,
    List.Pairwise.nil, nofun, nofun, fun _ => nofun, Nat.le_refl 0, fun _ => rfl⟩
  · intro i
    rw [hw]
    exact List.Pairwise.nil
  · intro i w hmem
    rw [hw] at hmem
    cases hmem
  · intro i w hmem
    rw [hw] at hmem
    cases hmem

/-- An event past all its windows is handled as if there were none. -/
theorem handle_past (h : Guarded c R s)
    (hw : ∀ w ∈ s.windowsOf c tl.ins, w.startTime < tl.time ∧ w.endTime ≤ tl.time)
    (needFree : Bool) :
    ∃ s' : Trace, s'.windowsOf c tl.ins = [] ∧ s'.backup.Sublist s.backup ∧
      s.handle c tl needFree = s'.handle c tl needFree := by
  have hs : Settled c s (s.eventLost c tl).1 tl := h.settled
  have hempty := hs.own tl.ins (Or.inr rfl)
  rw [settle_past hw] at hempty
  refine ⟨_, hempty, hs.backup, ?_⟩
  have hevent : (s.eventLost c tl).2 = tl := by
    rw [eventLost_eq, verdict, settle_past hw]
    rfl
  have hagain : (s.eventLost c tl).1.eventLost c tl = s.eventLost c tl := by
    rw [eventLost_none hempty, ← hs.handledTime]
    exact Prod.ext rfl hevent.symm
  unfold Trace.handle
  rw [hagain]

/-- No call straddles a lost record or has an event inside one, and once an event is past all
the records that affect it, it is handled as if there had been none. -/
theorem lost_safe (c : Config ρ) (ho : c.order = true) (inputs : List (Input ρ))
    (ht : TimeOrdered 0 inputs) (hl : LostInTime c Trace.init inputs)
    (hs : c.lostAffect = .insEvent → (inputs.filterMap lostRecord).Pairwise
      fun a b => a.ins = b.ins → a.startTime ≤ b.startTime) :
    let s := Trace.init.run c inputs
    (∀ a ob k t, ClassCall.two a ob k t ∈ s.calls →
      ∀ r ∈ inputs.filterMap lostRecord, Apart c r a ob) ∧
    ∀ tl needFree, (∀ r ∈ inputs.filterMap lostRecord, c.affects r.ins tl →
        r.startTime < tl.time ∧ r.endTime ≤ tl.time) →
      ∃ s' : Trace, s'.windowsOf c tl.ins = [] ∧ s'.backup.Sublist s.backup ∧
        s.handle c tl needFree = s'.handle c tl needFree := by
  intro s
  obtain ⟨now, h⟩ := (Watched.init c).run ho inputs ht hl hs
  rw [List.nil_append] at h
  refine ⟨fun a ob k t hm => (h.guarded.calls a ob k t hm).2, ?_⟩
  intro tl needFree hpast
  apply handle_past h.guarded
  intro w hw
  obtain ⟨r, hr, hri, hst, hen⟩ := h.guarded.known tl.ins w hw
  rw [← hst, ← hen]
  refine hpast r hr ?_
  exact hri.imp_right Eq.symm

/-- Nested windows; the pair before them and the pair after them are made. -/
def nestedLost : List (Input Nat) :=
  [.lost 0 20 60, .lost 0 30 40, .sample (eventAt 0 10 0 0), .sample (eventAt 1 15 0 0),
    .sample (eventAt 0 18 0 0), .sample (eventAt 1 35 0 0), .sample (eventAt 0 45 0 0),
    .sample (eventAt 0 60 0 0), .sample (eventAt 1 70 0 0)]

theorem lost_safe_nested :
    ((Trace.init.run (twoLists none false) nestedLost).calls.filter isTwo).length = 2 ∧
    ∀ a ob k t, ClassCall.two a ob k t ∈ (Trace.init.run (twoLists none false) nestedLost).calls →
      ∀ r ∈ nestedLost.filterMap lostRecord, Apart (twoLists none false) r a ob := by
  refine ⟨by decide, (lost_safe (twoLists none false) rfl nestedLost ?_ ?_ ?_).1⟩
  · simp [nestedLost, TimeOrdered, eventAt]
  · simp only [nestedLost, LostInTime]
    refine ⟨?_, ?_, nofun, nofun, nofun, nofun, nofun, nofun, nofun, trivial⟩ <;>
      exact fun r _ => Nat.zero_le _
  · intro _
    decide

/-- Two windows of one instance, the later one registered first. -/
def unorderedLost : List (Input Nat) :=
  [.lost 0 10 20, .lost 0 5 6, .sample (eventAt 0 5 0 0), .sample (eventAt 1 7 0 0)]

/-- A pair of which event1 is at time 10. -/
def pairAtTen : List (Input Nat) := [.sample (eventAt 0 10 0 0), .sample (eventAt 1 12 0 0)]

/-- A pair straddles a window that is not listed in the order of the starts, and an event at the
start of a window that ends there is not backed up. -/
theorem lost_not_safe_as_stated :
    (TimeOrdered 0 unorderedLost ∧ LostInTime (twoLists none false) Trace.init unorderedLost ∧
      ∃ a b k t, ClassCall.two a (some b) k t ∈
          (Trace.init.run (twoLists none false) unorderedLost).calls ∧
        ∃ r ∈ unorderedLost.filterMap lostRecord, a.ins = r.ins ∧ b.ins = r.ins ∧
          a.time ≤ r.startTime ∧ r.startTime < b.time) ∧
    (Trace.init.run (twoLists none false) pairAtTen).calls.length = 1 ∧
    (Trace.init.run (twoLists none false) (.lost 0 10 10 :: pairAtTen)).calls = [] := by
  refine ⟨⟨?_, ?_, ?_⟩, by decide, by decide⟩
  · simp [unorderedLost, TimeOrdered, eventAt]
  · refine ⟨?_, ?_, nofun, nofun, trivial⟩ <;>
      exact fun r _ => Nat.zero_le _
  · refine ⟨_, _, _, _, List.mem_singleton_self _, ⟨0, false, 5, 6⟩, by decide, ?_⟩
    decide

end Run

end PerfProf.MultiTrace
