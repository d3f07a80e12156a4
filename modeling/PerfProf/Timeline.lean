import Mathlib.Algebra.Order.BigOperators.Group.List
import Mathlib.Data.List.Nodup
import PerfProf.LostWindow

/-! The timeline of --detail. The needed events, the event in hand and the pending events
form one chain in time order; a node of the timeline is on the chain exactly when its
`unneeded` bit is clear, and the counters are sums over the timeline. -/
namespace PerfProf.MultiTrace
variable {ρ : Type*}

section Lists
variable {T C C' : List Node} {e b m : Node}

theorem insertBy_perm (before : Node → Node → Bool) (e : Node) (T : List Node) :
    (insertBy before e T).Perm (e :: T) := by
  induction T with
  | nil => exact List.Perm.refl _
  | cons b T ih =>
    by_cases hb : before b e = true
    · rw [insertBy, if_pos hb]
      exact (ih.cons b).trans (List.Perm.swap e b T)
    · rw [insertBy, if_neg hb]

/-- Sum of a weight over the unneeded nodes. -/
def unneededSum (w : Node → Nat) (T : List Node) : Nat :=
  ((T.filter fun n => n.unneeded).map w).sum

theorem unneededSum_perm (w : Node → Nat) {T T' : List Node} (h : T.Perm T') :
    unneededSum w T = unneededSum w T' :=
  ((h.filter _).map w).sum_eq

theorem unneededSum_cons (w : Node → Nat) (n : Node) (T : List Node) :
    unneededSum w (n :: T) = (if n.unneeded then w n else 0) + unneededSum w T := by
  unfold unneededSum
  cases hn : n.unneeded with
  | true => simp [hn]
  | false => simp [hn]

theorem markUnneeded_seq (q : Nat) (n : Node) : (Trace.markUnneeded q n).seq = n.seq := by
  unfold Trace.markUnneeded
  split <;> rfl

theorem markUnneeded_of_ne {q : Nat} {n : Node} (h : n.seq ≠ q) :
    Trace.markUnneeded q n = n := by
  rw [Trace.markUnneeded, if_neg h]

theorem map_markUnneeded_of_notMem {q : Nat} (h : q ∉ T.map Node.seq) :
    T.map (Trace.markUnneeded q) = T := by
  conv => rhs; rw [← List.map_id T]
  apply List.map_congr_left
  intro n hn
  apply markUnneeded_of_ne
  intro hq
  exact h (hq ▸ List.mem_map_of_mem hn)

/-- Flipping the bit of one node adds its weight. -/
theorem unneededSum_mark (w : Node → Nat) (hw : ∀ n : Node, w { n with unneeded := true } = w n)
    (hnd : (T.map Node.seq).Nodup) (hm : m ∈ T) (hu : m.unneeded = false) :
    unneededSum w (T.map (Trace.markUnneeded m.seq)) = unneededSum w T + w m := by
  induction T with
  | nil => simp at hm
  | cons n T ih =>
    rw [List.map_cons, List.nodup_cons] at hnd
    rw [List.map_cons, unneededSum_cons, unneededSum_cons]
    cases List.mem_cons.mp hm with
    | inl h =>
      subst h
      rw [map_markUnneeded_of_notMem hnd.1]
      simp only [Trace.markUnneeded, if_true, hu, hw]
      simp only [Bool.false_eq_true, if_false]
      omega
    | inr h =>
      have hne : n.seq ≠ m.seq := by
        intro he
        exact hnd.1 (he ▸ List.mem_map_of_mem h)
      rw [markUnneeded_of_ne hne, ih hnd.2 h]
      omega

theorem sum_mark (q : Nat) (T : List Node) :
    ((T.map (Trace.markUnneeded q)).map Node.size).sum = (T.map Node.size).sum := by
  have h : ∀ n, (Trace.markUnneeded q n).size = n.size := by
    intro n
    unfold Trace.markUnneeded
    split <;> rfl
  simp only [List.map_map, Function.comp_def, h]

/-- A timeline and its chain: needed, in hand, pending. -/
structure LineOk (T C : List Node) : Prop where
  nodup : (T.map Node.seq).Nodup
  sorted : T.Pairwise fun a b => a.time ≤ b.time
  chain : C.Pairwise fun a b => a.time ≤ b.time
  chainNodup : (C.map Node.seq).Nodup
  onLine : ∀ x ∈ C, ∃ n ∈ T, n.seq = x.seq ∧ n.time = x.time ∧ n.size = x.size
  flag : ∀ n ∈ T, n.unneeded = false ↔ n.seq ∈ C.map Node.seq

/-- A node leaves the chain and becomes unneeded. -/
theorem LineOk.leave (h : LineOk T C) (hsub : C'.Sublist C)
    (hmem : ∀ x ∈ C, x ∈ C' ↔ x.seq ≠ b.seq) :
    LineOk (T.map (Trace.markUnneeded b.seq)) C' := by
  have hseq : (T.map (Trace.markUnneeded b.seq)).map Node.seq = T.map Node.seq := by
    simp only [List.map_map, Function.comp_def, markUnneeded_seq]
  have hfields : ∀ n, (Trace.markUnneeded b.seq n).time = n.time ∧
      (Trace.markUnneeded b.seq n).size = n.size := by
    intro n
    unfold Trace.markUnneeded
    split <;> exact ⟨rfl, rfl⟩
  refine ⟨?_, ?_, h.chain.sublist hsub, h.chainNodup.sublist (hsub.map _), ?_, ?_⟩
  · rw [hseq]
    exact h.nodup
  · rw [List.pairwise_map]
    refine h.sorted.imp ?_
    intro x y hxy
    rw [(hfields x).1, (hfields y).1]
    exact hxy
  · intro x hx
    obtain ⟨n, hn, h1, h2, h3⟩ := h.onLine x (hsub.subset hx)
    refine ⟨Trace.markUnneeded b.seq n, List.mem_map_of_mem hn, ?_, ?_, ?_⟩
    · rw [markUnneeded_seq, h1]
    · rw [(hfields n).1, h2]
    · rw [(hfields n).2, h3]
  · intro n hn
    obtain ⟨n₀, hn₀, rfl⟩ := List.mem_map.mp hn
    rw [markUnneeded_seq]
    have hin : n₀.seq ∈ C'.map Node.seq ↔ n₀.seq ∈ C.map Node.seq ∧ n₀.seq ≠ b.seq := by
      constructor
      · intro hx
        obtain ⟨x, hx, he⟩ := List.mem_map.mp hx
        have hxC := hsub.subset hx
        refine ⟨he ▸ List.mem_map_of_mem hxC, ?_⟩
        rw [← he]
        exact (hmem x hxC).mp hx
      · intro ⟨hx, hne⟩
        obtain ⟨x, hx, he⟩ := List.mem_map.mp hx
        rw [← he]
        exact List.mem_map_of_mem ((hmem x hx).mpr (by rw [he]; exact hne))
    rw [hin, ← h.flag n₀ hn₀]
    by_cases he : n₀.seq = b.seq
    · simp [Trace.markUnneeded, he]
    · simp [markUnneeded_of_ne he, he]

theorem insertBy_sorted (hs : T.Pairwise fun a b => a.time ≤ b.time)
    (he : ∀ n ∈ T, n.time ≤ e.time) :
    (insertBy timelineBefore e T).Pairwise fun a b => a.time ≤ b.time := by
  induction T with
  | nil => exact List.pairwise_singleton _ _
  | cons b T ih =>
    rw [List.pairwise_cons] at hs
    by_cases hb : timelineBefore b e = true
    · rw [insertBy, if_pos hb, List.pairwise_cons]
      refine ⟨?_, ih hs.2 (fun n hn => he n (List.mem_cons_of_mem _ hn))⟩
      intro n hn
      cases List.mem_cons.mp ((insertBy_perm timelineBefore e T).mem_iff.mp hn) with
      | inl h =>
        rw [h]
        exact he b (List.mem_cons_self ..)
      | inr h => exact hs.1 n h
    · -- `e` goes first only among nodes of its own time
      have hbt : b.time = e.time := by
        have h1 := he b (List.mem_cons_self ..)
        simp only [timelineBefore, Bool.or_eq_true, decide_eq_true_eq, not_or] at hb
        omega
      rw [insertBy, if_neg hb, List.pairwise_cons]
      refine ⟨?_, List.pairwise_cons.mpr hs⟩
      intro n hn
      cases List.mem_cons.mp hn with
      | inl h => rw [h, hbt]
      | inr h =>
        rw [← hbt]
        exact hs.1 n h

/-- A new node that is unneeded from the start. -/
theorem LineOk.addUnneeded (h : LineOk T C) (hu : e.unneeded = true)
    (hq : e.seq ∉ T.map Node.seq) (ht : ∀ n ∈ T, n.time ≤ e.time) :
    LineOk (insertBy timelineBefore e T) C := by
  have hperm := insertBy_perm timelineBefore e T
  refine ⟨?_, insertBy_sorted h.sorted ht, h.chain, h.chainNodup, ?_, ?_⟩
  · rw [(hperm.map Node.seq).nodup_iff, List.map_cons, List.nodup_cons]
    exact ⟨hq, h.nodup⟩
  · intro x hx
    obtain ⟨n, hn, hrest⟩ := h.onLine x hx
    exact ⟨n, hperm.mem_iff.mpr (List.mem_cons_of_mem _ hn), hrest⟩
  · intro n hn
    cases List.mem_cons.mp (hperm.mem_iff.mp hn) with
    | inl he =>
      subst he
      constructor
      · intro hf
        rw [hu] at hf
        cases hf
      · intro hin
        obtain ⟨x, hx, hxe⟩ := List.mem_map.mp hin
        obtain ⟨m, hm, hms, -⟩ := h.onLine x hx
        exact absurd (by rw [← hxe, ← hms]; exact List.mem_map_of_mem hm) hq
    | inr hn => exact h.flag n hn

/-- A new node at the end of the chain. -/
theorem LineOk.addChain (h : LineOk T C) (hu : e.unneeded = false)
    (hq : e.seq ∉ T.map Node.seq) (ht : ∀ n ∈ T, n.time ≤ e.time) :
    LineOk (insertBy timelineBefore e T) (C ++ [e]) := by
  have hperm := insertBy_perm timelineBefore e T
  have hqC : ∀ x ∈ C, x.seq ≠ e.seq := by
    intro x hx he
    obtain ⟨m, hm, hms, -⟩ := h.onLine x hx
    exact hq (by rw [← he, ← hms]; exact List.mem_map_of_mem hm)
  refine ⟨?_, insertBy_sorted h.sorted ht, ?_, ?_, ?_, ?_⟩
  · rw [(hperm.map Node.seq).nodup_iff, List.map_cons, List.nodup_cons]
    exact ⟨hq, h.nodup⟩
  · rw [List.pairwise_append]
    refine ⟨h.chain, List.pairwise_singleton _ _, ?_⟩
    intro x hx y hy
    rw [List.mem_singleton.mp hy]
    obtain ⟨m, hm, -, hmt, -⟩ := h.onLine x hx
    rw [← hmt]
    exact ht m hm
  · rw [List.map_append, List.nodup_append]
    refine ⟨h.chainNodup, by simp, ?_⟩
    intro a ha b hb hab
    obtain ⟨x, hx, rfl⟩ := List.mem_map.mp ha
    have hbe : b = e.seq := by simpa using hb
    exact hqC x hx (hab.trans hbe)
  · intro x hx
    cases List.mem_append.mp hx with
    | inl hx =>
      obtain ⟨n, hn, hrest⟩ := h.onLine x hx
      exact ⟨n, hperm.mem_iff.mpr (List.mem_cons_of_mem _ hn), hrest⟩
    | inr hx =>
      rw [List.mem_singleton.mp hx]
      exact ⟨e, hperm.mem_iff.mpr (List.mem_cons_self ..), rfl, rfl, rfl⟩
  · intro n hn
    rw [List.map_append, List.mem_append]
    cases List.mem_cons.mp (hperm.mem_iff.mp hn) with
    | inl he =>
      subst he
      simp [hu]
    | inr hn =>
      rw [h.flag n hn]
      have hne : n.seq ≠ e.seq := fun he => hq (he ▸ List.mem_map_of_mem hn)
      simp [hne]

/-- The first node of the timeline goes; it is on the chain no more. -/
theorem LineOk.tail (h : LineOk (b :: T) C) (hb : b.unneeded = true) : LineOk T C := by
  have hnd := List.nodup_cons.mp h.nodup
  have hbC : ∀ x ∈ C, x.seq ≠ b.seq := by
    intro x hx he
    have := (h.flag b (List.mem_cons_self ..)).mpr (he ▸ List.mem_map_of_mem hx)
    rw [hb] at this
    cases this
  refine ⟨hnd.2, (List.pairwise_cons.mp h.sorted).2, h.chain, h.chainNodup, ?_, ?_⟩
  · intro x hx
    obtain ⟨n, hn, hs, hrest⟩ := h.onLine x hx
    cases List.mem_cons.mp hn with
    | inl he =>
      subst he
      exact absurd hs.symm (hbC x hx)
    | inr hn => exact ⟨n, hn, hs, hrest⟩
  · intro n hn
    exact h.flag n (List.mem_cons_of_mem _ hn)

end Lists

section State
variable {c : Config ρ} {s s' : Trace} {hand hand' : List Node} {now : Nat} {b tl : Node}

def Trace.chain (s : Trace) (hand : List Node) : List Node :=
  s.neededList ++ hand ++ s.pendingList

/-- The invariant of the timeline, `hand` being taken off the pending list and not yet placed. -/
structure Line (s : Trace) (hand : List Node) (now : Nat) : Prop where
  ok : LineOk s.timeline (s.chain hand)
  backup : s.backup.Perm s.neededList
  fresh : ∀ n ∈ s.timeline, n.seq < s.eventHandled
  bound : ∀ n ∈ s.timeline, n.time ≤ now
  unneeded : s.stat.unneeded = unneededSum (fun _ => 1) s.timeline
  unneededBytes : s.stat.unneededBytes = unneededSum Node.size s.timeline
  pending : s.stat.pending = s.pendingList.length
  pendingBytes : s.stat.pendingBytes = (s.pendingList.map Node.size).sum
  memBytes : s.stat.memBytes = (s.timeline.map Node.size).sum
  new : s.stat.new = s.stat.delete + s.timeline.length
  bugs : s.bugs = 0

/-- The parts of the state that the timeline does not read. -/
theorem Line.congr (h : Line s hand now) (ht : s'.timeline = s.timeline)
    (hn : s'.neededList = s.neededList) (hp : s'.pendingList = s.pendingList)
    (hb : s'.backup = s.backup) (he : s'.eventHandled = s.eventHandled) (hst : s'.stat = s.stat)
    (hbug : s'.bugs = s.bugs) : Line s' hand now := by
  have hc : s'.chain hand = s.chain hand := by
    simp only [Trace.chain, hn, hp]
  exact ⟨by rw [ht, hc]; exact h.ok, by rw [hb, hn]; exact h.backup,
    by rw [ht, he]; exact h.fresh, by rw [ht]; exact h.bound, by rw [hst, ht]; exact h.unneeded,
    by rw [hst, ht]; exact h.unneededBytes, by rw [hst, hp]; exact h.pending,
    by rw [hst, hp]; exact h.pendingBytes, by rw [hst, ht]; exact h.memBytes,
    by rw [hst, ht]; exact h.new, by rw [hbug]; exact h.bugs⟩

/-- The node of the timeline that stands for an element of the chain. -/
theorem Line.node_of_chain (h : Line s hand now) {x : Node} (hx : x ∈ s.chain hand) :
    ∃ n ∈ s.timeline, n.seq = x.seq ∧ n.size = x.size ∧ n.unneeded = false := by
  obtain ⟨n, hn, hs, -, hz⟩ := h.ok.onLine x hx
  exact ⟨n, hn, hs, hz, (h.ok.flag n hn).mpr (hs ▸ List.mem_map_of_mem hx)⟩

/-- A needed event or the event in hand is dropped. -/
theorem Line.leave (h : Line s hand now) (hb : b ∈ s.chain hand) {needed backup : List Node}
    (hsub : (needed ++ hand' ++ s.pendingList).Sublist (s.chain hand))
    (hmem : ∀ x ∈ s.chain hand, x ∈ needed ++ hand' ++ s.pendingList ↔ x.seq ≠ b.seq)
    (hperm : backup.Perm needed) :
    Line ({ s with neededList := needed, backup := backup }.setUnneeded b) hand' now := by
  obtain ⟨n, hn, hs, hz, hu⟩ := h.node_of_chain hb
  have hfields : ∀ x, (Trace.markUnneeded b.seq x).time = x.time := by
    intro x
    unfold Trace.markUnneeded
    split <;> rfl
  have hsum : ∀ w : Node → Nat, (∀ x : Node, w { x with unneeded := true } = w x) →
      unneededSum w (s.timeline.map (Trace.markUnneeded b.seq)) =
        unneededSum w s.timeline + w n := by
    intro w hw
    rw [← hs]
    exact unneededSum_mark w hw h.ok.nodup hn hu
  refine ⟨h.ok.leave hsub hmem, hperm, ?_, ?_, ?_, ?_, h.pending, h.pendingBytes, ?_, ?_, h.bugs⟩
  · intro x hx
    obtain ⟨x₀, hx₀, rfl⟩ := List.mem_map.mp hx
    rw [markUnneeded_seq]
    exact h.fresh x₀ hx₀
  · intro x hx
    obtain ⟨x₀, hx₀, rfl⟩ := List.mem_map.mp hx
    rw [hfields]
    exact h.bound x₀ hx₀
  · show s.stat.unneeded + 1 = _
    rw [h.unneeded]
    exact (hsum (fun _ => 1) (fun _ => rfl)).symm
  · show s.stat.unneededBytes + b.size = _
    rw [h.unneededBytes, ← hz]
    exact (hsum Node.size (fun _ => rfl)).symm
  · show s.stat.memBytes = ((s.timeline.map (Trace.markUnneeded b.seq)).map Node.size).sum
    rw [sum_mark]
    exact h.memBytes
  · show s.stat.new = s.stat.delete + (s.timeline.map (Trace.markUnneeded b.seq)).length
    rw [List.length_map]
    exact h.new

theorem Line.backupRemove (h : Line s hand now) (hc : c.needTimeline = true) (hb : b ∈ s.backup) :
    Line (s.backupRemove c b) hand now := by
  have hbn : b ∈ s.neededList := h.backup.mem_iff.mp hb
  have hnd := h.ok.chainNodup
  simp only [Trace.chain, List.append_assoc, List.map_append] at hnd
  have hsep := (List.nodup_append.mp hnd).2.2
  have hbr : Line (Trace.setUnneeded
      { s with
        neededList := s.neededList.filter (fun n => n.seq ≠ b.seq)
        backup := s.backup.filter (fun n => n.seq ≠ b.seq) } b) hand now := h.leave
    (by simp only [Trace.chain, List.append_assoc, List.mem_append]; exact Or.inl hbn)
    (by
      simp only [Trace.chain, List.append_assoc]
      exact List.Sublist.append_right List.filter_sublist _)
    (by
      intro x hx
      simp only [Trace.chain, List.append_assoc, List.mem_append, List.mem_filter,
        decide_eq_true_eq] at hx ⊢
      constructor
      · intro hx'
        cases hx' with
        | inl hx' => exact hx'.2
        | inr hx' =>
          intro he
          refine hsep b.seq (List.mem_map_of_mem hbn) x.seq ?_ he.symm
          rw [← List.map_append]
          exact List.mem_map_of_mem (List.mem_append.mpr hx')
      · intro hne
        cases hx with
        | inl hx => exact Or.inl ⟨hx, hne⟩
        | inr hx => exact Or.inr hx)
    (h.backup.filter _)
  simpa only [Trace.backupRemove, Trace.backupNodeDelete, hc, if_true] using hbr

theorem backupRemove_backup (c : Config ρ) (s : Trace) (b : Node) :
    (s.backupRemove c b).backup = s.backup.filter fun n => n.seq ≠ b.seq := by
  unfold Trace.backupRemove Trace.backupNodeDelete
  split <;> rfl

/-- Removing nodes of the tree one by one. -/
theorem Line.removeAll (h : Line s hand now) (hc : c.needTimeline = true) (l : List Node)
    (hl : ∀ x ∈ l, x ∈ s.backup) (hnd : (l.map Node.seq).Nodup) :
    Line (l.foldl (fun s b => s.backupRemove c b) s) hand now := by
  induction l generalizing s with
  | nil => exact h
  | cons b l ih =>
    rw [List.map_cons, List.nodup_cons] at hnd
    apply ih (h.backupRemove hc (hl b (List.mem_cons_self ..))) _ hnd.2
    intro x hx
    rw [backupRemove_backup, List.mem_filter]
    refine ⟨hl x (List.mem_cons_of_mem _ hx), ?_⟩
    simp only [decide_eq_true_eq]
    intro he
    exact hnd.1 (he ▸ List.mem_map_of_mem hx)

theorem Line.backupNodup (h : Line s hand now) : (s.backup.map Node.seq).Nodup := by
  have hnd := h.ok.chainNodup
  simp only [Trace.chain, List.append_assoc, List.map_append] at hnd
  exact ((h.backup.map Node.seq).nodup_iff).mpr (List.nodup_append.mp hnd).1

theorem Line.backupExit (h : Line s hand now) (hc : c.needTimeline = true) :
    Line (s.backupExit c) hand now :=
  h.removeAll hc s.backup (fun _ hx => hx) h.backupNodup

theorem Line.calls (h : Line s hand now) (calls : List ClassCall) :
    Line { s with calls := calls } hand now :=
  h.congr rfl rfl rfl rfl rfl rfl rfl

theorem Line.reclaimNodes (h : Line s hand now) (hc : c.needTimeline = true) (rr : Reason)
    (stop : Bool) (l : List Node) (hl : ∀ x ∈ l, x ∈ s.backup) (hnd : (l.map Node.seq).Nodup) :
    Line (s.reclaimNodes c rr stop l) hand now := by
  induction l generalizing s stop with
  | nil =>
    cases stop <;> exact h
  | cons b l ih =>
    rw [List.map_cons, List.nodup_cons] at hnd
    have hstep : ∀ (u : Trace) (stop' : Bool), Line u hand now → u.backup = s.backup →
        Line ((u.backupRemove c b).reclaimNodes c rr stop' l) hand now := by
      intro u stop' hu hub
      apply ih (hu.backupRemove hc (by rw [hub]; exact hl b (List.mem_cons_self ..))) _ _ hnd.2
      intro x hx
      rw [backupRemove_backup, hub, List.mem_filter]
      refine ⟨hl x (List.mem_cons_of_mem _ hx), ?_⟩
      simp only [decide_eq_true_eq]
      intro he
      exact hnd.1 (he ▸ List.mem_map_of_mem hx)
    cases stop with
    | true =>
      rw [Trace.reclaimNodes]
      exact hstep s true h rfl
    | false =>
      obtain ⟨calls, hcalls, -⟩ := callRemaining_fst c s b rr
      rw [Trace.reclaimNodes]
      split
      rename_i s₁ stop' hs
      rw [hs] at hcalls
      rw [show s₁ = { s with calls := calls } from hcalls]
      exact hstep _ stop' (h.calls calls) rfl

theorem Line.lostReclaim (h : Line s hand now) (hc : c.needTimeline = true) (ins : Nat) :
    Line (s.lostReclaim c ins) hand now := by
  unfold Trace.lostReclaim
  split
  · apply h.reclaimNodes hc
    · intro x hx
      exact (List.mem_filter.mp hx).1
    · exact h.backupNodup.sublist (List.filter_sublist.map _)
  · obtain ⟨calls, hcalls, -⟩ := handleRemaining_fst c s .lost s.backup
    rw [hcalls]
    exact (h.calls calls).backupExit hc

/-- The event in hand, if it is still to be backed up. -/
def handOf (tl : Node) : List Node := if tl.needBackup then [tl] else []

/-- The last event in hand is dropped. -/
theorem Line.leaveHand (h : Line s (hand ++ [tl]) now) : Line (s.setUnneeded tl) hand now := by
  have hnd := h.ok.chainNodup
  simp only [Trace.chain, List.append_assoc, List.map_append] at hnd
  have hsep := (List.nodup_append.mp hnd).2.2
  have hnd₁ := List.nodup_append.mp (List.nodup_append.mp hnd).2.1
  have hnd₂ := List.nodup_append.mp hnd₁.2.1
  have htl : tl.seq ∈ [tl].map Node.seq := List.mem_map_of_mem (List.mem_singleton_self tl)
  refine h.leave (by simp [Trace.chain]) ?_ ?_ h.backup
  · simp only [Trace.chain, List.append_assoc]
    exact ((List.sublist_append_right _ _).append_left _).append_left _
  · intro x hx
    simp only [Trace.chain, List.append_assoc, List.mem_append, List.mem_singleton] at hx ⊢
    constructor
    · intro hx' he
      rcases hx' with hx' | hx' | hx'
      · refine hsep x.seq (List.mem_map_of_mem hx') tl.seq ?_ he
        exact List.mem_append_right _ (List.mem_append_left _ htl)
      · exact hnd₁.2.2 x.seq (List.mem_map_of_mem hx') tl.seq (List.mem_append_left _ htl) he
      · exact hnd₂.2.2 tl.seq htl x.seq (List.mem_map_of_mem hx') he.symm
    · intro hne
      rcases hx with hx | hx | hx | hx
      · exact Or.inl hx
      · exact Or.inr (Or.inl hx)
      · exact absurd (congrArg Node.seq hx) hne
      · exact Or.inr (Or.inr hx)

theorem Line.dropBackup (h : Line s (handOf tl) now) :
    Line (s.dropBackup tl).1 (handOf (s.dropBackup tl).2) now := by
  by_cases hn : tl.needBackup = true
  · simp only [Trace.dropBackup, if_pos hn, handOf] at h ⊢
    exact Line.leaveHand h
  · simp only [Trace.dropBackup, if_neg hn]
    exact h

/-- The chain only reads `seq`, `time` and `size` of the event in hand. -/
theorem Line.handOf_congr {tl' : Node} (h : Line s (handOf tl) now) (hs : tl'.seq = tl.seq)
    (ht : tl'.time = tl.time) (hz : tl'.size = tl.size) (hn : tl'.needBackup = tl.needBackup) :
    Line s (handOf tl') now := by
  by_cases hb : tl.needBackup = true
  · simp only [handOf, hn, if_pos hb] at h ⊢
    have hk := h.ok
    simp only [Trace.chain] at hk
    refine ⟨⟨hk.nodup, hk.sorted, ?_, ?_, ?_, ?_⟩, h.backup, h.fresh, h.bound, h.unneeded,
      h.unneededBytes, h.pending, h.pendingBytes, h.memBytes, h.new, h.bugs⟩
    · have hp := hk.chain
      simp only [Trace.chain, List.append_assoc, List.pairwise_append, List.pairwise_singleton,
        List.mem_append, List.mem_singleton, forall_eq, true_and, forall_eq_or_imp] at hp ⊢
      rw [ht]
      exact hp
    · have hp := hk.chainNodup
      simp only [Trace.chain, List.map_append, List.map_cons, List.map_nil] at hp ⊢
      rw [hs]
      exact hp
    · intro x hx
      simp only [Trace.chain, List.mem_append, List.mem_singleton] at hx
      rcases hx with (hx | hx) | hx
      · exact hk.onLine x (by simp [hx])
      · obtain ⟨n, hn', h1, h2, h3⟩ := hk.onLine tl (by simp)
        subst hx
        exact ⟨n, hn', by rw [h1, hs], by rw [h2, ht], by rw [h3, hz]⟩
      · exact hk.onLine x (by simp [hx])
    · intro n hn'
      rw [hk.flag n hn']
      simp only [Trace.chain, List.map_append, List.map_cons, List.map_nil, hs]
  · simp only [handOf, hn, if_neg hb] at h ⊢
    exact h

theorem Line.eventLostLoop (h : Line s (handOf tl) now) (hc : c.needTimeline = true)
    (windows : List LostNode) :
    Line (s.eventLostLoop c tl windows).1 (handOf (s.eventLostLoop c tl windows).2.1) now ∧
      SameEvent tl (s.eventLostLoop c tl windows).2.1 := by
  induction windows generalizing s with
  | nil => exact ⟨h, ⟨rfl, rfl, rfl, rfl, rfl, rfl⟩⟩
  | cons lost rest ih =>
    unfold Trace.eventLostLoop
    split
    · exact ⟨h, ⟨rfl, rfl, rfl, rfl, rfl, rfl⟩⟩
    · split
      · exact ⟨h.dropBackup, dropBackup_same s tl⟩
      · have hr : Line (if lost.reclaim then s else
            { { s with recentTime := lost.startTime }.lostReclaim c tl.ins with
              recentTime := s.recentTime }) (handOf tl) now := by
          split
          · exact h
          · have h₁ : Line { s with recentTime := lost.startTime } (handOf tl) now :=
              h.congr rfl rfl rfl rfl rfl rfl rfl
            exact (h₁.lostReclaim hc tl.ins).congr rfl rfl rfl rfl rfl rfl rfl
        simp only
        split
        · have h₂ : Line _ (handOf { tl with needFindPrev := false }) now :=
            hr.handOf_congr rfl rfl rfl rfl
          refine ⟨h₂.dropBackup, ?_⟩
          have := dropBackup_same (if lost.reclaim then s else
            { { s with recentTime := lost.startTime }.lostReclaim c tl.ins with
              recentTime := s.recentTime }) { tl with needFindPrev := false }
          exact ⟨this.seq, this.time, this.size, this.key, this.tp, this.ins⟩
        · exact ih hr

theorem Line.eventLost (h : Line s (handOf tl) now) (hc : c.needTimeline = true) :
    Line (s.eventLost c tl).1 (handOf (s.eventLost c tl).2) now ∧
      SameEvent tl (s.eventLost c tl).2 := by
  have h₁ : Line { s with handledTime := tl.time } (handOf tl) now :=
    h.congr rfl rfl rfl rfl rfl rfl rfl
  simp only [Trace.eventLost]
  split
  · obtain ⟨h₂, hsame⟩ := h₁.eventLostLoop hc (s.perinsLost tl.ins)
    exact ⟨h₂.congr rfl rfl rfl rfl rfl rfl rfl, hsame⟩
  · obtain ⟨h₂, hsame⟩ := h₁.eventLostLoop hc s.timelineLost
    exact ⟨h₂.congr rfl rfl rfl rfl rfl rfl rfl, hsame⟩

theorem findPrev_mem {key : Nat} {tp : Option TpRef} {prev : Node}
    (h : s.findPrev key tp = some prev) : prev ∈ s.backup :=
  List.mem_of_find?_eq_some h

theorem Line.tryCallTwo (h : Line s hand now) (hc : c.needTimeline = true) (tl : Node)
    (needFree : Bool) : Line (s.tryCallTwo c tl needFree).1 hand now := by
  unfold Trace.tryCallTwo
  split
  · split
    · rename_i prev hprev
      have hmem := findPrev_mem hprev
      have h₁ : Line (if c.objectFind prev.tp (some tl.tp) && decide (prev.time < tl.time) then
          { s with calls := s.calls ++ [.two prev (some tl) tl.key s.recentTime] } else s)
          hand now := by
        split
        · exact h.calls _
        · exact h
      simp only
      split
      · refine h₁.backupRemove hc ?_
        split <;> exact hmem
      · exact h₁
    · split
      · exact h.calls _
      · exact h
  · exact h

theorem Line.backupInsert (h : Line s [tl] now) (hc : c.needTimeline = true) :
    Line (s.backupInsert c tl) [] now := by
  simp only [Trace.backupInsert, hc, if_true]
  refine ⟨?_, ?_, h.fresh, h.bound, h.unneeded, h.unneededBytes, h.pending, h.pendingBytes,
    h.memBytes, h.new, h.bugs⟩
  · show LineOk s.timeline (s.neededList ++ [tl] ++ [] ++ s.pendingList)
    rw [List.append_nil]
    exact h.ok
  · exact (insertBy_perm _ _ _).trans
      ((h.backup.cons tl).trans (List.perm_append_singleton tl s.neededList).symm)

theorem Line.backupRetry (h : Line s [tl] now) (hc : c.needTimeline = true)
    (fuel : Nat) (needFree : Bool) (hf : s.backup.length < fuel) :
    Line (Trace.backupRetry c fuel s tl needFree).1 [] now := by
  induction fuel generalizing s needFree with
  | zero => omega
  | succ fuel ih =>
    unfold Trace.backupRetry
    split
    · rename_i exist hexist
      have hmem : exist ∈ s.backup := List.mem_of_find?_eq_some hexist
      split
      · exact Line.leaveHand h
      · apply ih (h.backupRemove hc hmem)
        rw [backupRemove_backup]
        have hlt : (s.backup.filter fun n => n.seq ≠ exist.seq).length < s.backup.length :=
          List.length_filter_lt_length_iff_exists.mpr ⟨exist, hmem, by simp⟩
        omega
    · exact h.backupInsert hc

theorem Line.tryBackup (h : Line s (handOf tl) now) (hc : c.needTimeline = true)
    (needFree : Bool) : Line (s.tryBackup c tl needFree).1 [] now := by
  unfold Trace.tryBackup
  by_cases hn : tl.needBackup = true
  · rw [handOf, if_pos hn] at h
    rw [if_pos hn]
    exact h.backupRetry hc _ needFree (Nat.lt_succ_self _)
  · rw [handOf, if_neg hn] at h
    rw [if_neg hn]
    exact h

theorem Line.handle (h : Line s (handOf tl) now) (hc : c.needTimeline = true)
    (needFree : Bool) : Line (s.handle c tl needFree).1 [] now := by
  obtain ⟨h₁, -⟩ := h.eventLost hc
  exact (h₁.tryCallTwo hc _ needFree).tryBackup hc _

theorem Line.popPending (h : Line s hand now) {first : Node} {rest : List Node}
    (hp : s.pendingList = first :: rest) :
    Line (s.popPending first rest) (hand ++ [first]) now := by
  refine ⟨?_, h.backup, h.fresh, h.bound, h.unneeded, h.unneededBytes, ?_, ?_, h.memBytes, h.new,
    h.bugs⟩
  · have hk := h.ok
    simp only [Trace.chain, hp] at hk
    show LineOk s.timeline (s.neededList ++ (hand ++ [first]) ++ rest)
    simpa only [List.append_assoc, List.singleton_append] using hk
  · show s.stat.pending - 1 = rest.length
    rw [h.pending, hp]
    rfl
  · show s.stat.pendingBytes - first.size = (rest.map Node.size).sum
    rw [h.pendingBytes, hp, List.map_cons, List.sum_cons]
    omega

theorem Line.firstPending (h : Line s [] now) {tail : Option Node} {first : Node}
    (hf : s.firstPending c tail = some (first, s')) : Line s' (handOf first) now := by
  obtain ⟨p, rest, hp, rfl, rfl⟩ := firstPending_cases hf
  have h₁ := h.popPending hp
  by_cases hn : p.needBackup = true
  · rw [if_pos hn]
    have h₂ : Line (s.popPending p rest) (handOf p) now := by
      rw [handOf, if_pos hn]
      exact h₁
    exact h₂.handOf_congr rfl rfl rfl rfl
  · rw [if_neg hn, handOf, if_neg hn]
    exact h₁.leaveHand

theorem Line.pendingLoop (h : Line s [] now) (hc : c.needTimeline = true) (tail : Node)
    (fuel : Nat) (needFree : Bool) : Line (Trace.pendingLoop c tail fuel s needFree).1 [] now := by
  induction fuel generalizing s needFree with
  | zero => exact h
  | succ fuel ih =>
    unfold Trace.pendingLoop
    split
    · exact h
    · rename_i first s₁ hf
      exact ih ((h.firstPending hf).handle hc needFree) _

theorem timelineBefore_total {x y : Node} (hxy : x.seq ≠ y.seq) :
    timelineBefore x y = true ∨ timelineBefore y x = true := by
  simp only [timelineBefore, Bool.or_eq_true, Bool.and_eq_true, decide_eq_true_eq, beq_iff_eq]
  omega

theorem timeline_no_equal {e : Node} (hq : e.seq ∉ s.timeline.map Node.seq) :
    (s.timeline.any fun n => !timelineBefore n e && !timelineBefore e n) = false := by
  rw [List.any_eq_false]
  intro n hn hboth
  have hne : n.seq ≠ e.seq := fun he => hq (he ▸ List.mem_map_of_mem hn)
  cases timelineBefore_total hne with
  | inl h => simp [h] at hboth
  | inr h => simp [h] at hboth

/-- The node of an event that is not older than the timeline is always added. -/
theorem Line.timelineAdd (h : Line s [] now) {e : Node} {untraced : Bool}
    (hq : e.seq ∉ s.timeline.map Node.seq) (hlt : e.seq < s.eventHandled) (ht : now ≤ e.time)
    (hu : untraced = true → e.unneeded = true) :
    ∃ s₁, s.timelineAdd e untraced = some s₁ ∧ Line s₁ [] e.time := by
  have hadd := timeline_no_equal hq
  have hle : ∀ n ∈ s.timeline, n.time ≤ e.time := fun n hn => (h.bound n hn).trans ht
  have hgrow : ∀ (m : Node), m.seq = e.seq → m.time = e.time →
      (∀ n ∈ insertBy timelineBefore m s.timeline, n.seq < s.eventHandled) ∧
      (∀ n ∈ insertBy timelineBefore m s.timeline, n.time ≤ e.time) ∧
      (∀ w : Node → Nat, unneededSum w (insertBy timelineBefore m s.timeline) =
        (if m.unneeded then w m else 0) + unneededSum w s.timeline) ∧
      ((insertBy timelineBefore m s.timeline).map Node.size).sum =
        m.size + (s.timeline.map Node.size).sum ∧
      (insertBy timelineBefore m s.timeline).length = s.timeline.length + 1 := by
    intro m hms hmt
    have hperm := insertBy_perm timelineBefore m s.timeline
    refine ⟨?_, ?_, ?_, ?_, hperm.length_eq⟩
    · intro n hn
      cases List.mem_cons.mp (hperm.mem_iff.mp hn) with
      | inl he => rw [he, hms]; exact hlt
      | inr hn => exact h.fresh n hn
    · intro n hn
      cases List.mem_cons.mp (hperm.mem_iff.mp hn) with
      | inl he => rw [he, hmt]
      | inr hn => exact hle n hn
    · intro w
      rw [unneededSum_perm w hperm, unneededSum_cons]
    · rw [(hperm.map Node.size).sum_eq, List.map_cons, List.sum_cons]
  unfold Trace.timelineAdd
  rw [if_neg (by rw [hadd]; exact Bool.false_ne_true)]
  refine ⟨_, rfl, ?_⟩
  cases untraced with
  | true =>
    have hue := hu rfl
    obtain ⟨hf, hb, hw, hsz, hlen⟩ := hgrow e rfl rfl
    simp only [if_true, hue]
    refine ⟨h.ok.addUnneeded hue hq hle, h.backup, hf, hb, ?_, ?_, h.pending, h.pendingBytes, ?_,
      ?_, h.bugs⟩
    · show s.stat.unneeded + 1 = unneededSum _ (insertBy timelineBefore e s.timeline)
      rw [hw, hue, h.unneeded]
      exact Nat.add_comm _ _
    · show s.stat.unneededBytes + e.size = unneededSum _ (insertBy timelineBefore e s.timeline)
      rw [hw, hue, h.unneededBytes]
      exact Nat.add_comm _ _
    · show s.stat.memBytes + e.size = ((insertBy timelineBefore e s.timeline).map Node.size).sum
      rw [hsz, h.memBytes]
      exact Nat.add_comm _ _
    · show s.stat.new + 1 = s.stat.delete + (insertBy timelineBefore e s.timeline).length
      rw [hlen, h.new]
      omega
  | false =>
    obtain ⟨m, hm⟩ : ∃ m : Node, m = { e with unneeded := false } := ⟨_, rfl⟩
    obtain ⟨hf, hb, hw, hsz, hlen⟩ := hgrow m (by rw [hm]) (by rw [hm])
    have hmu : m.unneeded = false := by rw [hm]
    have hmz : m.size = e.size := by rw [hm]
    simp only [Bool.false_eq_true, if_false, ← hm, hmu, hmz]
    refine ⟨?_, h.backup, hf, hb, ?_, ?_, ?_, ?_, ?_, ?_, h.bugs⟩
    · have hk := h.ok.addChain (e := m) hmu (by rw [hm]; exact hq) (by rw [hm]; exact hle)
      simpa only [Trace.chain, Trace.count, List.append_assoc] using hk
    · show s.stat.unneeded = unneededSum _ (insertBy timelineBefore m s.timeline)
      rw [hw, hmu, h.unneeded]
      exact (Nat.zero_add _).symm
    · show s.stat.unneededBytes = unneededSum _ (insertBy timelineBefore m s.timeline)
      rw [hw, hmu, h.unneededBytes]
      exact (Nat.zero_add _).symm
    · show s.stat.pending + 1 = (s.pendingList ++ [_]).length
      rw [h.pending, List.length_append]
      rfl
    · show s.stat.pendingBytes + e.size = ((s.pendingList ++ [m]).map Node.size).sum
      rw [h.pendingBytes, List.map_append, List.sum_append, ← hmz]
      rfl
    · show s.stat.memBytes + e.size = ((insertBy timelineBefore m s.timeline).map Node.size).sum
      rw [hsz, hmz, h.memBytes]
      exact Nat.add_comm _ _
    · show s.stat.new + 1 = s.stat.delete + (insertBy timelineBefore m s.timeline).length
      rw [hlen, h.new]
      omega

/-- The counters of the whole timeline, which its deletion alone can keep. -/
structure Counts (s : Trace) : Prop where
  nodup : (s.timeline.map Node.seq).Nodup
  unneeded : s.stat.unneeded = unneededSum (fun _ => 1) s.timeline
  unneededBytes : s.stat.unneededBytes = unneededSum Node.size s.timeline
  memBytes : s.stat.memBytes = (s.timeline.map Node.size).sum
  new : s.stat.new = s.stat.delete + s.timeline.length
  bugs : s.bugs = 0

theorem Line.counts (h : Line s hand now) : Counts s :=
  ⟨h.ok.nodup, h.unneeded, h.unneededBytes, h.memBytes, h.new, h.bugs⟩

/-- What deleting a node that is on no list does not touch. -/
structure RemoveFrame (s s' : Trace) : Prop where
  neededList : s'.neededList = s.neededList
  pendingList : s'.pendingList = s.pendingList
  backup : s'.backup = s.backup
  eventHandled : s'.eventHandled = s.eventHandled
  pending : s'.stat.pending = s.stat.pending
  pendingBytes : s'.stat.pendingBytes = s.stat.pendingBytes

theorem RemoveFrame.refl (s : Trace) : RemoveFrame s s := ⟨rfl, rfl, rfl, rfl, rfl, rfl⟩

theorem RemoveFrame.trans {s'' : Trace} (h : RemoveFrame s s') (h' : RemoveFrame s' s'') :
    RemoveFrame s s'' :=
  ⟨h'.neededList.trans h.neededList, h'.pendingList.trans h.pendingList, h'.backup.trans h.backup,
    h'.eventHandled.trans h.eventHandled, h'.pending.trans h.pending,
    h'.pendingBytes.trans h.pendingBytes⟩

theorem Counts.removeFirst (h : Counts s) {T : List Node} (hT : s.timeline = b :: T)
    (hb : b.seq ∉ (s.pendingList ++ s.neededList).map Node.seq) :
    (s.timelineRemove b).timeline = T ∧ Counts (s.timelineRemove b) ∧
      RemoveFrame s (s.timelineRemove b) := by
  have hnd := h.nodup
  rw [hT, List.map_cons, List.nodup_cons] at hnd
  have hfilter : (s.timeline.filter fun n => n.seq ≠ b.seq) = T := by
    rw [hT, List.filter_cons_of_neg (by simp), List.filter_eq_self]
    intro n hn
    simp only [decide_eq_true_eq]
    exact fun he => hnd.1 (he ▸ List.mem_map_of_mem hn)
  have hany : ((s.pendingList ++ s.neededList).any fun n => n.seq = b.seq) = false := by
    rw [List.any_eq_false]
    intro n hn he
    simp only [decide_eq_true_eq] at he
    exact hb (he ▸ List.mem_map_of_mem hn)
  have hsum := fun w => unneededSum_cons w b T
  have hu := h.unneeded
  have hub := h.unneededBytes
  have hm := h.memBytes
  have hnw := h.new
  rw [hT, hsum] at hu hub
  rw [hT, List.map_cons, List.sum_cons] at hm
  rw [hT, List.length_cons] at hnw
  unfold Trace.timelineRemove
  simp only [hany, hfilter, Bool.false_eq_true, if_false]
  cases hbu : b.unneeded with
  | true =>
    simp only [hbu, if_true] at hu hub
    simp only [if_true]
    refine ⟨rfl, ⟨hnd.2, ?_, ?_, ?_, ?_, h.bugs⟩, ⟨rfl, rfl, rfl, rfl, rfl, rfl⟩⟩
    · show s.stat.unneeded - 1 = unneededSum _ T
      omega
    · show s.stat.unneededBytes - b.size = unneededSum _ T
      omega
    · show s.stat.memBytes - b.size = (T.map Node.size).sum
      omega
    · show s.stat.new = s.stat.delete + 1 + T.length
      omega
  | false =>
    simp only [hbu, Bool.false_eq_true, if_false, Nat.zero_add] at hu hub
    simp only [Bool.false_eq_true, if_false]
    refine ⟨rfl, ⟨hnd.2, hu, hub, ?_, ?_, h.bugs⟩, ⟨rfl, rfl, rfl, rfl, rfl, rfl⟩⟩
    · show s.stat.memBytes - b.size = (T.map Node.size).sum
      omega
    · show s.stat.new = s.stat.delete + 1 + T.length
      omega

theorem Line.removeFirst (h : Line s [] now) {T : List Node} (hT : s.timeline = b :: T)
    (hb : b.unneeded = true) :
    Line (s.timelineRemove b) [] now ∧ (s.timelineRemove b).timeline = T ∧
      RemoveFrame s (s.timelineRemove b) := by
  have hk := h.ok
  rw [hT] at hk
  have hnot : b.seq ∉ (s.pendingList ++ s.neededList).map Node.seq := by
    intro hin
    have hfl := hk.flag b (List.mem_cons_self ..)
    have : b.unneeded = false := by
      rw [hfl]
      simp only [Trace.chain, List.append_nil, List.map_append, List.mem_append] at hin ⊢
      exact hin.symm
    rw [hb] at this
    cases this
  obtain ⟨hT', hc, hf⟩ := h.counts.removeFirst hT hnot
  have hmem : ∀ n ∈ (s.timelineRemove b).timeline, n ∈ s.timeline := by
    intro n hn
    rw [hT'] at hn
    rw [hT]
    exact List.mem_cons_of_mem _ hn
  refine ⟨⟨?_, ?_, ?_, ?_, hc.unneeded, hc.unneededBytes, ?_, ?_, hc.memBytes, hc.new, hc.bugs⟩, hT', hf⟩
  · rw [hT']
    have : (s.timelineRemove b).chain [] = s.chain [] := by
      simp only [Trace.chain, hf.neededList, hf.pendingList]
    rw [this]
    exact hk.tail hb
  · rw [hf.backup, hf.neededList]
    exact h.backup
  · intro n hn
    rw [hf.eventHandled]
    exact h.fresh n (hmem n hn)
  · exact fun n hn => h.bound n (hmem n hn)
  · rw [hf.pending, hf.pendingList]
    exact h.pending
  · rw [hf.pendingBytes, hf.pendingList]
    exact h.pendingBytes

/-- No event that is still needed is older than what `timeline_free_unneeded` frees. -/
theorem Line.unneededBefore_le (h : Line s [] now) {n : Node} (hn : n ∈ s.timeline)
    (hu : n.unneeded = false) : s.unneededBefore c ≤ n.time := by
  obtain ⟨x, hx, hxs⟩ := List.mem_map.mp ((h.ok.flag n hn).mp hu)
  obtain ⟨m, hm, hms, hmt, -⟩ := h.ok.onLine x hx
  have hmn : m = n := List.inj_on_of_nodup_map h.ok.nodup hm hn (hms.trans hxs)
  have hxt : x.time = n.time := by rw [← hmt, hmn]
  simp only [Trace.chain, List.append_nil] at hx
  have hhead : ∀ y rest, s.neededList ++ s.pendingList = y :: rest → y.time ≤ n.time := by
    intro y rest hy
    have hch := h.ok.chain
    simp only [Trace.chain, List.append_nil] at hch
    rw [hy] at hch hx
    cases List.mem_cons.mp hx with
    | inl he => rw [← he, hxt]
    | inr hr => rw [← hxt]; exact (List.pairwise_cons.mp hch).1 x hr
  unfold Trace.unneededBefore
  split
  · cases hnl : s.neededList with
    | cons y rest =>
      have := hhead y (rest ++ s.pendingList) (by rw [hnl]; rfl)
      simp only [List.head?_cons]
      split <;> omega
    | nil =>
      cases hpl : s.pendingList with
      | cons y rest =>
        have := hhead y rest (by rw [hnl, hpl]; rfl)
        simp only [List.head?_nil, List.head?_cons]
        split <;> omega
      | nil =>
        rw [hnl, hpl] at hx
        cases hx
  · exact Nat.zero_le _

/-- Freeing from the front meets unneeded nodes only; `backup` is not touched. -/
theorem Line.freeLoop (h : Line s [] now) {limit : Nat}
    (hlim : ∀ n ∈ s.timeline, n.unneeded = false → limit ≤ n.time) (fuel : Nat) :
    Line (Trace.freeLoop c limit fuel s) [] now ∧
      RemoveFrame s (Trace.freeLoop c limit fuel s) := by
  induction fuel generalizing s with
  | zero => exact ⟨h, RemoveFrame.refl s⟩
  | succ fuel ih =>
    unfold Trace.freeLoop
    split
    · exact ⟨h, RemoveFrame.refl s⟩
    · rename_i tl T hT
      split
      · rename_i hold
        have hmem : tl ∈ s.timeline := by
          rw [hT]
          exact List.mem_cons_self ..
        have hu : tl.unneeded = true := by
          cases hold with
          | inl hold => exact hold.2
          | inr hold =>
            by_contra hf
            exact absurd (hlim tl hmem (Bool.eq_false_iff.mpr hf)) (by omega)
        obtain ⟨h₁, hT₁, hf₁⟩ := h.removeFirst hT hu
        rw [Trace.freeNode, if_pos hu]
        obtain ⟨h₂, hf₂⟩ := ih h₁ (by
          intro n hn
          rw [hT₁] at hn
          exact hlim n (hT ▸ List.mem_cons_of_mem _ hn))
        exact ⟨h₂, hf₁.trans hf₂⟩
      · exact ⟨h, RemoveFrame.refl s⟩

theorem Line.timelineFreeUnneeded (h : Line s [] now) :
    Line (s.timelineFreeUnneeded c) [] now ∧ RemoveFrame s (s.timelineFreeUnneeded c) :=
  h.freeLoop (fun _ hn hu => h.unneededBefore_le hn hu) _

theorem Line.pending_time_le (h : Line s hand now) {x : Node} (hx : x ∈ s.pendingList) :
    x.time ≤ now := by
  obtain ⟨n, hn, -, ht, -⟩ := h.ok.onLine x (List.mem_append_right _ hx)
  rw [← ht]
  exact h.bound n hn

/-- Without a deadline every pending event is popped. -/
theorem Line.drainPending (h : Line s hand now) (hnow : now < 2 ^ 64) (fuel : Nat)
    (hf : s.pendingList.length ≤ fuel) :
    ∃ hand', Line (Trace.drainPending c fuel s) hand' now ∧
      (Trace.drainPending c fuel s).pendingList = [] := by
  induction fuel generalizing s hand with
  | zero => exact ⟨hand, h, List.length_eq_zero_iff.mp (Nat.le_zero.mp hf)⟩
  | succ fuel ih =>
    unfold Trace.drainPending
    split
    · rename_i hnone
      refine ⟨hand, h, ?_⟩
      cases hp : s.pendingList with
      | nil => rfl
      | cons first rest =>
        have ht : first.time ≤ Trace.deadline c none := by
          have := h.pending_time_le (hp ▸ List.mem_cons_self ..)
          simp only [Trace.deadline]
          omega
        simp only [Trace.firstPending, hp, if_pos ht] at hnone
        split at hnone <;> cases hnone
    · rename_i first s₁ hsome
      obtain ⟨p, rest, hp, -, rfl⟩ := firstPending_cases hsome
      have h₁ := h.popPending hp
      rw [hp, List.length_cons] at hf
      by_cases hn : p.needBackup = true
      · rw [if_pos hn]
        exact ih h₁ (by show rest.length ≤ fuel; omega)
      · rw [if_neg hn]
        exact ih h₁.leaveHand (by show rest.length ≤ fuel; omega)

/-- `rblist__exit(&ctx->timeline)` once no list holds a node. -/
theorem Counts.exitLoop (h : Counts s) (hp : s.pendingList = []) (hn : s.neededList = []) :
    (s.timelineExit).timeline = [] ∧ Counts s.timelineExit ∧ RemoveFrame s s.timelineExit := by
  unfold Trace.timelineExit
  obtain ⟨l, hl⟩ : ∃ l, s.timeline = l := ⟨_, rfl⟩
  rw [hl]
  induction l generalizing s with
  | nil => exact ⟨hl, h, RemoveFrame.refl s⟩
  | cons b l ih =>
    obtain ⟨hT, h₁, hf⟩ := h.removeFirst hl (by rw [hp, hn]; simp)
    obtain ⟨hT₂, h₂, hf₂⟩ := ih h₁ (hf.pendingList.trans hp) (hf.neededList.trans hn) hT
    exact ⟨hT₂, h₂, hf.trans hf₂⟩

theorem Line.flush (h : Line s [] now) (hc : c.needTimeline = true) (hnow : now < 2 ^ 64) :
    Line (s.flush c) [] now := by
  obtain ⟨calls, hcalls, -⟩ := handleRemaining_fst c s .exit s.backup
  unfold Trace.flush
  rw [hcalls]
  obtain ⟨hand, h₁, hp₁⟩ := (h.calls calls).drainPending (c := c) hnow _ le_rfl
  obtain ⟨s₁, hs₁⟩ : ∃ s₁, Trace.drainPending c s.pendingList.length { s with calls := calls } = s₁ :=
    ⟨_, rfl⟩
  rw [hs₁] at h₁ hp₁
  have h₂ := h₁.backupExit hc
  have hb₂ := backupExit_backup c s₁
  have hp₂ : (s₁.backupExit c).pendingList = [] :=
    List.sublist_nil.mp (hp₁ ▸ (keeps_backupExit c s₁).pendingList)
  have hn₂ : (s₁.backupExit c).neededList = [] := by
    have := h₂.backup
    rw [hb₂] at this
    exact List.nil_perm.mp this
  obtain ⟨hT, hcnt, hf⟩ := h₂.counts.exitLoop hp₂ hn₂
  simp only [hs₁]
  refine ⟨?_, ?_, ?_, ?_, hcnt.unneeded, hcnt.unneededBytes, ?_, ?_, hcnt.memBytes, hcnt.new,
    hcnt.bugs⟩
  · simp only [Trace.chain, hT, hf.neededList, hf.pendingList, hp₂, hn₂]
    exact ⟨List.nodup_nil, List.Pairwise.nil, List.Pairwise.nil, List.nodup_nil,
      fun _ hx => absurd hx (List.not_mem_nil), fun _ hx => absurd hx (List.not_mem_nil)⟩
  · rw [hf.backup, hf.neededList, hb₂, hn₂]
  · simp [hT]
  · simp [hT]
  · rw [hf.pending, hf.pendingList]
    exact h₂.pending
  · rw [hf.pendingBytes, hf.pendingList]
    exact h₂.pendingBytes

theorem Line.later (h : Line s hand now) {now' : Nat} (hle : now ≤ now') : Line s hand now' :=
  ⟨h.ok, h.backup, h.fresh, fun n hn => (h.bound n hn).trans hle, h.unneeded, h.unneededBytes,
    h.pending, h.pendingBytes, h.memBytes, h.new, h.bugs⟩

theorem Line.tick (h : Line s [] now) {time : Nat} (ht : now ≤ time) : Line (s.tick time) [] time :=
  ⟨h.ok, h.backup, fun n hn => (h.fresh n hn).trans (Nat.lt_succ_self _),
    fun n hn => (h.bound n hn).trans ht, h.unneeded, h.unneededBytes, h.pending, h.pendingBytes,
    h.memBytes, h.new, h.bugs⟩

/-- The node of a new event is always added. -/
theorem Line.addCurrent (h : Line s [] now) (ref : TpRef) (tp : Tp ρ) (tp1 : Option TpRef)
    {ev : Event ρ} (ht : now ≤ ev.time) :
    ∃ s₁, (s.tick ev.time).timelineAdd (mkNode c ref tp tp1 ev s.eventHandled) tp.untraced =
      some s₁ ∧ Line s₁ [] ev.time := by
  have hq : (mkNode c ref tp tp1 ev s.eventHandled).seq ∉ s.timeline.map Node.seq := by
    intro hin
    obtain ⟨n, hn, he⟩ := List.mem_map.mp hin
    have := h.fresh n hn
    rw [he] at this
    exact Nat.lt_irrefl _ this
  exact (h.tick ht).timelineAdd hq (Nat.lt_succ_self _) (Nat.le_refl _) fun hu => by
    simp [mkNode, hu]

theorem Line.sample (h : Line s [] now) (hc : c.needTimeline = true) (ev : Event ρ)
    (ht : now ≤ ev.time) : Line (s.sample c ev) [] ev.time := by
  cases hfind : findTp ev.evsel 0 c.tpList with
  | none =>
    rw [sample_not_found hfind]
    exact (h.later ht).congr rfl rfl rfl rfl rfl rfl rfl
  | some found =>
    obtain ⟨ref, tp, tp1⟩ := found
    rw [sample_found hfind, if_pos hc]
    obtain ⟨s₁, hadd, h₂⟩ := h.addCurrent (c := c) ref tp tp1 ht
    unfold Trace.sampleTimeline
    split
    · exact h.tick ht
    · rw [hadd]
      have h₃ := h₂.pendingLoop hc (mkNode c ref tp tp1 ev s.eventHandled) s₁.pendingList.length
        (mkNode c ref tp tp1 ev s.eventHandled).unneeded
      simp only
      split
      · exact h₃.timelineFreeUnneeded.1
      · exact h₃

theorem Line.lost (h : Line s [] now) (hc : c.needTimeline = true)
    (ins lostStart lostEnd : Nat) : Line (s.lost c ins lostStart lostEnd) [] now := by
  unfold Trace.lost
  by_cases hnow : (!c.order && decide (c.afterEvent2 = 0)) = true
  · rw [if_pos hnow]
    simp only [hc, if_true]
    exact (h.lostReclaim hc ins).timelineFreeUnneeded.1
  · rw [if_neg hnow]
    simp only
    split <;> exact h.congr rfl rfl rfl rfl rfl rfl rfl

end State

section Run
variable {c : Config ρ} {s : Trace} {now : Nat}

/-- How `timeline`, `backup`, the two lists and `tl_stat` fit together. -/
structure TimelineInv (s : Trace) : Prop where
  needed : ∀ n ∈ s.timeline, n.unneeded = false →
    Xor (n.seq ∈ s.pendingList.map Node.seq) (n.seq ∈ s.backup.map Node.seq)
  unneeded : ∀ n ∈ s.timeline, n.unneeded = true →
    n.seq ∉ s.pendingList.map Node.seq ∧ n.seq ∉ s.backup.map Node.seq
  backupNeeded : s.backup.Perm s.neededList
  onTimeline : ∀ x ∈ s.pendingList ++ s.backup, ∃ n ∈ s.timeline, n.seq = x.seq ∧ n.time = x.time
  once : (s.timeline.map Node.seq).Nodup ∧ ((s.pendingList ++ s.backup).map Node.seq).Nodup
  pendingSorted : s.pendingList.Pairwise fun a b => a.time ≤ b.time
  neededSorted : s.neededList.Pairwise fun a b => a.time ≤ b.time
  neededBeforePending : ∀ a ∈ s.neededList, ∀ b ∈ s.pendingList, a.time ≤ b.time
  countUnneeded : s.stat.unneeded = s.timeline.countP fun n => n.unneeded
  countPending : s.stat.pending = s.pendingList.length
  memBytes : s.stat.memBytes = (s.timeline.map Node.size).sum
  unneededBytes :
    s.stat.unneededBytes = ((s.timeline.filter fun n => n.unneeded).map Node.size).sum
  pendingBytes : s.stat.pendingBytes = (s.pendingList.map Node.size).sum
  entries : s.stat.new - s.stat.delete = s.timeline.length ∧ s.stat.delete ≤ s.stat.new
  noBug : s.bugs = 0

theorem Line.timelineInv (h : Line s [] now) : TimelineInv s := by
  have hsame : ∀ q, q ∈ s.backup.map Node.seq ↔ q ∈ s.neededList.map Node.seq :=
    fun q => (h.backup.map Node.seq).mem_iff
  have hchain := h.ok.chain
  have hnd := h.ok.chainNodup
  simp only [Trace.chain, List.append_nil, List.pairwise_append] at hchain
  simp only [Trace.chain, List.append_nil, List.map_append] at hnd
  have hflag : ∀ n ∈ s.timeline, n.unneeded = false ↔
      n.seq ∈ s.pendingList.map Node.seq ∨ n.seq ∈ s.backup.map Node.seq := by
    intro n hn
    rw [h.ok.flag n hn, hsame]
    simp only [Trace.chain, List.append_nil, List.map_append, List.mem_append]
    exact or_comm
  have hdisj : ∀ q, q ∈ s.pendingList.map Node.seq → q ∉ s.backup.map Node.seq := by
    intro q hp hb
    exact (List.nodup_append.mp hnd).2.2 q ((hsame q).mp hb) q hp rfl
  have hperm : (s.pendingList ++ s.backup).Perm (s.neededList ++ s.pendingList) :=
    (List.perm_append_comm).trans (h.backup.append_right _)
  refine ⟨?_, ?_, h.backup, ?_, ⟨h.ok.nodup, ?_⟩, hchain.2.1, hchain.1, hchain.2.2, ?_, h.pending,
    h.memBytes, h.unneededBytes, h.pendingBytes, ?_, h.bugs⟩
  · intro n hn hu
    cases (hflag n hn).mp hu with
    | inl hp => exact Or.inl ⟨hp, hdisj _ hp⟩
    | inr hb => exact Or.inr ⟨hb, fun hp => hdisj _ hp hb⟩
  · intro n hn hu
    have hno : ¬ n.unneeded = false := by simp [hu]
    rw [hflag n hn, not_or] at hno
    exact hno
  · intro x hx
    have hx' : x ∈ s.chain [] := by
      simp only [Trace.chain, List.append_nil]
      exact hperm.mem_iff.mp hx
    obtain ⟨n, hn, hs, ht, -⟩ := h.ok.onLine x hx'
    exact ⟨n, hn, hs, ht⟩
  · rw [(hperm.map Node.seq).nodup_iff, List.map_append]
    exact hnd
  · rw [h.unneeded, unneededSum, List.countP_eq_length_filter]
    simp
  · rw [h.new]
    omega

theorem Line.init : Line Trace.init [] 0 := by
  refine ⟨⟨List.nodup_nil, List.Pairwise.nil, List.Pairwise.nil, List.nodup_nil, ?_, ?_⟩,
    List.Perm.refl _, ?_, ?_, rfl, rfl, rfl, rfl, rfl, rfl, rfl⟩ <;>
  · intro x hx
    cases hx

theorem Line.run (h : Line s [] now) (hc : c.needTimeline = true) (hnow : now < 2 ^ 64)
    (inputs : List (Input ρ)) (ho : TimeOrdered now inputs) :
    ∃ now', Line (s.run c inputs) [] now' := by
  induction inputs generalizing s now with
  | nil => exact ⟨now, h⟩
  | cons i rest ih =>
    cases i with
    | sample ev => exact ih (h.sample hc ev ho.1) ho.2.1 ho.2.2
    | lost ins lostStart lostEnd => exact ih (h.lost hc ins lostStart lostEnd) hnow ho
    | flush => exact ih (h.flush hc hnow) hnow ho

theorem timeline_inv_run (c : Config ρ) (hc : c.needTimeline = true) (inputs : List (Input ρ))
    (ho : TimeOrdered 0 inputs) : TimelineInv (Trace.init.run c inputs) := by
  obtain ⟨now, h⟩ := Line.init.run hc (Nat.two_pow_pos 64) inputs ho
  exact h.timelineInv

/-- Two pairs of two keys, a lost record in between and an event inside its window. -/
def detailRun : List (Input Nat) :=
  [.sample (eventAt 0 10 0 1), .sample (eventAt 0 20 1 2), .lost 0 22 30,
    .sample (eventAt 1 21 0 1), .sample (eventAt 0 25 1 1), .sample (eventAt 0 40 1 1)]

theorem timeline_inv_run_detail :
    (Trace.init.run { twoLists (some id) true with beforeEvent1 := 20, afterEvent2 := 3 }
      detailRun).timeline.length = 4 ∧
    TimelineInv (Trace.init.run { twoLists (some id) true with beforeEvent1 := 20, afterEvent2 := 3 }
      detailRun) := by
  refine ⟨by decide, timeline_inv_run _ rfl _ ?_⟩
  simp [detailRun, TimeOrdered, eventAt]

end Run

end PerfProf.MultiTrace
