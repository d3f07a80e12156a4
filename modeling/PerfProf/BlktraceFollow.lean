import PerfProf.BlktraceIndex
import Mathlib.Data.List.Basic
import Mathlib.Data.List.Range
import Mathlib.Data.List.TakeDrop
import Mathlib.Data.List.TakeWhile

/-! blktrace.c: how the profiler follows a stream of block events. The events of a request follow each other;
where records are lost the request starts over. -/
namespace PerfProf.Blktrace
open PerfProf.Rblist

section Spec

/-- What happens on the device and to the profiler; some events are missed. -/
inductive Happening where
  | seen (x : Input)
  | missed (s : Sample)
deriving DecidableEq

def Happening.input? : Happening → Option Input
  | seen x => some x
  | missed _ => none

/-- What comes to the profiler. -/
def inputsOf (hs : List Happening) : List Input := hs.filterMap Happening.input?

def Happening.sample? : Happening → Option Sample
  | seen (.sample s) => some s
  | seen _ => none
  | missed s => some s

def Happening.window? : Happening → Option (UInt64 × UInt64)
  | seen (.lost _ lostStart lostEnd) => some (lostStart, lostEnd)
  | _ => none

/-- The lost windows that are registered. -/
def windowsOf (hs : List Happening) : List (UInt64 × UInt64) := hs.filterMap Happening.window?

def inside (windows : List (UInt64 × UInt64)) (time : UInt64) : Bool :=
  windows.any fun w => w.1 < time && time < w.2

/-- A window starts between two times. -/
def startsBetween (windows : List (UInt64 × UInt64)) (time time' : UInt64) : Bool :=
  windows.any fun w => time ≤ w.1 && w.1 < time'

/-- The event of a request. -/
def requestAt (type : BlockTp → Nat) (h : Happening) : Option RequestTrack :=
  h.sample?.bind (requestOf (blktraceInit type).stats)

def sameRange (a b : RequestTrack) : Bool := a.dev == b.dev && a.sector == b.sector && a.nrSector == b.nrSector

/-- The last event of a range. -/
def lastOf (event : Happening → Option RequestTrack) (pre : List Happening) (r : RequestTrack) : Option RequestTrack :=
  pre.reverse.findSome? fun h => (event h).filter (sameRange · r)

/-- The event `j` and the one of the same request that it directly follows, if neither is inside a lost
window and none starts between them. -/
def pairAt (type : BlockTp → Nat) (windows : List (UInt64 × UInt64)) (hs : List Happening) (j : Nat) :
    Option (RequestTrack × RequestTrack) :=
  (hs[j]?.bind (requestAt type)).bind fun b =>
    (lastOf (requestAt type) (hs.take j) b).bind fun a =>
      if a.tp = .rqComplete || inside windows a.time || inside windows b.time || startsBetween windows a.time b.time
      then none else some (a, b)

/-- The pairs since the last report. -/
def pairsOf (type : BlockTp → Nat) (windows : List (UInt64 × UInt64)) (hs : List Happening) :
    List (RequestTrack × RequestTrack) :=
  (List.range hs.length).filterMap fun j => if .seen .interval ∈ hs.drop j then none else pairAt type windows hs j

def delayOf (p : RequestTrack × RequestTrack) : UInt64 := p.2.time - p.1.time

/-- The delays from one stage to another since the last report. -/
def delaysOf (type : BlockTp → Nat) (hs : List Happening) (first second : BlockTp) : List UInt64 :=
  ((pairsOf type (windowsOf hs) hs).filter fun p => p.1.tp = first && p.2.tp = second).map delayOf

/-- A stream of block events: those of a request that is live have its range, which is not empty and apart
from the others; a window is registered before an event that is later than its start comes to the profiler. -/
structure Stream (type : BlockTp → Nat) (hs : List Happening) : Prop where
  ordered : (hs.filterMap fun h => h.sample?.map Sample.time).Pairwise (· ≤ ·)
  nonempty : ∀ h ∈ hs, ∀ r, requestAt type h = some r → r.sector < r.stop
  apart : ∀ pre h, pre ++ [h] <+: hs → ∀ r, requestAt type h = some r → ∀ a, a.tp ≠ .rqComplete →
    lastOf (requestAt type) pre a = some a → sameRange a r = true ∨ ¬ Overlaps a r
  inTime : ∀ pre ins lostStart lostEnd, pre ++ [.seen (.lost ins lostStart lostEnd)] <+: hs →
    ∀ s, .seen (.sample s) ∈ pre → s.time ≤ lostStart
  missed : ∀ s, .missed s ∈ hs → inside (windowsOf hs) s.time = true

end Spec

section Last
variable {event event' : Happening → Option RequestTrack} {pre : List Happening} {h : Happening} {a r : RequestTrack}

theorem lastOf_concat (event : Happening → Option RequestTrack) (pre : List Happening) (h : Happening)
    (r : RequestTrack) : lastOf event (pre ++ [h]) r = ((event h).filter (sameRange · r)).or (lastOf event pre r) := by
  rw [lastOf, List.reverse_concat, List.findSome?_cons]
  cases (event h).filter (sameRange · r) <;> rfl

theorem sameRange_iff {a b : RequestTrack} :
    sameRange a b = true ↔ a.dev = b.dev ∧ a.sector = b.sector ∧ a.nrSector = b.nrSector := by
  simp only [sameRange, Bool.and_eq_true, beq_iff_eq, and_assoc]

theorem sameRange_refl (a : RequestTrack) : sameRange a a = true := sameRange_iff.mpr ⟨rfl, rfl, rfl⟩

theorem sameRange_congr {a b : RequestTrack} (h : sameRange a b = true) (c : RequestTrack) :
    sameRange c a = sameRange c b := by
  obtain ⟨hdev, hsector, hnr⟩ := sameRange_iff.mp h
  rw [sameRange, sameRange, hdev, hsector, hnr]

theorem lastOf_congr {a b : RequestTrack} (h : sameRange a b = true) (event : Happening → Option RequestTrack)
    (pre : List Happening) : lastOf event pre a = lastOf event pre b := by
  unfold lastOf
  simp only [sameRange_congr h]

theorem lastOf_some (hlast : lastOf event pre r = some a) : sameRange a r = true ∧ ∃ h ∈ pre, event h = some a := by
  obtain ⟨h, hmem, hfilter⟩ := List.exists_of_findSome?_eq_some hlast
  obtain ⟨hevent, hsame⟩ := Option.filter_eq_some_iff.mp hfilter
  exact ⟨hsame, h, List.mem_reverse.mp hmem, hevent⟩

/-- The last event of a range among some of the events: the last of all, or one that is left out is behind it. -/
theorem lastOf_sub (hsub : ∀ h a, event' h = some a → event h = some a) (hlast : lastOf event' pre r = some a) :
    lastOf event pre r = some a ∨ ∃ front h back x e, pre = front ++ h :: back ∧ x ∈ front ∧ event' x = some a ∧
      event h = some e ∧ event' h = none := by
  induction pre using List.reverseRecOn with
  | nil => cases hlast
  | append_singleton pre h ih =>
    rw [lastOf_concat] at hlast ⊢
    cases hfilter : (event' h).filter (sameRange · r) with
    | some a' =>
      rw [hfilter] at hlast
      obtain ⟨hevent, hsame⟩ := Option.filter_eq_some_iff.mp hfilter
      rw [hsub h a' hevent, Option.filter_some, if_pos hsame]
      exact Or.inl hlast
    | none =>
      rw [hfilter, Option.none_or] at hlast
      cases hevent : event h with
      | none =>
        rcases ih hlast with heq | ⟨front, h', back, x, e, rfl, hx⟩
        · exact Or.inl heq
        · exact Or.inr ⟨front, h', back ++ [h], x, e, by rw [List.append_assoc, List.cons_append], hx⟩
      | some e =>
        cases hevent' : event' h with
        | none =>
          obtain ⟨-, x, hx, hxa⟩ := lastOf_some hlast
          exact Or.inr ⟨pre, h, [], x, e, rfl, hx, hxa, hevent, hevent'⟩
        | some e' =>
          have heq : e' = e := Option.some.inj ((hsub h e' hevent').symm.trans hevent)
          rw [hevent', heq] at hfilter
          rw [hfilter, Option.none_or]
          rcases ih hlast with heq | ⟨front, h', back, x, e, rfl, hx⟩
          · exact Or.inl heq
          · exact Or.inr ⟨front, h', back ++ [h], x, e, by rw [List.append_assoc, List.cons_append], hx⟩

/-- The last event of a range is the last of some events if it is one of them. -/
theorem lastOf_of_sub (hsub : ∀ h a, event' h = some a → event h = some a)
    (hin : ∀ h ∈ pre, event h = some a → event' h = some a) (hlast : lastOf event pre r = some a) :
    lastOf event' pre r = some a := by
  induction pre using List.reverseRecOn with
  | nil => cases hlast
  | append_singleton pre h ih =>
    rw [lastOf_concat] at hlast ⊢
    cases hfilter : (event h).filter (sameRange · r) with
    | some a' =>
      rw [hfilter] at hlast
      cases hlast
      obtain ⟨hevent, hsame⟩ := Option.filter_eq_some_iff.mp hfilter
      rw [hin h (List.mem_append_right _ List.mem_cons_self) hevent, Option.filter_some, if_pos hsame]
      rfl
    | none =>
      rw [hfilter, Option.none_or] at hlast
      have hnone : (event' h).filter (sameRange · r) = none := by
        cases hevent' : event' h with
        | none => rfl
        | some e => rw [← hsub h e hevent', hfilter]
      rw [hnone, Option.none_or]
      exact ih (fun h hh => hin h (List.mem_append_left _ hh)) hlast

end Last

section Settle
variable {bal : Rebalance RequestTrack} {time : UInt64} {l : List BlockLostNode} {tracks : RbList RequestTrack}

/-- The windows that an event goes through: those that are over are taken out, and if one has begun the
requests are forgotten. -/
structure Settled (time : UInt64) (l l' : List BlockLostNode) (tracks tracks' : List RequestTrack)
    (unsafeEvent : Bool) : Prop where
  unsafe_iff : unsafeEvent = true ↔ ∃ w ∈ l, w.startTime < time ∧ time < w.endTime
  sorted : l'.Pairwise (·.startTime ≤ ·.startTime)
  origin : ∀ w' ∈ l', ∃ w ∈ l, w.startTime = w'.startTime ∧ w.endTime = w'.endTime ∧
    (w'.reclaim = true → w.reclaim = true ∨ w.startTime < time)
  rest : ∀ w ∈ l, (∃ w' ∈ l', w'.startTime = w.startTime ∧ w'.endTime = w.endTime) ∨
    w.startTime < time ∧ w.endTime ≤ time
  clear : ∀ w ∈ l, w.startTime < time → tracks' = []
  keep : (∀ w ∈ l, time ≤ w.startTime) → tracks' = tracks
  later : unsafeEvent = false → ∀ w' ∈ l', time ≤ w'.startTime

theorem eventLostLoop_settled (hsorted : l.Pairwise (·.startTime ≤ ·.startTime))
    (hreclaimed : ∀ w ∈ l, w.reclaim = true → tracks.entries.toList = []) :
    Settled time l (eventLostLoop bal time l tracks).1 tracks.entries.toList
      (eventLostLoop bal time l tracks).2.1.entries.toList (eventLostLoop bal time l tracks).2.2 := by
  induction l generalizing tracks with
  | nil =>
    exact ⟨iff_of_false Bool.false_ne_true (by simp), .nil, by simp [eventLostLoop], by simp, by simp, fun _ => rfl,
      by simp [eventLostLoop]⟩
  | cons lost next ih =>
    obtain ⟨hfirst, hnext⟩ := List.pairwise_cons.mp hsorted
    by_cases hbefore : time ≤ lost.startTime
    · have hlater : ∀ w ∈ lost :: next, time ≤ w.startTime :=
        List.forall_mem_cons.mpr ⟨hbefore, fun w hw => UInt64.le_trans hbefore (hfirst w hw)⟩
      rw [eventLostLoop, if_pos hbefore]
      refine ⟨iff_of_false Bool.false_ne_true ?_, hsorted, fun w hw => ⟨w, hw, rfl, rfl, Or.inl⟩,
        fun w hw => Or.inl ⟨w, hw, rfl, rfl⟩, fun w hw hlt => ?_, fun _ => rfl, fun _ => hlater⟩
      · rintro ⟨w, hw, hlt, -⟩
        exact UInt64.not_lt.mpr (hlater w hw) hlt
      · exact absurd hlt (UInt64.not_lt.mpr (hlater w hw))
    · have hbegun : lost.startTime < time := UInt64.not_le.mp hbefore
      rw [eventLostLoop, if_neg hbefore]
      have hnil : (if lost.reclaim then tracks else exitTracks bal tracks).entries.toList = [] := by
        cases hreclaim : lost.reclaim with
        | true => exact hreclaimed lost List.mem_cons_self hreclaim
        | false => exact exitTracks_toList bal tracks
      generalize (if lost.reclaim then tracks else exitTracks bal tracks) = cleared at hnil
      have hnever : ¬ ∀ w ∈ lost :: next, time ≤ w.startTime :=
        fun hall => hbefore (hall lost List.mem_cons_self)
      dsimp only
      by_cases hinside : time < lost.endTime
      · rw [if_pos hinside]
        refine ⟨iff_of_true rfl ⟨lost, List.mem_cons_self, hbegun, hinside⟩, List.pairwise_cons.mpr ⟨hfirst, hnext⟩,
          List.forall_mem_cons.mpr ⟨⟨lost, List.mem_cons_self, rfl, rfl, fun _ => Or.inr hbegun⟩, fun w hw => ?_⟩,
          List.forall_mem_cons.mpr ⟨Or.inl ⟨_, List.mem_cons_self, rfl, rfl⟩, fun w hw => ?_⟩,
          fun _ _ _ => hnil, fun hall => absurd hall hnever, by simp⟩
        · exact ⟨w, List.mem_cons_of_mem _ hw, rfl, rfl, Or.inl⟩
        · exact Or.inl ⟨w, List.mem_cons_of_mem _ hw, rfl, rfl⟩
      · rw [if_neg hinside]
        have hout : lost.endTime ≤ time := UInt64.not_lt.mp hinside
        obtain ⟨hiff, hsorted', horigin, hrest, hclear, hkeep, hlater⟩ := ih hnext fun _ _ _ => hnil
        refine ⟨hiff.trans ⟨Exists.imp fun w => And.imp_left (List.mem_cons_of_mem _), ?_⟩, hsorted',
          fun w hw => ?_, List.forall_mem_cons.mpr ⟨Or.inr ⟨hbegun, hout⟩, hrest⟩, fun _ _ _ => ?_,
          fun hall => absurd hall hnever, hlater⟩
        · rintro ⟨w, hw, hin⟩
          rcases List.mem_cons.mp hw with rfl | hw
          · exact absurd hin.2 hinside
          · exact ⟨w, hw, hin⟩
        · obtain ⟨w', hw', hsame⟩ := horigin w hw
          exact ⟨w', List.mem_cons_of_mem _ hw', hsame⟩
        · rcases eventLostLoop_tracks bal time next cleared with heq | hempty
          · rw [heq]
            exact hnil
          · exact hempty

theorem blktraceLost_list (ins : Nat) (lostStart lostEnd : UInt64) (ctx : BlktraceCtx) : ∃ before after,
    ctx.lostList = before ++ after ∧
      (blktraceLost ins lostStart lostEnd ctx).lostList = before ++ ⟨ins, false, lostStart, lostEnd⟩ :: after ∧
        (∀ w ∈ before, w.startTime ≤ lostStart) ∧ ∀ w ∈ after.head?, lostStart < w.startTime := by
  let begun (pos : BlockLostNode) : Bool := pos.startTime ≤ lostStart
  refine ⟨ctx.lostList.takeWhile begun, ctx.lostList.dropWhile begun, List.takeWhile_append_dropWhile.symm, ?_,
    fun w hw => ?_, fun w hw => ?_⟩
  · unfold blktraceLost
    rw [List.span_eq_takeWhile_dropWhile]
  · have hbegun : begun w = true := List.mem_takeWhile_imp hw
    exact of_decide_eq_true hbegun
  · have hhead := List.head?_dropWhile_not begun ctx.lostList
    rw [Option.mem_def.mp hw] at hhead
    have hnot : begun w = false := by simpa using hhead
    exact UInt64.not_le.mp (of_decide_eq_false hnot)

theorem blktraceLost_sorted (ins : Nat) (lostStart lostEnd : UInt64) {ctx : BlktraceCtx}
    (h : ctx.lostList.Pairwise (·.startTime ≤ ·.startTime)) :
    (blktraceLost ins lostStart lostEnd ctx).lostList.Pairwise (·.startTime ≤ ·.startTime) := by
  obtain ⟨before, after, hlist, hlost, hbefore, hafter⟩ := blktraceLost_list ins lostStart lostEnd ctx
  rw [hlist] at h
  rw [hlost]
  obtain ⟨hb, ha, hba⟩ := List.pairwise_append.mp h
  refine List.pairwise_append.mpr ⟨hb, List.pairwise_cons.mpr ⟨fun w hw => ?_, ha⟩, fun v hv w hw => ?_⟩
  · cases after with
    | nil => cases hw
    | cons first rest =>
      have hfirst := UInt64.le_of_lt (hafter first rfl)
      rcases List.mem_cons.mp hw with rfl | hw
      · exact hfirst
      · exact UInt64.le_trans hfirst ((List.pairwise_cons.mp ha).1 w hw)
  · rcases List.mem_cons.mp hw with rfl | hw
    · exact hbefore v hv
    · exact hba v hv w hw

end Settle

section Pairs
variable {type : BlockTp → Nat} {windows : List (UInt64 × UInt64)} {pre : List Happening} {h : Happening} {j : Nat}

theorem pairAt_concat (hj : j < pre.length) : pairAt type windows (pre ++ [h]) j = pairAt type windows pre j := by
  unfold pairAt
  rw [List.getElem?_append_left hj, List.take_append_of_le_length (Nat.le_of_lt hj)]

theorem pairAt_last : pairAt type windows (pre ++ [h]) pre.length = (requestAt type h).bind fun b =>
    (lastOf (requestAt type) pre b).bind fun a =>
      if a.tp = .rqComplete || inside windows a.time || inside windows b.time || startsBetween windows a.time b.time
      then none else some (a, b) := by
  unfold pairAt
  rw [List.getElem?_concat_length, List.take_left]
  rfl

/-- A report starts over, another happening adds its pair. -/
theorem pairsOf_concat (type : BlockTp → Nat) (windows : List (UInt64 × UInt64)) (pre : List Happening)
    (h : Happening) : pairsOf type windows (pre ++ [h]) = if h = .seen .interval then []
      else pairsOf type windows pre ++ (pairAt type windows (pre ++ [h]) pre.length).toList := by
  unfold pairsOf
  rw [List.length_append, List.length_singleton, List.range_succ, List.filterMap_append]
  have hfront (j : Nat) (hj : j ∈ List.range pre.length) : (pre ++ [h]).drop j = pre.drop j ++ [h] :=
    List.drop_append_of_le_length (Nat.le_of_lt (List.mem_range.mp hj))
  by_cases hreport : h = .seen .interval
  · subst hreport
    rw [if_pos rfl]
    refine List.append_eq_nil_iff.mpr ⟨List.filterMap_eq_nil_iff.mpr fun j hj => ?_, ?_⟩
    · rw [hfront j hj]
      exact if_pos (List.mem_append_right _ List.mem_cons_self)
    · rw [List.filterMap_cons, List.drop_left, if_pos List.mem_cons_self]
      rfl
  · rw [if_neg hreport]
    congr 1
    · refine List.filterMap_congr fun j hj => ?_
      rw [hfront j hj, pairAt_concat (List.mem_range.mp hj)]
      have hiff : Happening.seen .interval ∈ pre.drop j ++ [h] ↔ Happening.seen .interval ∈ pre.drop j := by
        rw [List.mem_append, List.mem_singleton]
        exact or_iff_left fun heq => hreport heq.symm
      simp only [hiff]
    · have hnot : Happening.seen .interval ∉ [h] := fun hmem => hreport (List.mem_singleton.mp hmem).symm
      rw [List.filterMap_cons, List.drop_left, if_neg hnot]
      cases pairAt type windows (pre ++ [h]) pre.length <;> rfl

end Pairs

section Track
variable {bal : Rebalance RequestTrack} {greaterThan : UInt64} {ctx : BlktraceCtx} {a b c r : RequestTrack}

theorem stop_spec (h : r.sector < r.stop) : r.Real ∧ r.Ends := by
  have hlt := UInt64.lt_iff_toNat_lt.mp h
  rw [RequestTrack.stop, UInt64.toNat_add, UInt32.toNat_toUInt64] at hlt
  have hsector := r.sector.toNat_lt
  have hnr := r.nrSector.toNat_lt
  have hends : r.Ends := by
    unfold RequestTrack.Ends RequestTrack.last
    omega
  have hends' : r.sector.toNat + r.nrSector.toNat < 2 ^ 64 := hends
  rw [Nat.mod_eq_of_lt hends'] at hlt
  exact ⟨⟨by omega, by omega⟩, hends⟩

theorem overlaps_of_sameRange (h : sameRange a r = true) (hr : r.Real) : Overlaps a r := by
  obtain ⟨hdev, hsector, hnr⟩ := sameRange_iff.mp h
  have hpos := hr.pos
  unfold Overlaps RequestTrack.last
  rw [hdev, hsector, hnr]
  exact ⟨rfl, by omega, by omega⟩

/-- An event of requests that have their range: what is found, and what is tracked behind it. -/
theorem track_spec (bal : Rebalance RequestTrack) (greaterThan : UInt64) (hkept : Kept ctx.rqTracks.entries.toList)
    (hr : r.Real) (hends : r.Ends)
    (happart : ∀ b ∈ ctx.rqTracks.entries.toList, sameRange b r = true ∨ ¬ Overlaps b r) :
    (∀ a, ctx.rqTracks.entries.find (requestTrackNodeCmp r) = some a ↔
        a ∈ ctx.rqTracks.entries.toList ∧ sameRange a r = true) ∧
      ∀ a, a ∈ (trackRequest bal greaterThan r ctx).1.rqTracks.entries.toList ↔
        r.tp ≠ .rqComplete ∧ a = r ∨ a ∈ ctx.rqTracks.entries.toList ∧ sameRange a r = false := by
  have heq_iff (b : RequestTrack) (hb : b ∈ ctx.rqTracks.entries.toList) :
      requestTrackNodeCmp r b = .eq ↔ sameRange b r = true := by
    rw [cmp_eq_iff hends (hkept.ends b hb)]
    exact ⟨fun hover => (happart b hb).resolve_right (not_not.mpr hover), fun hsame => overlaps_of_sameRange hsame hr⟩
  unfold trackRequest
  cases hfind : ctx.rqTracks.entries.find (requestTrackNodeCmp r) with
  | some b =>
    obtain ⟨hcmp, xs, ys, hlist, hchange, t, hremove, hrest⟩ := Tree.find_some hfind
    have hb : b ∈ ctx.rqTracks.entries.toList := hlist ▸ List.mem_append_right _ List.mem_cons_self
    have hsame := (heq_iff b hb).mp hcmp
    rw [hlist] at hkept
    -- no other has the range
    have hothers : ∀ c ∈ xs ++ ys, sameRange c r = false := by
      intro c hc
      rw [Bool.eq_false_iff]
      intro hcsame
      have hbreal : b.Real := by
        obtain ⟨-, hsector, hnr⟩ := sameRange_iff.mp hsame
        exact ⟨hnr ▸ hr.pos, hsector ▸ hr.not_flush⟩
      rw [← sameRange_congr hsame] at hcsame
      exact hkept.others hc (overlaps_of_sameRange hcsame hbreal)
    have hmem (a : RequestTrack) : a ∈ ctx.rqTracks.entries.toList ∧ sameRange a r = false ↔ a ∈ xs ++ ys := by
      rw [hlist]
      constructor
      · intro ⟨ha, hdiff⟩
        rcases List.mem_append.mp ha with ha | ha
        · exact List.mem_append_left _ ha
        · rcases List.mem_cons.mp ha with rfl | ha
          · exact absurd hsame (Bool.eq_false_iff.mp hdiff)
          · exact List.mem_append_right _ ha
      · intro ha
        refine ⟨?_, hothers a ha⟩
        exact ((List.sublist_cons_self b ys).append_left xs).subset ha
    constructor
    · intro a
      constructor
      · rintro ⟨⟩
        exact ⟨hb, hsame⟩
      · intro ⟨ha, hasame⟩
        rw [hlist] at ha
        rcases List.mem_append.mp ha with ha | ha
        · exact absurd hasame (Bool.eq_false_iff.mp (hothers a (List.mem_append_left _ ha)))
        · rcases List.mem_cons.mp ha with rfl | ha
          · rfl
          · exact absurd hasame (Bool.eq_false_iff.mp (hothers a (List.mem_append_right _ ha)))
    · intro a
      rw [hmem]
      dsimp only
      by_cases htp : r.tp = .rqComplete
      · rw [if_neg (not_not.mpr htp), RbList.remove, hremove]
        dsimp only [Option.map_some, Option.getD_some]
        rw [bal.toList_erased, hrest]
        exact (or_iff_right fun hboth => hboth.1 htp).symm
      · rw [if_pos htp]
        dsimp only
        rw [hchange, List.mem_append, List.mem_append, List.mem_cons, or_left_comm]
        exact or_congr ⟨fun heq => ⟨htp, heq⟩, fun hboth => hboth.2⟩ Iff.rfl
  | none =>
    have hrises := hkept.rises hends hr
    have hnone := (Tree.find_none hrises).mp hfind
    have hdiff : ∀ b ∈ ctx.rqTracks.entries.toList, sameRange b r = false :=
      fun b hb => Bool.eq_false_iff.mpr fun hsame => hnone b hb ((heq_iff b hb).mpr hsame)
    constructor
    · exact fun a => iff_of_false (Option.some_ne_none a).symm fun hboth =>
        Bool.eq_false_iff.mp (hdiff a hboth.1) hboth.2
    · intro a
      have hmem : a ∈ ctx.rqTracks.entries.toList ∧ sameRange a r = false ↔ a ∈ ctx.rqTracks.entries.toList :=
        and_iff_left_of_imp (hdiff a)
      rw [hmem]
      dsimp only
      by_cases htp : r.tp = .rqComplete
      · rw [if_neg (not_not.mpr htp)]
        exact (or_iff_right fun hboth => hboth.1 htp).symm
      · rw [if_pos htp]
        dsimp only
        rw [RbList.addNode, hfind]
        dsimp only
        obtain ⟨xs, ys, hlist, hlink, -⟩ := Tree.link_toList (fun _ : RequestTrack => 0) r hfind
        rw [bal.toList_inserted, hlink, hlist, List.mem_append, List.mem_append, List.mem_cons, or_left_comm]
        exact or_congr ⟨fun heq => ⟨htp, heq⟩, fun hboth => hboth.2⟩ Iff.rfl

end Track

section Times
variable {type : BlockTp → Nat} {windows : List (UInt64 × UInt64)} {hs pre : List Happening} {h : Happening}
  {s : Sample} {a r : RequestTrack} {w : UInt64 × UInt64} {time time' : UInt64}

theorem inside_iff : inside windows time = true ↔ ∃ w ∈ windows, w.1 < time ∧ time < w.2 := by
  simp only [inside, List.any_eq_true, Bool.and_eq_true, decide_eq_true_eq]

theorem startsBetween_iff : startsBetween windows time time' = true ↔ ∃ w ∈ windows, time ≤ w.1 ∧ w.1 < time' := by
  simp only [startsBetween, List.any_eq_true, Bool.and_eq_true, decide_eq_true_eq]

def Happening.seenTime? : Happening → Option UInt64
  | seen (.sample s) => some s.time
  | _ => none

/-- The time of the last sample. -/
def lastTime (pre : List Happening) : UInt64 := (pre.reverse.findSome? Happening.seenTime?).getD 0

theorem lastTime_concat (pre : List Happening) (h : Happening) :
    lastTime (pre ++ [h]) = h.seenTime?.getD (lastTime pre) := by
  unfold lastTime
  rw [List.reverse_concat, List.findSome?_cons]
  cases h.seenTime? <;> rfl

theorem lastTime_le (h : ∀ s, .seen (.sample s) ∈ pre → s.time ≤ time) : lastTime pre ≤ time := by
  unfold lastTime
  cases hfind : pre.reverse.findSome? Happening.seenTime? with
  | none => exact UInt64.zero_le
  | some t =>
    obtain ⟨x, hx, heq⟩ := List.exists_of_findSome?_eq_some hfind
    cases x with
    | missed s => cases heq
    | seen x =>
      cases x with
      | sample s =>
        cases heq
        exact h s (List.mem_reverse.mp hx)
      | lost => cases heq
      | interval => cases heq

/-- The event of a sample that is used. -/
def usedAt (type : BlockTp → Nat) (windows : List (UInt64 × UInt64)) : Happening → Option RequestTrack
  | .seen (.sample s) => if inside windows s.time then none else requestOf (blktraceInit type).stats s
  | _ => none

theorem requestOf_time {stats : BlockTp → BlockIostat} (h : requestOf stats s = some r) : r.time = s.time := by
  unfold requestOf at h
  cases htp : tpOf stats s.commonType with
  | none => rw [htp] at h; cases h
  | some tp =>
    rw [htp] at h
    dsimp only at h
    split_ifs at h
    cases h
    rfl

theorem usedAt_request (h : Happening) (a : RequestTrack) (hused : usedAt type windows h = some a) :
    requestAt type h = some a := by
  cases h with
  | missed s => cases hused
  | seen x =>
    cases x with
    | sample s =>
      unfold usedAt at hused
      dsimp only at hused
      split_ifs at hused
      exact hused
    | lost => cases hused
    | interval => cases hused

theorem requestAt_sample (hrequest : requestAt type h = some r) : ∃ s, h.sample? = some s ∧ r.time = s.time := by
  obtain ⟨s, hs, hr⟩ := Option.bind_eq_some_iff.mp hrequest
  exact ⟨s, hs, requestOf_time hr⟩

/-- A used event is of a sample that is not inside a window. -/
theorem usedAt_some (hused : usedAt type windows h = some a) :
    ∃ s, h = .seen (.sample s) ∧ a.time = s.time ∧ inside windows a.time = false := by
  obtain ⟨s, hs, htime⟩ := requestAt_sample (usedAt_request h a hused)
  cases h with
  | missed s => cases hused
  | seen x =>
    cases x with
    | sample s' =>
      cases hs
      refine ⟨s, rfl, htime, ?_⟩
      unfold usedAt at hused
      dsimp only at hused
      split_ifs at hused with hin
      rw [htime]
      exact Bool.eq_false_iff.mpr hin
    | lost => cases hused
    | interval => cases hused

/-- An event that is not used is inside a window. -/
theorem Stream.unused (hstream : Stream type hs) (hh : h ∈ hs) (hrequest : requestAt type h = some r)
    (hused : usedAt type (windowsOf hs) h = none) : inside (windowsOf hs) r.time = true := by
  obtain ⟨s, hs', htime⟩ := requestAt_sample hrequest
  cases h with
  | missed s' =>
    cases hs'
    exact htime ▸ hstream.missed s hh
  | seen x =>
    cases x with
    | sample s' =>
      cases hs'
      unfold usedAt at hused
      dsimp only at hused
      split_ifs at hused with hin
      · exact htime ▸ hin
      · have heq : requestOf (blktraceInit type).stats s = some r := hrequest
        rw [heq] at hused
        cases hused
    | lost => cases hs'
    | interval => cases hs'

theorem Stream.used (hstream : Stream type hs) (hh : h ∈ hs) (hrequest : requestAt type h = some r)
    (hout : inside (windowsOf hs) r.time = false) : usedAt type (windowsOf hs) h = some r := by
  cases hused : usedAt type (windowsOf hs) h with
  | none =>
    rw [hstream.unused hh hrequest hused] at hout
    cases hout
  | some a => exact (usedAt_request h a hused).symm.trans hrequest ▸ rfl

theorem Stream.le (hstream : Stream type hs) (hpre : pre ++ [h] <+: hs) {x : Happening} (hx : x ∈ pre) {s' : Sample}
    (hs : h.sample? = some s) (hs' : x.sample? = some s') : s'.time ≤ s.time := by
  obtain ⟨rest, rfl⟩ := hpre
  have hordered := hstream.ordered
  rw [List.append_assoc, List.filterMap_append] at hordered
  refine (List.pairwise_append.mp hordered).2.2 s'.time ?_ s.time ?_
  · exact List.mem_filterMap.mpr ⟨x, hx, by rw [hs']; rfl⟩
  · exact List.mem_filterMap.mpr ⟨h, List.mem_cons_self, by rw [hs]; rfl⟩

theorem Stream.le_lastTime (hstream : Stream type hs) (hpre : pre <+: hs) :
    ∀ s, .seen (.sample s) ∈ pre → s.time ≤ lastTime pre := by
  induction pre using List.reverseRecOn with
  | nil => exact nofun
  | append_singleton pre h ih =>
    intro s' hs'
    rw [lastTime_concat]
    have hfront := ih ((List.prefix_append pre [h]).trans hpre)
    have hold (heq : Happening.seen (.sample s') = h) : s'.time ≤ h.seenTime?.getD (lastTime pre) :=
      heq ▸ UInt64.le_refl _
    rcases List.mem_append.mp hs' with hmem | hmem
    · cases h with
      | missed s => exact hfront s' hmem
      | seen x =>
        cases x with
        | sample s => exact hstream.le hpre hmem rfl rfl
        | lost => exact hfront s' hmem
        | interval => exact hfront s' hmem
    · exact hold (List.mem_singleton.mp hmem)

/-- A window is registered already, or begins no earlier than the samples so far. -/
theorem Stream.window_cases (hstream : Stream type hs) (hpre : pre <+: hs) (hw : w ∈ windowsOf hs) :
    w ∈ windowsOf pre ∨ ∀ s, .seen (.sample s) ∈ pre → s.time ≤ w.1 := by
  obtain ⟨rest, rfl⟩ := hpre
  obtain ⟨x, hx, hxw⟩ := List.mem_filterMap.mp hw
  rcases List.mem_append.mp hx with hx | hx
  · exact Or.inl (List.mem_filterMap.mpr ⟨x, hx, hxw⟩)
  · right
    obtain ⟨front, back, rfl⟩ := List.append_of_mem hx
    cases x with
    | missed s => cases hxw
    | seen x =>
      cases x with
      | sample s => cases hxw
      | interval => cases hxw
      | lost ins lostStart lostEnd =>
        cases hxw
        intro s hs
        refine hstream.inTime (pre ++ front) ins lostStart lostEnd ⟨back, ?_⟩ s (List.mem_append_left _ hs)
        simp only [List.append_assoc, List.singleton_append]

end Times

section Follow
variable {bal : Rebalance RequestTrack} {greaterThan : UInt64} {type : BlockTp → Nat} {windows : List (UInt64 × UInt64)}
  {hs pre : List Happening} {h : Happening} {ctx : BlktraceCtx} {s : Sample} {a r : RequestTrack} {time : UInt64}

/-- The last event of a request that is used, with no window since. -/
structure Tracked (type : BlockTp → Nat) (windows : List (UInt64 × UInt64)) (pre : List Happening) (time : UInt64)
    (a : RequestTrack) : Prop where
  live : a.tp ≠ .rqComplete
  last : lastOf (usedAt type windows) pre a = some a
  whole : startsBetween windows a.time time = false

/-- The state of the profiler behind what has happened so far. -/
structure Follows (greaterThan : UInt64) (type : BlockTp → Nat) (windows : List (UInt64 × UInt64))
    (pre : List Happening) (ctx : BlktraceCtx) : Prop where
  mem_iff : ∀ a, a ∈ ctx.rqTracks.entries.toList ↔ Tracked type windows pre (lastTime pre) a
  kept : Kept ctx.rqTracks.entries.toList
  sorted : ctx.lostList.Pairwise (·.startTime ≤ ·.startTime)
  known : ∀ w ∈ ctx.lostList, (w.startTime, w.endTime) ∈ windowsOf pre
  rest : ∀ w ∈ windowsOf pre, (∃ w' ∈ ctx.lostList, w'.startTime = w.1 ∧ w'.endTime = w.2) ∨
    w.1 < lastTime pre ∧ w.2 ≤ lastTime pre
  reclaimed : ∀ w ∈ ctx.lostList, w.reclaim = true → w.startTime < lastTime pre
  begun : ∀ w ∈ ctx.lostList, w.startTime < lastTime pre → ctx.rqTracks.entries.toList = []
  stats : ∀ k, ctx.stats k = ((pairsOf type windows pre).filter fun p => p.2.tp = k).foldl
    (fun iostat p => iostat.add greaterThan (delayOf p)) ((blktraceInit type).stats k)

theorem startsBetween_false : startsBetween windows a.time time = false ↔
    ∀ w ∈ windows, a.time ≤ w.1 → time ≤ w.1 := by
  rw [Bool.eq_false_iff, Ne, startsBetween_iff]
  constructor
  · intro hnot w hw hle
    exact UInt64.not_lt.mp fun hlt => hnot ⟨w, hw, hle, hlt⟩
  · exact fun hall ⟨w, hw, hle, hlt⟩ => UInt64.not_lt.mpr (hall w hw hle) hlt

theorem Tracked.mono (h : Tracked type windows pre time a) {time' : UInt64} (hle : time' ≤ time) :
    Tracked type windows pre time' a := by
  refine ⟨h.live, h.last, startsBetween_false.mpr fun w hw haw => ?_⟩
  exact UInt64.le_trans hle (startsBetween_false.mp h.whole w hw haw)

/-- A tracked request has been used not later than the last sample. -/
theorem Tracked.time_le (h : Tracked type windows pre time a)
    (hle : ∀ s, .seen (.sample s) ∈ pre → s.time ≤ lastTime pre) : a.time ≤ lastTime pre := by
  obtain ⟨-, x, hx, hused⟩ := lastOf_some h.last
  obtain ⟨s, rfl, htime, -⟩ := usedAt_some hused
  exact htime ▸ hle s hx

/-- Where no window has started since, the last event that is used is the last of all. -/
theorem Stream.last_of_tracked (hstream : Stream type hs) (hpre : pre ++ [h] <+: hs) (hs' : h.sample? = some s)
    (htracked : Tracked type (windowsOf hs) pre s.time a) : lastOf (requestAt type) pre a = some a := by
  rcases lastOf_sub usedAt_request htracked.last with hlast | ⟨front, x, back, y, e, rfl, hy, hused, hrequest, hnone⟩
  · exact hlast
  · -- what has been left out is inside a window, which has started since
    have hmem : x ∈ front ++ x :: back := List.mem_append_right _ List.mem_cons_self
    have hin := hstream.unused (hpre.subset (List.mem_append_left _ hmem)) hrequest hnone
    obtain ⟨w, hw, hstart, hend⟩ := inside_iff.mp hin
    obtain ⟨sy, rfl, hatime, hout⟩ := usedAt_some hused
    obtain ⟨sx, hsx, hetime⟩ := requestAt_sample hrequest
    have hfront : front ++ [x] <+: hs := by
      refine List.IsPrefix.trans ⟨back ++ [h], ?_⟩ hpre
      simp only [List.append_assoc, List.cons_append, List.nil_append]
    have hae : a.time ≤ e.time := by
      rw [hatime, hetime]
      exact hstream.le hfront hy hsx rfl
    have hes : e.time ≤ s.time := hetime ▸ hstream.le hpre hmem hs' hsx
    have hnot : ¬ a.time ≤ w.1 := by
      intro hle
      have hlate := startsBetween_false.mp htracked.whole w hw hle
      exact UInt64.not_lt.mpr (UInt64.le_trans hes hlate) hstart
    have hinside : inside (windowsOf hs) a.time = true :=
      inside_iff.mpr ⟨w, hw, UInt64.not_le.mp hnot, UInt64.lt_of_le_of_lt hae hend⟩
    rw [hout] at hinside
    cases hinside

/-- The state after the windows that have begun before an event have been gone through. -/
structure SettledCtx (type : BlockTp → Nat) (windows : List (UInt64 × UInt64)) (pre : List Happening) (time : UInt64)
    (ctx : BlktraceCtx) : Prop where
  mem_iff : ∀ a, a ∈ ctx.rqTracks.entries.toList ↔ Tracked type windows pre time a
  sorted : ctx.lostList.Pairwise (·.startTime ≤ ·.startTime)
  known : ∀ w ∈ ctx.lostList, (w.startTime, w.endTime) ∈ windowsOf pre
  rest : ∀ w ∈ windowsOf pre, (∃ w' ∈ ctx.lostList, w'.startTime = w.1 ∧ w'.endTime = w.2) ∨ w.1 < time ∧ w.2 ≤ time
  reclaimed : ∀ w ∈ ctx.lostList, w.reclaim = true → w.startTime < time
  begun : ∀ w ∈ ctx.lostList, w.startTime < time → ctx.rqTracks.entries.toList = []

theorem Follows.settle (h : Follows greaterThan type (windowsOf hs) pre ctx) (hstream : Stream type hs)
    (hpre : pre ++ [.seen (.sample s)] <+: hs) (bal : Rebalance RequestTrack) :
    (blktraceEventLost bal s.time ctx).2 = inside (windowsOf hs) s.time ∧
      SettledCtx type (windowsOf hs) pre s.time (blktraceEventLost bal s.time ctx).1 ∧
      ((blktraceEventLost bal s.time ctx).2 = false →
        ∀ w ∈ (blktraceEventLost bal s.time ctx).1.lostList, s.time ≤ w.startTime) := by
  have hfront : pre <+: hs := (List.prefix_append pre _).trans hpre
  have hlast : lastTime pre ≤ s.time := lastTime_le fun s' hmem => hstream.le hpre hmem rfl rfl
  have hregistered (w : UInt64 × UInt64) (hw : w ∈ windowsOf hs) (hlt : w.1 < s.time) : w ∈ windowsOf pre := by
    rcases hstream.window_cases hpre hw with hmem | hle
    · have hwindows : windowsOf (pre ++ [.seen (.sample s)]) = windowsOf pre := by
        unfold windowsOf
        rw [List.filterMap_append]
        exact List.append_nil _
      exact hwindows ▸ hmem
    · exact absurd hlt (UInt64.not_lt.mpr (hle s (List.mem_append_right _ List.mem_cons_self)))
  have hsub (w : UInt64 × UInt64) (hw : w ∈ windowsOf pre) : w ∈ windowsOf hs := by
    obtain ⟨x, hx, hxw⟩ := List.mem_filterMap.mp hw
    exact List.mem_filterMap.mpr ⟨x, hfront.subset hx, hxw⟩
  obtain ⟨hrisky, hsorted, horigin, hrest, hclear, hkeep, hlater⟩ :=
    @eventLostLoop_settled bal s.time ctx.lostList ctx.rqTracks h.sorted
      fun w hw hreclaim => h.begun w hw (h.reclaimed w hw hreclaim)
  refine ⟨?_, ⟨fun a => ?_, hsorted, fun w hw => ?_, fun w hw => ?_, fun w hw hreclaim => ?_, fun w hw hlt => ?_⟩,
    hlater⟩
  · rw [Bool.eq_iff_iff, inside_iff]
    refine hrisky.trans ⟨fun ⟨w, hw, hin⟩ => ⟨_, hsub _ (h.known w hw), hin⟩, fun ⟨w, hw, hstart, hend⟩ => ?_⟩
    rcases h.rest w (hregistered w hw hstart) with ⟨w', hw', hs', he'⟩ | ⟨-, hover⟩
    · exact ⟨w', hw', hs' ▸ hstart, he' ▸ hend⟩
    · exact absurd hend (UInt64.not_lt.mpr (UInt64.le_trans hover hlast))
  · by_cases hbegun : ∃ w ∈ ctx.lostList, w.startTime < s.time
    · -- a window has begun: it has emptied the tree, or begins behind all that is tracked
      obtain ⟨w, hw, hlt⟩ := hbegun
      have hnil : (blktraceEventLost bal s.time ctx).1.rqTracks.entries.toList = [] := hclear w hw hlt
      rw [hnil]
      refine iff_of_false List.not_mem_nil fun htracked => ?_
      have hin := (h.mem_iff a).mpr (htracked.mono hlast)
      have hstart : ¬ w.startTime < lastTime pre := by
        intro hold
        rw [h.begun w hw hold] at hin
        cases hin
      have hle : a.time ≤ lastTime pre := htracked.time_le (hstream.le_lastTime hfront)
      have hlate := startsBetween_false.mp htracked.whole _ (hsub _ (h.known w hw))
        (UInt64.le_trans hle (UInt64.not_lt.mp hstart))
      exact UInt64.not_lt.mpr hlate hlt
    · have hnone : ∀ w ∈ ctx.lostList, s.time ≤ w.startTime :=
        fun w hw => UInt64.not_lt.mp fun hlt => hbegun ⟨w, hw, hlt⟩
      have hsame : (blktraceEventLost bal s.time ctx).1.rqTracks.entries.toList = ctx.rqTracks.entries.toList :=
        hkeep hnone
      rw [hsame, h.mem_iff]
      refine ⟨fun htracked => ⟨htracked.live, htracked.last, startsBetween_false.mpr fun w hw haw => ?_⟩,
        fun htracked => htracked.mono hlast⟩
      by_contra hlt
      have hlt := UInt64.not_le.mp hlt
      rcases h.rest w (hregistered w hw hlt) with ⟨w', hw', hstart, -⟩ | ⟨hold, -⟩
      · exact UInt64.not_lt.mpr (hstart ▸ hnone w' hw') hlt
      · exact UInt64.not_lt.mpr (startsBetween_false.mp htracked.whole w hw haw) hold
  · obtain ⟨w', hw', hstart, hend, -⟩ := horigin w hw
    exact hstart ▸ hend ▸ h.known w' hw'
  · rcases h.rest w hw with ⟨w', hw', hstart, hend⟩ | ⟨hold, hover⟩
    · rcases hrest w' hw' with ⟨w'', hw'', hs'', he''⟩ | ⟨hs'', he''⟩
      · exact Or.inl ⟨w'', hw'', hs''.trans hstart, he''.trans hend⟩
      · exact Or.inr ⟨hstart ▸ hs'', hend ▸ he''⟩
    · exact Or.inr ⟨UInt64.lt_of_lt_of_le hold hlast, UInt64.le_trans hover hlast⟩
  · obtain ⟨w', hw', hstart, -, hor⟩ := horigin w hw
    rcases hor hreclaim with hreclaimed | hlt
    · exact hstart ▸ UInt64.lt_of_lt_of_le (h.reclaimed w' hw' hreclaimed) hlast
    · exact hstart ▸ hlt
  · obtain ⟨w', hw', hstart, -⟩ := horigin w hw
    exact hclear w' hw' (hstart ▸ hlt)

theorem windowsOf_concat (pre : List Happening) (h : Happening) :
    windowsOf (pre ++ [h]) = windowsOf pre ++ h.window?.toList := by
  unfold windowsOf
  rw [List.filterMap_append]
  congr 1

theorem tracked_unused (hused : usedAt type windows h = none) :
    Tracked type windows (pre ++ [h]) time a ↔ Tracked type windows pre time a := by
  have hlast : lastOf (usedAt type windows) (pre ++ [h]) a = lastOf (usedAt type windows) pre a := by
    rw [lastOf_concat, hused]
    rfl
  exact ⟨fun ⟨hlive, hl, hwhole⟩ => ⟨hlive, hlast ▸ hl, hwhole⟩,
    fun ⟨hlive, hl, hwhole⟩ => ⟨hlive, hlast.symm ▸ hl, hwhole⟩⟩

/-- What is inside a window has no pair. -/
theorem pairAt_inside (hin : ∀ r, requestAt type h = some r → inside windows r.time = true) :
    pairAt type windows (pre ++ [h]) pre.length = none := by
  rw [pairAt_last]
  cases hrequest : requestAt type h with
  | none => rfl
  | some r =>
    rw [Option.bind_some, hin r hrequest]
    cases lastOf (requestAt type) pre r with
    | none => rfl
    | some a => rw [Option.bind_some, Bool.or_true, Bool.true_or, if_pos rfl]

theorem pairsOf_none (hnone : pairAt type windows (pre ++ [h]) pre.length = none) (hreport : h ≠ .seen .interval) :
    pairsOf type windows (pre ++ [h]) = pairsOf type windows pre := by
  rw [pairsOf_concat, if_neg hreport, hnone, Option.toList_none, List.append_nil]

theorem add_type (greaterThan delta : UInt64) (iostat : BlockIostat) :
    (iostat.add greaterThan delta).type = iostat.type := rfl

theorem Follows.type_eq (h : Follows greaterThan type windows pre ctx) (k : BlockTp) : (ctx.stats k).type = type k := by
  rw [h.stats]
  generalize (pairsOf type windows pre).filter (fun p => p.2.tp = k) = l
  induction l using List.reverseRecOn with
  | nil => rfl
  | append_singleton l p ih =>
    rw [List.foldl_concat, add_type]
    exact ih

theorem Follows.requestOf (h : Follows greaterThan type windows pre ctx) (s : Sample) :
    requestOf ctx.stats s = Blktrace.requestOf (blktraceInit type).stats s := by
  unfold Blktrace.requestOf tpOf
  simp only [h.type_eq]
  rfl

/-- An event that is missed. -/
theorem Follows.missed (h : Follows greaterThan type windows pre ctx) (hin : inside windows s.time = true) :
    Follows greaterThan type windows (pre ++ [.missed s]) ctx := by
  have hlast : lastTime (pre ++ [.missed s]) = lastTime pre := lastTime_concat pre _
  have hwindows : windowsOf (pre ++ [.missed s]) = windowsOf pre := (windowsOf_concat pre _).trans (List.append_nil _)
  have hpairs : pairsOf type windows (pre ++ [.missed s]) = pairsOf type windows pre :=
    pairsOf_none (pairAt_inside fun r hr => by
      obtain ⟨s', hs', htime⟩ := requestAt_sample hr
      cases hs'
      exact htime ▸ hin) nofun
  refine ⟨fun a => ?_, h.kept, h.sorted, ?_, ?_, ?_, ?_, ?_⟩
  · rw [hlast, h.mem_iff]
    exact (tracked_unused rfl).symm
  · rw [hwindows]
    exact h.known
  · rw [hwindows, hlast]
    exact h.rest
  · rw [hlast]
    exact h.reclaimed
  · rw [hlast]
    exact h.begun
  · rw [hpairs]
    exact h.stats

/-- A window is registered that begins no earlier than the last sample. -/
theorem Follows.lost (h : Follows greaterThan type windows pre ctx) {ins : Nat} {lostStart lostEnd : UInt64}
    (hle : lastTime pre ≤ lostStart) : Follows greaterThan type windows (pre ++ [.seen (.lost ins lostStart lostEnd)])
      (blktraceLost ins lostStart lostEnd ctx) := by
  have hlast : lastTime (pre ++ [.seen (.lost ins lostStart lostEnd)]) = lastTime pre := lastTime_concat pre _
  have hwindows : windowsOf (pre ++ [.seen (.lost ins lostStart lostEnd)]) = windowsOf pre ++ [(lostStart, lostEnd)] :=
    windowsOf_concat pre _
  have hpairs : pairsOf type windows (pre ++ [.seen (.lost ins lostStart lostEnd)]) = pairsOf type windows pre :=
    pairsOf_none (pairAt_inside nofun) nofun
  obtain ⟨before, after, hlist, hlost, -⟩ := blktraceLost_list ins lostStart lostEnd ctx
  have hmem (w : BlockLostNode) : w ∈ (blktraceLost ins lostStart lostEnd ctx).lostList ↔
      w = ⟨ins, false, lostStart, lostEnd⟩ ∨ w ∈ ctx.lostList := by
    rw [hlost, hlist, List.mem_append, List.mem_append, List.mem_cons, or_left_comm]
  refine ⟨fun a => ?_, h.kept, blktraceLost_sorted ins lostStart lostEnd h.sorted, fun w hw => ?_, fun w hw => ?_,
    fun w hw hreclaim => ?_, fun w hw hlt => ?_, ?_⟩
  · rw [hlast]
    exact (h.mem_iff a).trans (tracked_unused rfl).symm
  · rw [hwindows]
    rcases (hmem w).mp hw with rfl | hw
    · exact List.mem_append_right _ List.mem_cons_self
    · exact List.mem_append_left _ (h.known w hw)
  · rw [hwindows] at hw
    rw [hlast]
    rcases List.mem_append.mp hw with hw | hw
    · exact (h.rest w hw).imp_left fun ⟨w', hw', hsame⟩ => ⟨w', (hmem w').mpr (Or.inr hw'), hsame⟩
    · rw [List.mem_singleton.mp hw]
      exact Or.inl ⟨_, (hmem _).mpr (Or.inl rfl), rfl, rfl⟩
  · rw [hlast]
    rcases (hmem w).mp hw with rfl | hw
    · cases hreclaim
    · exact h.reclaimed w hw hreclaim
  · rw [hlast] at hlt
    rcases (hmem w).mp hw with rfl | hw
    · exact absurd hlt (UInt64.not_lt.mpr hle)
    · exact h.begun w hw hlt
  · rw [hpairs]
    exact h.stats

/-- The pair of an event that is used is with the request that is tracked. -/
theorem Stream.pair_iff (hstream : Stream type hs) (hpre : pre ++ [h] <+: hs) (hs' : h.sample? = some s)
    (hrequest : requestAt type h = some r) (hout : inside (windowsOf hs) r.time = false)
    (p : RequestTrack × RequestTrack) : pairAt type (windowsOf hs) (pre ++ [h]) pre.length = some p ↔
      p.2 = r ∧ Tracked type (windowsOf hs) pre s.time p.1 ∧ sameRange p.1 r = true := by
  have htime : r.time = s.time := by
    obtain ⟨s', hs'', htime⟩ := requestAt_sample hrequest
    exact htime.trans (congrArg Sample.time (Option.some.inj (hs''.symm.trans hs')))
  rw [pairAt_last, hrequest, Option.bind_some]
  constructor
  · intro hpair
    obtain ⟨a, hlast, hif⟩ := Option.bind_eq_some_iff.mp hpair
    obtain ⟨hsame, x, hx, hxa⟩ := lastOf_some hlast
    split_ifs at hif with hcond
    cases hif
    simp only [Bool.or_eq_true, decide_eq_true_eq, not_or, Bool.not_eq_true] at hcond
    obtain ⟨⟨⟨hlive, houta⟩, -⟩, hwhole⟩ := hcond
    refine ⟨rfl, ⟨hlive, ?_, htime ▸ hwhole⟩, hsame⟩
    rw [lastOf_congr hsame]
    refine lastOf_of_sub usedAt_request (fun y hy hya => ?_) hlast
    exact hstream.used (hpre.subset (List.mem_append_left _ hy)) hya houta
  · intro ⟨hr, htracked, hsame⟩
    obtain ⟨a, b⟩ := p
    cases hr
    have hlast := hstream.last_of_tracked hpre hs' htracked
    obtain ⟨-, x, hx, hused⟩ := lastOf_some htracked.last
    obtain ⟨-, -, -, houta⟩ := usedAt_some hused
    rw [← lastOf_congr hsame, hlast, Option.bind_some, houta, hout, htime, htracked.whole,
      decide_eq_false htracked.live]
    rfl

theorem track_lostList (bal : Rebalance RequestTrack) (greaterThan : UInt64) (r : RequestTrack) (ctx : BlktraceCtx) :
    (trackRequest bal greaterThan r ctx).1.lostList = ctx.lostList := by
  unfold trackRequest
  cases ctx.rqTracks.entries.find (requestTrackNodeCmp r) with
  | some a => rfl
  | none =>
    dsimp only
    split_ifs <;> rfl

theorem track_stats (bal : Rebalance RequestTrack) (greaterThan : UInt64) (r : RequestTrack) (ctx : BlktraceCtx)
    (k : BlockTp) : (trackRequest bal greaterThan r ctx).1.stats k =
      (((ctx.rqTracks.entries.find (requestTrackNodeCmp r)).map fun a => (a, r)).toList.filter
        fun p => p.2.tp = k).foldl (fun iostat p => iostat.add greaterThan (delayOf p)) (ctx.stats k) := by
  unfold trackRequest
  cases ctx.rqTracks.entries.find (requestTrackNodeCmp r) with
  | some a =>
    dsimp only [Option.map_some, Option.toList_some]
    by_cases hk : r.tp = k
    · subst hk
      have hfilter : [(a, r)].filter (fun p : RequestTrack × RequestTrack => p.2.tp = r.tp) = [(a, r)] :=
        List.filter_cons_of_pos (decide_eq_true rfl)
      rw [Function.update_self, hfilter]
      rfl
    · rw [Function.update_of_ne (Ne.symm hk), List.filter_cons_of_neg (by simpa using hk)]
      rfl
  | none =>
    dsimp only
    split_ifs <;> rfl

/-- An event of a request that is used. -/
theorem SettledCtx.used (h : SettledCtx type (windowsOf hs) pre s.time ctx) (hstream : Stream type hs)
    (hpre : pre ++ [.seen (.sample s)] <+: hs) (hout : inside (windowsOf hs) s.time = false)
    (hkept : Kept ctx.rqTracks.entries.toList) (hlater : ∀ w ∈ ctx.lostList, s.time ≤ w.startTime)
    (hstats : ∀ k, ctx.stats k = ((pairsOf type (windowsOf hs) pre).filter fun p => p.2.tp = k).foldl
      (fun iostat p => iostat.add greaterThan (delayOf p)) ((blktraceInit type).stats k))
    (hrequest : requestOf (blktraceInit type).stats s = some r) :
    Follows greaterThan type (windowsOf hs) (pre ++ [.seen (.sample s)]) (trackRequest bal greaterThan r ctx).1 := by
  have hat : requestAt type (.seen (.sample s)) = some r := hrequest
  have hmem : Happening.seen (.sample s) ∈ hs := hpre.subset (List.mem_append_right _ List.mem_cons_self)
  have htime : r.time = s.time := requestOf_time hrequest
  obtain ⟨hr, hends⟩ := stop_spec (hstream.nonempty _ hmem r hat)
  have happart : ∀ b ∈ ctx.rqTracks.entries.toList, sameRange b r = true ∨ ¬ Overlaps b r := by
    intro b hb
    have htracked := (h.mem_iff b).mp hb
    exact hstream.apart pre _ hpre r hat b htracked.live (hstream.last_of_tracked hpre rfl htracked)
  obtain ⟨hfind, hafter⟩ := track_spec bal greaterThan hkept hr hends happart
  have hlast : lastTime (pre ++ [.seen (.sample s)]) = s.time := lastTime_concat pre _
  have hwindows : windowsOf (pre ++ [.seen (.sample s)]) = windowsOf pre :=
    (windowsOf_concat pre _).trans (List.append_nil _)
  have hused : usedAt type (windowsOf hs) (.seen (.sample s)) = some r := by
    unfold usedAt
    dsimp only
    rw [hout]
    exact hrequest
  have hpair : pairAt type (windowsOf hs) (pre ++ [.seen (.sample s)]) pre.length =
      (ctx.rqTracks.entries.find (requestTrackNodeCmp r)).map fun a => (a, r) := by
    refine Option.ext fun p => ?_
    rw [hstream.pair_iff hpre rfl hat (htime ▸ hout), Option.map_eq_some_iff]
    constructor
    · intro ⟨hr, htracked, hsame⟩
      exact ⟨p.1, (hfind p.1).mpr ⟨(h.mem_iff p.1).mpr htracked, hsame⟩, Prod.ext rfl hr.symm⟩
    · rintro ⟨a, ha, rfl⟩
      obtain ⟨hin, hsame⟩ := (hfind a).mp ha
      exact ⟨rfl, (h.mem_iff a).mp hin, hsame⟩
  refine ⟨fun a => ?_, ?_, ?_, ?_, ?_, ?_, ?_, fun k => ?_⟩
  · rw [hafter, h.mem_iff, hlast]
    have hlastOf : lastOf (usedAt type (windowsOf hs)) (pre ++ [.seen (.sample s)]) a =
        if sameRange r a then some r else lastOf (usedAt type (windowsOf hs)) pre a := by
      rw [lastOf_concat, hused, Option.filter_some]
      cases sameRange r a <;> rfl
    have hcomm : sameRange a r = sameRange r a := by
      rw [Bool.eq_iff_iff, sameRange_iff, sameRange_iff]
      exact ⟨fun ⟨h1, h2, h3⟩ => ⟨h1.symm, h2.symm, h3.symm⟩, fun ⟨h1, h2, h3⟩ => ⟨h1.symm, h2.symm, h3.symm⟩⟩
    constructor
    · rintro (⟨htp, rfl⟩ | ⟨htracked, hdiff⟩)
      · refine ⟨htp, ?_, startsBetween_false.mpr fun w hw hle => htime ▸ hle⟩
        rw [hlastOf, if_pos (sameRange_refl a)]
      · refine ⟨htracked.live, ?_, htracked.whole⟩
        rw [hlastOf, ← hcomm, hdiff]
        exact htracked.last
    · intro htracked
      have hl := htracked.last
      rw [hlastOf] at hl
      cases hsame : sameRange r a with
      | true =>
        rw [hsame] at hl
        cases hl
        exact Or.inl ⟨htracked.live, rfl⟩
      | false =>
        rw [hsame] at hl
        exact Or.inr ⟨⟨htracked.live, hl, htracked.whole⟩, hcomm.trans hsame⟩
  · by_cases htp : r.tp = .rqComplete
    · exact hkept.sublist (track_complete htp)
    · refine (track_kept (fun b hb => ?_) hkept hr htp).mpr ⟨hends, fun b hb c hc hover hover' => ?_⟩
      · obtain ⟨-, x, hx, hxb⟩ := lastOf_some ((h.mem_iff b).mp hb).last
        exact (stop_spec (hstream.nonempty x (hpre.subset (List.mem_append_left _ hx)) b (usedAt_request x b hxb))).1
      · have hb' := (hfind b).mpr ⟨hb, (happart b hb).resolve_right (not_not.mpr hover)⟩
        have hc' := (hfind c).mpr ⟨hc, (happart c hc).resolve_right (not_not.mpr hover')⟩
        exact Option.some.inj (hb'.symm.trans hc')
  · rw [track_lostList]
    exact h.sorted
  · rw [track_lostList, hwindows]
    exact h.known
  · rw [track_lostList, hwindows, hlast]
    exact h.rest
  · rw [track_lostList, hlast]
    exact h.reclaimed
  · rw [track_lostList, hlast]
    exact fun w hw hlt => absurd hlt (UInt64.not_lt.mpr (hlater w hw))
  · rw [track_stats, hstats, pairsOf_concat, if_neg nofun, hpair, List.filter_append, List.foldl_append]

/-- A report starts over. -/
theorem Follows.interval (h : Follows greaterThan type windows pre ctx) :
    Follows greaterThan type windows (pre ++ [.seen .interval]) (blktraceInterval greaterThan ctx).1 := by
  have hlast : lastTime (pre ++ [.seen .interval]) = lastTime pre := lastTime_concat pre _
  have hwindows : windowsOf (pre ++ [.seen .interval]) = windowsOf pre :=
    (windowsOf_concat pre _).trans (List.append_nil _)
  have hpairs : pairsOf type windows (pre ++ [.seen .interval]) = [] := by
    rw [pairsOf_concat, if_pos rfl]
  refine ⟨fun a => ?_, h.kept, h.sorted, ?_, ?_, ?_, ?_, fun k => ?_⟩
  · rw [hlast]
    exact (h.mem_iff a).trans (tracked_unused rfl).symm
  · rw [hwindows]
    exact h.known
  · rw [hwindows, hlast]
    exact h.rest
  · rw [hlast]
    exact h.reclaimed
  · rw [hlast]
    exact h.begun
  · rw [hpairs]
    have htype := h.type_eq k
    unfold blktraceInterval iostatReset blktraceInit iostatReset
    dsimp only
    rw [htype]
    rfl

/-- A sample. -/
theorem Follows.sample (h : Follows greaterThan type (windowsOf hs) pre ctx) (hstream : Stream type hs)
    (hpre : pre ++ [.seen (.sample s)] <+: hs) (bal : Rebalance RequestTrack) :
    Follows greaterThan type (windowsOf hs) (pre ++ [.seen (.sample s)]) (step bal greaterThan ctx (.sample s)) := by
  obtain ⟨hrisky, hsettled, hlater⟩ := h.settle hstream hpre bal
  have hkept := h.kept.sublist (eventLost_sublist bal s.time ctx)
  have hlast : lastTime (pre ++ [.seen (.sample s)]) = s.time := lastTime_concat pre _
  have hwindows : windowsOf (pre ++ [.seen (.sample s)]) = windowsOf pre :=
    (windowsOf_concat pre _).trans (List.append_nil _)
  -- nothing but the windows changes if the event is not used
  have hidle (hused : usedAt type (windowsOf hs) (.seen (.sample s)) = none)
      (hpair : pairAt type (windowsOf hs) (pre ++ [.seen (.sample s)]) pre.length = none) :
      Follows greaterThan type (windowsOf hs) (pre ++ [.seen (.sample s)]) (blktraceEventLost bal s.time ctx).1 := by
    refine ⟨fun a => ?_, hkept, hsettled.sorted, ?_, ?_, ?_, ?_, ?_⟩
    · rw [hlast, hsettled.mem_iff]
      exact (tracked_unused hused).symm
    · rw [hwindows]
      exact hsettled.known
    · rw [hwindows, hlast]
      exact hsettled.rest
    · rw [hlast]
      exact hsettled.reclaimed
    · rw [hlast]
      exact hsettled.begun
    · rw [pairsOf_none hpair nofun]
      exact h.stats
  rw [step_sample]
  cases hin : inside (windowsOf hs) s.time with
  | true =>
    rw [hrisky, hin, if_pos rfl]
    refine hidle ?_ (pairAt_inside fun r hr => requestOf_time hr ▸ hin)
    unfold usedAt
    dsimp only
    rw [hin]
    rfl
  | false =>
    rw [hin] at hrisky
    rw [hrisky, if_neg Bool.false_ne_true, h.requestOf]
    cases hrequest : Blktrace.requestOf (blktraceInit type).stats s with
    | none =>
      refine hidle ?_ ?_
      · unfold usedAt
        dsimp only
        rw [hin]
        exact hrequest
      · have hat : requestAt type (.seen (.sample s)) = none := hrequest
        rw [pairAt_last, hat]
        rfl
    | some r => exact hsettled.used hstream hpre hin hkept (hlater hrisky) h.stats hrequest

theorem follows_init (greaterThan : UInt64) (type : BlockTp → Nat) (windows : List (UInt64 × UInt64)) :
    Follows greaterThan type windows [] (blktraceInit type) :=
  ⟨fun _ => iff_of_false List.not_mem_nil fun htracked => (nomatch htracked.last), kept_nil, .nil, nofun, nofun, nofun,
    nofun, fun _ => rfl⟩

/-- The profiler follows a stream. -/
theorem Stream.follows (hstream : Stream type hs) (bal : Rebalance RequestTrack) (greaterThan : UInt64)
    (hpre : pre <+: hs) :
    Follows greaterThan type (windowsOf hs) pre (run bal greaterThan type (inputsOf pre)) := by
  induction pre using List.reverseRecOn with
  | nil => exact follows_init greaterThan type (windowsOf hs)
  | append_singleton pre h ih =>
    have hfollows := ih ((List.prefix_append pre [h]).trans hpre)
    have hmem : h ∈ hs := hpre.subset (List.mem_append_right _ List.mem_cons_self)
    have hinputs : inputsOf (pre ++ [h]) = inputsOf pre ++ h.input?.toList := by
      unfold inputsOf
      rw [List.filterMap_append]
      congr 1
    rw [hinputs]
    cases h with
    | missed s =>
      have hnil : inputsOf pre ++ (Happening.missed s).input?.toList = inputsOf pre := List.append_nil _
      rw [hnil]
      exact hfollows.missed (hstream.missed s hmem)
    | seen x =>
      have hcons : inputsOf pre ++ (Happening.seen x).input?.toList = inputsOf pre ++ [x] := rfl
      rw [hcons, run_concat]
      cases x with
      | sample s => exact hfollows.sample hstream hpre bal
      | lost ins lostStart lostEnd =>
        exact hfollows.lost (lastTime_le (hstream.inTime pre ins lostStart lostEnd hpre))
      | interval => exact hfollows.interval

end Follow

end PerfProf.Blktrace
