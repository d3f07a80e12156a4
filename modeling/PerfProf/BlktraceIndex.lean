import PerfProf.Blktrace
import PerfProf.RbWalk

/-! blktrace.c: when the ranges of the requests in the tree are disjoint and in order, such that the walk
to a range finds what overlaps it. -/
namespace PerfProf.Blktrace
open PerfProf.Rblist

section Ranges
variable {a b c r : RequestTrack}

/-- The end of a range, as a number. -/
def RequestTrack.last (r : RequestTrack) : Nat := r.sector.toNat + r.nrSector.toNat

/-- The end is a sector. -/
def RequestTrack.Ends (r : RequestTrack) : Prop := r.last < 2 ^ 64

/-- All of `a` is before `b`. -/
def Before (a b : RequestTrack) : Prop :=
  a.dev.toNat < b.dev.toNat ∨ a.dev = b.dev ∧ a.last ≤ b.sector.toNat

def Overlaps (a b : RequestTrack) : Prop :=
  a.dev = b.dev ∧ a.sector.toNat < b.last ∧ b.sector.toNat < a.last

/-- A request that is tracked: it is not empty, and none of a flush. -/
structure RequestTrack.Real (r : RequestTrack) : Prop where
  pos : 0 < r.nrSector.toNat
  not_flush : r.sector.toNat < 2 ^ 64 - 1

theorem RequestTrack.Ends.stop (h : r.Ends) : r.stop.toNat = r.last := by
  rw [RequestTrack.stop, UInt64.toNat_add, UInt32.toNat_toUInt64]
  exact Nat.mod_eq_of_lt h

theorem Before.trans (h : Before a b) (h' : Before b c) : Before a c := by
  unfold Before RequestTrack.last at *
  rcases h with h | ⟨hdev, h⟩
  · rcases h' with h' | ⟨hdev', -⟩
    · exact Or.inl (Nat.lt_trans h h')
    · exact Or.inl (hdev' ▸ h)
  · rcases h' with h' | ⟨hdev', h'⟩
    · exact Or.inl (hdev ▸ h')
    · exact Or.inr ⟨hdev.trans hdev', by omega⟩

theorem Before.not_overlaps (h : Before a b) : ¬ Overlaps a b ∧ ¬ Overlaps b a := by
  rcases h with h | ⟨-, h⟩
  · exact ⟨fun hover => absurd (hover.1 ▸ h) (Nat.lt_irrefl _), fun hover => absurd (hover.1 ▸ h) (Nat.lt_irrefl _)⟩
  · exact ⟨fun hover => absurd hover.2.2 (Nat.not_lt.mpr h), fun hover => absurd hover.2.1 (Nat.not_lt.mpr h)⟩

theorem Before.irrefl (hr : r.Real) : ¬ Before r r := by
  have hpos := hr.pos
  rintro (h | ⟨-, h⟩)
  · exact absurd h (Nat.lt_irrefl _)
  · unfold RequestTrack.last at h
    omega

/-- A range is before another, overlaps it or is behind it, and the comparison tells which. -/
theorem cmp_cases (hr : r.Ends) (hb : b.Ends) :
    requestTrackNodeCmp r b = .lt ∧ Before b r ∨ requestTrackNodeCmp r b = .eq ∧ Overlaps b r ∨
      requestTrackNodeCmp r b = .gt ∧ Before r b := by
  unfold requestTrackNodeCmp Before Overlaps
  by_cases hgt : b.dev > r.dev
  · rw [if_pos hgt]
    exact Or.inr (Or.inr ⟨rfl, Or.inl (UInt32.lt_iff_toNat_lt.mp hgt)⟩)
  · rw [if_neg hgt]
    by_cases hlt : b.dev < r.dev
    · rw [if_pos hlt]
      exact Or.inl ⟨rfl, Or.inl (UInt32.lt_iff_toNat_lt.mp hlt)⟩
    · rw [if_neg hlt]
      have hdev : b.dev = r.dev := UInt32.le_antisymm (UInt32.not_lt.mp hgt) (UInt32.not_lt.mp hlt)
      by_cases hbehind : b.sector ≥ r.stop
      · rw [if_pos hbehind]
        have hle := UInt64.le_iff_toNat_le.mp hbehind
        rw [hr.stop] at hle
        exact Or.inr (Or.inr ⟨rfl, Or.inr ⟨hdev.symm, hle⟩⟩)
      · rw [if_neg hbehind]
        have hlast := UInt64.lt_iff_toNat_lt.mp (UInt64.not_le.mp hbehind)
        rw [hr.stop] at hlast
        by_cases hbefore : b.stop ≤ r.sector
        · rw [if_pos hbefore]
          have hle := UInt64.le_iff_toNat_le.mp hbefore
          rw [hb.stop] at hle
          exact Or.inl ⟨rfl, Or.inr ⟨hdev, hle⟩⟩
        · rw [if_neg hbefore]
          have hlast' := UInt64.lt_iff_toNat_lt.mp (UInt64.not_le.mp hbefore)
          rw [hb.stop] at hlast'
          exact Or.inr (Or.inl ⟨rfl, hdev, hlast, hlast'⟩)

theorem cmp_eq_iff (hr : r.Ends) (hb : b.Ends) : requestTrackNodeCmp r b = .eq ↔ Overlaps b r := by
  rcases cmp_cases hr hb with ⟨hcmp, hbefore⟩ | ⟨hcmp, hover⟩ | ⟨hcmp, hbehind⟩
  · rw [hcmp]
    exact iff_of_false (by decide) hbefore.not_overlaps.1
  · exact iff_of_true hcmp hover
  · rw [hcmp]
    exact iff_of_false (by decide) hbehind.not_overlaps.2

theorem cmp_lt_iff (hr : r.Ends) (hb : b.Ends) (hreal : r.Real) : requestTrackNodeCmp r b = .lt ↔ Before b r := by
  rcases cmp_cases hr hb with ⟨hcmp, hbefore⟩ | ⟨hcmp, hover⟩ | ⟨hcmp, hbehind⟩
  · exact iff_of_true hcmp hbefore
  · rw [hcmp]
    exact iff_of_false (by decide) fun hbefore => hbefore.not_overlaps.1 hover
  · rw [hcmp]
    exact iff_of_false (by decide) fun hbefore => Before.irrefl hreal (hbehind.trans hbefore)

theorem cmp_gt_iff (hr : r.Ends) (hb : b.Ends) (hreal : r.Real) : requestTrackNodeCmp r b = .gt ↔ Before r b := by
  rcases cmp_cases hr hb with ⟨hcmp, hbefore⟩ | ⟨hcmp, hover⟩ | ⟨hcmp, hbehind⟩
  · rw [hcmp]
    exact iff_of_false (by decide) fun hbehind => Before.irrefl hreal (hbehind.trans hbefore)
  · rw [hcmp]
    exact iff_of_false (by decide) fun hbehind => hbehind.not_overlaps.2 hover
  · exact iff_of_true hcmp hbehind

end Ranges

section Index

/-- The requests of a device are disjoint and in order, and what overlaps a range is found. -/
structure Indexed (tracks : RbList RequestTrack) : Prop where
  ascending : tracks.entries.toList.Pairwise Before
  finds : ∀ r : RequestTrack, r.Real → r.Ends → (∃ b ∈ tracks.entries.toList, Overlaps b r) →
    ∃ b ∈ tracks.entries.toList, tracks.entries.find (requestTrackNodeCmp r) = some b ∧ Overlaps b r

/-- What carries the index: each range ends in a sector. -/
structure Kept (l : List RequestTrack) : Prop where
  ascending : l.Pairwise Before
  ends : ∀ b ∈ l, b.Ends

variable {t : Rblist.Tree RequestTrack} {l xs ys : List RequestTrack} {a b c r : RequestTrack}
  {tracks : RbList RequestTrack}

theorem Kept.rises (h : Kept l) (hr : r.Ends) (hreal : r.Real) : Rises (requestTrackNodeCmp r) l := by
  refine List.Pairwise.imp_of_mem (fun {a b} ha hb hbefore => ⟨fun hlt => ?_, fun hgt => ?_⟩) h.ascending
  · exact (cmp_lt_iff hr (h.ends a ha) hreal).mpr (hbefore.trans ((cmp_lt_iff hr (h.ends b hb) hreal).mp hlt))
  · exact (cmp_gt_iff hr (h.ends b hb) hreal).mpr (((cmp_gt_iff hr (h.ends a ha) hreal).mp hgt).trans hbefore)

theorem Kept.sublist (h : Kept l) (hsub : xs.Sublist l) : Kept xs :=
  ⟨h.ascending.sublist hsub, fun b hb => h.ends b (hsub.subset hb)⟩

theorem kept_nil : Kept [] := ⟨.nil, nofun⟩

/-- The sector that a request begins with is in no other. -/
theorem overlaps_first (h : l.Pairwise Before) (hb : b ∈ l) (hbreal : b.Real) (hc : c ∈ l) (hfirst : r.dev = b.dev)
    (hsector : r.sector = b.sector) (hsize : r.nrSector.toNat = 1) (hover : Overlaps c r) : c = b := by
  obtain ⟨hdev, hlt, hgt⟩ := hover
  unfold RequestTrack.last at hlt hgt
  rw [hsector] at hlt hgt
  have hpos := hbreal.pos
  by_contra hne
  obtain ⟨xs, ys, rfl⟩ := List.append_of_mem hb
  have hsplit := List.pairwise_append.mp h
  have hnot : ¬ (Before c b ∨ Before b c) := by
    rintro ((hdevs | ⟨-, hle⟩) | (hdevs | ⟨-, hle⟩))
    · rw [hdev, hfirst] at hdevs
      exact Nat.lt_irrefl _ hdevs
    · unfold RequestTrack.last at hle
      omega
    · rw [hdev, hfirst] at hdevs
      exact Nat.lt_irrefl _ hdevs
    · unfold RequestTrack.last at hle
      omega
  rcases List.mem_append.mp hc with hc | hc
  · exact hnot (Or.inl (hsplit.2.2 c hc b List.mem_cons_self))
  · rcases List.mem_cons.mp hc with rfl | hc
    · exact hne rfl
    · exact hnot (Or.inr ((List.pairwise_cons.mp hsplit.2.1).1 c hc))

/-- The index works just if the ranges are in order and each ends in a sector. -/
theorem indexed_iff (hreal : ∀ b ∈ tracks.entries.toList, b.Real) : Indexed tracks ↔ Kept tracks.entries.toList := by
  constructor
  · intro h
    refine ⟨h.ascending, fun b hb => ?_⟩
    have hbreal := hreal b hb
    by_contra hends
    -- the first sector of the request
    let r : RequestTrack := ⟨b.tp, b.dev, b.sector, 1, b.time⟩
    have hr : r.Real := ⟨Nat.one_pos, hbreal.not_flush⟩
    have hrends : r.Ends := Nat.add_lt_of_lt_sub hbreal.not_flush
    have hover : Overlaps b r := ⟨rfl, Nat.lt_succ_self _, Nat.lt_add_of_pos_right hbreal.pos⟩
    obtain ⟨c, hc, hfind, hcover⟩ := h.finds r hr hrends ⟨b, hb, hover⟩
    have hcb := overlaps_first (r := r) h.ascending hb hbreal hc rfl rfl rfl hcover
    subst hcb
    have hcmp := (Tree.find_some hfind).1
    unfold requestTrackNodeCmp at hcmp
    rw [if_neg (UInt32.lt_irrefl _), if_neg (UInt32.lt_irrefl _)] at hcmp
    have hwraps : c.stop ≤ r.sector := by
      rw [UInt64.le_iff_toNat_le, RequestTrack.stop, UInt64.toNat_add, UInt32.toNat_toUInt64]
      have hsector : r.sector = c.sector := rfl
      have hlast : 2 ^ 64 ≤ c.sector.toNat + c.nrSector.toNat := Nat.not_lt.mp hends
      have hn := c.nrSector.toNat_lt
      have hs := c.sector.toNat_lt
      rw [hsector]
      omega
    split_ifs at hcmp
  · intro h
    refine ⟨h.ascending, fun r hr hrends ⟨b, hb, hover⟩ => ?_⟩
    cases hfind : tracks.entries.find (requestTrackNodeCmp r) with
    | none =>
      have hnone := (Tree.find_none (h.rises hrends hr)).mp hfind b hb
      exact absurd ((cmp_eq_iff hrends (h.ends b hb)).mpr hover) hnone
    | some c =>
      obtain ⟨hcmp, xs, ys, hlist, -⟩ := Tree.find_some hfind
      have hc : c ∈ tracks.entries.toList := hlist ▸ List.mem_append_right _ List.mem_cons_self
      exact ⟨c, hc, rfl, (cmp_eq_iff hrends (h.ends c hc)).mp hcmp⟩

end Index

section Step
variable {bal : Rebalance RequestTrack} {greaterThan : UInt64} {ctx : BlktraceCtx} {s : Sample} {x : Input}
  {l xs ys : List RequestTrack} {b c r : RequestTrack}

/-- A range meets one request at most. -/
def MeetsOne (l : List RequestTrack) (r : RequestTrack) : Prop :=
  ∀ b ∈ l, ∀ c ∈ l, Overlaps b r → Overlaps c r → b = c

/-- An entry that is kept in order is not met. -/
theorem Kept.others (h : Kept (xs ++ r :: ys)) (hc : c ∈ xs ++ ys) : ¬ Overlaps c r := by
  have hsplit := List.pairwise_append.mp h.ascending
  rcases List.mem_append.mp hc with hc | hc
  · exact (hsplit.2.2 c hc r List.mem_cons_self).not_overlaps.1
  · exact ((List.pairwise_cons.mp hsplit.2.1).1 c hc).not_overlaps.2

theorem kept_append (hends : r.Ends) (h : Kept (xs ++ ys)) (hxs : ∀ c ∈ xs, Before c r) (hys : ∀ c ∈ ys, Before r c) :
    Kept (xs ++ r :: ys) := by
  obtain ⟨hasc, hall⟩ := h
  obtain ⟨hax, hay, hxy⟩ := List.pairwise_append.mp hasc
  obtain ⟨hex, hey⟩ := List.forall_mem_append.mp hall
  constructor
  · refine List.pairwise_append.mpr ⟨hax, List.pairwise_cons.mpr ⟨hys, hay⟩, fun a ha b hb => ?_⟩
    rcases List.mem_cons.mp hb with rfl | hb
    · exact hxs a ha
    · exact hxy a ha b hb
  · exact List.forall_mem_append.mpr ⟨hex, List.forall_mem_cons.mpr ⟨hends, hey⟩⟩

/-- The range of a request that has been found is overwritten. -/
theorem Kept.replace_iff (h : Kept (xs ++ b :: ys)) (hb : b.Real) (hover : Overlaps b r) :
    Kept (xs ++ r :: ys) ↔ r.Ends ∧ MeetsOne (xs ++ b :: ys) r := by
  constructor
  · intro hkept
    have honly : ∀ c ∈ xs ++ b :: ys, Overlaps c r → c = b := by
      intro c hc hcover
      rcases List.mem_append.mp hc with hc | hc
      · exact absurd hcover (hkept.others (List.mem_append_left _ hc))
      · rcases List.mem_cons.mp hc with rfl | hc
        · rfl
        · exact absurd hcover (hkept.others (List.mem_append_right _ hc))
    exact ⟨hkept.ends r (List.mem_append_right _ List.mem_cons_self),
      fun c hc d hd hcover hdover => (honly c hc hcover).trans (honly d hd hdover).symm⟩
  · intro ⟨hends, hone⟩
    have hsplit := List.pairwise_append.mp h.ascending
    have hmem : b ∈ xs ++ b :: ys := List.mem_append_right _ List.mem_cons_self
    refine kept_append hends (h.sublist ((List.sublist_cons_self b ys).append_left xs)) (fun c hc => ?_) fun c hc => ?_
    · have hbefore := hsplit.2.2 c hc b List.mem_cons_self
      have hcmem : c ∈ xs ++ b :: ys := List.mem_append_left _ hc
      rcases cmp_cases hends (h.ends c hcmem) with ⟨-, hc'⟩ | ⟨-, hcover⟩ | ⟨-, hc'⟩
      · exact hc'
      · exact absurd (hone c hcmem b hmem hcover hover ▸ hbefore) (Before.irrefl hb)
      · exact absurd hover (hc'.trans hbefore).not_overlaps.2
    · have hbehind := (List.pairwise_cons.mp hsplit.2.1).1 c hc
      have hcmem : c ∈ xs ++ b :: ys := List.mem_append_right _ (List.mem_cons_of_mem _ hc)
      rcases cmp_cases hends (h.ends c hcmem) with ⟨-, hc'⟩ | ⟨-, hcover⟩ | ⟨-, hc'⟩
      · exact absurd hover (hbehind.trans hc').not_overlaps.1
      · exact absurd (hone c hcmem b hmem hcover hover ▸ hbehind) (Before.irrefl hb)
      · exact hc'

/-- What an event that is no completion does to the requests. -/
theorem track_kept (hreal : ∀ b ∈ ctx.rqTracks.entries.toList, b.Real) (h : Kept ctx.rqTracks.entries.toList)
    (hr : r.Real) (htp : r.tp ≠ .rqComplete) :
    Kept (trackRequest bal greaterThan r ctx).1.rqTracks.entries.toList ↔
      r.Ends ∧ MeetsOne ctx.rqTracks.entries.toList r := by
  unfold trackRequest
  cases hfind : ctx.rqTracks.entries.find (requestTrackNodeCmp r) with
  | some b =>
    obtain ⟨hcmp, xs, ys, hlist, hchange, -⟩ := Tree.find_some hfind
    dsimp only
    rw [if_pos htp]
    dsimp only
    rw [hchange, hlist]
    rw [hlist] at h hreal
    have hmem : b ∈ xs ++ b :: ys := List.mem_append_right _ List.mem_cons_self
    by_cases hends : r.Ends
    · exact h.replace_iff (hreal b hmem) ((cmp_eq_iff hends (h.ends b hmem)).mp hcmp)
    · exact iff_of_false (fun hkept => hends (hkept.ends r (List.mem_append_right _ List.mem_cons_self)))
        fun hboth => hends hboth.1
  | none =>
    dsimp only
    rw [if_pos htp]
    dsimp only
    rw [RbList.addNode, hfind]
    dsimp only
    rw [bal.toList_inserted]
    by_cases hends : r.Ends
    · have hrises := h.rises hends hr
      have hnone := (Tree.find_none hrises).mp hfind
      have hmeets : ∀ b ∈ ctx.rqTracks.entries.toList, ¬ Overlaps b r :=
        fun b hb hover => hnone b hb ((cmp_eq_iff hends (h.ends b hb)).mpr hover)
      refine iff_of_true ?_ ⟨hends, fun b hb c hc hover => absurd hover (hmeets b hb)⟩
      obtain ⟨xs, ys, hlist, hlink, hbelow, habove⟩ := @Tree.link_between _ _ _ r hrises hnone
      rw [hlink]
      rw [hlist] at h
      have hxs : ∀ c ∈ xs, Before c r :=
        fun c hc => (cmp_lt_iff hends (h.ends c (List.mem_append_left _ hc)) hr).mp (hbelow c hc)
      have hys : ∀ c ∈ ys, Before r c :=
        fun c hc => (cmp_gt_iff hends (h.ends c (List.mem_append_right _ hc)) hr).mp (habove c hc)
      exact kept_append hends h hxs hys
    · obtain ⟨xs, ys, -, hlink, -⟩ := Tree.link_toList (fun _ : RequestTrack => 0) r hfind
      refine iff_of_false (fun hkept => hends (hkept.ends r ?_)) fun hboth => hends hboth.1
      rw [hlink]
      exact List.mem_append_right _ List.mem_cons_self

/-- A completion takes one request out at most. -/
theorem track_complete (htp : r.tp = .rqComplete) :
    (trackRequest bal greaterThan r ctx).1.rqTracks.entries.toList.Sublist ctx.rqTracks.entries.toList := by
  unfold trackRequest
  cases hfind : ctx.rqTracks.entries.find (requestTrackNodeCmp r) with
  | some b =>
    obtain ⟨-, xs, ys, hlist, -, t, hremove, hrest⟩ := Tree.find_some hfind
    dsimp only
    rw [if_neg (not_not.mpr htp), RbList.remove, hremove]
    dsimp only [Option.map_some, Option.getD_some]
    rw [bal.toList_erased, hrest, hlist]
    exact (List.sublist_cons_self b ys).append_left xs
  | none =>
    dsimp only
    rw [if_neg (not_not.mpr htp)]

theorem mem_track (hb : b ∈ (trackRequest bal greaterThan r ctx).1.rqTracks.entries.toList) :
    b ∈ ctx.rqTracks.entries.toList ∨ b = r := by
  by_cases htp : r.tp = .rqComplete
  · exact Or.inl ((track_complete htp).subset hb)
  · unfold trackRequest at hb
    cases hfind : ctx.rqTracks.entries.find (requestTrackNodeCmp r) with
    | some c =>
      obtain ⟨-, xs, ys, hlist, hchange, -⟩ := Tree.find_some hfind
      rw [hfind] at hb
      dsimp only at hb
      rw [if_pos htp] at hb
      dsimp only at hb
      rw [hchange] at hb
      rw [hlist]
      rcases List.mem_append.mp hb with hb | hb
      · exact Or.inl (List.mem_append_left _ hb)
      · rcases List.mem_cons.mp hb with rfl | hb
        · exact Or.inr rfl
        · exact Or.inl (List.mem_append_right _ (List.mem_cons_of_mem _ hb))
    | none =>
      obtain ⟨xs, ys, hlist, hlink, -⟩ := Tree.link_toList (fun _ : RequestTrack => 0) r hfind
      rw [hfind] at hb
      dsimp only at hb
      rw [if_pos htp, RbList.addNode, hfind] at hb
      dsimp only at hb
      rw [bal.toList_inserted, hlink] at hb
      rw [hlist]
      rcases List.mem_append.mp hb with hb | hb
      · exact Or.inl (List.mem_append_left _ hb)
      · rcases List.mem_cons.mp hb with rfl | hb
        · exact Or.inr rfl
        · exact Or.inl (List.mem_append_right _ hb)

theorem requestOf_real {stats : BlockTp → BlockIostat} (h : requestOf stats s = some r) (hs : s.nrSector ≠ 0) :
    r.Real := by
  unfold requestOf at h
  cases htp : tpOf stats s.commonType with
  | none => rw [htp] at h; cases h
  | some tp =>
    rw [htp] at h
    dsimp only at h
    split_ifs at h with hflush
    cases h
    constructor
    · refine Nat.pos_of_ne_zero fun hzero => hs (UInt32.toNat_inj.mp hzero)
    · have hlt := s.sector.toNat_lt
      have hne : s.sector.toNat ≠ 2 ^ 64 - 1 := fun heq => hflush (UInt64.toNat_inj.mp heq)
      dsimp only
      omega

end Step

section Runs
variable {bal : Rebalance RequestTrack} {greaterThan : UInt64} {ctx : BlktraceCtx} {x : Input} {type : BlockTp → Nat}
  {inputs pre : List Input}

/-- The range of an event that is kept as a request ends in a sector, and meets one request at most of
those that are left of the ones before. -/
def Admits (bal : Rebalance RequestTrack) (ctx : BlktraceCtx) : Input → Prop
  | .sample s => ∀ r, (blktraceEventLost bal s.time ctx).2 = false → requestOf ctx.stats s = some r →
      r.tp ≠ .rqComplete → r.Ends ∧ MeetsOne (blktraceEventLost bal s.time ctx).1.rqTracks.entries.toList r
  | _ => True

/-- No event is of an empty range. -/
def NonZero (inputs : List Input) : Prop := ∀ s, .sample s ∈ inputs → s.nrSector ≠ 0

theorem eventLost_sublist (bal : Rebalance RequestTrack) (time : UInt64) (ctx : BlktraceCtx) :
    (blktraceEventLost bal time ctx).1.rqTracks.entries.toList.Sublist ctx.rqTracks.entries.toList := by
  rcases eventLostLoop_tracks bal time ctx.lostList ctx.rqTracks with heq | hnil
  · exact (congrArg (fun tracks : RbList RequestTrack => tracks.entries.toList) heq) ▸ List.Sublist.refl _
  · exact hnil ▸ List.nil_sublist _

theorem step_real (hreal : ∀ b ∈ ctx.rqTracks.entries.toList, b.Real) (hx : NonZero [x]) :
    ∀ b ∈ (step bal greaterThan ctx x).rqTracks.entries.toList, b.Real := by
  cases x with
  | lost ins lostStart lostEnd => exact hreal
  | interval => exact hreal
  | sample s =>
    have hleft : ∀ b ∈ (blktraceEventLost bal s.time ctx).1.rqTracks.entries.toList, b.Real :=
      fun b hb => hreal b ((eventLost_sublist bal s.time ctx).subset hb)
    rw [step_sample]
    cases hrisky : (blktraceEventLost bal s.time ctx).2 with
    | true => exact hleft
    | false =>
      rw [if_neg Bool.false_ne_true]
      cases hrequest : requestOf ctx.stats s with
      | none => exact hleft
      | some r =>
        intro b hb
        rcases mem_track hb with hb | rfl
        · exact hleft b hb
        · exact requestOf_real hrequest (hx s List.mem_cons_self)

/-- A step keeps the order just if it is admitted. -/
theorem step_kept (hreal : ∀ b ∈ ctx.rqTracks.entries.toList, b.Real) (h : Kept ctx.rqTracks.entries.toList)
    (hx : NonZero [x]) : Kept (step bal greaterThan ctx x).rqTracks.entries.toList ↔ Admits bal ctx x := by
  cases x with
  | lost ins lostStart lostEnd => exact iff_of_true h trivial
  | interval => exact iff_of_true h trivial
  | sample s =>
    have hsub := eventLost_sublist bal s.time ctx
    have hleft := h.sublist hsub
    rw [step_sample, Admits]
    cases hrisky : (blktraceEventLost bal s.time ctx).2 with
    | true => exact iff_of_true hleft nofun
    | false =>
      rw [if_neg Bool.false_ne_true]
      cases hrequest : requestOf ctx.stats s with
      | none => exact iff_of_true hleft nofun
      | some r =>
        dsimp only
        by_cases htp : r.tp = .rqComplete
        · exact iff_of_true (hleft.sublist (track_complete htp)) fun _ _ heq hne => by
            cases heq
            exact absurd htp hne
        · have hr := requestOf_real hrequest (hx s List.mem_cons_self)
          rw [track_kept (fun b hb => hreal b (hsub.subset hb)) hleft hr htp]
          constructor
          · intro hboth _ _ heq _
            cases heq
            exact hboth
          · exact fun hall => hall r rfl rfl htp

theorem run_real (h : NonZero inputs) : ∀ b ∈ (run bal greaterThan type inputs).rqTracks.entries.toList, b.Real := by
  induction inputs using List.reverseRecOn with
  | nil => exact nofun
  | append_singleton pre x ih =>
    rw [run_concat]
    refine step_real (ih fun s hs => h s (List.mem_append_left _ hs)) fun s hs => h s (List.mem_append_right _ hs)

/-- In every state of a run the requests are disjoint and found just if each step is admitted. -/
theorem index_iff (bal : Rebalance RequestTrack) (greaterThan : UInt64) (type : BlockTp → Nat) (inputs : List Input)
    (hnonzero : NonZero inputs) : (∀ pre, pre <+: inputs → Indexed (run bal greaterThan type pre).rqTracks) ↔
      ∀ pre x, pre ++ [x] <+: inputs → Admits bal (run bal greaterThan type pre) x := by
  have hreal (pre : List Input) (hpre : pre <+: inputs) :
      ∀ b ∈ (run bal greaterThan type pre).rqTracks.entries.toList, b.Real :=
    run_real fun s hs => hnonzero s (hpre.subset hs)
  have hstep (pre : List Input) (x : Input) (hpre : pre ++ [x] <+: inputs)
      (hkept : Kept (run bal greaterThan type pre).rqTracks.entries.toList) :
      Kept (run bal greaterThan type (pre ++ [x])).rqTracks.entries.toList ↔
        Admits bal (run bal greaterThan type pre) x := by
    rw [run_concat]
    refine step_kept (hreal pre ((List.prefix_append pre [x]).trans hpre)) hkept fun s hs => ?_
    exact hnonzero s (hpre.subset (List.mem_append_right _ hs))
  constructor
  · intro h pre x hpre
    have hfront := (List.prefix_append pre [x]).trans hpre
    have hkept := (indexed_iff (hreal pre hfront)).mp (h pre hfront)
    exact (hstep pre x hpre hkept).mp ((indexed_iff (hreal _ hpre)).mp (h _ hpre))
  · intro h pre hpre
    rw [indexed_iff (hreal pre hpre)]
    induction pre using List.reverseRecOn with
    | nil => exact kept_nil
    | append_singleton pre x ih =>
      have hfront := (List.prefix_append pre [x]).trans hpre
      exact (hstep pre x hpre (ih hfront)).mpr (h pre x hpre)

end Runs

section Inputs

/-- Ids of the events. -/
def ids : BlockTp → Nat
  | .getrq => 1
  | .rqInsert => 2
  | .rqIssue => 3
  | .rqComplete => 4

/-- Two requests, of which the first grows by the second. -/
def merging : List Input :=
  [.sample ⟨1, 10, 0, 0, 8⟩, .sample ⟨1, 20, 0, 8, 8⟩, .sample ⟨2, 30, 0, 0, 16⟩]

instance (a b : RequestTrack) : Decidable (Before a b) := inferInstanceAs (Decidable (_ ∨ _))

theorem merging_nonZero : NonZero merging := by
  intro s hs
  simp only [merging, List.mem_cons, List.not_mem_nil, or_false, Input.sample.injEq] at hs
  obtain rfl | rfl | rfl := hs <;> decide

theorem index_iff_merging : (∀ pre, pre <+: merging → Indexed (run .none 0 ids pre).rqTracks) ↔
    ∀ pre x, pre ++ [x] <+: merging → Admits .none (run .none 0 ids pre) x :=
  index_iff .none 0 ids merging merging_nonZero

/-- The request that has been merged is left behind and overlaps the one that has grown. -/
theorem merged_overlaps : NonZero merging ∧ TimeOrdered merging ∧ ¬ Indexed (run .none 0 ids merging).rqTracks := by
  refine ⟨merging_nonZero, ?_, fun h => ?_⟩
  · unfold TimeOrdered
    decide
  · have hnot : ¬ (run .none 0 ids merging).rqTracks.entries.toList.Pairwise Before := by decide
    exact hnot h.ascending

end Inputs

end PerfProf.Blktrace
