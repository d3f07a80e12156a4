import PerfProf.KmemleakArrivals
import PerfProf.Owners

/-! When the final report of kmemleak is right: for the trees of a run, and whatever their shape. -/
namespace PerfProf.Kmemleak
open PerfProf.Rblist

section Right
variable {xs pre post : List Arrival} {x : Arrival} {ctx : Ctx} {b f : Backup} {shapes : Shapes} {usingOrder : Bool}

theorem AllInTurn.of_append (h : AllInTurn xs (pre ++ post)) : AllInTurn xs pre := by
  intro p f q hsplit
  exact h p f (q ++ post) (by rw [hsplit, List.append_assoc, List.cons_append])

theorem AllFindOwn.of_append (h : AllFindOwn xs shapes usingOrder (pre ++ post)) :
    AllFindOwn xs shapes usingOrder pre := by
  intro p f q hsplit
  exact h p f (q ++ post) (by rw [hsplit, List.append_assoc, List.cons_append])

theorem stateAfter_snoc (shapes : Shapes) (usingOrder : Bool) (pre : List Arrival) (x : Arrival) :
    stateAfter shapes usingOrder (pre ++ [x]) =
      step (shapes pre.length) (stateAfter shapes usingOrder pre) x.act := by
  unfold stateAfter
  rw [List.zipIdx_append, List.foldl_append, Nat.zero_add]
  rfl

theorem stateAfter_concat (shapes : Shapes) (usingOrder : Bool) (pre : List Arrival) (x : Arrival)
    (h : Ordered (stateAfter shapes usingOrder pre)) : stateAfter shapes usingOrder (pre ++ [x]) =
      if x.isAlloc then (stateAfter shapes usingOrder pre).sampleAlloc (shapes pre.length) x.e
      else (stateAfter shapes usingOrder pre).sampleFree (shapes pre.length) x.e := by
  rw [stateAfter_snoc]
  exact h.sample (shapes pre.length) x.isAlloc x.e

theorem books_stateAfter (shapes : Shapes) (usingOrder : Bool) (pre : List Arrival) :
    Books (stateAfter shapes usingOrder pre) := by
  induction pre using List.reverseRecOn with
  | nil => exact books_init usingOrder
  | append_singleton pre x ih =>
    rw [stateAfter_snoc]
    exact (ih.step (shapes pre.length) x.act).1

theorem tracks_run (htraced : Traced xs) (shapes : Shapes) (usingOrder : Bool) (hsplit : xs = pre ++ post)
    (h : AllFindOwn xs shapes usingOrder pre) : Tracks xs pre (stateAfter shapes usingOrder pre) := by
  induction pre using List.reverseRecOn generalizing post with
  | nil => exact tracks_init xs usingOrder
  | append_singleton pre x ih =>
    rw [List.append_assoc] at hsplit
    have htracks := ih hsplit h.of_append
    obtain ⟨isAlloc, e⟩ := x
    rw [stateAfter_concat shapes usingOrder pre _ htracks.ordered]
    cases isAlloc with
    | true => exact htracks.sampleAlloc htraced hsplit _
    | false => exact htracks.sampleFree htraced hsplit (h pre e [] rfl) _

/-- Frees that are in turn find no other allocations than their own, whatever the shape of the trees. -/
theorem AllInTurn.findOwn (htraced : Traced xs) (shapes : Shapes) (usingOrder : Bool) (hsplit : xs = pre ++ post)
    (h : AllInTurn xs pre) : AllFindOwn xs shapes usingOrder pre := by
  induction pre using List.reverseRecOn generalizing post with
  | nil => exact fun p f q hnil => absurd hnil.symm (by simp)
  | append_singleton pre x ih =>
    rw [List.append_assoc] at hsplit
    have hpre := ih hsplit h.of_append
    intro p f q hlast
    rcases List.eq_nil_or_concat q with rfl | ⟨q, y, rfl⟩
    · obtain ⟨rfl, hx⟩ := List.append_inj' hlast rfl
      cases hx
      exact (tracks_run htraced shapes usingOrder hsplit hpre).findsOwn htraced hsplit (h pre f [] rfl)
    · rw [List.concat_eq_append, ← List.cons_append, ← List.append_assoc] at hlast
      obtain ⟨rfl, -⟩ := List.append_inj' hlast rfl
      exact hpre p f q rfl

theorem mem_leaks : b ∈ leaks xs ↔
    ⟨true, b⟩ ∈ xs ∧ ∀ y ∈ xs, y.isAlloc = false → y.e.ptr = b.ptr → y.e.time ≤ b.time := by
  unfold leaks
  simp only [List.mem_map, List.mem_filter, decide_eq_true_eq]
  constructor
  · rintro ⟨⟨isAlloc, e⟩, ⟨hmem, halloc, hno⟩, rfl⟩
    have halloc : isAlloc = true := halloc
    subst halloc
    exact ⟨hmem, hno⟩
  · rintro ⟨hmem, hno⟩
    exact ⟨⟨true, b⟩, ⟨hmem, rfl, hno⟩, rfl⟩

theorem mem_leaks_iff (htraced : Traced xs) : b ∈ leaks xs ↔ ⟨true, b⟩ ∈ xs ∧ ∀ g, ¬Frees xs b g := by
  rw [mem_leaks]
  refine and_congr_right fun hb => ⟨fun hno g hg => ?_, fun hno y hy hfree hptr => ?_⟩
  · exact absurd hg.2.2.2.1 (not_lt.mpr (hno ⟨false, g⟩ hg.2.1 rfl hg.2.2.1))
  · obtain ⟨isAlloc, e⟩ := y
    have hfree : isAlloc = false := hfree
    subst hfree
    by_contra hlt
    obtain ⟨g, hg, -⟩ := htraced.exists_free hb hy hptr (not_le.mp hlt)
    exact hno g hg

theorem nodup_leaks (htraced : Traced xs) : (leaks xs).Nodup := by
  have htimes := htraced.times
  have hmap : ((leaks xs).map Backup.time).Sublist (xs.map fun x => x.e.time) := by
    unfold leaks
    rw [List.map_map]
    exact List.filter_sublist.map _
  exact List.Nodup.of_map _ (htimes.sublist hmap)

/-- If every free is in turn, what is left behind the last event are the leaks. -/
theorem Tracks.leftover (h : Tracks xs xs ctx) (htraced : Traced xs) (bal : Rebalance Backup) :
    (ctx.leftover bal).Perm (leaks xs) := by
  have hfair : Fair (Frees xs) (fun _ => True) ctx.parked ctx.allocs := by
    intro g hg _ b hb hhits
    have hg := ((h.parked g).mp hg).1
    obtain ⟨p, hp, hset, rfl | hlt⟩ := h.exists_unsettled htraced (fun _ hx => hx) hb hg hhits
    · exact .inl hp
    · exact .inr ⟨p, (h.parked p).mpr ⟨hp.2.1, hset⟩, trivial, hp, hlt⟩
  obtain ⟨hordered, hleft⟩ := playBack_fair htraced.owning h.ordered hfair bal (le_refl _)
  refine (List.perm_ext_iff_of_nodup hordered.allocs.nodup (nodup_leaks htraced)).mpr fun b => ?_
  refine (hleft b).trans ?_
  rw [mem_leaks_iff htraced, h.allocs, and_assoc]
  refine and_congr_right fun hb => ⟨fun ⟨hfree, hplayed⟩ g hg => ?_, fun hno => ?_⟩
  · exact hplayed g ((h.parked g).mpr ⟨hg.2.1, hfree g hg⟩) hg
  · exact ⟨fun g hg => absurd hg (hno g), fun p _ => hno p⟩

end Right

section Ledger
variable {pre : List Arrival} {ctx : Ctx} {pairs : List (Backup × Backup)} {g : Backup} {gs : List Backup}

/-- What has been matched so far: frees that have arrived, each once, with allocations that have arrived. -/
structure Ledger (pre : List Arrival) (ctx : Ctx) (pairs : List (Backup × Backup)) : Prop where
  ordered : Ordered ctx
  added : ctx.added = (pre.filter Arrival.isAlloc).map Arrival.e
  removed : ctx.removed = pairs.map fun p => .freed p.1 p.2
  once : (pairs.map Prod.snd ++ ctx.parked).Nodup
  arrived : ∀ g ∈ pairs.map Prod.snd ++ ctx.parked, ⟨false, g⟩ ∈ pre
  allocs : ∀ b ∈ ctx.allocs, ⟨true, b⟩ ∈ pre

theorem Ledger.play (h : Ledger pre ctx pairs) (hparked : ctx.parked = g :: gs) (bal : Rebalance Backup) :
    ∃ more, Ledger pre (ctx.gcFreeFirst bal) (pairs ++ more) := by
  obtain ⟨hrest, hordered, hadded, hcases⟩ := gcFreeFirst_cases h.ordered hparked bal
  have honce := h.once
  have harrived := h.arrived
  rw [hparked] at honce harrived
  rcases hcases with ⟨b, -, -, hmem, hremoved⟩ | ⟨-, hsame, hremoved⟩
  · have hsplit : (pairs ++ [(b, g)]).map Prod.snd ++ gs = pairs.map Prod.snd ++ g :: gs := by simp
    refine ⟨[(b, g)], hordered, hadded.trans h.added, ?_, ?_, ?_, fun c hc => h.allocs c ((hmem c).mp hc).1⟩
    · rw [hremoved, h.removed, List.map_append]
      rfl
    · rw [hrest, hsplit]
      exact honce
    · rw [hrest, hsplit]
      exact harrived
  · have hsub : (pairs.map Prod.snd ++ gs).Sublist (pairs.map Prod.snd ++ g :: gs) :=
      (List.sublist_cons_self g gs).append_left _
    refine ⟨[], hordered, hadded.trans h.added, ?_, ?_, ?_, fun c hc => h.allocs c (hsame ▸ hc)⟩
    · rw [hremoved, h.removed, List.append_nil]
    · rw [hrest, List.append_nil]
      exact honce.sublist hsub
    · rw [hrest, List.append_nil]
      exact fun p hp => harrived p (hsub.subset hp)

theorem Ledger.gcLoop (h : Ledger pre ctx pairs) (bal : Rebalance Backup) (fuel time : Nat) :
    ∃ more, Ledger pre (ctx.gcLoop bal fuel time) (pairs ++ more) := by
  induction fuel generalizing ctx pairs with
  | zero => exact ⟨[], by rwa [List.append_nil]⟩
  | succ fuel ih =>
    rw [Ctx.gcLoop]
    split_ifs with hneed
    · cases hparked : ctx.parked with
      | nil =>
        have hlist : ctx.gcFree.entries.toList = [] := hparked
        unfold Ctx.gcNeedFree at hneed
        rw [hlist] at hneed
        cases hneed
      | cons g gs =>
        obtain ⟨some, hplay⟩ := h.play hparked bal
        obtain ⟨more, hmore⟩ := ih hplay
        exact ⟨some ++ more, by rwa [← List.append_assoc]⟩
    · exact ⟨[], by rwa [List.append_nil]⟩

theorem Ledger.playBack (h : Ledger pre ctx pairs) (bal : Rebalance Backup) (fuel : Nat) :
    ∃ more, Ledger pre (ctx.playBack bal fuel) (pairs ++ more) := by
  induction fuel generalizing ctx pairs with
  | zero => exact ⟨[], by rwa [List.append_nil]⟩
  | succ fuel ih =>
    rw [Ctx.playBack]
    split_ifs with hempty
    · exact ⟨[], by rwa [List.append_nil]⟩
    · cases hparked : ctx.parked with
      | nil => exact absurd (List.isEmpty_iff.mpr hparked) hempty
      | cons g gs =>
        obtain ⟨some, hplay⟩ := h.play hparked bal
        obtain ⟨more, hmore⟩ := ih hplay
        exact ⟨some ++ more, by rwa [← List.append_assoc]⟩

variable {xs post : List Arrival} {isAlloc : Bool} {a b e f : Backup}

theorem Ledger.sampleAlloc (h : Ledger pre ctx pairs) (htraced : Traced xs) (hsplit : xs = pre ++ ⟨true, a⟩ :: post)
    (bal : Rebalance Backup) : Ledger (pre ++ [⟨true, a⟩]) (ctx.sampleAlloc bal a) pairs := by
  have hnew : ∀ b ∈ ctx.allocs, b.time ≠ a.time := by
    intro b hb heq
    have hsame := htraced.eq_of_time (hsplit ▸ List.mem_append_left _ (h.allocs b hb))
      (hsplit ▸ List.mem_append_right _ List.mem_cons_self) heq
    exact htraced.not_mem hsplit (hsame ▸ h.allocs b hb)
  obtain ⟨hordered, hallocs, hparked, hremoved, hadded⟩ := sampleAlloc_new h.ordered hnew bal
  refine ⟨hordered, ?_, hremoved.trans h.removed, hparked ▸ h.once, ?_, fun c hc => ?_⟩
  · rw [hadded, h.added, List.filter_append, List.map_append]
    rfl
  · rw [hparked]
    exact fun g hg => List.mem_append_left _ (h.arrived g hg)
  · rcases (hallocs c).mp hc with rfl | hc
    · exact List.mem_append_right _ (List.mem_singleton.mpr rfl)
    · exact List.mem_append_left _ (h.allocs c hc)

/-- A free is matched with `b`. -/
theorem Ledger.takes {ctx' : Ctx} (h : Ledger pre ctx pairs) (htakes : Takes ctx f b ctx') (hno : ⟨false, f⟩ ∉ pre) :
    Ledger (pre ++ [⟨false, f⟩]) ctx' (pairs ++ [(b, f)]) := by
  have hparked : ctx'.parked = ctx.parked := congrArg (fun l => l.entries.toList) htakes.gcFree
  have hperm : ((pairs ++ [(b, f)]).map Prod.snd ++ ctx'.parked).Perm (f :: (pairs.map Prod.snd ++ ctx.parked)) := by
    rw [hparked, List.map_append, List.append_assoc]
    exact List.perm_middle
  refine ⟨⟨htakes.sorted, hparked ▸ h.ordered.parked, htakes.lostList.trans h.ordered.lostList⟩, ?_, ?_, ?_,
    fun g hg => ?_, fun c hc => List.mem_append_left _ (h.allocs c ((htakes.rest c).mp hc).1)⟩
  · rw [htakes.added, h.added, List.filter_append, List.map_append]
    exact (List.append_nil _).symm
  · rw [htakes.removed, h.removed, List.map_append]
    rfl
  · rw [hperm.nodup_iff, List.nodup_cons]
    exact ⟨fun hf => hno (h.arrived f hf), h.once⟩
  · rcases List.mem_cons.mp (hperm.mem_iff.mp hg) with rfl | hg
    · exact List.mem_append_right _ (List.mem_singleton.mpr rfl)
    · exact List.mem_append_left _ (h.arrived g hg)

theorem Ledger.sampleFree (h : Ledger pre ctx pairs) (htraced : Traced xs) (hsplit : xs = pre ++ ⟨false, f⟩ :: post)
    (bal : Rebalance Backup) : ∃ more, Ledger (pre ++ [⟨false, f⟩]) (ctx.sampleFree bal f) (pairs ++ more) := by
  have hno : ⟨false, f⟩ ∉ pre := htraced.not_mem hsplit
  have hnew : ∀ p ∈ ctx.parked, p.time ≠ f.time := by
    intro p hp heq
    have hp := h.arrived p (List.mem_append_right _ hp)
    have hsame := htraced.eq_of_time (hsplit ▸ List.mem_append_left _ hp)
      (hsplit ▸ List.mem_append_right _ List.mem_cons_self) heq
    exact hno (hsame ▸ hp)
  rcases sampleFree_cases h.ordered hnew bal with ⟨b, htakes⟩ | ⟨-, mid, stat, hrun, hmid, hallocs, hparked, hrem, hadd⟩
  · exact ⟨_, h.takes htakes hno⟩
  · obtain ⟨-, honce, hdisjoint⟩ := List.nodup_append.mp h.once
    have hpark : ∀ p ∈ mid.parked, p = f ∨ p ∈ ctx.parked := fun p => (hparked p).mp
    have hledger : Ledger (pre ++ [⟨false, f⟩]) mid pairs := by
      refine ⟨hmid, ?_, hrem.trans h.removed, ?_, fun g hg => ?_, ?_⟩
      · rw [hadd, h.added, List.filter_append, List.map_append]
        exact (List.append_nil _).symm
      · refine List.nodup_append.mpr ⟨(List.nodup_append.mp h.once).1, hmid.parked.nodup, fun p hp q hq heq => ?_⟩
        rcases hpark q hq with rfl | hq
        · exact hno (h.arrived q (List.mem_append_left _ (heq ▸ hp)))
        · exact hdisjoint p hp q hq heq
      · rcases List.mem_append.mp hg with hg | hg
        · exact List.mem_append_left _ (h.arrived g (List.mem_append_left _ hg))
        · rcases hpark g hg with rfl | hg
          · exact List.mem_append_right _ (List.mem_singleton.mpr rfl)
          · exact List.mem_append_left _ (h.arrived g (List.mem_append_right _ hg))
      · rw [hallocs]
        exact fun c hc => List.mem_append_left _ (h.allocs c hc)
    obtain ⟨more, hmore⟩ := hledger.gcLoop bal mid.parked.length f.time
    rw [hrun]
    exact ⟨more, ⟨hmore.ordered.allocs, hmore.ordered.parked, hmore.ordered.lostList⟩, hmore.added, hmore.removed,
      hmore.once, hmore.arrived, hmore.allocs⟩

end Ledger

section Matches
variable {xs pre post : List Arrival} {ctx : Ctx} {pairs : List (Backup × Backup)} {b g : Backup}

theorem ledger_init (usingOrder : Bool) : Ledger [] (init usingOrder) [] :=
  ⟨⟨List.Pairwise.nil, List.Pairwise.nil, rfl⟩, rfl, rfl, List.Pairwise.nil, fun _ hg => absurd hg List.not_mem_nil,
    fun _ hb => absurd hb List.not_mem_nil⟩

/-- What is matched stays matched. -/
theorem Ledger.run (htraced : Traced xs) {shapes : Shapes} {usingOrder : Bool}
    (h : Ledger pre (stateAfter shapes usingOrder pre) pairs) (mid : List Arrival) (hsplit : xs = pre ++ mid ++ post) :
    ∃ more, Ledger (pre ++ mid) (stateAfter shapes usingOrder (pre ++ mid)) (pairs ++ more) := by
  induction mid using List.reverseRecOn generalizing post with
  | nil => exact ⟨[], by rwa [List.append_nil, List.append_nil]⟩
  | append_singleton mid x ih =>
    rw [← List.append_assoc] at hsplit ⊢
    rw [List.append_assoc _ [x]] at hsplit
    obtain ⟨some, hsome⟩ := ih hsplit
    obtain ⟨isAlloc, e⟩ := x
    rw [stateAfter_concat shapes usingOrder _ _ hsome.ordered]
    cases isAlloc with
    | true => exact ⟨some, hsome.sampleAlloc htraced hsplit _⟩
    | false =>
      obtain ⟨more, hmore⟩ := hsome.sampleFree htraced hsplit (shapes (pre ++ mid).length)
      exact ⟨some ++ more, by rwa [← List.append_assoc]⟩

theorem ledger_run (htraced : Traced xs) (shapes : Shapes) (usingOrder : Bool) (hsplit : xs = pre ++ post) :
    ∃ pairs, Ledger pre (stateAfter shapes usingOrder pre) pairs := by
  have hinit : Ledger [] (stateAfter shapes usingOrder []) [] := ledger_init usingOrder
  exact hinit.run htraced pre hsplit

open Classical in
/-- The allocation of a free, where it has one. -/
noncomputable def ownOf (xs : List Arrival) (g : Backup) : Backup :=
  if h : ∃ b, Frees xs b g then h.choose else g

theorem ownOf_eq (htraced : Traced xs) (h : Frees xs b g) : ownOf xs g = b := by
  have hex : ∃ b, Frees xs b g := ⟨b, h⟩
  unfold ownOf
  rw [dif_pos hex]
  exact hex.choose_spec.owner_unique htraced h

theorem Ledger.reported_nil (h : Ledger pre ctx pairs) : ctx.reported = [] := by
  unfold Ctx.reported
  rw [h.removed, List.filter_eq_nil_iff.mpr, List.map_nil]
  intro r hr
  obtain ⟨p, -, rfl⟩ := List.mem_map.mp hr
  exact Bool.false_ne_true

/-- If all allocations that are freed have been taken, every free has taken its own. -/
theorem Ledger.own_of_taken (h : Ledger xs ctx pairs) (htraced : Traced xs) (B : Books ctx)
    (htaken : ∀ b g, Frees xs b g → b ∉ ctx.allocs) : ∀ p ∈ pairs, Frees xs p.1 p.2 := by
  classical
  have honce : ctx.added.Perm (ctx.allocs ++ pairs.map Prod.fst) := by
    have honce := B.once
    rw [h.removed, List.map_map] at honce
    exact honce
  have hadded : ∀ b, b ∈ ctx.added ↔ ⟨true, b⟩ ∈ xs := by
    intro b
    rw [h.added, List.mem_map]
    constructor
    · rintro ⟨⟨isAlloc, e⟩, hmem, rfl⟩
      obtain ⟨hmem, halloc⟩ := List.mem_filter.mp hmem
      have halloc : isAlloc = true := halloc
      exact halloc ▸ hmem
    · exact fun hmem => ⟨⟨true, b⟩, List.mem_filter.mpr ⟨hmem, rfl⟩, rfl⟩
  have hnodup : ctx.added.Nodup := by
    have hmap : (ctx.added.map Backup.time).Sublist (xs.map fun x => x.e.time) := by
      rw [h.added, List.map_map]
      exact List.filter_sublist.map _
    exact List.Nodup.of_map _ (htraced.times.sublist hmap)
  have hpair : ∀ p ∈ pairs, ⟨true, p.1⟩ ∈ xs ∧ ⟨false, p.2⟩ ∈ xs ∧ Hits p.1 p.2 := by
    intro p hp
    have hfst : p.1 ∈ ctx.added := honce.mem_iff.mpr (List.mem_append_right _ (List.mem_map_of_mem hp))
    have hjust := B.justified (.freed p.1 p.2) (h.removed ▸ List.mem_map_of_mem hp)
    exact ⟨(hadded p.1).mp hfst, h.arrived p.2 (List.mem_append_left _ (List.mem_map_of_mem hp)), hjust.1.symm, hjust.2⟩
  have howner : ∀ p ∈ pairs, ∃ b, Frees xs b p.2 ∧ p.1.time ≤ b.time := by
    intro p hp
    obtain ⟨hb, hg, hhits⟩ := hpair p hp
    exact htraced.exists_owner hb hg hhits.1.symm (hhits.lt htraced hb hg)
  have hfst : Set.InjOn Prod.fst (pairs.toFinset : Set (Backup × Backup)) := by
    have hnodup := (List.nodup_append.mp (honce.nodup_iff.mp hnodup)).2.1
    intro p hp q hq heq
    exact List.inj_on_of_nodup_map hnodup (List.mem_toFinset.mp hp) (List.mem_toFinset.mp hq) heq
  have hsnd : Set.InjOn Prod.snd (pairs.toFinset : Set (Backup × Backup)) := by
    have hnodup := (List.nodup_append.mp h.once).1
    intro p hp q hq heq
    exact List.inj_on_of_nodup_map hnodup (List.mem_toFinset.mp hp) (List.mem_toFinset.mp hq) heq
  have htime := @Owners.time_eq _ _ _ _ (ownOf xs) Backup.time
    ((xs.map Arrival.e).toFinset.filter fun g => ∃ b, Frees xs b g) pairs.toFinset hfst hsnd ?_ ?_ ?_ ?_
  · intro p hp
    obtain ⟨b, hb, -⟩ := howner p hp
    have heq := htime p (List.mem_toFinset.mpr hp)
    rw [ownOf_eq htraced hb] at heq
    have hsame := htraced.eq_of_time (hpair p hp).1 hb.1 heq
    cases hsame
    exact hb
  · intro g hg g' hg' heq
    obtain ⟨b, hb⟩ := (Finset.mem_filter.mp hg).2
    obtain ⟨b', hb'⟩ := (Finset.mem_filter.mp hg').2
    rw [ownOf_eq htraced hb, ownOf_eq htraced hb'] at heq
    subst heq
    exact hb.free_unique htraced hb'
  · intro p hp
    have hp := List.mem_toFinset.mp hp
    obtain ⟨b, hb, -⟩ := howner p hp
    exact Finset.mem_filter.mpr ⟨List.mem_toFinset.mpr (List.mem_map_of_mem (hpair p hp).2.1), b, hb⟩
  · intro p hp
    obtain ⟨b, hb, hle⟩ := howner p (List.mem_toFinset.mp hp)
    rw [ownOf_eq htraced hb]
    exact hle
  · intro b hb
    obtain ⟨g, hg, rfl⟩ := Finset.mem_image.mp hb
    obtain ⟨b, hb⟩ := (Finset.mem_filter.mp hg).2
    rw [ownOf_eq htraced hb]
    rcases List.mem_append.mp (honce.mem_iff.mp ((hadded b).mpr hb.1)) with hleft | htook
    · exact absurd hleft (htaken b g hb)
    · obtain ⟨p, hp, hpb⟩ := List.mem_map.mp htook
      exact Finset.mem_image.mpr ⟨p, List.mem_toFinset.mpr hp, hpb⟩

/-- If the final report is right, every free has been matched with its own allocation. -/
theorem Ledger.own_of_right (h : Ledger xs ctx pairs) (htraced : Traced xs) (B : Books ctx) {bal : Rebalance Backup}
    (hright : (ctx.report bal).reported.Perm (leaks xs)) : ∀ p ∈ pairs, Frees xs p.1 p.2 := by
  obtain ⟨more, hplay⟩ := h.playBack bal ctx.gcFree.entries.toList.length
  have hreport := (B.report bal).2.2.2
  rw [h.reported_nil, List.nil_append] at hreport
  have hleft := hreport.symm.trans hright
  refine fun p hp => hplay.own_of_taken htraced (B.playAll bal).1 (fun b g hb hmem => ?_) p (List.mem_append_left _ hp)
  exact ((mem_leaks_iff htraced).mp (hleft.mem_iff.mp hmem)).2 g hb

end Matches

section Top
variable {a f : Backup} {ctx ctx' : Ctx} {e : Backup}

/-- An allocation that is in the list is on top of the tree. -/
def OnTop (a : Backup) (ctx : Ctx) : Prop := a ∈ ctx.allocs → ∃ l r, ctx.alloc.entries = .node l a r

theorem onTop_of_raise {t : Rblist.Tree Backup} (h : ctx.alloc.entries = t.raise a) : OnTop a ctx := by
  intro hmem
  unfold Ctx.allocs at hmem
  rw [h, Tree.toList_raise] at hmem
  rw [h]
  exact Tree.raise_of_mem hmem

theorem onTop_removeAlloc {cmp : Backup → Ordering} {why : Backup → Removal} (h : OnTop a ctx) :
    OnTop a ((ctx.removeAlloc (.raise a) cmp why).getD ctx) := by
  unfold Ctx.removeAlloc RbList.remove
  cases ctx.alloc.entries.remove cmp with
  | none => exact h
  | some p => exact onTop_of_raise rfl

theorem onTop_addAlloc (h : OnTop a ctx) (e : Backup) : OnTop a ((ctx.addAlloc (.raise a) e).getD ctx) := by
  unfold Ctx.addAlloc RbList.addNode
  cases ctx.alloc.entries.find (nodeCmp true e) with
  | none => exact onTop_of_raise rfl
  | some b => exact h

theorem onTop_sampleAlloc (h : OnTop a ctx) (e : Backup) : OnTop a (ctx.sampleAlloc (.raise a) e) := by
  have hadd := onTop_addAlloc h e
  unfold Ctx.sampleAlloc
  cases haddAlloc : ctx.addAlloc (.raise a) e with
  | some ctx' =>
    rw [haddAlloc] at hadd
    exact hadd
  | none => exact onTop_addAlloc (onTop_removeAlloc h) e

theorem onTop_gcFreeFirst (h : OnTop a ctx) : OnTop a (ctx.gcFreeFirst (.raise a)) := by
  unfold Ctx.gcFreeFirst
  cases ctx.gcFree.removeFirst (.raise a) with
  | none => exact h
  | some p => exact @onTop_removeAlloc a ctx (nodeCmp false p.1) (.freed · p.1) h

theorem onTop_gcLoop (h : OnTop a ctx) (fuel time : Nat) : OnTop a (ctx.gcLoop (.raise a) fuel time) := by
  induction fuel generalizing ctx with
  | zero => exact h
  | succ fuel ih =>
    rw [Ctx.gcLoop]
    split_ifs
    · exact ih (onTop_gcFreeFirst h)
    · exact h

theorem onTop_sampleFree (h : OnTop a ctx) (f : Backup) : OnTop a (ctx.sampleFree (.raise a) f) := by
  have hremove := @onTop_removeAlloc a ctx (nodeCmp false f) (.freed · f) h
  unfold Ctx.sampleFree
  cases hremoveAlloc : ctx.removeAlloc (.raise a) (nodeCmp false f) (.freed · f) with
  | some ctx' =>
    rw [hremoveAlloc] at hremove
    exact hremove
  | none =>
    have hadd : OnTop a (ctx.addFree (.raise a) f) := by
      unfold Ctx.addFree
      cases ctx.gcFree.entries.find (timeCmp f) with
      | none => exact h
      | some p => exact h
    exact onTop_gcLoop hadd _ f.time

/-- A free that hits the entry on top finds it. -/
theorem find_top (htop : OnTop a ctx) (ha : a ∈ ctx.allocs) (hhits : Hits a f) :
    ctx.alloc.entries.find (nodeCmp false f) = some a := by
  obtain ⟨l, r, hroot⟩ := htop ha
  rw [hroot, Tree.find, (nodeCmp_false_iff f a).mpr hhits]

end Top

section Reports
variable {xs pre post : List Arrival} {f : Backup}

/-- The first free that is not in turn. -/
theorem exists_first (h : ¬AllInTurn xs pre) :
    ∃ p f q, pre = p ++ ⟨false, f⟩ :: q ∧ AllInTurn xs p ∧ ¬InTurn xs p f := by
  induction pre using List.reverseRecOn with
  | nil => exact absurd (fun p f q hsplit => absurd hsplit.symm (by simp)) h
  | append_singleton pre x ih =>
    by_cases hpre : AllInTurn xs pre
    · unfold AllInTurn at h
      push Not at h
      obtain ⟨p, f, q, hsplit, hturn⟩ := h
      refine ⟨p, f, q, hsplit, ?_, hturn⟩
      rcases List.eq_nil_or_concat q with rfl | ⟨q, y, rfl⟩
      · obtain ⟨rfl, -⟩ := List.append_inj' hsplit rfl
        exact hpre
      · rw [List.concat_eq_append, ← List.cons_append, ← List.append_assoc] at hsplit
        obtain ⟨rfl, -⟩ := List.append_inj' hsplit rfl
        exact AllInTurn.of_append hpre
    · obtain ⟨p, f, q, rfl, hp, hturn⟩ := ih hpre
      exact ⟨p, f, q ++ [x], by rw [List.append_assoc, List.cons_append], hp, hturn⟩

theorem onTop_stateAfter (htraced : Traced xs) (usingOrder : Bool) (a : Backup) (hsplit : xs = pre ++ post) :
    OnTop a (stateAfter (fun _ => .raise a) usingOrder pre) := by
  induction pre using List.reverseRecOn generalizing post with
  | nil => exact fun hmem => absurd hmem List.not_mem_nil
  | append_singleton pre x ih =>
    rw [List.append_assoc] at hsplit
    obtain ⟨pairs, hledger⟩ := ledger_run htraced (fun _ => .raise a) usingOrder hsplit
    rw [stateAfter_concat _ usingOrder pre x hledger.ordered]
    split_ifs
    · exact onTop_sampleAlloc (ih hsplit) x.e
    · exact onTop_sampleFree (ih hsplit) x.e

/-- Where the report is right, every free has found its own allocation. -/
theorem findOwn_of_right (htraced : Traced xs) {shapes : Shapes} {usingOrder : Bool}
    (hright : (finalReport shapes usingOrder xs).Perm (leaks xs)) : AllFindOwn xs shapes usingOrder xs := by
  intro p f q hsplit b hfind
  obtain ⟨pairs, hledger⟩ := ledger_run htraced shapes usingOrder hsplit
  have hafter : Ledger (p ++ [⟨false, f⟩]) (stateAfter shapes usingOrder (p ++ [⟨false, f⟩]))
      (pairs ++ [(b, f)]) := by
    rw [stateAfter_concat _ usingOrder p _ hledger.ordered]
    exact hledger.takes (takes_found hledger.ordered.allocs hfind _) (htraced.not_mem hsplit)
  rw [List.append_cons] at hsplit
  obtain ⟨more, hend⟩ := hafter.run htraced q (hsplit.trans (List.append_nil _).symm)
  rw [← hsplit] at hend
  exact hend.own_of_right htraced (books_stateAfter shapes usingOrder xs) hright (b, f) (by simp)

theorem right_of_findOwn (htraced : Traced xs) {shapes : Shapes} {usingOrder : Bool}
    (hown : AllFindOwn xs shapes usingOrder xs) : (finalReport shapes usingOrder xs).Perm (leaks xs) := by
  have htracks := tracks_run htraced shapes usingOrder (List.append_nil xs).symm hown
  obtain ⟨pairs, hledger⟩ := ledger_run htraced shapes usingOrder (List.append_nil xs).symm
  have hreport := ((books_stateAfter shapes usingOrder xs).report (shapes xs.length)).2.2.2
  rw [hledger.reported_nil, List.nil_append] at hreport
  exact hreport.trans (htracks.leftover htraced _)

/-- The final report of a run is right if and only if each free finds, in the tree as it is where the free arrives, no
other allocation than its own. -/
theorem finalReport_iff (htraced : Traced xs) (shapes : Shapes) (usingOrder : Bool) :
    (finalReport shapes usingOrder xs).Perm (leaks xs) ↔ AllFindOwn xs shapes usingOrder xs :=
  ⟨findOwn_of_right htraced, right_of_findOwn htraced⟩

/-- Two allocations that arrive in the wrong order, and two frees that do so as well. -/
def crossed : List Arrival :=
  [⟨true, ⟨4096, 3, 64⟩⟩, ⟨true, ⟨4096, 1, 64⟩⟩, ⟨false, ⟨4096, 4, 64⟩⟩, ⟨false, ⟨4096, 2, 64⟩⟩]

theorem traced_crossed : Traced crossed := ⟨by decide, by decide, by decide⟩

/-- The tree has the younger allocation on top, where the younger free finds it. -/
theorem crossed_findOwn : AllFindOwn crossed (fun _ => .none) false crossed := by
  intro p f q hsplit b hfind
  rcases p with _ | ⟨x, _ | ⟨y, _ | ⟨z, _ | ⟨w, p⟩⟩⟩⟩
  · cases hsplit
  · cases hsplit
  · cases hsplit
    obtain rfl : (⟨4096, 3, 64⟩ : Backup) = b := Option.some.inj hfind
    exact ⟨by decide, by decide, by decide, by decide, by decide⟩
  · cases hsplit
    obtain rfl : (⟨4096, 1, 64⟩ : Backup) = b := Option.some.inj hfind
    exact ⟨by decide, by decide, by decide, by decide, by decide⟩
  · have hlen := congrArg List.length hsplit
    simp only [crossed, List.length_append, List.length_cons, List.length_nil] at hlen
    omega

theorem finalReport_iff_crossed : (finalReport (fun _ => .none) false crossed).Perm [] :=
  (finalReport_iff traced_crossed (fun _ => .none) false).mpr crossed_findOwn

/-- The final report is right for every shape of the trees if and only if every free is in turn. -/
theorem finalReport_all_iff (htraced : Traced xs) (usingOrder : Bool) :
    (∀ shapes, (finalReport shapes usingOrder xs).Perm (leaks xs)) ↔ AllInTurn xs xs := by
  constructor
  · intro hright
    by_contra hnot
    obtain ⟨p, f, q, hsplit, hp, hturn⟩ := exists_first hnot
    unfold InTurn at hturn
    push Not at hturn
    obtain ⟨a, ha, hptr, hlt, hother, hfree⟩ := hturn
    have hown := findOwn_of_right htraced (hright fun _ => .raise a)
    have htracks := tracks_run htraced (fun _ => .raise a) usingOrder hsplit (hp.findOwn htraced _ _ hsplit)
    have hmem : a ∈ (stateAfter (fun _ => .raise a) usingOrder p).allocs := (htracks.allocs a).mpr ⟨ha, hfree⟩
    have htop := onTop_stateAfter htraced usingOrder a hsplit
    exact hother (hown p f q hsplit a (find_top htop hmem ⟨hptr, hlt.le⟩))
  · intro hturn shapes
    exact right_of_findOwn htraced (hturn.findOwn htraced shapes usingOrder (List.append_nil xs).symm)

/-- A pointer that is used twice; the second free overtakes the first. -/
def reused : List Arrival :=
  [⟨true, ⟨4096, 1, 64⟩⟩, ⟨false, ⟨4096, 4, 64⟩⟩, ⟨false, ⟨4096, 2, 64⟩⟩, ⟨true, ⟨4096, 3, 64⟩⟩]

theorem traced_reused : Traced reused := ⟨by decide, by decide, by decide⟩

/-- The second allocation is reported, which has been freed; no tree has more than one entry. -/
theorem reused_reported : Traced reused ∧ ¬(finalReport (fun _ => .none) false reused).Perm (leaks reused) :=
  ⟨traced_reused, fun h => absurd h.length_eq (by decide)⟩

end Reports

end PerfProf.Kmemleak
