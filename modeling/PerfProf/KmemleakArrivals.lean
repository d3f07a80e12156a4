import Mathlib.Data.List.Nodup
import PerfProf.Kmemleak
import PerfProf.RbWalk

/-! kmemleak with events that arrive out of order: which free takes which allocation, and what the lists hold as
long as each free finds no other allocation than its own. -/
namespace PerfProf.Kmemleak
open PerfProf.Rblist

section Spec

/-- An event as it arrives. -/
structure Arrival where
  isAlloc : Bool
  e : Backup
deriving DecidableEq

def Arrival.act (x : Arrival) : Act := .sample x.isAlloc x.e

/-- No two events are of one time, those of a pointer alternate, and an event is overtaken only by events that are
less than a second younger. -/
structure Traced (xs : List Arrival) : Prop where
  times : (xs.map fun x => x.e.time).Nodup
  alternate : ∀ x ∈ xs, ∀ y ∈ xs, x.e.ptr = y.e.ptr → x.isAlloc = y.isAlloc → x.e.time < y.e.time →
    ∃ z ∈ xs, z.e.ptr = x.e.ptr ∧ z.isAlloc ≠ x.isAlloc ∧ x.e.time < z.e.time ∧ z.e.time < y.e.time
  late : xs.Pairwise fun x y => x.e.time < y.e.time + 1000000000

/-- The allocations with no later free of their pointer. -/
def leaks (xs : List Arrival) : List Backup :=
  (xs.filter fun x => x.isAlloc ∧ ∀ y ∈ xs, y.isAlloc = false → y.e.ptr = x.e.ptr → y.e.time ≤ x.e.time).map Arrival.e

/-- The rotations that each arrival and the final report bring, by the number of arrivals before: a red-black tree
has colours, so that its rotations are no function of its entries alone. -/
abbrev Shapes := Nat → Rebalance Backup

/-- The state behind some arrivals. -/
def stateAfter (shapes : Shapes) (usingOrder : Bool) (pre : List Arrival) : Ctx :=
  pre.zipIdx.foldl (fun ctx x => step (shapes x.2) ctx x.1.act) (init usingOrder)

/-- What the final report finds. -/
def finalReport (shapes : Shapes) (usingOrder : Bool) (xs : List Arrival) : List Backup :=
  ((stateAfter shapes usingOrder xs).report (shapes xs.length)).reported

/-- The free that comes next after an allocation of its pointer. -/
def Frees (xs : List Arrival) (a f : Backup) : Prop :=
  ⟨true, a⟩ ∈ xs ∧ ⟨false, f⟩ ∈ xs ∧ f.ptr = a.ptr ∧ a.time < f.time ∧
    ∀ z ∈ xs, z.e.ptr = a.ptr → ¬(a.time < z.e.time ∧ z.e.time < f.time)

/-- A free that arrives when its allocation is not there. -/
def Parks (xs pre : List Arrival) (f : Backup) : Prop := ∀ a, ⟨true, a⟩ ∈ pre → ¬Frees xs a f

/-- A free is settled when it arrives behind its allocation, or when a free that parks plays it back. -/
inductive Settled (xs : List Arrival) (g : Backup) : List Arrival → Prop where
  | met {pre : List Arrival} {a : Backup} (ha : ⟨true, a⟩ ∈ pre) (h : Frees xs a g) : Settled xs g (pre ++ [⟨false, g⟩])
  | played {pre : List Arrival} {f : Backup} (hg : ⟨false, g⟩ ∈ pre) (hf : Parks xs pre f)
      (hold : g.time + 1000000000 < f.time) : Settled xs g (pre ++ [⟨false, f⟩])
  | before {pre : List Arrival} {x : Arrival} (h : Settled xs g pre) : Settled xs g (pre ++ [x])

/-- Where a free arrives, each older allocation of its pointer is its own or has a free that is settled. -/
def InTurn (xs pre : List Arrival) (f : Backup) : Prop :=
  ∀ a, ⟨true, a⟩ ∈ pre → a.ptr = f.ptr → a.time < f.time → Frees xs a f ∨ ∃ g, Frees xs a g ∧ Settled xs g pre

/-- All frees of a part of the arrivals are in turn. -/
def AllInTurn (xs pre : List Arrival) : Prop := ∀ p f q, pre = p ++ ⟨false, f⟩ :: q → InTurn xs p f

/-- What a free finds in the tree, if anything, is its own allocation. -/
def FindsOwn (xs : List Arrival) (ctx : Ctx) (f : Backup) : Prop :=
  ∀ b, ctx.alloc.entries.find (nodeCmp false f) = some b → Frees xs b f

/-- Each free of a part of the arrivals finds no other allocation than its own, where it arrives. -/
def AllFindOwn (xs : List Arrival) (shapes : Shapes) (usingOrder : Bool) (pre : List Arrival) : Prop :=
  ∀ p f q, pre = p ++ ⟨false, f⟩ :: q → FindsOwn xs (stateAfter shapes usingOrder p) f

end Spec

section Pairs
variable {xs : List Arrival} {a b f g : Backup}

theorem Traced.eq_of_time (h : Traced xs) {x y : Arrival} (hx : x ∈ xs) (hy : y ∈ xs) (heq : x.e.time = y.e.time) :
    x = y := List.inj_on_of_nodup_map h.times hx hy heq

theorem Frees.owner_unique (h : Traced xs) (ha : Frees xs a f) (hb : Frees xs b f) : a = b := by
  obtain ⟨hamem, -, haptr, halt, hano⟩ := ha
  obtain ⟨hbmem, -, hbptr, hblt, hbno⟩ := hb
  rcases lt_trichotomy a.time b.time with hlt | heq | hgt
  · exact absurd ⟨hlt, hblt⟩ (hano _ hbmem (hbptr.symm.trans haptr))
  · exact congrArg Arrival.e (h.eq_of_time hamem hbmem heq)
  · exact absurd ⟨hgt, halt⟩ (hbno _ hamem (haptr.symm.trans hbptr))

theorem Frees.free_unique (h : Traced xs) (hf : Frees xs a f) (hg : Frees xs a g) : f = g := by
  obtain ⟨-, hfmem, hfptr, hflt, hfno⟩ := hf
  obtain ⟨-, hgmem, hgptr, hglt, hgno⟩ := hg
  rcases lt_trichotomy f.time g.time with hlt | heq | hgt
  · exact absurd ⟨hflt, hlt⟩ (hgno _ hfmem hfptr)
  · exact congrArg Arrival.e (h.eq_of_time hfmem hgmem heq)
  · exact absurd ⟨hglt, hgt⟩ (hfno _ hgmem hgptr)

/-- An allocation with a later free has a free of its own. -/
theorem Traced.exists_free (h : Traced xs) (ha : ⟨true, a⟩ ∈ xs) (hf : ⟨false, f⟩ ∈ xs) (hptr : f.ptr = a.ptr)
    (hlt : a.time < f.time) : ∃ g, Frees xs a g ∧ g.time ≤ f.time := by
  generalize hn : f.time = n at hlt
  induction n using Nat.strong_induction_on generalizing f with
  | _ n ih =>
    subst hn
    by_cases hbetween : ∃ z ∈ xs, z.e.ptr = a.ptr ∧ a.time < z.e.time ∧ z.e.time < f.time
    · obtain ⟨⟨isAlloc, z⟩, hz, hzptr, haz, hzf⟩ := hbetween
      cases isAlloc with
      | false =>
        obtain ⟨g, hg, hle⟩ := ih z.time hzf hz hzptr rfl haz
        exact ⟨g, hg, hle.trans hzf.le⟩
      | true =>
        obtain ⟨⟨isAlloc, w⟩, hw, hwptr, hkind, haw, hwz⟩ := h.alternate _ ha _ hz hzptr.symm rfl haz
        cases isAlloc with
        | true => exact absurd rfl hkind
        | false =>
          have hwf : w.time < f.time := lt_trans hwz hzf
          obtain ⟨g, hg, hle⟩ := ih w.time hwf hw hwptr rfl haw
          exact ⟨g, hg, hle.trans hwf.le⟩
    · exact ⟨f, ⟨ha, hf, hptr, hlt, fun z hz hzptr hboth => hbetween ⟨z, hz, hzptr, hboth⟩⟩, le_refl _⟩

/-- A free with an older allocation has an allocation of its own. -/
theorem Traced.exists_owner (h : Traced xs) (ha : ⟨true, a⟩ ∈ xs) (hf : ⟨false, f⟩ ∈ xs) (hptr : f.ptr = a.ptr)
    (hlt : a.time < f.time) : ∃ b, Frees xs b f ∧ a.time ≤ b.time := by
  generalize hn : f.time - a.time = n
  induction n using Nat.strong_induction_on generalizing a with
  | _ n ih =>
    by_cases hbetween : ∃ z ∈ xs, z.e.ptr = a.ptr ∧ a.time < z.e.time ∧ z.e.time < f.time
    · obtain ⟨⟨isAlloc, z⟩, hz, hzptr, haz, hzf⟩ := hbetween
      have haz : a.time < z.time := haz
      have hzf : z.time < f.time := hzf
      cases isAlloc with
      | true =>
        obtain ⟨b, hb, hle⟩ := ih (f.time - z.time) (by omega) hz (hptr.trans hzptr.symm) hzf rfl
        exact ⟨b, hb, haz.le.trans hle⟩
      | false =>
        obtain ⟨⟨isAlloc, w⟩, hw, hwptr, hkind, hzw, hwf⟩ := h.alternate _ hz _ hf (hzptr.trans hptr.symm) rfl hzf
        have hzw : z.time < w.time := hzw
        have hwf : w.time < f.time := hwf
        cases isAlloc with
        | false => exact absurd rfl hkind
        | true =>
          have hptr' : f.ptr = w.ptr := hptr.trans (hzptr.symm.trans hwptr.symm)
          obtain ⟨b, hb, hle⟩ := ih (f.time - w.time) (by omega) hw hptr' hwf rfl
          exact ⟨b, hb, (haz.trans hzw).le.trans hle⟩
    · exact ⟨a, ⟨ha, hf, hptr, hlt, fun z hz hzptr hboth => hbetween ⟨z, hz, hzptr, hboth⟩⟩, le_refl _⟩

end Pairs

section Lists
variable {bal : Rebalance Backup} {ctx ctx' : Ctx} {e f g : Backup} {gs : List Backup}

def Ctx.allocs (ctx : Ctx) : List Backup := ctx.alloc.entries.toList

def Ctx.parked (ctx : Ctx) : List Backup := ctx.gcFree.entries.toList

/-- The lists are in order, and nothing has been lost. -/
structure Ordered (ctx : Ctx) : Prop where
  allocs : Sorted allocKey ctx.allocs
  parked : Sorted timeKey ctx.parked
  lostList : ctx.lostList = []

/-- A free finds an allocation. -/
def Hits (b f : Backup) : Prop := b.ptr = f.ptr ∧ b.time ≤ f.time

theorem nodeCmp_false_iff (f b : Backup) : nodeCmp false f b = .eq ↔ Hits b f := by
  constructor
  · intro h
    obtain ⟨hptr, hle⟩ := nodeCmp_false h
    exact ⟨hptr.symm, hle⟩
  · rintro ⟨hptr, hle⟩
    unfold nodeCmp
    rw [compare_eq_iff_eq.mpr hptr, if_neg (not_lt.mpr hle), if_neg fun h => Bool.false_ne_true h.1]
    rfl

theorem rises_nodeCmp (f : Backup) {l : List Backup} (hl : Sorted allocKey l) : Rises (nodeCmp false f) l := by
  have hlt (b : Backup) : nodeCmp false f b = .lt ↔ b.ptr < f.ptr := by
    unfold nodeCmp
    rw [Ordering.then_eq_lt, compare_lt_iff_lt]
    constructor
    · rintro (h | ⟨-, h⟩)
      · exact h
      · split_ifs at h with hgt hboth
        exact absurd hboth.1 nofun
    · exact .inl
  have hgt (b : Backup) : nodeCmp false f b = .gt ↔ f.ptr < b.ptr ∨ b.ptr = f.ptr ∧ f.time < b.time := by
    unfold nodeCmp
    rw [Ordering.then_eq_gt, compare_gt_iff_gt, compare_eq_iff_eq]
    refine or_congr Iff.rfl (and_congr_right fun _ => ⟨fun h => ?_, fun h => if_pos h⟩)
    by_contra hle
    rw [if_neg hle, if_neg fun h => Bool.false_ne_true h.1] at h
    cases h
  refine List.Pairwise.imp (fun {a b} hab => ?_) hl
  rw [hlt, hlt, hgt, hgt]
  rcases Prod.Lex.toLex_lt_toLex.mp hab with hptr | ⟨hptr, htime⟩
  · have hptr : a.ptr < b.ptr := hptr
    omega
  · have hptr : a.ptr = b.ptr := hptr
    have htime : a.time < b.time := htime
    omega

/-- `b` is taken from the alloc list by the free `f`. -/
structure Takes (ctx : Ctx) (f b : Backup) (ctx' : Ctx) : Prop where
  mem : b ∈ ctx.allocs
  hits : Hits b f
  rest : ∀ c, c ∈ ctx'.allocs ↔ c ∈ ctx.allocs ∧ c ≠ b
  sorted : Sorted allocKey ctx'.allocs
  gcFree : ctx'.gcFree = ctx.gcFree
  lostList : ctx'.lostList = ctx.lostList
  added : ctx'.added = ctx.added
  removed : ctx'.removed = ctx.removed ++ [.freed b f]

theorem mem_remove {xs ys : List Backup} {b : Backup} (h : Sorted allocKey (xs ++ b :: ys)) (c : Backup) :
    c ∈ xs ++ ys ↔ c ∈ xs ++ b :: ys ∧ c ≠ b := by
  obtain ⟨-, -, hxs, hys⟩ := h.split
  simp only [List.mem_append, List.mem_cons]
  constructor
  · rintro (hc | hc)
    · exact ⟨.inl hc, fun heq => absurd (hxs c hc) (heq ▸ lt_irrefl _)⟩
    · exact ⟨.inr (.inr hc), fun heq => absurd (hys c hc) (heq ▸ lt_irrefl _)⟩
  · rintro ⟨hc | hc | hc, hne⟩
    · exact .inl hc
    · exact absurd hc hne
    · exact .inr hc

theorem takes_of_remove (hs : Sorted allocKey ctx.allocs)
    (h : ctx.removeAlloc bal (nodeCmp false f) (.freed · f) = some ctx') : ∃ b, Takes ctx f b ctx' := by
  obtain ⟨⟨b, alloc⟩, hremove, hctx⟩ := Option.map_eq_some_iff.mp h
  obtain ⟨heq, xs, ys, hsplit, hrest⟩ := RbList.remove_some hremove
  cases hctx
  have hallocs : ctx.allocs = xs ++ b :: ys := hsplit
  rw [hallocs] at hs
  have hmem : b ∈ ctx.allocs := hallocs ▸ List.mem_append_right _ List.mem_cons_self
  have hsub : (xs ++ ys).Sublist (xs ++ b :: ys) := (List.sublist_cons_self b ys).append_left xs
  refine ⟨b, hmem, (nodeCmp_false_iff f b).mp heq, fun c => ?_, ?_, rfl, rfl, rfl, rfl⟩
  · rw [hallocs]
    exact (iff_of_eq (congrArg (c ∈ ·) hrest)).trans (mem_remove hs c)
  · exact (congrArg (Sorted allocKey) hrest).mpr (hs.sublist hsub)

/-- Nothing is found only where nothing is hit. -/
theorem remove_none (hs : Sorted allocKey ctx.allocs) {why : Backup → Removal}
    (h : ctx.removeAlloc bal (nodeCmp false f) why = none) : ∀ b ∈ ctx.allocs, ¬Hits b f := by
  have hfind : ctx.alloc.entries.find (nodeCmp false f) = none := by
    cases hfind : ctx.alloc.entries.find (nodeCmp false f) with
    | none => rfl
    | some b =>
      obtain ⟨-, -, -, -, -, t, hremove, -⟩ := Tree.find_some hfind
      unfold Ctx.removeAlloc RbList.remove at h
      rw [hremove] at h
      cases h
  intro b hb hhits
  exact (Tree.find_none (rises_nodeCmp f hs)).mp hfind b hb ((nodeCmp_false_iff f b).mpr hhits)

/-- The allocation that the walk finds is matched. -/
theorem takes_found (hs : Sorted allocKey ctx.allocs) {b : Backup}
    (hfind : ctx.alloc.entries.find (nodeCmp false f) = some b) (bal : Rebalance Backup) :
    Takes ctx f b (ctx.sampleFree bal f) := by
  obtain ⟨-, -, -, -, -, t, hremove, -⟩ := Tree.find_some hfind
  have hsome : ∃ ctx', ctx.removeAlloc bal (nodeCmp false f) (.freed · f) = some ctx' ∧
      ctx'.removed = ctx.removed ++ [.freed b f] := by
    unfold Ctx.removeAlloc RbList.remove
    rw [hremove]
    exact ⟨_, rfl, rfl⟩
  obtain ⟨ctx', hctx', hremoved⟩ := hsome
  obtain ⟨c, htakes⟩ := takes_of_remove hs hctx'
  have hlast := List.append_cancel_left (htakes.removed.symm.trans hremoved)
  cases hlast
  unfold Ctx.sampleFree
  rw [hctx']
  exact ⟨htakes.mem, htakes.hits, htakes.rest, htakes.sorted, htakes.gcFree, htakes.lostList, htakes.added,
    htakes.removed⟩

/-- The first parked free is played back: it takes an allocation, or it hits none. -/
theorem gcFreeFirst_cases (h : Ordered ctx) (hparked : ctx.parked = g :: gs) (bal : Rebalance Backup) :
    (ctx.gcFreeFirst bal).parked = gs ∧ Ordered (ctx.gcFreeFirst bal) ∧ (ctx.gcFreeFirst bal).added = ctx.added ∧
      ((∃ b ∈ ctx.allocs, Hits b g ∧ (∀ c, c ∈ (ctx.gcFreeFirst bal).allocs ↔ c ∈ ctx.allocs ∧ c ≠ b) ∧
          (ctx.gcFreeFirst bal).removed = ctx.removed ++ [.freed b g]) ∨
        (∀ b ∈ ctx.allocs, ¬Hits b g) ∧ (ctx.gcFreeFirst bal).allocs = ctx.allocs ∧
          (ctx.gcFreeFirst bal).removed = ctx.removed) := by
  have hfirst := RbList.removeFirst_eq bal ctx.gcFree
  have hgs : Sorted timeKey gs := (List.pairwise_cons.mp (hparked ▸ h.parked)).2
  unfold Ctx.gcFreeFirst
  cases hpop : ctx.gcFree.removeFirst bal with
  | none =>
    rw [hpop] at hfirst
    exact absurd (hparked.symm.trans hfirst) (List.cons_ne_nil g gs)
  | some p =>
    obtain ⟨free, gcFree⟩ := p
    rw [hpop] at hfirst
    obtain ⟨rfl, hrest⟩ := List.cons.inj (hparked.symm.trans hfirst)
    dsimp only
    cases hremove : ctx.removeAlloc bal (nodeCmp false g) (.freed · g) with
    | none =>
      rw [hrest] at hgs
      exact ⟨hrest.symm, ⟨h.allocs, hgs, h.lostList⟩, rfl, .inr ⟨remove_none h.allocs hremove, rfl, rfl⟩⟩
    | some ctx' =>
      obtain ⟨b, htakes⟩ := takes_of_remove h.allocs hremove
      rw [hrest] at hgs
      refine ⟨hrest.symm, ⟨htakes.sorted, hgs, htakes.lostList.trans h.lostList⟩, htakes.added, .inl ?_⟩
      exact ⟨b, htakes.mem, htakes.hits, htakes.rest, htakes.removed⟩

end Lists

section Play
variable {R : Backup → Backup → Prop} {bal : Rebalance Backup} {ctx : Ctx} {g : Backup} {gs : List Backup} {time : Nat}

/-- A free owns one allocation, which it hits. -/
structure Owning (R : Backup → Backup → Prop) : Prop where
  hits : ∀ b g, R b g → Hits b g
  unique : ∀ b c g, R b g → R c g → b = c

/-- What a parked free that is played back hits is its own or that of one that is played back before. -/
def Fair (R : Backup → Backup → Prop) (played : Backup → Prop) (parked allocs : List Backup) : Prop :=
  ∀ g ∈ parked, played g → ∀ b ∈ allocs, Hits b g → R b g ∨ ∃ p ∈ parked, played p ∧ R b p ∧ p.time < g.time

theorem Ordered.first_le (h : Ordered ctx) (hparked : ctx.parked = g :: gs) : ∀ p ∈ ctx.parked, g.time ≤ p.time := by
  have hsorted := h.parked
  rw [hparked] at hsorted ⊢
  refine List.forall_mem_cons.mpr ⟨le_refl _, fun p hp => ?_⟩
  rcases Prod.Lex.toLex_lt_toLex.mp ((List.pairwise_cons.mp hsorted).1 p hp) with hlt | ⟨heq, -⟩
  · exact le_of_lt hlt
  · exact le_of_eq heq

/-- The first parked free takes its own allocation, if that is there. -/
theorem play_first (hR : Owning R) {played : Backup → Prop} (h : Ordered ctx) (hparked : ctx.parked = g :: gs)
    (hg : played g) (hfair : Fair R played ctx.parked ctx.allocs) (bal : Rebalance Backup) :
    Ordered (ctx.gcFreeFirst bal) ∧ (ctx.gcFreeFirst bal).parked = gs ∧
      (∀ c, c ∈ (ctx.gcFreeFirst bal).allocs ↔ c ∈ ctx.allocs ∧ ¬R c g) ∧
      Fair R played gs (ctx.gcFreeFirst bal).allocs := by
  have hown : ∀ b ∈ ctx.allocs, Hits b g → R b g := by
    intro b hb hhits
    rcases hfair g (hparked ▸ List.mem_cons_self) hg b hb hhits with hown | ⟨p, hp, -, -, hlt⟩
    · exact hown
    · exact absurd (h.first_le hparked p hp) (not_le.mpr hlt)
  obtain ⟨hrest, hordered, -, hcases⟩ := gcFreeFirst_cases h hparked bal
  have hallocs : ∀ c, c ∈ (ctx.gcFreeFirst bal).allocs ↔ c ∈ ctx.allocs ∧ ¬R c g := by
    intro c
    rcases hcases with ⟨b, hb, hhits, hmem, -⟩ | ⟨hno, heq, -⟩
    · rw [hmem]
      refine and_congr_right fun _ => not_congr ⟨?_, fun hc => hR.unique c b g hc (hown b hb hhits)⟩
      rintro rfl
      exact hown c hb hhits
    · rw [heq]
      exact ⟨fun hc => ⟨hc, fun hR' => hno c hc (hR.hits c g hR')⟩, And.left⟩
  refine ⟨hordered, hrest, hallocs, fun p hp hplayed b hb hhits => ?_⟩
  obtain ⟨hb, hnot⟩ := (hallocs b).mp hb
  rcases hfair p (hparked ▸ List.mem_cons_of_mem g hp) hplayed b hb hhits with hown | ⟨q, hq, hqplayed, hRq, hlt⟩
  · exact .inl hown
  · rw [hparked] at hq
    rcases List.mem_cons.mp hq with rfl | hq
    · exact absurd hRq hnot
    · exact .inr ⟨q, hq, hqplayed, hRq, hlt⟩

/-- All parked frees are played back. -/
theorem playBack_fair (hR : Owning R) (h : Ordered ctx) (hfair : Fair R (fun _ => True) ctx.parked ctx.allocs)
    (bal : Rebalance Backup) {fuel : Nat} (hfuel : ctx.parked.length ≤ fuel) :
    Ordered (ctx.playBack bal fuel) ∧
      ∀ c, c ∈ (ctx.playBack bal fuel).allocs ↔ c ∈ ctx.allocs ∧ ∀ p ∈ ctx.parked, ¬R c p := by
  induction fuel generalizing ctx with
  | zero =>
    rw [List.length_eq_zero_iff.mp (Nat.le_zero.mp hfuel)]
    exact ⟨h, fun c => ⟨fun hc => ⟨hc, nofun⟩, And.left⟩⟩
  | succ fuel ih =>
    rw [Ctx.playBack]
    cases hparked : ctx.parked with
    | nil =>
      have hempty : ctx.gcFree.isEmpty = true := List.isEmpty_iff.mpr hparked
      rw [if_pos hempty]
      exact ⟨h, fun c => ⟨fun hc => ⟨hc, nofun⟩, And.left⟩⟩
    | cons g gs =>
      have hempty : ¬ctx.gcFree.isEmpty = true := fun hempty =>
        List.cons_ne_nil g gs (hparked.symm.trans (List.isEmpty_iff.mp hempty))
      obtain ⟨hordered, hrest, hallocs, hfair⟩ := play_first hR h hparked trivial hfair bal
      rw [hparked, List.length_cons] at hfuel
      rw [if_neg hempty]
      rw [← hrest] at hfair
      obtain ⟨hdone, hleft⟩ := ih hordered hfair (hrest ▸ Nat.succ_le_succ_iff.mp hfuel)
      refine ⟨hdone, fun c => ?_⟩
      rw [hleft, hallocs, hrest, List.forall_mem_cons, and_assoc]

/-- More than a second older. -/
def Old (time : Nat) (g : Backup) : Prop := g.time + 1000000000 < time

theorem gcNeedFree_cons {p : Backup} (hparked : ctx.parked = g :: p :: gs) :
    ctx.gcNeedFree time = true ↔ Old time g := by
  have hlist : ctx.gcFree.entries.toList = g :: p :: gs := hparked
  unfold Ctx.gcNeedFree Old
  rw [hlist]
  dsimp only
  rw [Bool.and_eq_true, decide_eq_true_eq, decide_eq_true_eq]
  omega

/-- The old ones are played back, if one stays. -/
theorem gcLoop_fair (hR : Owning R) (h : Ordered ctx) (hfair : Fair R (Old time) ctx.parked ctx.allocs)
    (bal : Rebalance Backup) {fuel : Nat} (hfuel : ctx.parked.length ≤ fuel) (hstays : ∃ p ∈ ctx.parked, ¬Old time p) :
    Ordered (ctx.gcLoop bal fuel time) ∧
      (∀ p, p ∈ (ctx.gcLoop bal fuel time).parked ↔ p ∈ ctx.parked ∧ ¬Old time p) ∧
      ∀ c, c ∈ (ctx.gcLoop bal fuel time).allocs ↔ c ∈ ctx.allocs ∧ ∀ p ∈ ctx.parked, Old time p → ¬R c p := by
  induction fuel generalizing ctx with
  | zero =>
    obtain ⟨p, hp, -⟩ := hstays
    rw [List.length_eq_zero_iff.mp (Nat.le_zero.mp hfuel)] at hp
    cases hp
  | succ fuel ih =>
    cases hparked : ctx.parked with
    | nil =>
      obtain ⟨p, hp, -⟩ := hstays
      rw [hparked] at hp
      cases hp
    | cons g gs =>
      rw [Ctx.gcLoop]
      by_cases hold : Old time g
      · obtain ⟨p, hp, hyoung⟩ := hstays
        rw [hparked] at hp
        have hp : p ∈ gs := (List.mem_cons.mp hp).resolve_left fun heq => hyoung (heq ▸ hold)
        obtain ⟨q, rest, rfl⟩ := List.exists_cons_of_ne_nil (List.ne_nil_of_mem hp)
        rw [if_pos ((gcNeedFree_cons hparked).mpr hold)]
        obtain ⟨hordered, hrest, hallocs, hfair⟩ := play_first hR h hparked hold hfair bal
        rw [hparked, List.length_cons] at hfuel
        rw [← hrest] at hfair hfuel hp ⊢
        obtain ⟨hordered, hpark, halloc⟩ := ih hordered hfair (Nat.succ_le_succ_iff.mp hfuel) ⟨p, hp, hyoung⟩
        refine ⟨hordered, fun c => ?_, fun c => ?_⟩
        · rw [hpark, List.mem_cons]
          exact and_congr_left fun hn => Iff.symm (or_iff_right fun heq => hn (heq ▸ hold))
        · rw [halloc, hallocs, List.forall_mem_cons, and_assoc]
          exact and_congr_right fun _ => and_congr_left fun _ => ⟨fun hn _ => hn, fun hn => hn hold⟩
      · have hyoung : ∀ p ∈ g :: gs, ¬Old time p := by
          intro p hp hp'
          have hle := h.first_le hparked p (hparked ▸ hp)
          unfold Old at hold hp'
          omega
        have hneed : ¬ctx.gcNeedFree time = true := by
          cases gs with
          | nil =>
            have hlist : ctx.gcFree.entries.toList = [g] := hparked
            unfold Ctx.gcNeedFree
            rw [hlist]
            exact Bool.false_ne_true
          | cons q rest => exact fun hneed => hold ((gcNeedFree_cons hparked).mp hneed)
        rw [if_neg hneed, hparked]
        refine ⟨h, fun c => ⟨fun hc => ⟨hc, hyoung c hc⟩, And.left⟩, fun c => ⟨fun hc => ⟨hc, ?_⟩, And.left⟩⟩
        exact fun p hp hp' => absurd hp' (hyoung p hp)

end Play

section Settled
variable {xs pre post : List Arrival} {x : Arrival} {a f g : Backup}

theorem settled_concat : Settled xs g (pre ++ [x]) ↔ Settled xs g pre ∨
    (x = ⟨false, g⟩ ∧ ∃ a, ⟨true, a⟩ ∈ pre ∧ Frees xs a g) ∨
    ∃ f, x = ⟨false, f⟩ ∧ ⟨false, g⟩ ∈ pre ∧ Parks xs pre f ∧ Old f.time g := by
  constructor
  · generalize hall : pre ++ [x] = all
    intro h
    cases h with
    | met ha hfrees =>
      obtain ⟨rfl, rfl⟩ := List.append_singleton_inj.mp hall
      exact .inr (.inl ⟨rfl, _, ha, hfrees⟩)
    | played hg hf hold =>
      obtain ⟨rfl, rfl⟩ := List.append_singleton_inj.mp hall
      exact .inr (.inr ⟨_, rfl, hg, hf, hold⟩)
    | before h =>
      obtain ⟨rfl, rfl⟩ := List.append_singleton_inj.mp hall
      exact .inl h
  · rintro (h | ⟨rfl, a, ha, hfrees⟩ | ⟨f, rfl, hg, hf, hold⟩)
    · exact .before h
    · exact .met ha hfrees
    · exact .played hg hf hold

theorem Settled.mem (h : Settled xs g pre) : ⟨false, g⟩ ∈ pre := by
  induction h with
  | met => exact List.mem_append_right _ (List.mem_singleton.mpr rfl)
  | played hg => exact List.mem_append_left _ hg
  | before _ ih => exact List.mem_append_left _ ih

theorem Traced.late_of_split (h : Traced xs) (hsplit : xs = pre ++ post) {y : Arrival} (hx : x ∈ pre) (hy : y ∈ post) :
    x.e.time < y.e.time + 1000000000 := (List.pairwise_append.mp (hsplit ▸ h.late)).2.2 x hx y hy

theorem Traced.not_mem (h : Traced xs) (hsplit : xs = pre ++ x :: post) : x ∉ pre := by
  intro hmem
  have hnodup := (List.Nodup.of_map _ h.times)
  rw [hsplit] at hnodup
  exact (List.disjoint_of_nodup_append hnodup hmem) List.mem_cons_self

/-- The allocation of a free that is settled has arrived. -/
theorem Settled.owner_mem (htraced : Traced xs) (h : Settled xs g pre) (hsplit : xs = pre ++ post)
    (hfrees : Frees xs a g) : ⟨true, a⟩ ∈ pre := by
  induction h generalizing post with
  | met ha h =>
    rw [hfrees.owner_unique htraced h]
    exact List.mem_append_left _ ha
  | @played pre f hg hf hold =>
    have hmem := hfrees.1
    rw [hsplit] at hmem
    rcases List.mem_append.mp hmem with hmem | hmem
    · exact hmem
    · have hlate := htraced.late_of_split hsplit (List.mem_append_right _ (List.mem_singleton.mpr rfl)) hmem
      have hlate : f.time < a.time + 1000000000 := hlate
      have hlt := hfrees.2.2.2.1
      omega
  | @before pre x h ih =>
    rw [List.append_assoc] at hsplit
    exact List.mem_append_left _ (ih hsplit)

/-- When a free arrives, all that is more than a second older is there. -/
theorem Traced.arrived (h : Traced xs) (hsplit : xs = pre ++ ⟨false, f⟩ :: post) (hold : Old f.time g) (hx : x ∈ xs)
    (hle : x.e.time ≤ g.time) : x ∈ pre := by
  unfold Old at hold
  rw [hsplit] at hx
  rcases List.mem_append.mp hx with hx | hx
  · exact hx
  · rcases List.mem_cons.mp hx with rfl | hx
    · have hle : f.time ≤ g.time := hle
      omega
    · rw [List.append_cons] at hsplit
      have hlate := h.late_of_split hsplit (List.mem_append_right _ (List.mem_singleton.mpr rfl)) hx
      have hlate : f.time < x.e.time + 1000000000 := hlate
      omega

end Settled

section Runs
variable {xs pre post : List Arrival} {bal : Rebalance Backup} {ctx : Ctx} {a f g : Backup}

/-- The lists hold the allocations whose frees are not settled, and the frees that are not. -/
structure Tracks (xs pre : List Arrival) (ctx : Ctx) : Prop where
  ordered : Ordered ctx
  allocs : ∀ b, b ∈ ctx.allocs ↔ ⟨true, b⟩ ∈ pre ∧ ∀ g, Frees xs b g → ¬Settled xs g pre
  parked : ∀ g, g ∈ ctx.parked ↔ ⟨false, g⟩ ∈ pre ∧ ¬Settled xs g pre

theorem Traced.owning (h : Traced xs) : Owning (Frees xs) :=
  ⟨fun _ _ hfrees => ⟨hfrees.2.2.1.symm, hfrees.2.2.2.1.le⟩, fun _ _ _ hb hc => hb.owner_unique h hc⟩

/-- A free that hits an allocation is younger. -/
theorem Hits.lt (h : Traced xs) (ha : ⟨true, a⟩ ∈ xs) (hf : ⟨false, f⟩ ∈ xs) (hhits : Hits a f) : a.time < f.time := by
  refine lt_of_le_of_ne hhits.2 fun heq => ?_
  have hsame := h.eq_of_time ha hf heq
  cases hsame

theorem tracks_init (xs : List Arrival) (usingOrder : Bool) : Tracks xs [] (init usingOrder) := by
  refine ⟨⟨List.Pairwise.nil, List.Pairwise.nil, rfl⟩, fun b => ?_, fun g => ?_⟩
  · exact iff_of_false List.not_mem_nil fun h => List.not_mem_nil h.1
  · exact iff_of_false List.not_mem_nil fun h => List.not_mem_nil h.1

theorem Ordered.sample (h : Ordered ctx) (bal : Rebalance Backup) (isAlloc : Bool) (e : Backup) :
    ctx.sample bal isAlloc e = if isAlloc then ctx.sampleAlloc bal e else ctx.sampleFree bal e := by
  have hsame : { ctx with lostList := [] } = ctx := by rw [← h.lostList]
  unfold Ctx.sample
  rw [h.lostList, Ctx.eventLost, hsame]
  exact if_neg Bool.false_ne_true

/-- An allocation of a time of its own is added. -/
theorem sampleAlloc_new (h : Ordered ctx) (hnew : ∀ b ∈ ctx.allocs, b.time ≠ a.time) (bal : Rebalance Backup) :
    Ordered (ctx.sampleAlloc bal a) ∧ (∀ c, c ∈ (ctx.sampleAlloc bal a).allocs ↔ c = a ∨ c ∈ ctx.allocs) ∧
      (ctx.sampleAlloc bal a).parked = ctx.parked ∧ (ctx.sampleAlloc bal a).removed = ctx.removed ∧
      (ctx.sampleAlloc bal a).added = ctx.added ++ [a] := by
  have hkey : ∀ b ∈ ctx.allocs, allocKey b ≠ allocKey a := fun b hb heq => hnew b hb (Prod.mk_inj.mp heq).2
  obtain ⟨hfind, hsorted, hmem⟩ := RbList.addNode_new bal h.allocs (fun b _ => orders_nodeCmp a b) hkey
  unfold Ctx.sampleAlloc Ctx.addAlloc
  rw [hfind]
  exact ⟨⟨hsorted, h.parked, h.lostList⟩, hmem, rfl, rfl, rfl⟩

theorem Tracks.sampleAlloc (h : Tracks xs pre ctx) (htraced : Traced xs) (hsplit : xs = pre ++ ⟨true, a⟩ :: post)
    (bal : Rebalance Backup) : Tracks xs (pre ++ [⟨true, a⟩]) (ctx.sampleAlloc bal a) := by
  have hsub : ∀ x ∈ pre, x ∈ xs := fun x hx => hsplit ▸ List.mem_append_left _ hx
  have ha : ⟨true, a⟩ ∈ xs := hsplit ▸ List.mem_append_right _ List.mem_cons_self
  have hno : ⟨true, a⟩ ∉ pre := htraced.not_mem hsplit
  have hnew : ∀ b ∈ ctx.allocs, b.time ≠ a.time := by
    intro b hb heq
    have hb := ((h.allocs b).mp hb).1
    have hsame := htraced.eq_of_time (hsub _ hb) ha heq
    exact hno (hsame ▸ hb)
  obtain ⟨hordered, hallocs, hparked, -, -⟩ := sampleAlloc_new h.ordered hnew bal
  have hsettled (g : Backup) : Settled xs g (pre ++ [⟨true, a⟩]) ↔ Settled xs g pre := by
    rw [settled_concat]
    refine ⟨?_, .inl⟩
    rintro (hg | ⟨hx, -⟩ | ⟨f, hx, -⟩)
    · exact hg
    · cases hx
    · cases hx
  refine ⟨hordered, fun b => ?_, fun g => ?_⟩
  · rw [hallocs, h.allocs, List.mem_append, List.mem_singleton]
    simp only [hsettled]
    constructor
    · rintro (rfl | ⟨hb, hfree⟩)
      · exact ⟨.inr rfl, fun g hg hset => hno (hset.owner_mem htraced hsplit hg)⟩
      · exact ⟨.inl hb, hfree⟩
    · rintro ⟨hb | hb, hfree⟩
      · exact .inr ⟨hb, hfree⟩
      · cases hb
        exact .inl rfl
  · rw [hparked, h.parked, hsettled, List.mem_append]
    refine and_congr_left fun _ => ⟨.inl, fun hg => hg.resolve_right fun hg => ?_⟩
    cases List.mem_singleton.mp hg

/-- A free is matched with an allocation, or it is parked and old frees are played back. -/
theorem sampleFree_cases (h : Ordered ctx) (hnew : ∀ p ∈ ctx.parked, p.time ≠ f.time) (bal : Rebalance Backup) :
    (∃ b, Takes ctx f b (ctx.sampleFree bal f)) ∨ (∀ b ∈ ctx.allocs, ¬Hits b f) ∧
      ∃ mid stat, ctx.sampleFree bal f = { mid.gcLoop bal mid.parked.length f.time with stat := stat } ∧ Ordered mid ∧
        mid.allocs = ctx.allocs ∧ (∀ p, p ∈ mid.parked ↔ p = f ∨ p ∈ ctx.parked) ∧ mid.removed = ctx.removed ∧
        mid.added = ctx.added := by
  unfold Ctx.sampleFree
  cases hremove : ctx.removeAlloc bal (nodeCmp false f) (.freed · f) with
  | some ctx' =>
    obtain ⟨b, htakes⟩ := takes_of_remove h.allocs hremove
    exact .inl ⟨b, htakes.mem, htakes.hits, htakes.rest, htakes.sorted, htakes.gcFree, htakes.lostList, htakes.added,
      htakes.removed⟩
  | none =>
    have hkey : ∀ p ∈ ctx.parked, timeKey p ≠ timeKey f := fun p hp heq => hnew p hp (Prod.mk_inj.mp heq).1
    obtain ⟨hfind, hsorted, hmem⟩ := RbList.addNode_new bal h.parked (fun p _ => orders_timeCmp f p) hkey
    refine .inr ⟨remove_none h.allocs hremove, ctx.addFree bal f, _, rfl, ?_⟩
    unfold Ctx.addFree
    rw [hfind]
    exact ⟨⟨h.allocs, hsorted, h.lostList⟩, rfl, hmem, rfl, rfl⟩

/-- A free that takes its own allocation. -/
theorem Tracks.takes {ctx' : Ctx} {b : Backup} (h : Tracks xs pre ctx) (htraced : Traced xs)
    (hsplit : xs = pre ++ ⟨false, f⟩ :: post) (htakes : Takes ctx f b ctx') (hb : Frees xs b f) :
    Tracks xs (pre ++ [⟨false, f⟩]) ctx' := by
  have hno : ⟨false, f⟩ ∉ pre := htraced.not_mem hsplit
  have hbpre := ((h.allocs b).mp htakes.mem).1
  have hsettled (g : Backup) : Settled xs g (pre ++ [⟨false, f⟩]) ↔ Settled xs g pre ∨ g = f := by
    rw [settled_concat]
    refine or_congr_right ⟨?_, ?_⟩
    · rintro (⟨hx, -⟩ | ⟨e, hx, -, hpark, -⟩)
      · cases hx
        rfl
      · cases hx
        exact absurd hb (hpark b hbpre)
    · rintro rfl
      exact .inl ⟨rfl, b, hbpre, hb⟩
  have hparked : ctx'.parked = ctx.parked := congrArg (fun l => l.entries.toList) htakes.gcFree
  refine ⟨⟨htakes.sorted, hparked ▸ h.ordered.parked, htakes.lostList.trans h.ordered.lostList⟩, fun c => ?_,
    fun g => ?_⟩
  · rw [htakes.rest, h.allocs, List.mem_append]
    simp only [hsettled]
    constructor
    · rintro ⟨⟨hc, hfree⟩, hne⟩
      refine ⟨.inl hc, fun g hg hset => ?_⟩
      rcases hset with hset | rfl
      · exact hfree g hg hset
      · exact hne (hg.owner_unique htraced hb)
    · rintro ⟨hc | hc, hfree⟩
      · refine ⟨⟨hc, fun g hg hset => hfree g hg (.inl hset)⟩, ?_⟩
        rintro rfl
        exact hfree f hb (.inr rfl)
      · cases List.mem_singleton.mp hc
  · rw [hparked, h.parked, hsettled, List.mem_append, List.mem_singleton]
    constructor
    · rintro ⟨hg, hset⟩
      refine ⟨.inl hg, fun hboth => hboth.elim hset ?_⟩
      rintro rfl
      exact hno hg
    · rintro ⟨hg | hg, hset⟩
      · exact ⟨hg, fun h => hset (.inl h)⟩
      · cases hg
        exact absurd (.inr rfl) hset

theorem not_old_self (f : Backup) : ¬Old f.time f := by
  unfold Old
  omega

/-- What a free hits has a free that is not settled: this one, or an older one. -/
theorem Tracks.exists_unsettled {b : Backup} (h : Tracks xs pre ctx) (htraced : Traced xs) (hsub : ∀ x ∈ pre, x ∈ xs)
    (hb : b ∈ ctx.allocs) (hg : ⟨false, g⟩ ∈ xs) (hhits : Hits b g) :
    ∃ p, Frees xs b p ∧ ¬Settled xs p pre ∧ (p = g ∨ p.time < g.time) := by
  obtain ⟨hb, hfree⟩ := (h.allocs b).mp hb
  have hlt := hhits.lt htraced (hsub _ hb) hg
  obtain ⟨p, hp, hle⟩ := htraced.exists_free (hsub _ hb) hg hhits.1.symm hlt
  refine ⟨p, hp, hfree p hp, ?_⟩
  rcases Nat.lt_or_eq_of_le hle with hlt | htime
  · exact .inr hlt
  · exact .inl (congrArg Arrival.e (htraced.eq_of_time hp.2.1 hg htime))

/-- The parked frees that are played back hit their own allocations, when those before them have been played back. -/
theorem Tracks.fair {mid : Ctx} (h : Tracks xs pre ctx) (htraced : Traced xs)
    (hsplit : xs = pre ++ ⟨false, f⟩ :: post) (hallocs : mid.allocs = ctx.allocs)
    (hparked : ∀ p, p ∈ mid.parked ↔ p = f ∨ p ∈ ctx.parked) :
    Fair (Frees xs) (Old f.time) mid.parked mid.allocs := by
  have hsub : ∀ x ∈ pre, x ∈ xs := fun x hx => hsplit ▸ List.mem_append_left _ hx
  intro g hg hold b hb hhits
  have hgpre : ⟨false, g⟩ ∈ pre := by
    rcases (hparked g).mp hg with rfl | hg
    · exact absurd hold (not_old_self g)
    · exact ((h.parked g).mp hg).1
  rw [hallocs] at hb
  obtain ⟨p, hp, hset, rfl | hlt⟩ := h.exists_unsettled htraced hsub hb (hsub _ hgpre) hhits
  · exact .inl hp
  · have hppre : ⟨false, p⟩ ∈ pre := htraced.arrived hsplit hold hp.2.1 hlt.le
    refine .inr ⟨p, (hparked p).mpr (.inr ((h.parked p).mpr ⟨hppre, hset⟩)), ?_, hp, hlt⟩
    unfold Old at hold ⊢
    omega

/-- A free that parks, and plays back the old ones. -/
theorem Tracks.parks {mid : Ctx} {stat : Stat} (h : Tracks xs pre ctx) (htraced : Traced xs)
    (hsplit : xs = pre ++ ⟨false, f⟩ :: post) (hpark : Parks xs pre f) (hmid : Ordered mid)
    (hallocs : mid.allocs = ctx.allocs) (hparked : ∀ p, p ∈ mid.parked ↔ p = f ∨ p ∈ ctx.parked)
    (bal : Rebalance Backup) :
    Tracks xs (pre ++ [⟨false, f⟩]) { mid.gcLoop bal mid.parked.length f.time with stat := stat } := by
  have hno : ⟨false, f⟩ ∉ pre := htraced.not_mem hsplit
  have hsettled (g : Backup) : Settled xs g (pre ++ [⟨false, f⟩]) ↔
      Settled xs g pre ∨ ⟨false, g⟩ ∈ pre ∧ Old f.time g := by
    rw [settled_concat]
    refine or_congr_right ⟨?_, fun ⟨hg, hold⟩ => .inr ⟨f, rfl, hg, hpark, hold⟩⟩
    rintro (⟨hx, a, ha, hfrees⟩ | ⟨e, hx, hg, -, hold⟩)
    · cases hx
      exact absurd hfrees (hpark a ha)
    · cases hx
      exact ⟨hg, hold⟩
  obtain ⟨hordered, hrest, hleft⟩ := gcLoop_fair htraced.owning hmid (h.fair htraced hsplit hallocs hparked) bal
    (le_refl _) ⟨f, (hparked f).mpr (.inl rfl), not_old_self f⟩
  refine ⟨⟨hordered.allocs, hordered.parked, hordered.lostList⟩, fun c => ?_, fun g => ?_⟩
  · refine (hleft c).trans ?_
    rw [hallocs, h.allocs, List.mem_append]
    simp only [hsettled]
    constructor
    · rintro ⟨⟨hc, hfree⟩, hplayed⟩
      refine ⟨.inl hc, fun g hg hset => ?_⟩
      rcases hset with hset | ⟨hgpre, hold⟩
      · exact hfree g hg hset
      · exact hplayed g ((hparked g).mpr (.inr ((h.parked g).mpr ⟨hgpre, hfree g hg⟩))) hold hg
    · rintro ⟨hc | hc, hfree⟩
      · refine ⟨⟨hc, fun g hg hset => hfree g hg (.inl hset)⟩, fun p hp hold hfrees => ?_⟩
        rcases (hparked p).mp hp with rfl | hp
        · exact not_old_self p hold
        · exact hfree p hfrees (.inr ⟨((h.parked p).mp hp).1, hold⟩)
      · cases List.mem_singleton.mp hc
  · refine (hrest g).trans ?_
    rw [hparked, h.parked, hsettled, List.mem_append, List.mem_singleton]
    constructor
    · rintro ⟨rfl | ⟨hg, hset⟩, hnot⟩
      · exact ⟨.inr rfl, fun hboth => hboth.elim (fun hset => hno hset.mem) fun hb => hno hb.1⟩
      · exact ⟨.inl hg, fun hboth => hboth.elim hset fun hb => hnot hb.2⟩
    · rintro ⟨hg | hg, hset⟩
      · exact ⟨.inr ⟨hg, fun h => hset (.inl h)⟩, fun hold => hset (.inr ⟨hg, hold⟩)⟩
      · cases hg
        exact ⟨.inl rfl, not_old_self f⟩

theorem Tracks.sampleFree (h : Tracks xs pre ctx) (htraced : Traced xs) (hsplit : xs = pre ++ ⟨false, f⟩ :: post)
    (hown : FindsOwn xs ctx f) (bal : Rebalance Backup) :
    Tracks xs (pre ++ [⟨false, f⟩]) (ctx.sampleFree bal f) := by
  have hsub : ∀ x ∈ pre, x ∈ xs := fun x hx => hsplit ▸ List.mem_append_left _ hx
  have hf : ⟨false, f⟩ ∈ xs := hsplit ▸ List.mem_append_right _ List.mem_cons_self
  have hno : ⟨false, f⟩ ∉ pre := htraced.not_mem hsplit
  have hnew : ∀ p ∈ ctx.parked, p.time ≠ f.time := by
    intro p hp heq
    have hp := ((h.parked p).mp hp).1
    have hsame := htraced.eq_of_time (hsub _ hp) hf heq
    exact hno (hsame ▸ hp)
  cases hfind : ctx.alloc.entries.find (nodeCmp false f) with
  | some b => exact h.takes htraced hsplit (takes_found h.ordered.allocs hfind bal) (hown b hfind)
  | none =>
    have hmiss : ∀ b ∈ ctx.allocs, ¬Hits b f := fun b hb hhits =>
      (Tree.find_none (rises_nodeCmp f h.ordered.allocs)).mp hfind b hb ((nodeCmp_false_iff f b).mpr hhits)
    rcases sampleFree_cases h.ordered hnew bal with ⟨b, htakes⟩ | ⟨-, mid, stat, heq, hmid, hallocs, hparked, -, -⟩
    · exact absurd htakes.hits (hmiss b htakes.mem)
    · have hpark : Parks xs pre f := by
        intro a ha hfrees
        refine hmiss a ((h.allocs a).mpr ⟨ha, fun g hg hset => ?_⟩) (htraced.owning.hits a f hfrees)
        rw [hg.free_unique htraced hfrees] at hset
        exact hno hset.mem
      rw [heq]
      exact h.parks htraced hsplit hpark hmid hallocs hparked bal

/-- A free that is in turn finds no other allocation than its own. -/
theorem Tracks.findsOwn (h : Tracks xs pre ctx) (htraced : Traced xs) (hsplit : xs = pre ++ ⟨false, f⟩ :: post)
    (hturn : InTurn xs pre f) : FindsOwn xs ctx f := by
  intro b hfind
  have htakes := takes_found h.ordered.allocs hfind .none
  obtain ⟨hmem, hfree⟩ := (h.allocs b).mp htakes.mem
  have hsub : ∀ x ∈ pre, x ∈ xs := fun x hx => hsplit ▸ List.mem_append_left _ hx
  have hf : ⟨false, f⟩ ∈ xs := hsplit ▸ List.mem_append_right _ List.mem_cons_self
  have hlt := htakes.hits.lt htraced (hsub _ hmem) hf
  rcases hturn b hmem htakes.hits.1 hlt with hown | ⟨g, hg, hset⟩
  · exact hown
  · exact absurd hset (hfree g hg)

end Runs

end PerfProf.Kmemleak
