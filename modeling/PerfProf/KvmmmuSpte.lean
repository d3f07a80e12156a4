import PerfProf.Kvmmmu
import Mathlib.Tactic.Ring

/-! An spte is looked for among the pages of its level by the end of their ranges. The search passes
over the page whose last gfn it is. -/
namespace PerfProf.Kvmmmu
open PerfProf.Rblist

section Ranges

/-- The pages of a level in the order of its tree. -/
def Gen.pages (g : Gen) (level : Nat) : List Page := (g.kvmMmuPages (level - 1)).entries.toList

/-- The pages of a level: aligned ranges of `512 ^ level` gfns that are disjoint, by their first gfn. -/
structure Ranges (level : Nat) (pages : List Page) : Prop where
  level_eq : ∀ p ∈ pages, p.role.level = level
  gfn_lt : ∀ p ∈ pages, p.gfn < 2 ^ 64
  aligned : ∀ p ∈ pages, p.gfn % 512 ^ level = 0
  disjoint : pages.Pairwise fun p q => p.gfn + 512 ^ level ≤ q.gfn ∨ q.gfn + 512 ^ level ≤ p.gfn
  ascending : pages.Pairwise fun p q => p.gfn ≤ q.gfn

/-- The gfn is one of those of the page. -/
def Page.Covers (p : Page) (level gfn : Nat) : Prop := p.gfn ≤ gfn ∧ gfn < p.gfn + 512 ^ level

/-- The flags are added to this entry of the page. -/
structure Page.Marked (p p' : Page) (bit : Nat) (flags : UInt8) : Prop where
  gfn_eq : p'.gfn = p.gfn
  role_eq : p'.role = p.role
  rootCount_eq : p'.rootCount = p.rootCount
  refcount_eq : p'.refcount = p.refcount
  spte_eq : ∀ i : Fin 512, p'.spte i = if i.val = bit then p.spte i ||| flags else p.spte i

/-- The flags are added to this entry of a page of the level. -/
def Gen.Marked (g g' : Gen) (level : Nat) (p : Page) (bit : Nat) (flags : UInt8) : Prop :=
  g'.mmuValidGen = g.mmuValidGen ∧
    (∀ other, 1 ≤ other → other ≤ MMU_MAX_LEVEL → other ≠ level → g'.pages other = g.pages other) ∧
      ∃ xs ys p', g.pages level = xs ++ p :: ys ∧ g'.pages level = xs ++ p' :: ys ∧ p.Marked p' bit flags

/-- The flags go to the entry of the page that the gfn is one of; where there is no such page nothing
is changed. -/
def GenList.SetsSpte (gens : GenList) (g : Gen) (gfn level : Nat) (flags : UInt8) : Prop :=
  (∀ p ∈ g.pages level, p.Covers level gfn → ∃ before after g', gens = before ++ g :: after ∧
    setSpte gens g.mmuValidGen gfn level flags = some (before ++ g' :: after, 0) ∧
      g.Marked g' level p ((gfn - p.gfn) / 512 ^ (level - 1)) flags) ∧
  ((∀ p ∈ g.pages level, ¬ p.Covers level gfn) →
    setSpte gens g.mmuValidGen gfn level flags = some (gens, -1))

variable {level gfn : Nat} {pages xs ys : List Page} {p q : Page} {flags : UInt8}

theorem two_pow_mul_nine (n : Nat) : 2 ^ (n * 9) = 512 ^ n := by
  rw [Nat.mul_comm, Nat.pow_mul]

/-- The last gfn of an aligned page does not pass the largest one. -/
theorem Ranges.gfnEnd_eq (h : Ranges level pages) (hl : level ≤ MMU_MAX_LEVEL) (hp : p ∈ pages) :
    p.gfnEnd = p.gfn + 512 ^ level - 1 := by
  have hpos : 0 < 512 ^ level := Nat.pow_pos (by decide)
  have hdvd : 512 ^ level ∣ 2 ^ 64 := by
    rw [← two_pow_mul_nine]
    refine Nat.pow_dvd_pow 2 ?_
    have hmax : level ≤ 5 := hl
    omega
  obtain ⟨k, hk⟩ := Nat.dvd_of_mod_eq_zero (h.aligned p hp)
  obtain ⟨n, hn⟩ := hdvd
  have hlt := h.gfn_lt p hp
  have hkn : k < n := by
    rw [hk, hn] at hlt
    exact Nat.lt_of_mul_lt_mul_left hlt
  have hend : p.gfn + 512 ^ level ≤ 2 ^ 64 := by
    calc p.gfn + 512 ^ level = 512 ^ level * (k + 1) := by rw [hk, Nat.mul_succ]
      _ ≤ 512 ^ level * n := Nat.mul_le_mul_left _ hkn
      _ = 2 ^ 64 := hn.symm
  have hsize : p.role.nrGfn = 512 ^ level := by rw [Role.nrGfn, h.level_eq p hp, two_pow_mul_nine]
  rw [Page.gfnEnd, hsize]
  exact Nat.mod_eq_of_lt (by omega)

/-- The pages follow each other. -/
theorem Ranges.apart (h : Ranges level pages) :
    pages.Pairwise fun p q => p.gfn + 512 ^ level ≤ q.gfn := by
  have hpos : 0 < 512 ^ level := Nat.pow_pos (by decide)
  have hboth := h.disjoint.and h.ascending
  exact hboth.imp fun ⟨hdisjoint, hle⟩ => by omega

/-- The search looks for the first page that ends behind the gfn. -/
theorem Ranges.pageFind_lt (h : Ranges level pages) (hl1 : 1 ≤ level) (hl : level ≤ MMU_MAX_LEVEL)
    (hp : p ∈ pages) : pageFind gfn p = .lt ↔ p.gfn + 512 ^ level - 1 ≤ gfn := by
  have hlarge : 512 ≤ 512 ^ level := Nat.le_self_pow (by omega) _
  rw [pageFind, h.gfnEnd_eq hl hp]
  by_cases hend : p.gfn + 512 ^ level - 1 > gfn
  · rw [if_pos hend]
    exact iff_of_false nofun (by omega)
  · rw [if_neg hend, if_pos (by omega)]
    exact iff_of_true rfl (by omega)

theorem Ranges.pageFind_gt (h : Ranges level pages) (hl1 : 1 ≤ level) (hl : level ≤ MMU_MAX_LEVEL)
    (hp : p ∈ pages) : pageFind gfn p = .gt ↔ gfn < p.gfn + 512 ^ level - 1 := by
  have hlarge : 512 ≤ 512 ^ level := Nat.le_self_pow (by omega) _
  rw [pageFind, h.gfnEnd_eq hl hp]
  by_cases hend : p.gfn + 512 ^ level - 1 > gfn
  · rw [if_pos hend]
    exact iff_of_true rfl hend
  · rw [if_neg hend, if_pos (by omega)]
    exact iff_of_false nofun hend

theorem Ranges.rises (h : Ranges level pages) (hl1 : 1 ≤ level) (hl : level ≤ MMU_MAX_LEVEL)
    (gfn : Nat) : Rises (pageFind gfn) pages := by
  have hpos : 0 < 512 ^ level := Nat.pow_pos (by decide)
  refine List.Pairwise.imp_of_mem (fun {p q} hp hq hlt => ?_) h.apart
  have hle : p.gfn + 512 ^ level ≤ q.gfn := hlt
  refine ⟨fun hb => ?_, fun ha => ?_⟩
  · rw [h.pageFind_lt hl1 hl hq] at hb
    rw [h.pageFind_lt hl1 hl hp]
    omega
  · rw [h.pageFind_gt hl1 hl hp] at ha
    rw [h.pageFind_gt hl1 hl hq]
    omega

/-- Only one page has the gfn. -/
theorem Ranges.covers_split (h : Ranges level (xs ++ p :: ys)) (hp : p.Covers level gfn) :
    (∀ q ∈ xs, q.gfn + 512 ^ level ≤ gfn) ∧ ∀ q ∈ ys, gfn < q.gfn := by
  obtain ⟨-, hright, hleft⟩ := List.pairwise_append.mp h.apart
  constructor
  · intro q hq
    have hle := hleft q hq p List.mem_cons_self
    exact hle.trans hp.1
  · intro q hq
    have hle := (List.pairwise_cons.mp hright).1 q hq
    exact Nat.lt_of_lt_of_le hp.2 hle

end Ranges

section Update
variable {gens : GenList} {g : Gen} {mmuValidGen level other : Nat} {pages : RbList Page}

theorem Gen.setPages_pages (g : Gen) (level : Nat) (pages : RbList Page) :
    (g.setPages level pages).pages level = pages.entries.toList :=
  congrArg (fun pages => pages.entries.toList) (Function.update_self (level - 1) pages g.kvmMmuPages)

theorem Gen.setPages_pages_of_ne (h1 : 1 ≤ level) (ho : 1 ≤ other) (hne : other ≠ level) :
    (g.setPages level pages).pages other = g.pages other := by
  have hindex : other - 1 ≠ level - 1 := by omega
  exact congrArg (fun pages => pages.entries.toList) (Function.update_of_ne hindex pages g.kvmMmuPages)

/-- What is found is changed where it stands. -/
theorem GenList.find_some (h : gens.find mmuValidGen = some g) : g.mmuValidGen = mmuValidGen ∧
    ∃ before after, gens = before ++ g :: after ∧
      ∀ f, gens.update mmuValidGen f = before ++ f g :: after := by
  induction gens with
  | nil => cases h
  | cons head gens ih =>
    by_cases heq : head.mmuValidGen = mmuValidGen
    · have hfind : GenList.find (head :: gens) mmuValidGen = some head :=
        List.find?_cons_of_pos (beq_iff_eq.mpr heq)
      rw [hfind] at h
      cases h
      refine ⟨heq, [], gens, rfl, fun f => ?_⟩
      rw [update, if_pos heq]
      rfl
    · have hfind : GenList.find (head :: gens) mmuValidGen = GenList.find gens mmuValidGen :=
        List.find?_cons_of_neg (mt beq_iff_eq.mp heq)
      rw [hfind] at h
      obtain ⟨hgen, before, after, hgens, hupdate⟩ := ih h
      refine ⟨hgen, head :: before, after, by rw [hgens, List.cons_append], fun f => ?_⟩
      rw [update, if_neg heq, hupdate, List.cons_append]

end Update

section Lookup
variable {gens : GenList} {g : Gen} {gfn level : Nat} {flags : UInt8} {p : Page}

theorem Page.orSpte_marked (p : Page) (bit : Fin 512) (flags : UInt8) :
    p.Marked (p.orSpte bit flags) bit flags := by
  refine ⟨rfl, rfl, rfl, rfl, fun i => ?_⟩
  have hold (i : Fin 512) : p.spte i = (p.spteSet.getD (Vector.replicate 512 0))[i] := by
    rw [Page.spte]
    cases p.spteSet with
    | none => exact (Vector.getElem_replicate i.isLt).symm
    | some set => rfl
  rw [hold i]
  change ((p.spteSet.getD _).set bit _)[i.val] = _
  rw [Vector.getElem_set]
  by_cases heq : bit.val = i.val
  · rw [if_pos heq, if_pos heq.symm, Fin.ext heq]
  · rw [if_neg heq, if_neg (Ne.symm heq)]
    rfl

/-- The lookup in a level that has pages. -/
theorem setSpte_eq (hfind : gens.find g.mmuValidGen = some g) (hne : g.pages level ≠ [])
    (hrises : Rises (pageFind gfn) (g.pages level)) :
    setSpte gens g.mmuValidGen gfn level flags =
      match (g.pages level).find? fun b => pageFind gfn b != .lt with
      | none => some (gens, -1)
      | some b =>
        if b.role.level ≠ level ∨ gfn < b.gfn ∨ gfn > b.gfnEnd then some (gens, -1)
        else if hbit : (gfn - b.gfn) / 2 ^ ((b.role.level - 1) * 9) < 512 then
          let pages := (g.kvmMmuPages (level - 1)).changeFirst (pageFind gfn) fun b => b.orSpte ⟨_, hbit⟩ flags
          some (gens.update g.mmuValidGen fun g =>
            { g.setPages level pages with kvmMmuSetSpte := g.kvmMmuSetSpte + 1 }, 0)
        else some (gens, -1) := by
  have hfirst : (g.kvmMmuPages (level - 1)).findFirst (pageFind gfn) =
      some ((g.pages level).find? fun b => pageFind gfn b != .lt) := RbList.findFirst_eq hrises.splits hne
  rw [setSpte, hfind]
  dsimp only
  rw [hfirst]
  cases (g.pages level).find? fun b => pageFind gfn b != .lt <;> rfl

theorem setSpte_empty (hfind : gens.find g.mmuValidGen = some g) (hnil : g.pages level = []) :
    setSpte gens g.mmuValidGen gfn level flags = none := by
  have hnone : (g.kvmMmuPages (level - 1)).findFirst (pageFind gfn) = none := by
    change (g.kvmMmuPages (level - 1)).entries.toList = [] at hnil
    rw [RbList.findFirst, hnil]
    rfl
  rw [setSpte, hfind]
  dsimp only
  rw [hnone]

variable (hfind : gens.find g.mmuValidGen = some g) (hl1 : 1 ≤ level) (hl : level ≤ MMU_MAX_LEVEL)
  (h : Ranges level (g.pages level))
include hfind hl1 hl h

/-- No page that does not end before the gfn begins at or before it. -/
theorem setSpte_miss (gfn : Nat) (flags : UInt8) (hne : g.pages level ≠ [])
    (hmiss : ∀ b ∈ g.pages level, gfn < b.gfn + 512 ^ level - 1 → gfn < b.gfn) :
    setSpte gens g.mmuValidGen gfn level flags = some (gens, -1) := by
  rw [setSpte_eq hfind hne (h.rises hl1 hl gfn)]
  cases hfirst : (g.pages level).find? fun b => pageFind gfn b != .lt with
  | none => rfl
  | some b =>
    have hmem := List.mem_of_find?_eq_some hfirst
    have hbne : (pageFind gfn b != .lt) = true :=
      List.find?_some (p := fun b => pageFind gfn b != .lt) hfirst
    have hnot : ¬ pageFind gfn b = .lt := bne_iff_ne.mp hbne
    rw [h.pageFind_lt hl1 hl hmem, not_le] at hnot
    dsimp only
    rw [if_pos (Or.inr (Or.inl (hmiss b hmem hnot)))]

/-- The page of the gfn is found unless the gfn is its last. -/
theorem setSpte_hit (hp : p ∈ g.pages level) (hgfn : p.gfn ≤ gfn) (hend : gfn < p.gfn + 512 ^ level - 1) :
    ∃ before after g', gens = before ++ g :: after ∧
      setSpte gens g.mmuValidGen gfn level flags = some (before ++ g' :: after, 0) ∧
        g.Marked g' level p ((gfn - p.gfn) / 512 ^ (level - 1)) flags := by
  obtain ⟨xs, ys, hsplit⟩ := List.append_of_mem hp
  have hrises := h.rises hl1 hl gfn
  have hcovers : p.Covers level gfn := ⟨hgfn, by omega⟩
  have hbefore : ∀ q ∈ xs, pageFind gfn q = .lt := by
    intro q hq
    have hle := (hsplit ▸ h).covers_split hcovers |>.1 q hq
    rw [h.pageFind_lt hl1 hl (hsplit ▸ List.mem_append_left _ hq)]
    omega
  have hnot : pageFind gfn p ≠ .lt := by
    rw [ne_eq, h.pageFind_lt hl1 hl hp]
    omega
  have hfirst : ((g.pages level).find? fun b => pageFind gfn b != .lt) = some p := by
    have hnone : (xs.find? fun b => pageFind gfn b != .lt) = none := by
      rw [List.find?_eq_none]
      intro q hq
      rw [hbefore q hq]
      decide
    rw [hsplit, List.find?_append, hnone, Option.none_or]
    exact List.find?_cons_of_pos (bne_iff_ne.mpr hnot)
  obtain ⟨-, before, after, hgens, hupdate⟩ := GenList.find_some hfind
  have hlevel := h.level_eq p hp
  have hbit : (gfn - p.gfn) / 2 ^ ((p.role.level - 1) * 9) < 512 := by
    rw [hlevel, two_pow_mul_nine]
    refine Nat.div_lt_of_lt_mul ?_
    rw [← Nat.pow_succ, Nat.succ_eq_add_one, Nat.sub_add_cancel hl1]
    omega
  rw [setSpte_eq hfind (List.ne_nil_of_mem hp) hrises, hfirst]
  dsimp only
  rw [if_neg (by rw [h.gfnEnd_eq hl hp]; omega), dif_pos hbit, hupdate]
  refine ⟨before, after, _, hgens, rfl, rfl, fun other hother _ hne => ?_, xs, ys,
    p.orSpte ⟨_, hbit⟩ flags, hsplit, ?_, ?_⟩
  · exact Gen.setPages_pages_of_ne hl1 hother hne
  · have hchange := RbList.changeFirst_toList hrises hsplit hbefore hnot fun b => b.orSpte ⟨_, hbit⟩ flags
    exact (Gen.setPages_pages g level _).trans hchange
  · have hindex : (gfn - p.gfn) / 2 ^ ((p.role.level - 1) * 9) = (gfn - p.gfn) / 512 ^ (level - 1) := by
      rw [hlevel, two_pow_mul_nine]
    rw [← hindex]
    exact p.orSpte_marked ⟨_, hbit⟩ flags

/-- The lookup does what it should where the level has a page and the gfn is the last one of none. -/
theorem setsSpte_iff : gens.SetsSpte g gfn level flags ↔
    g.pages level ≠ [] ∧ ∀ p ∈ g.pages level, gfn ≠ p.gfn + 512 ^ level - 1 := by
  have hlarge : 512 ≤ 512 ^ level := Nat.le_self_pow (by omega) _
  constructor
  · intro ⟨hhit, hmiss⟩
    have hne : g.pages level ≠ [] := by
      intro hnil
      have hnone := hmiss (hnil ▸ nofun)
      rw [setSpte_empty hfind hnil] at hnone
      cases hnone
    refine ⟨hne, fun p hp hlast => ?_⟩
    have hcovers : p.Covers level gfn := ⟨by omega, by omega⟩
    obtain ⟨xs, ys, hsplit⟩ := List.append_of_mem hp
    obtain ⟨before, after, g', -, hset, -⟩ := hhit p hp hcovers
    have hfail := setSpte_miss hfind hl1 hl h gfn flags hne fun b hb hend => by
      obtain ⟨hxs, hys⟩ := (hsplit ▸ h).covers_split hcovers
      rw [hsplit] at hb
      rcases List.mem_append.mp hb with hb | hb
      · have hle := hxs b hb
        omega
      · rcases List.mem_cons.mp hb with rfl | hb
        · omega
        · exact hys b hb
    rw [hfail] at hset
    cases hset
  · intro ⟨hne, hlast⟩
    constructor
    · intro p hp hcovers
      obtain ⟨hle, hlt⟩ := hcovers
      have hnot := hlast p hp
      exact setSpte_hit hfind hl1 hl h hp hle (by omega)
    · intro hno
      refine setSpte_miss hfind hl1 hl h gfn flags hne fun b hb hend => ?_
      by_contra hle
      exact hno b hb ⟨by omega, by omega⟩

end Lookup

section Inputs

/-- A generation with one page, the gfns 0 to 511. -/
def pageGen : Gen :=
  ((newGen 0).getPage .none ⟨0, lastLevel, 0⟩ true).1

theorem pageGen_ranges : Ranges 1 (pageGen.pages 1) :=
  ⟨by decide, by decide, by decide, List.pairwise_singleton _ _, List.pairwise_singleton _ _⟩

theorem setsSpte_first : GenList.SetsSpte [pageGen] pageGen 0 1 1 :=
  (setsSpte_iff rfl (by decide) (by decide) pageGen_ranges).mpr ⟨by decide, by decide⟩

/-- The last gfn of a page is not found, and a level without a page is not searched at all. -/
theorem spte_not_found : (Ranges 1 (pageGen.pages 1) ∧ ¬ GenList.SetsSpte [pageGen] pageGen 511 1 1) ∧
    Ranges 1 ((newGen 0).pages 1) ∧ ¬ GenList.SetsSpte [newGen 0] (newGen 0) 0 1 1 := by
  refine ⟨⟨pageGen_ranges, fun ⟨hhit, _⟩ => ?_⟩, ⟨nofun, nofun, nofun, .nil, .nil⟩, fun ⟨_, hmiss⟩ => ?_⟩
  · have hret : (setSpte [pageGen] 0 511 1 1).map Prod.snd = some (-1) := by decide
    obtain ⟨before, after, g', -, hset, -⟩ := hhit _ (List.mem_singleton.mpr rfl) ⟨by decide, by decide⟩
    change setSpte [pageGen] 0 511 1 1 = _ at hset
    rw [hset] at hret
    cases hret
  · have hnone : setSpte [newGen 0] (newGen 0).mmuValidGen 0 1 1 = none := rfl
    rw [hmiss nofun] at hnone
    cases hnone

end Inputs

end PerfProf.Kvmmmu
