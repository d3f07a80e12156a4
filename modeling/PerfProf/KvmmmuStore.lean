import PerfProf.KvmmmuSpte
import Mathlib.Algebra.BigOperators.Group.Finset.Basic

/-! The pages of a generation over a run: the order of each level and the count of the references. A
root that becomes invalid may pass another page of its gfn, or meet one. -/
namespace PerfProf.Kvmmmu
open PerfProf.Rblist

section Level

def Page.key (b : Page) : Nat ×ₗ Nat := toLex (b.gfn, b.role.word)

/-- References to the pages of a level. -/
def references (pages : List Page) : Int := (pages.map fun b => (b.refcount : Int)).sum

/-- A level: its pages ascend by gfn and role, and each has references. -/
structure Level (pages : List Page) : Prop where
  sorted : Sorted Page.key pages
  refcount_pos : ∀ b ∈ pages, 1 ≤ b.refcount
  refcount_lt : ∀ b ∈ pages, b.refcount < 2 ^ 32

/-- The page can become invalid: no other page of its gfn stands where it goes to, or on the way if it
goes there itself. -/
def Page.Free (b : Page) (pages : List Page) : Prop :=
  if b.refcount = 1 then
    ∀ c ∈ pages, c.gfn = b.gfn → c.role.word ≤ b.role.word ∨ b.role.setInvalid.word < c.role.word
  else ∀ c ∈ pages, c.gfn = b.gfn → c.role.word ≠ b.role.setInvalid.word

instance (b : Page) (pages : List Page) : Decidable (b.Free pages) :=
  inferInstanceAs (Decidable (ite _ _ _))

variable {w : Rebalance Page} {pages : RbList Page} {xs ys l : List Page} {b c : Page} {e : Entry}
  {gfn : Nat} {role : Role}

theorem agrees_nodeCmp (gfn : Nat) (role : Role) (l : List Page) :
    Agrees Page.key (nodeCmp gfn role) (toLex (gfn, role.word)) l := fun b _ =>
  (orders_compare b.gfn gfn).lex (orders_compare b.role.word role.word)

theorem Role.ext_word {r s : Role} (h : r.word = s.word) : r = s := by
  cases r
  cases s
  cases h
  rfl

theorem nodeCmp_eq_iff : nodeCmp gfn role b = .eq ↔ b.gfn = gfn ∧ b.role = role := by
  rw [(agrees_nodeCmp gfn role [b]).eq_iff (List.mem_singleton.mpr rfl)]
  constructor
  · intro heq
    obtain ⟨hgfn, hword⟩ := Prod.mk.inj (toLex.injective heq)
    exact ⟨hgfn, Role.ext_word hword⟩
  · intro ⟨hgfn, hrole⟩
    rw [Page.key, hgfn, hrole]

theorem references_split (xs ys : List Page) (b : Page) :
    references (xs ++ b :: ys) = references (xs ++ ys) + b.refcount := by
  simp only [references, List.map_append, List.map_cons, List.sum_append, List.sum_cons]
  omega

theorem Level.parts (h : Level (xs ++ b :: ys)) : Level (xs ++ ys) ∧ 1 ≤ b.refcount ∧ b.refcount < 2 ^ 32 := by
  have hsub : (xs ++ ys).Sublist (xs ++ b :: ys) := (List.sublist_cons_self b ys).append_left xs
  have hmem : b ∈ xs ++ b :: ys := List.mem_append_right _ List.mem_cons_self
  exact ⟨⟨h.sorted.sublist hsub, fun c hc => h.refcount_pos c (hsub.subset hc),
    fun c hc => h.refcount_lt c (hsub.subset hc)⟩, h.refcount_pos b hmem, h.refcount_lt b hmem⟩

/-- A page with references is put where its key belongs. -/
theorem Level.insert (h : Level (xs ++ ys)) (hxs : ∀ c ∈ xs, c.key < b.key) (hys : ∀ c ∈ ys, b.key < c.key)
    (hpos : 1 ≤ b.refcount) (hlt : b.refcount < 2 ^ 32) : Level (xs ++ b :: ys) := by
  obtain ⟨hl, hr, hlr⟩ := List.pairwise_append.mp h.sorted
  obtain ⟨hposx, hposy⟩ := List.forall_mem_append.mp h.refcount_pos
  obtain ⟨hltx, hlty⟩ := List.forall_mem_append.mp h.refcount_lt
  refine ⟨List.pairwise_append.mpr ⟨hl, List.pairwise_cons.mpr ⟨hys, hr⟩, fun c hc d hd => ?_⟩, ?_, ?_⟩
  · rcases List.mem_cons.mp hd with rfl | hd
    · exact hxs c hc
    · exact hlr c hc d hd
  · exact List.forall_mem_append.mpr ⟨hposx, List.forall_mem_cons.mpr ⟨hpos, hposy⟩⟩
  · exact List.forall_mem_append.mpr ⟨hltx, List.forall_mem_cons.mpr ⟨hlt, hlty⟩⟩

/-- A page may be changed where its key stays the same. -/
theorem Level.change (h : Level (xs ++ b :: ys)) (hkey : c.key = b.key) (hpos : 1 ≤ c.refcount)
    (hlt : c.refcount < 2 ^ 32) : Level (xs ++ c :: ys) := by
  obtain ⟨-, -, hxs, hys⟩ := h.sorted.split
  exact h.parts.1.insert (hkey ▸ hxs) (hkey ▸ hys) hpos hlt

/-- What a search tells of the level. -/
theorem Level.find_none (h : Level pages.entries.toList) :
    pages.entries.find (nodeCmp gfn role) = none ↔
      ∀ c ∈ pages.entries.toList, c.gfn = gfn → c.role ≠ role := by
  rw [Tree.find_none (h.sorted.rises (agrees_nodeCmp gfn role _))]
  refine forall₂_congr fun c _ => ?_
  rw [ne_eq, nodeCmp_eq_iff, not_and]

/-- A page of the level is found by its gfn and role. -/
theorem Level.find_mem (h : Level pages.entries.toList) (hb : b ∈ pages.entries.toList) (hgfn : b.gfn = gfn)
    (hrole : b.role = role) : pages.entries.find (nodeCmp gfn role) = some b := by
  cases hfind : pages.entries.find (nodeCmp gfn role) with
  | none => exact absurd hrole (h.find_none.mp hfind b hb hgfn)
  | some c =>
    obtain ⟨hmem, hcmp⟩ := Tree.mem_find hfind
    obtain ⟨hcgfn, hcrole⟩ := nodeCmp_eq_iff.mp hcmp
    have hkey : c.key = b.key := by rw [Page.key, Page.key, hcgfn, hcrole, hgfn, hrole]
    rw [h.sorted.eq_of_key hmem hb hkey]

theorem find_split (h : pages.entries.find (nodeCmp gfn role) = some b) :
    b.gfn = gfn ∧ b.role = role ∧ ∃ xs ys, pages.entries.toList = xs ++ b :: ys ∧
      (∀ f, (pages.entries.change (nodeCmp gfn role) f).toList = xs ++ f b :: ys) ∧
        ∃ rest, pages.remove w (nodeCmp gfn role) = some (b, rest) ∧ rest.entries.toList = xs ++ ys := by
  obtain ⟨hcmp, xs, ys, hlist, hchange, t', hremove, hrest⟩ := Tree.find_some h
  obtain ⟨hgfn, hrole⟩ := nodeCmp_eq_iff.mp hcmp
  refine ⟨hgfn, hrole, xs, ys, hlist, hchange, ?_⟩
  rw [RbList.remove, hremove]
  exact ⟨_, rfl, (w.toList_erased t').trans hrest⟩

/-- A page that is not there yet is put between the others. -/
theorem Level.addNode (h : Level pages.entries.toList) (hnone : pages.entries.find (nodeCmp e.gfn e.role) = none) :
    ∃ xs ys, pages.entries.toList = xs ++ ys ∧
      (pages.addNode w (nodeCmp e.gfn e.role) e.newPage).entries.toList = xs ++ e.newPage :: ys ∧
        Level (xs ++ e.newPage :: ys) := by
  have hagrees := agrees_nodeCmp e.gfn e.role pages.entries.toList
  have hrises := h.sorted.rises hagrees
  obtain ⟨xs, ys, hlist, hlink, hbelow, habove⟩ :=
    Tree.link_between (e := e.newPage) hrises ((Tree.find_none hrises).mp hnone)
  refine ⟨xs, ys, hlist, ?_, ?_⟩
  · rw [RbList.addNode, hnone]
    exact (w.toList_inserted _).trans hlink
  · rw [hlist] at h hagrees
    refine h.insert (fun c hc => ?_) (fun c hc => ?_) (Nat.le_refl 1) (Nat.one_lt_two_pow (by decide))
    · exact (hagrees c (List.mem_append_left _ hc)).1.mp (hbelow c hc)
    · exact (hagrees c (List.mem_append_right _ hc)).2.mp (habove c hc)

/-- One more reference, to a page that is there or a new one. -/
theorem createPage_level (h : Level pages.entries.toList)
    (hfits : ∀ b ∈ pages.entries.toList, b.gfn = e.gfn → b.role = e.role → b.refcount + 1 < 2 ^ 32) :
    Level (createPage w pages e).entries.toList ∧
      references (createPage w pages e).entries.toList = references pages.entries.toList + 1 := by
  rw [createPage]
  cases hfind : pages.entries.find (nodeCmp e.gfn e.role) with
  | some b =>
    obtain ⟨hgfn, hrole, xs, ys, hlist, hchange, -⟩ := find_split (w := w) hfind
    rw [hlist] at h hfits
    have hlt := hfits b (List.mem_append_right _ List.mem_cons_self) hgfn hrole
    dsimp only
    rw [hchange, hlist, references_split, references_split]
    dsimp only
    rw [Nat.mod_eq_of_lt hlt]
    exact ⟨h.change rfl (Nat.le_add_left 1 _) hlt, by omega⟩
  | none =>
    obtain ⟨xs, ys, hlist, hadd, hlevel⟩ := h.addNode (w := w) hfind
    dsimp only
    rw [hadd, hlist, references_split]
    exact ⟨hlevel, rfl⟩

/-- The count of a page that has all the references it can have starts again at zero. -/
theorem createPage_wraps (h : Level pages.entries.toList) (hb : b ∈ pages.entries.toList)
    (hgfn : b.gfn = e.gfn) (hrole : b.role = e.role) (hfull : ¬ b.refcount + 1 < 2 ^ 32) :
    references (createPage w pages e).entries.toList ≠ references pages.entries.toList + 1 := by
  have hfind := h.find_mem hb hgfn hrole
  obtain ⟨-, -, xs, ys, hlist, hchange, -⟩ := find_split (w := w) hfind
  have hlt := h.refcount_lt b hb
  have hmax : (b.refcount + 1) % 2 ^ 32 = 0 := by omega
  rw [createPage, hfind]
  dsimp only
  rw [hchange, hlist, references_split, references_split]
  dsimp only
  rw [hmax]
  omega

/-- One reference less. -/
theorem dropPage_level (h : Level pages.entries.toList)
    (hfind : pages.entries.find (nodeCmp e.gfn e.role) = some b) :
    Level (dropPage w pages e b).entries.toList ∧
      references (dropPage w pages e b).entries.toList = references pages.entries.toList - 1 := by
  obtain ⟨-, -, xs, ys, hlist, hchange, rest, hremove, hrest⟩ := find_split (w := w) hfind
  rw [hlist] at h
  obtain ⟨hlevel, hpos, hlt⟩ := h.parts
  have hless : (b.refcount + (2 ^ 32 - 1)) % 2 ^ 32 = b.refcount - 1 := by omega
  rw [dropPage, hless]
  by_cases hone : b.refcount - 1 = 0
  · rw [if_pos hone, hremove, Option.map_some, Option.getD_some, hrest, hlist, references_split]
    exact ⟨hlevel, by omega⟩
  · rw [if_neg hone, hchange, hlist, references_split, references_split]
    dsimp only
    exact ⟨h.change rfl (Nat.one_le_iff_ne_zero.mpr hone) (by dsimp only; omega), by omega⟩

/-- The page of the event with one reference less. -/
def takeReference (pages : RbList Page) (e : Entry) : RbList Page :=
  { pages with entries := pages.entries.change (nodeCmp e.gfn e.role) fun b =>
    { b with refcount := (b.refcount + (2 ^ 32 - 1)) % 2 ^ 32 } }

theorem takeReference_level (h : Level pages.entries.toList)
    (hfind : pages.entries.find (nodeCmp e.gfn e.role) = some b) (hone : b.refcount ≠ 1) :
    Level (takeReference pages e).entries.toList ∧
      references (takeReference pages e).entries.toList = references pages.entries.toList - 1 ∧
        ∀ k, k ∈ (takeReference pages e).entries.toList.map Page.key ↔ k ∈ pages.entries.toList.map Page.key := by
  obtain ⟨-, -, xs, ys, hlist, hchange, -⟩ := find_split (w := .none) hfind
  rw [hlist] at h
  obtain ⟨-, hpos, hlt⟩ := h.parts
  have hless : (b.refcount + (2 ^ 32 - 1)) % 2 ^ 32 = b.refcount - 1 := by omega
  rw [takeReference, hchange, hlist, hless, references_split, references_split]
  refine ⟨h.change rfl (by dsimp only; omega) (by dsimp only; omega), by dsimp only; omega, fun k => ?_⟩
  rw [List.map_append, List.map_append, List.map_cons, List.map_cons]
  rfl

theorem invalidatePage_shared (hone : b.refcount ≠ 1) :
    (invalidatePage w pages e b).1 = (takeReference pages e).addNode w
      (nodeCmp b.gfn b.role.setInvalid) (Entry.newPage ⟨b.gfn, b.role.setInvalid, b.rootCount⟩) := by
  rw [invalidatePage, if_neg hone]
  rfl

theorem word_le_setInvalid (role : Role) : role.word ≤ role.setInvalid.word := Nat.left_le_or

/-- A page that is free to become invalid keeps its place, and the references stay. -/
theorem invalidatePage_level (h : Level pages.entries.toList)
    (hfind : pages.entries.find (nodeCmp e.gfn e.role) = some b) (hfree : b.Free pages.entries.toList) :
    Level (invalidatePage w pages e b).1.entries.toList ∧
      references (invalidatePage w pages e b).1.entries.toList = references pages.entries.toList := by
  by_cases hone : b.refcount = 1
  · obtain ⟨-, -, xs, ys, hlist, hchange, -⟩ := find_split (w := w) hfind
    rw [Page.Free, if_pos hone, hlist] at hfree
    rw [hlist] at h
    obtain ⟨hrest, hpos, hlt⟩ := h.parts
    obtain ⟨-, -, hxs, hys⟩ := h.sorted.split
    rw [invalidatePage, if_pos hone, hchange, hlist, references_split, references_split]
    refine ⟨hrest.insert (fun c hc => ?_) (fun c hc => ?_) hpos hlt, rfl⟩
    · have hle : b.key ≤ Page.key { b with role := b.role.setInvalid } :=
        Prod.Lex.toLex_le_toLex.mpr (Or.inr ⟨rfl, word_le_setInvalid b.role⟩)
      exact lt_of_lt_of_le (hxs c hc) hle
    · rcases Prod.Lex.toLex_lt_toLex.mp (hys c hc) with hgfn | ⟨hgfn, hword⟩
      · exact Prod.Lex.toLex_lt_toLex.mpr (Or.inl hgfn)
      · rcases hfree c (List.mem_append_right _ (List.mem_cons_of_mem _ hc)) hgfn.symm with hle | hlt
        · exact absurd hle (not_le.mpr hword)
        · exact Prod.Lex.toLex_lt_toLex.mpr (Or.inr ⟨hgfn, hlt⟩)
  · rw [Page.Free, if_neg hone] at hfree
    rw [invalidatePage_shared hone]
    obtain ⟨hlevel, href, hkeys⟩ := takeReference_level h hfind hone
    have hnone : (takeReference pages e).entries.find (nodeCmp b.gfn b.role.setInvalid) = none := by
      rw [hlevel.find_none]
      intro c hc hgfn hrole
      obtain ⟨d, hd, hkey⟩ := List.mem_map.mp ((hkeys c.key).mp (List.mem_map_of_mem hc))
      obtain ⟨hdgfn, hdword⟩ := Prod.mk.inj (toLex.injective hkey)
      exact hfree d hd (hdgfn.trans hgfn) (hdword.trans (congrArg Role.word hrole))
    obtain ⟨xs, ys, hlist, hadd, hadded⟩ := hlevel.addNode (w := w)
      (e := ⟨b.gfn, b.role.setInvalid, b.rootCount⟩) hnone
    rw [hadd, references_split, ← hlist, href]
    exact ⟨hadded, Int.sub_add_cancel _ _⟩

/-- A page that is not free overtakes another one, or its reference is lost. -/
theorem invalidatePage_collides (h : Level pages.entries.toList)
    (hfind : pages.entries.find (nodeCmp e.gfn e.role) = some b) (hfree : ¬ b.Free pages.entries.toList) :
    ¬ (Sorted Page.key (invalidatePage w pages e b).1.entries.toList ∧
      references (invalidatePage w pages e b).1.entries.toList = references pages.entries.toList) := by
  intro ⟨hsorted, href⟩
  by_cases hone : b.refcount = 1
  · rw [Page.Free, if_pos hone] at hfree
    obtain ⟨c, hc, hgfn, hbehind, hbefore⟩ : ∃ c ∈ pages.entries.toList, c.gfn = b.gfn ∧
        b.role.word < c.role.word ∧ c.role.word ≤ b.role.setInvalid.word := by
      push Not at hfree
      exact hfree
    obtain ⟨-, -, xs, ys, hlist, hchange, -⟩ := find_split (w := w) hfind
    rw [hlist] at h hc
    have hkey : b.key < c.key := Prod.Lex.toLex_lt_toLex.mpr (Or.inr ⟨hgfn.symm, hbehind⟩)
    obtain ⟨-, -, hxs, -⟩ := h.sorted.split
    have hys : c ∈ ys := by
      rcases List.mem_append.mp hc with hc | hc
      · exact absurd (hxs c hc) (not_lt_of_gt hkey)
      · rcases List.mem_cons.mp hc with rfl | hc
        · exact absurd hkey (lt_irrefl _)
        · exact hc
    rw [invalidatePage, if_pos hone, hchange] at hsorted
    rcases Prod.Lex.toLex_lt_toLex.mp (hsorted.split.2.2.2 c hys) with hlt | ⟨-, hlt⟩
    · exact absurd hlt (hgfn ▸ lt_irrefl _)
    · exact absurd hbefore (not_le.mpr hlt)
  · rw [Page.Free, if_neg hone] at hfree
    obtain ⟨c, hc, hgfn, hword⟩ : ∃ c ∈ pages.entries.toList, c.gfn = b.gfn ∧
        c.role.word = b.role.setInvalid.word := by
      push Not at hfree
      exact hfree
    obtain ⟨hlevel, hless, hkeys⟩ := takeReference_level h hfind hone
    rw [invalidatePage_shared hone, RbList.addNode] at href
    cases hmeet : (takeReference pages e).entries.find (nodeCmp b.gfn b.role.setInvalid) with
    | none =>
      obtain ⟨d, hd, hkey⟩ := List.mem_map.mp ((hkeys c.key).mpr (List.mem_map_of_mem hc))
      obtain ⟨hdgfn, hdword⟩ := Prod.mk.inj (toLex.injective hkey)
      exact hlevel.find_none.mp hmeet d hd (hdgfn.trans hgfn) (Role.ext_word (hdword.trans hword))
    | some d =>
      rw [hmeet] at href
      dsimp only at href
      omega

end Level

section Generation
open Finset

/-- References to the pages of a generation. -/
def Gen.references (g : Gen) : Int :=
  ∑ i ∈ range MMU_MAX_LEVEL, Kvmmmu.references (g.kvmMmuPages i).entries.toList

/-- Each level is in order. -/
def Gen.Sound (g : Gen) : Prop := ∀ i, Level (g.kvmMmuPages i).entries.toList

/-- The page of the event, if it is there, can have one more reference. -/
def Gen.Fits (g : Gen) (e : Entry) : Prop :=
  ∀ b ∈ g.pages e.role.level, b.gfn = e.gfn → b.role = e.role → b.refcount + 1 < 2 ^ 32

/-- The page of the event, if it is there, can become invalid. -/
def Gen.Frees (g : Gen) (e : Entry) : Prop :=
  ∀ b ∈ g.pages e.role.level, b.gfn = e.gfn → b.role = e.role → b.Free (g.pages e.role.level)

/-- The page of the event is found. -/
def Gen.finds (g : Gen) (e : Entry) : Bool :=
  ((g.kvmMmuPages (e.role.level - 1)).entries.find (nodeCmp e.gfn e.role)).isSome

variable {w : Rebalance Page} {g : Gen} {e : Entry} {created : Bool} {pages : RbList Page}

theorem Role.level_lt (role : Role) : role.level - 1 < MMU_MAX_LEVEL :=
  Nat.lt_of_lt_of_le (Nat.sub_lt role.level_pos Nat.one_pos) role.level_le

theorem newGen_sound (mmuValidGen : Nat) : (newGen mmuValidGen).Sound := fun _ => ⟨.nil, nofun, nofun⟩

theorem newGen_references (mmuValidGen : Nat) : (newGen mmuValidGen).references = 0 :=
  Finset.sum_const_zero

theorem Gen.setPages_sound (h : g.Sound) (level : Nat) (hpages : Level pages.entries.toList) :
    (g.setPages level pages).Sound := by
  intro i
  rw [Gen.setPages]
  dsimp only
  by_cases hi : i = level - 1
  · rw [hi, Function.update_self]
    exact hpages
  · rw [Function.update_of_ne hi]
    exact h i

theorem Gen.setPages_references (g : Gen) (role : Role) (pages : RbList Page) :
    (g.setPages role.level pages).references =
      g.references - Kvmmmu.references (g.pages role.level) + Kvmmmu.references pages.entries.toList := by
  have hmem : role.level - 1 ∈ range MMU_MAX_LEVEL := mem_range.mpr role.level_lt
  have hold := add_sum_erase _ (fun i => Kvmmmu.references (g.kvmMmuPages i).entries.toList) hmem
  have hnew := add_sum_erase _
    (fun i => Kvmmmu.references ((g.setPages role.level pages).kvmMmuPages i).entries.toList) hmem
  have hrest : ∑ i ∈ (range MMU_MAX_LEVEL).erase (role.level - 1),
        Kvmmmu.references ((g.setPages role.level pages).kvmMmuPages i).entries.toList =
      ∑ i ∈ (range MMU_MAX_LEVEL).erase (role.level - 1), Kvmmmu.references (g.kvmMmuPages i).entries.toList := by
    refine sum_congr rfl fun i hi => ?_
    rw [Gen.setPages]
    dsimp only
    rw [Function.update_of_ne (ne_of_mem_erase hi)]
  have hself := congrArg Kvmmmu.references (Gen.setPages_pages g role.level pages)
  rw [hrest] at hnew
  change Kvmmmu.references (g.pages role.level) + _ = g.references at hold
  change Kvmmmu.references ((g.setPages role.level pages).pages role.level) + _ =
    (g.setPages role.level pages).references at hnew
  rw [hself] at hnew
  omega

/-- The pages of the level of an event are replaced. -/
theorem Gen.Sound.setPages (h : g.Sound) {n : Int} (hpages : Level pages.entries.toList ∧
    Kvmmmu.references pages.entries.toList = Kvmmmu.references (g.pages e.role.level) + n) :
    (g.setPages e.role.level pages).Sound ∧ (g.setPages e.role.level pages).references = g.references + n := by
  refine ⟨Gen.setPages_sound h e.role.level hpages.1, ?_⟩
  rw [Gen.setPages_references, hpages.2]
  omega

theorem Gen.getPage_created (h : g.Sound) (hfits : g.Fits e) : (g.getPage w e true).1.Sound ∧
    (g.getPage w e true).1.references = g.references + 1 :=
  h.setPages (createPage_level (w := w) (h (e.role.level - 1)) hfits)

theorem Gen.getPage_wraps (h : g.Sound) (hfits : ¬ g.Fits e) :
    (g.getPage w e true).1.references ≠ g.references + 1 := by
  unfold Fits at hfits
  push Not at hfits
  obtain ⟨b, hb, hgfn, hrole, hfull⟩ := hfits
  have hne := createPage_wraps (w := w) (h (e.role.level - 1)) hb hgfn hrole (not_lt.mpr hfull)
  intro heq
  have hrefs := Gen.setPages_references g e.role (createPage w (g.kvmMmuPages (e.role.level - 1)) e)
  have hsum : g.references + 1 = g.references - Kvmmmu.references (g.pages e.role.level) +
      Kvmmmu.references (createPage w (g.kvmMmuPages (e.role.level - 1)) e).entries.toList :=
    heq.symm.trans hrefs
  rw [Gen.pages] at hsum
  omega

/-- A page that is got without being created may have its root count raised. -/
theorem Gen.getPage_used (h : g.Sound) : (g.getPage w e false).1.Sound ∧
    (g.getPage w e false).1.references = g.references := by
  have hsame : Level (g.kvmMmuPages (e.role.level - 1)).entries.toList ∧
      Kvmmmu.references (g.kvmMmuPages (e.role.level - 1)).entries.toList =
        Kvmmmu.references (g.pages e.role.level) + 0 := ⟨h _, (Int.add_zero _).symm⟩
  rw [← Int.add_zero g.references]
  by_cases hgfn : e.gfn ≠ 0
  · simp only [getPage, Bool.false_eq_true, if_false, if_pos hgfn]
    exact h.setPages hsame
  · cases hfind : (g.kvmMmuPages (e.role.level - 1)).entries.find (nodeCmp e.gfn e.role) with
    | none =>
      simp only [getPage, Bool.false_eq_true, if_false, if_neg hgfn, hfind, Option.isSome_none]
      exact h.setPages hsame
    | some b =>
      obtain ⟨-, -, xs, ys, hlist, hchange, -⟩ := find_split (w := w) hfind
      have hlevel := h (e.role.level - 1)
      rw [hlist] at hlevel
      simp only [getPage, Bool.false_eq_true, if_false, if_neg hgfn, hfind, Option.isSome_some, if_true]
      refine h.setPages ⟨?_, ?_⟩
      · rw [hchange]
        exact hlevel.change rfl hlevel.parts.2.1 hlevel.parts.2.2
      · rw [hchange, Gen.pages, hlist, references_split, references_split, Int.add_zero]

theorem Gen.getPage_sound (h : g.Sound) (hfits : created = true → g.Fits e) : (g.getPage w e created).1.Sound ∧
    (g.getPage w e created).1.references = g.references + if created then 1 else 0 := by
  cases created with
  | true => exact Gen.getPage_created h (hfits rfl)
  | false =>
    obtain ⟨hsound, hrefs⟩ := Gen.getPage_used (w := w) (e := e) h
    exact ⟨hsound, hrefs.trans (Int.add_zero _).symm⟩

theorem Gen.zapPage_gen (g : Gen) (e : Entry) : (g.zapPage w e).1.mmuValidGen = g.mmuValidGen := by
  rw [zapPage]
  cases (g.kvmMmuPages (e.role.level - 1)).entries.find (nodeCmp e.gfn e.role) with
  | none => rfl
  | some b =>
    dsimp only
    split_ifs <;> rfl

/-- A zap takes a reference from its page, or makes it invalid if that is free to become so. -/
theorem Gen.zapPage_sound (h : g.Sound) (hfrees : e.rootCount ≠ 0 → g.Frees e) :
    (g.zapPage w e).1.Sound ∧ (g.zapPage w e).1.references =
      g.references - if e.rootCount = 0 ∧ g.finds e then 1 else 0 := by
  rw [zapPage, finds]
  cases hfind : (g.kvmMmuPages (e.role.level - 1)).entries.find (nodeCmp e.gfn e.role) with
  | none =>
    rw [if_neg fun hboth => nomatch hboth.2]
    exact ⟨h, (Int.sub_zero _).symm⟩
  | some b =>
    dsimp only
    by_cases hroot : e.rootCount = 0
    · rw [if_pos hroot, if_pos ⟨hroot, Option.isSome_some⟩]
      exact h.setPages (dropPage_level (h (e.role.level - 1)) hfind)
    · rw [if_neg hroot, if_neg (fun hboth => hroot hboth.1)]
      obtain ⟨hmem, hcmp⟩ := Tree.mem_find hfind
      obtain ⟨hgfn, hrole⟩ := nodeCmp_eq_iff.mp hcmp
      have hlevel := invalidatePage_level (w := w) (h (e.role.level - 1)) hfind
        (hfrees hroot b hmem hgfn hrole)
      exact h.setPages (n := -0) ⟨hlevel.1, hlevel.2.trans (Int.add_zero _).symm⟩

theorem Gen.zapPage_collides (h : g.Sound) (hroot : e.rootCount ≠ 0) (hfrees : ¬ g.Frees e) :
    ¬ (Sorted Page.key ((g.zapPage w e).1.pages e.role.level) ∧
      (g.zapPage w e).1.references = g.references) := by
  unfold Frees at hfrees
  push Not at hfrees
  obtain ⟨b, hb, hgfn, hrole, hfree⟩ := hfrees
  have hfind := (h (e.role.level - 1)).find_mem hb hgfn hrole
  rw [zapPage, hfind]
  dsimp only
  rw [if_neg hroot]
  intro ⟨hsorted, hrefs⟩
  rw [Gen.setPages_pages] at hsorted
  rw [Gen.setPages_references, Gen.pages] at hrefs
  exact invalidatePage_collides (w := w) (h (e.role.level - 1)) hfind hfree ⟨hsorted, by omega⟩

theorem Gen.isEmpty_iff : g.isEmpty = true ↔ ∀ i < MMU_MAX_LEVEL, (g.kvmMmuPages i).entries.toList = [] := by
  rw [isEmpty, List.all_eq_true]
  refine forall_congr' fun i => ?_
  rw [List.mem_range, RbList.isEmpty, List.isEmpty_iff]

theorem Gen.isEmpty_level (role : Role) (h : g.isEmpty = true) : g.pages role.level = [] :=
  Gen.isEmpty_iff.mp h _ role.level_lt

/-- A page that becomes invalid stays. -/
theorem invalidatePage_ne_nil {b : Page} (hfind : pages.entries.find (nodeCmp e.gfn e.role) = some b) :
    (invalidatePage w pages e b).1.entries.toList ≠ [] := by
  obtain ⟨-, -, xs, ys, -, hchange, -⟩ := find_split (w := w) hfind
  have hne (c : Page) : xs ++ c :: ys ≠ [] := List.append_ne_nil_of_right_ne_nil _ (List.cons_ne_nil _ _)
  by_cases hone : b.refcount = 1
  · rw [invalidatePage, if_pos hone, hchange]
    exact hne _
  · rw [invalidatePage_shared hone, RbList.addNode]
    cases (takeReference pages e).entries.find (nodeCmp b.gfn b.role.setInvalid) with
    | none => exact (w.toList_inserted _).symm ▸ Tree.link_ne_nil _ _ _
    | some c =>
      dsimp only
      rw [takeReference, hchange]
      exact hne _

/-- A zap lets the generation go if it leaves all its levels empty. -/
theorem Gen.zapPage_empties (g : Gen) (e : Entry) :
    ((g.zapPage w e).2.1 && ((g.zapPage w e).1.kvmMmuPages (e.role.level - 1)).isEmpty &&
      (g.zapPage w e).1.isEmpty) = (!g.isEmpty && (g.zapPage w e).1.isEmpty) := by
  rw [zapPage]
  cases hfind : (g.kvmMmuPages (e.role.level - 1)).entries.find (nodeCmp e.gfn e.role) with
  | none => exact (Bool.not_and_self _).symm
  | some b =>
    have hfull : g.isEmpty = false := by
      refine Bool.eq_false_iff.mpr fun hempty => ?_
      have hmem : b ∈ g.pages e.role.level := (Tree.mem_find hfind).1
      rw [Gen.isEmpty_level e.role hempty] at hmem
      cases hmem
    rw [hfull]
    dsimp only
    by_cases hroot : e.rootCount = 0
    · rw [if_pos hroot, Bool.true_and, Bool.not_false, Bool.true_and, Bool.and_eq_right_iff_imp]
      intro hempty
      exact List.isEmpty_iff.mpr (Gen.isEmpty_level e.role hempty)
    · rw [if_neg hroot]
      refine (Bool.eq_false_iff.mpr fun hempty => ?_).symm
      have hnil := Gen.isEmpty_level e.role hempty
      rw [Gen.setPages_pages] at hnil
      exact invalidatePage_ne_nil hfind hnil

end Generation

section Run

/-- The events of a run. -/
inductive Event where
  | getPage (mmuValidGen : Nat) (e : Entry) (created : Bool)
  | zapPage (mmuValidGen : Nat) (e : Entry)

def Event.mmuValidGen : Event → Nat
  | .getPage mmuValidGen _ _ => mmuValidGen
  | .zapPage mmuValidGen _ => mmuValidGen

/-- The generations, and for each the pages created less the zaps that took one since it came up. -/
structure Books where
  gens : GenList
  tally : Nat → Int

variable (w : Rebalance Page)

def step (gens : GenList) : Event → GenList
  | .getPage mmuValidGen e created => (getPage w gens mmuValidGen e created).1
  | .zapPage mmuValidGen e => (zapPage w gens mmuValidGen e).1

/-- The tally of the generation of an event. -/
def Books.count (s : Books) : Event → Int
  | .getPage mmuValidGen _ created =>
    (if (s.gens.find mmuValidGen).isSome then s.tally mmuValidGen else 0) + if created then 1 else 0
  | .zapPage mmuValidGen e => match s.gens.find mmuValidGen with
    | none => s.tally mmuValidGen
    | some g => s.tally mmuValidGen - if e.rootCount = 0 ∧ g.finds e then 1 else 0

def Books.track (s : Books) (ev : Event) : Books :=
  ⟨step w s.gens ev, Function.update s.tally ev.mmuValidGen (s.count ev)⟩

/-- One generation for each `mmu_valid_gen`, its levels ascending, its references counted. -/
structure Books.Accurate (s : Books) : Prop where
  nodup : (s.gens.map (·.mmuValidGen)).Nodup
  sorted : ∀ g ∈ s.gens, ∀ level, 1 ≤ level → level ≤ MMU_MAX_LEVEL → Sorted Page.key (g.pages level)
  references : ∀ g ∈ s.gens, g.references = s.tally g.mmuValidGen

/-- A generation goes with the zap that leaves all its levels empty. -/
def Books.Releases (s : Books) (ev : Event) : Prop :=
  ∀ g ∈ s.gens, g.mmuValidGen ∉ (step w s.gens ev).map (·.mmuValidGen) ↔
    ∃ e, ev = .zapPage g.mmuValidGen e ∧ g.isEmpty = false ∧ (g.zapPage w e).1.isEmpty = true

/-- The books are right in each state of the run. -/
def Books.Balanced (s : Books) : List Event → Prop
  | [] => s.Accurate
  | ev :: events => s.Accurate ∧ s.Releases w ev ∧ (s.track w ev).Balanced events

/-- The page of the event can take what the event does to it. -/
def Books.Admits (s : Books) : Event → Prop
  | .getPage mmuValidGen e created =>
    created = true → ∀ g ∈ s.gens, g.mmuValidGen = mmuValidGen → g.Fits e
  | .zapPage mmuValidGen e => e.rootCount ≠ 0 → ∀ g ∈ s.gens, g.mmuValidGen = mmuValidGen → g.Frees e

/-- Each event of the run is admitted. -/
def Books.Admitted (s : Books) : List Event → Prop
  | [] => True
  | ev :: events => s.Admits ev ∧ (s.track w ev).Admitted events

variable {w}
variable {s : Books} {ev : Event} {g g' : Gen} {before after gens : GenList} {mmuValidGen : Nat} {tally : Nat → Int}
  {n : Int} {e : Entry} {created : Bool}

/-- What the run keeps. -/
structure Books.Kept (s : Books) : Prop where
  nodup : (s.gens.map (·.mmuValidGen)).Nodup
  sound : ∀ g ∈ s.gens, g.Sound
  references : ∀ g ∈ s.gens, g.references = s.tally g.mmuValidGen

theorem Books.Kept.accurate (h : s.Kept) : s.Accurate :=
  ⟨h.nodup, fun g hg level _ _ => (h.sound g hg (level - 1)).sorted, h.references⟩

theorem GenList.find_none : gens.find mmuValidGen = none ↔ ∀ g ∈ gens, g.mmuValidGen ≠ mmuValidGen := by
  rw [find, List.find?_eq_none]
  exact forall₂_congr fun g _ => not_congr beq_iff_eq

theorem GenList.find_mem (h : (gens.map (·.mmuValidGen)).Nodup) (hg : g ∈ gens) :
    gens.find g.mmuValidGen = some g := by
  cases hfind : gens.find g.mmuValidGen with
  | none => exact absurd rfl (find_none.mp hfind g hg)
  | some g' =>
    obtain ⟨hgen, before, after, hgens, -⟩ := find_some hfind
    have hmem : g' ∈ gens := hgens ▸ List.mem_append_right _ List.mem_cons_self
    rw [List.inj_on_of_nodup_map h hmem hg hgen]

theorem GenList.release_eq (h : gens.find mmuValidGen = some g) : ∃ before after, gens = before ++ g :: after ∧
    gens.release mmuValidGen = before ++ after := by
  obtain ⟨hgen, before, after, hgens, hbefore⟩ := List.find?_eq_some_iff_append.mp h
  have hnot : ∀ g' ∈ before, ¬ (g'.mmuValidGen == mmuValidGen) = true := by
    intro g' hg'
    rw [Bool.not_eq_true, ← Bool.not_eq_true']
    exact hbefore g' hg'
  have herase : (g :: after).eraseP (fun g' : Gen => g'.mmuValidGen == mmuValidGen) = after :=
    List.eraseP_cons_of_pos (p := fun g' : Gen => g'.mmuValidGen == mmuValidGen) hgen
  refine ⟨before, after, hgens, ?_⟩
  rw [release, hgens, List.eraseP_append_right _ hnot, herase]

/-- What an event does to the list of generations. -/
theorem step_getPage_new (h : gens.find mmuValidGen = none) : step w gens (.getPage mmuValidGen e created) =
    ((newGen mmuValidGen).getPage w e created).1 :: gens := by
  rw [step, getPage, h]
  exact if_pos rfl

theorem step_getPage_old (created : Bool) (h : gens.find mmuValidGen = some g) :
    ∃ before after, gens = before ++ g :: after ∧
    step w gens (.getPage mmuValidGen e created) = before ++ (g.getPage w e created).1 :: after := by
  obtain ⟨-, before, after, hgens, hupdate⟩ := GenList.find_some h
  refine ⟨before, after, hgens, ?_⟩
  rw [step, getPage, h]
  exact hupdate _

theorem step_zapPage (h : gens.find mmuValidGen = some g) : ∃ before after, gens = before ++ g :: after ∧
    step w gens (.zapPage mmuValidGen e) =
      if !g.isEmpty && (g.zapPage w e).1.isEmpty then before ++ after
      else before ++ (g.zapPage w e).1 :: after := by
  rw [step, zapPage, h, ← Gen.zapPage_empties]
  dsimp only
  split_ifs
  · obtain ⟨before, after, hgens, hrelease⟩ := GenList.release_eq h
    exact ⟨before, after, hgens, hrelease⟩
  · obtain ⟨-, before, after, hgens, hupdate⟩ := GenList.find_some h
    exact ⟨before, after, hgens, hupdate _⟩

theorem Books.Kept.others (h : s.Kept) (hgens : s.gens = before ++ g :: after) :
    ∀ g' ∈ before ++ after, g'.mmuValidGen ≠ g.mmuValidGen := by
  have hnodup := h.nodup
  rw [hgens, List.map_append, List.map_cons, List.nodup_middle, List.nodup_cons, ← List.map_append] at hnodup
  exact fun g' hg' heq => hnodup.1 (heq ▸ List.mem_map_of_mem hg')

theorem Books.Kept.replace (h : s.Kept) (g' : Gen) (hgens : s.gens = before ++ g :: after)
    (hgen : g'.mmuValidGen = g.mmuValidGen) (hsound : g'.Sound) :
    Books.Kept ⟨before ++ g' :: after, Function.update s.tally g.mmuValidGen g'.references⟩ := by
  have hothers := h.others hgens
  obtain ⟨hnodup, hsounds, hrefs⟩ := h
  rw [hgens] at hnodup hsounds hrefs
  rw [List.forall_mem_append, List.forall_mem_cons] at hsounds hrefs
  rw [List.forall_mem_append] at hothers
  refine ⟨?_, ?_, ?_⟩
  · rw [List.map_append, List.map_cons, hgen, ← List.map_cons, ← List.map_append]
    exact hnodup
  · rw [List.forall_mem_append, List.forall_mem_cons]
    exact ⟨hsounds.1, hsound, hsounds.2.2⟩
  · have hother (g'' : Gen) (hne : g''.mmuValidGen ≠ g.mmuValidGen) (href : g''.references = s.tally g''.mmuValidGen) :
        g''.references = Function.update s.tally g.mmuValidGen g'.references g''.mmuValidGen := by
      rw [Function.update_of_ne hne, href]
    rw [List.forall_mem_append, List.forall_mem_cons]
    refine ⟨fun g'' hg'' => hother g'' (hothers.1 g'' hg'') (hrefs.1 g'' hg''), ?_,
      fun g'' hg'' => hother g'' (hothers.2 g'' hg'') (hrefs.2.2 g'' hg'')⟩
    rw [hgen]
    exact (Function.update_self g.mmuValidGen g'.references s.tally).symm

theorem Books.Kept.drop (h : s.Kept) (hgens : s.gens = before ++ g :: after) :
    Books.Kept ⟨before ++ after, Function.update s.tally g.mmuValidGen n⟩ := by
  have hothers := h.others hgens
  obtain ⟨hnodup, hsounds, hrefs⟩ := h
  have hsub : (before ++ after).Sublist s.gens := hgens ▸ (List.sublist_cons_self g after).append_left before
  refine ⟨hnodup.sublist (hsub.map _), fun g' hg' => hsounds g' (hsub.subset hg'), fun g' hg' => ?_⟩
  have href := hrefs g' (hsub.subset hg')
  exact href.trans (Function.update_of_ne (hothers g' hg') _ _).symm

theorem Books.Kept.add (h : s.Kept) (hnone : s.gens.find g.mmuValidGen = none) (hsound : g.Sound) :
    Books.Kept ⟨g :: s.gens, Function.update s.tally g.mmuValidGen g.references⟩ := by
  have hothers := GenList.find_none.mp hnone
  refine ⟨?_, List.forall_mem_cons.mpr ⟨hsound, h.sound⟩, List.forall_mem_cons.mpr ⟨?_, fun g' hg' => ?_⟩⟩
  · rw [List.map_cons, List.nodup_cons]
    refine ⟨fun hmem => ?_, h.nodup⟩
    obtain ⟨g', hg', heq⟩ := List.mem_map.mp hmem
    exact hothers g' hg' heq
  · exact (Function.update_self g.mmuValidGen g.references s.tally).symm
  · exact (h.references g' hg').trans (Function.update_of_ne (hothers g' hg') _ _).symm

/-- An event that is admitted keeps the books. -/
theorem Books.Kept.track (h : s.Kept) (hadmits : s.Admits ev) : (s.track w ev).Kept := by
  cases ev with
  | getPage mmuValidGen e created =>
    rw [Books.track, Books.count]
    cases hfind : s.gens.find mmuValidGen with
    | none =>
      have hnew := Gen.getPage_sound (w := w) (e := e) (newGen_sound mmuValidGen) fun _ : created = true => nofun
      rw [step_getPage_new hfind]
      rw [newGen_references] at hnew
      have hadd := h.add (g := ((newGen mmuValidGen).getPage w e created).1) hfind hnew.1
      rw [hnew.2] at hadd
      exact hadd
    | some g =>
      obtain ⟨before, after, hgens, hstep⟩ := step_getPage_old (w := w) (e := e) created hfind
      have hmem : g ∈ s.gens := hgens ▸ List.mem_append_right _ List.mem_cons_self
      obtain ⟨rfl, -⟩ := GenList.find_some hfind
      have hsound := Gen.getPage_sound (w := w) (h.sound g hmem) fun hcreated => hadmits hcreated g hmem rfl
      have hreplace := h.replace (g.getPage w e created).1 hgens rfl hsound.1
      rw [hsound.2, h.references g hmem] at hreplace
      rw [hstep]
      exact hreplace
  | zapPage mmuValidGen e =>
    rw [Books.track, Books.count]
    cases hfind : s.gens.find mmuValidGen with
    | none =>
      have hstep : step w s.gens (.zapPage mmuValidGen e) = s.gens := by rw [step, zapPage, hfind]
      have hsame : Function.update s.tally mmuValidGen (s.tally mmuValidGen) = s.tally := Function.update_eq_self ..
      rw [hstep]
      dsimp only [Event.mmuValidGen]
      rw [hsame]
      exact h
    | some g =>
      obtain ⟨before, after, hgens, hstep⟩ := step_zapPage (w := w) (e := e) hfind
      have hmem : g ∈ s.gens := hgens ▸ List.mem_append_right _ List.mem_cons_self
      obtain ⟨rfl, -⟩ := GenList.find_some hfind
      have hsound := Gen.zapPage_sound (w := w) (h.sound g hmem) fun hroot => hadmits hroot g hmem rfl
      have hreplace := h.replace (g.zapPage w e).1 hgens (Gen.zapPage_gen g e) hsound.1
      rw [hsound.2, h.references g hmem] at hreplace
      rw [hstep]
      split_ifs
      · exact h.drop hgens
      · exact hreplace

/-- Whether the generation goes with the event. -/
theorem Books.Kept.releases (h : s.Kept) (ev : Event) : s.Releases w ev := by
  intro g hg
  have hmem : g.mmuValidGen ∈ s.gens.map (·.mmuValidGen) := List.mem_map_of_mem hg
  cases ev with
  | getPage mmuValidGen e created =>
    refine iff_of_false (not_not_intro ?_) fun ⟨_, heq, _⟩ => nomatch heq
    cases hfind : s.gens.find mmuValidGen with
    | none =>
      rw [step_getPage_new hfind]
      exact List.mem_cons_of_mem _ hmem
    | some g' =>
      obtain ⟨before, after, hgens, hstep⟩ := step_getPage_old (w := w) (e := e) created hfind
      have hgen : (g'.getPage w e created).1.mmuValidGen = g'.mmuValidGen := rfl
      rw [hstep, List.map_append, List.map_cons, hgen, ← List.map_cons, ← List.map_append, ← hgens]
      exact hmem
  | zapPage mmuValidGen e =>
    by_cases heq : mmuValidGen = g.mmuValidGen
    · subst heq
      obtain ⟨before, after, hgens, hstep⟩ := step_zapPage (w := w) (e := e) (GenList.find_mem h.nodup hg)
      have hothers := h.others hgens
      have hempties : (∃ e', Event.zapPage g.mmuValidGen e = .zapPage g.mmuValidGen e' ∧ g.isEmpty = false ∧
          (g.zapPage w e').1.isEmpty = true) ↔ (!g.isEmpty && (g.zapPage w e).1.isEmpty) = true := by
        rw [Bool.and_eq_true, Bool.not_eq_true']
        constructor
        · intro ⟨e', hev, hboth⟩
          cases hev
          exact hboth
        · exact fun hboth => ⟨e, rfl, hboth⟩
      rw [hempties, hstep]
      by_cases hgo : (!g.isEmpty && (g.zapPage w e).1.isEmpty) = true
      · rw [if_pos hgo]
        refine iff_of_true (fun hin => ?_) hgo
        obtain ⟨g', hg', hgen⟩ := List.mem_map.mp hin
        exact hothers g' hg' hgen
      · rw [if_neg hgo, List.map_append, List.map_cons, Gen.zapPage_gen]
        exact iff_of_false (not_not_intro (List.mem_append_right _ List.mem_cons_self)) hgo
    · refine iff_of_false (not_not_intro ?_) fun ⟨_, hev, _⟩ => heq (by cases hev; rfl)
      cases hfind : s.gens.find mmuValidGen with
      | none =>
        rw [step, zapPage, hfind]
        exact hmem
      | some g' =>
        obtain ⟨before, after, hgens, hstep⟩ := step_zapPage (w := w) (e := e) hfind
        obtain ⟨rfl, -⟩ := GenList.find_some hfind
        rw [hgens, List.map_append, List.map_cons, List.mem_append, List.mem_cons] at hmem
        have hrest : g.mmuValidGen ∈ before.map (·.mmuValidGen) ∨ g.mmuValidGen ∈ after.map (·.mmuValidGen) :=
          hmem.imp_right fun hmem => hmem.resolve_left (Ne.symm heq)
        rw [hstep]
        split_ifs
        · rw [List.map_append, List.mem_append]
          exact hrest
        · rw [List.map_append, List.map_cons, List.mem_append, List.mem_cons]
          exact hrest.imp_right Or.inr

theorem Gen.zapPage_invalid (hroot : e.rootCount ≠ 0) : (g.zapPage w e).2.1 = false := by
  rw [zapPage]
  cases (g.kvmMmuPages (e.role.level - 1)).entries.find (nodeCmp e.gfn e.role) with
  | none => rfl
  | some b =>
    dsimp only
    rw [if_neg hroot]

/-- The books are wrong after an event that is not admitted. -/
theorem Books.Kept.spoiled (h : s.Kept) (hadmits : ¬ s.Admits ev) : ¬ (s.track w ev).Accurate := by
  intro ⟨_, hsorted, hrefs⟩
  cases ev with
  | getPage mmuValidGen e created =>
    unfold Books.Admits at hadmits
    push Not at hadmits
    obtain ⟨rfl, g, hg, rfl, hfits⟩ := hadmits
    have hfind := GenList.find_mem h.nodup hg
    obtain ⟨before, after, -, hstep⟩ := step_getPage_old (w := w) (e := e) true hfind
    rw [Books.track, Books.count, hfind, hstep] at hrefs
    have href := hrefs (g.getPage w e true).1 (List.mem_append_right _ List.mem_cons_self)
    have htally := Function.update_self g.mmuValidGen (s.tally g.mmuValidGen + 1) s.tally
    refine Gen.getPage_wraps (w := w) (h.sound g hg) hfits ?_
    rw [h.references g hg]
    exact href.trans htally
  | zapPage mmuValidGen e =>
    unfold Books.Admits at hadmits
    push Not at hadmits
    obtain ⟨hroot, g, hg, rfl, hfrees⟩ := hadmits
    have hfind := GenList.find_mem h.nodup hg
    obtain ⟨before, after, -, hstep⟩ := step_zapPage (w := w) (e := e) hfind
    have hstays : (!g.isEmpty && (g.zapPage w e).1.isEmpty) = false := by
      rw [← Gen.zapPage_empties, Gen.zapPage_invalid hroot]
      rfl
    rw [hstays, if_neg Bool.false_ne_true] at hstep
    have hmem : (g.zapPage w e).1 ∈ (s.track w (.zapPage g.mmuValidGen e)).gens := by
      rw [Books.track, hstep]
      exact List.mem_append_right _ List.mem_cons_self
    have hlevel := hsorted _ hmem e.role.level e.role.level_pos e.role.level_le
    have href := hrefs _ hmem
    have hcount : s.count (.zapPage g.mmuValidGen e) = s.tally g.mmuValidGen := by
      rw [Books.count, hfind]
      dsimp only
      rw [if_neg fun hboth => hroot hboth.1, Int.sub_zero]
    have htally := Function.update_self g.mmuValidGen (s.count (.zapPage g.mmuValidGen e)) s.tally
    refine Gen.zapPage_collides (w := w) (h.sound g hg) hroot hfrees ⟨hlevel, ?_⟩
    rw [Gen.zapPage_gen] at href
    rw [h.references g hg, ← hcount]
    exact href.trans htally

variable (w)

theorem balanced_iff (h : s.Kept) (events : List Event) : s.Balanced w events ↔ s.Admitted w events := by
  induction events generalizing s with
  | nil => exact iff_of_true h.accurate trivial
  | cons ev events ih =>
    rw [Books.Balanced, Books.Admitted]
    by_cases hadmits : s.Admits ev
    · rw [ih (h.track hadmits)]
      exact ⟨fun ⟨_, _, hrest⟩ => ⟨hadmits, hrest⟩, fun ⟨_, hrest⟩ => ⟨h.accurate, h.releases ev, hrest⟩⟩
    · refine iff_of_false (fun ⟨_, _, hrest⟩ => h.spoiled (w := w) hadmits ?_) fun hboth => hadmits hboth.1
      cases events with
      | nil => exact hrest
      | cons ev' events => exact hrest.1

/-- The books are right in every state of a run exactly if each of its events is admitted. -/
theorem run_balanced (events : List Event) :
    Books.Balanced w ⟨[], fun _ => 0⟩ events ↔ Books.Admitted w ⟨[], fun _ => 0⟩ events :=
  balanced_iff w (s := ⟨[], fun _ => 0⟩) ⟨List.nodup_nil, nofun, nofun⟩ events

/-- A root is created and becomes invalid while it is in use, twice. -/
def rootTwice : List Event :=
  let root (rootCount : Nat) : Entry := ⟨0, ⟨4, by decide, by decide, by decide⟩, rootCount⟩
  [.getPage 0 (root 0) true, .zapPage 0 (root 1), .getPage 0 (root 0) true, .zapPage 0 (root 1)]

/-- Two pages of one gfn and role are left. -/
theorem roots_meet : ¬ Books.Balanced .none ⟨[], fun _ => 0⟩ rootTwice := by
  intro ⟨_, _, _, _, _, _, _, _, ⟨_, hsorted, _⟩⟩
  have hlevel := hsorted _ (List.mem_singleton.mpr rfl) 4 (by decide) (by decide)
  exact absurd ((List.pairwise_cons.mp hlevel).1 _ (List.mem_singleton.mpr rfl)) (lt_irrefl _)

end Run

section Placed

/-- The pages of a level are of this level and by their gfn, whatever becomes of their roles. -/
structure Placed (i : Nat) (pages : List Page) : Prop where
  level_eq : ∀ b ∈ pages, b.role.level - 1 = i
  ascending : pages.Pairwise fun p q => p.gfn ≤ q.gfn

def Gen.Placed (g : Gen) : Prop := ∀ i, Kvmmmu.Placed i (g.kvmMmuPages i).entries.toList

variable {w : Rebalance Page} {pages : RbList Page} {xs ys : List Page} {b c : Page} {e : Entry} {i : Nat}
  {g : Gen} {gens : GenList} {created : Bool}

theorem Placed.change (h : Placed i (xs ++ b :: ys)) (hgfn : c.gfn = b.gfn)
    (hlevel : c.role.level = b.role.level) : Placed i (xs ++ c :: ys) := by
  obtain ⟨hlevels, hasc⟩ := h
  rw [List.forall_mem_append, List.forall_mem_cons] at hlevels
  refine ⟨?_, ?_⟩
  · rw [List.forall_mem_append, List.forall_mem_cons, hlevel]
    exact hlevels
  · have hmap : (xs ++ c :: ys).map Page.gfn = (xs ++ b :: ys).map Page.gfn := by
      rw [List.map_append, List.map_append, List.map_cons, List.map_cons, hgfn]
    have hgfns := List.pairwise_map.mpr hasc
    rw [← hmap] at hgfns
    exact List.pairwise_map.mp hgfns

theorem Placed.sublist (h : Placed i (xs ++ b :: ys)) : Placed i (xs ++ ys) := by
  have hsub : (xs ++ ys).Sublist (xs ++ b :: ys) := (List.sublist_cons_self b ys).append_left xs
  exact ⟨fun c hc => h.level_eq c (hsub.subset hc), h.ascending.sublist hsub⟩

theorem Placed.addNode (h : Placed i pages.entries.toList) (hlevel : e.role.level - 1 = i) :
    Placed i (pages.addNode w (nodeCmp e.gfn e.role) e.newPage).entries.toList := by
  have hrespects : Respects Page.gfn (nodeCmp e.gfn e.role) e.newPage pages.entries.toList := by
    refine fun b _ => ⟨fun hlt => ?_, fun hgt => ?_⟩
    · have hcmp : compare b.gfn e.gfn = .lt := compare_lt_iff_lt.mpr hlt
      rw [nodeCmp, hcmp]
      rfl
    · have hcmp : compare b.gfn e.gfn = .gt := compare_gt_iff_gt.mpr hgt
      rw [nodeCmp, hcmp]
      rfl
  obtain ⟨hasc, hcases⟩ := @RbList.addNode_coarse _ _ _ _ _ _ w _ h.ascending hrespects
  refine ⟨fun b hb => ?_, hasc⟩
  rcases hcases with hperm | ⟨hsame, -⟩
  · rcases List.mem_cons.mp (hperm.subset hb) with rfl | hb
    · exact hlevel
    · exact h.level_eq b hb
  · exact h.level_eq b (hsame ▸ hb)

theorem createPage_placed (h : Placed i pages.entries.toList) (hlevel : e.role.level - 1 = i) :
    Placed i (createPage w pages e).entries.toList := by
  rw [createPage]
  cases hfind : pages.entries.find (nodeCmp e.gfn e.role) with
  | none => exact h.addNode hlevel
  | some b =>
    obtain ⟨-, -, xs, ys, hlist, hchange, -⟩ := find_split (w := w) hfind
    dsimp only
    rw [hchange]
    exact (hlist ▸ h).change rfl rfl

theorem dropPage_placed (h : Placed i pages.entries.toList)
    (hfind : pages.entries.find (nodeCmp e.gfn e.role) = some b) :
    Placed i (dropPage w pages e b).entries.toList := by
  obtain ⟨-, -, xs, ys, hlist, hchange, rest, hremove, hrest⟩ := find_split (w := w) hfind
  rw [hlist] at h
  rw [dropPage]
  split_ifs
  · rw [hremove, Option.map_some, Option.getD_some, hrest]
    exact h.sublist
  · rw [hchange]
    exact h.change rfl rfl

theorem invalidatePage_placed (h : Placed i pages.entries.toList)
    (hfind : pages.entries.find (nodeCmp e.gfn e.role) = some b) :
    Placed i (invalidatePage w pages e b).1.entries.toList := by
  obtain ⟨-, -, xs, ys, hlist, hchange, -⟩ := find_split (w := w) hfind
  have hlevel : b.role.setInvalid.level = b.role.level := or_invalidBit b.role.word
  have hmem : b ∈ pages.entries.toList := (Tree.mem_find hfind).1
  by_cases hone : b.refcount = 1
  · rw [invalidatePage, if_pos hone, hchange]
    exact (hlist ▸ h).change rfl hlevel
  · rw [invalidatePage_shared hone]
    refine Placed.addNode (e := ⟨b.gfn, b.role.setInvalid, b.rootCount⟩) ?_ (hlevel ▸ h.level_eq b hmem)
    rw [takeReference, hchange]
    exact (hlist ▸ h).change rfl rfl

theorem Gen.Placed.setPages (h : g.Placed) (hpages : Kvmmmu.Placed (e.role.level - 1) pages.entries.toList) :
    (g.setPages e.role.level pages).Placed := by
  intro i
  rw [Gen.setPages]
  dsimp only
  by_cases hi : i = e.role.level - 1
  · rw [hi, Function.update_self]
    exact hpages
  · rw [Function.update_of_ne hi]
    exact h i

theorem Gen.Placed.getPage (h : g.Placed) : (g.getPage w e created).1.Placed := by
  cases created with
  | true => exact h.setPages (createPage_placed (h _) rfl)
  | false =>
    by_cases hgfn : e.gfn ≠ 0
    · simp only [Gen.getPage, Bool.false_eq_true, if_false, if_pos hgfn]
      exact h.setPages (h _)
    · cases hfind : (g.kvmMmuPages (e.role.level - 1)).entries.find (nodeCmp e.gfn e.role) with
      | none =>
        simp only [Gen.getPage, Bool.false_eq_true, if_false, if_neg hgfn, hfind, Option.isSome_none]
        exact h.setPages (h _)
      | some b =>
        obtain ⟨-, -, xs, ys, hlist, hchange, -⟩ := find_split (w := w) hfind
        have hplaced := h (e.role.level - 1)
        rw [hlist] at hplaced
        simp only [Gen.getPage, Bool.false_eq_true, if_false, if_neg hgfn, hfind, Option.isSome_some, if_true]
        refine h.setPages ?_
        rw [hchange]
        exact hplaced.change rfl rfl

theorem Gen.Placed.zapPage (h : g.Placed) : (g.zapPage w e).1.Placed := by
  rw [Gen.zapPage]
  cases hfind : (g.kvmMmuPages (e.role.level - 1)).entries.find (nodeCmp e.gfn e.role) with
  | none => exact h
  | some b =>
    dsimp only
    split_ifs
    · exact h.setPages (dropPage_placed (h _) hfind)
    · exact h.setPages (invalidatePage_placed (h _) hfind)

theorem step_placed (h : ∀ g ∈ gens, g.Placed) (ev : Event) : ∀ g ∈ step w gens ev, g.Placed := by
  cases ev with
  | getPage mmuValidGen e created =>
    cases hfind : gens.find mmuValidGen with
    | none =>
      have hnew : (newGen mmuValidGen).Placed := fun _ => ⟨nofun, .nil⟩
      rw [step_getPage_new hfind]
      exact List.forall_mem_cons.mpr ⟨hnew.getPage, h⟩
    | some g =>
      obtain ⟨before, after, hgens, hstep⟩ := step_getPage_old (w := w) (e := e) created hfind
      rw [hgens, List.forall_mem_append, List.forall_mem_cons] at h
      rw [hstep, List.forall_mem_append, List.forall_mem_cons]
      exact ⟨h.1, h.2.1.getPage, h.2.2⟩
  | zapPage mmuValidGen e =>
    cases hfind : gens.find mmuValidGen with
    | none =>
      rw [step, zapPage, hfind]
      exact h
    | some g =>
      obtain ⟨before, after, hgens, hstep⟩ := step_zapPage (w := w) (e := e) hfind
      rw [hgens, List.forall_mem_append, List.forall_mem_cons] at h
      rw [hstep]
      split_ifs
      · exact List.forall_mem_append.mpr ⟨h.1, h.2.2⟩
      · rw [List.forall_mem_append, List.forall_mem_cons]
        exact ⟨h.1, h.2.1.zapPage, h.2.2⟩

/-- The pages of a generation stand at their level and ascend by gfn in every run. -/
theorem run_placed (w : Rebalance Page) (events : List Event) :
    ∀ g ∈ events.foldl (step w) [], g.Placed := by
  induction events using List.reverseRecOn with
  | nil => exact nofun
  | append_singleton events ev ih =>
    rw [List.foldl_concat]
    exact step_placed ih ev

end Placed

end PerfProf.Kvmmmu
