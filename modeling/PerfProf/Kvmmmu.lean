import Mathlib.Logic.Function.Basic
import PerfProf.RbWalk

/-! kvmmmu.c: the pages of the shadow page tables, by generation and level, each with the entries
that have been set in it. -/
namespace PerfProf.Kvmmmu
open PerfProf.Rblist

section Pages

def MMU_MAX_LEVEL : Nat := 5

def SPTE_MMIO : UInt8 := 2

/-- `union kvm_mmu_page_role` of a page of one of the five levels. -/
structure Role where
  word : Nat
  word_lt : word < 2 ^ 32
  level_pos : 1 ≤ word % 16
  level_le : word % 16 ≤ 5
deriving DecidableEq

def Role.level (role : Role) : Nat := role.word % 16

/-- The role of level 1 and no other bit. -/
def lastLevel : Role := ⟨1, by decide, by decide, by decide⟩

/-- The bit `invalid` of a role. -/
def invalidBit : Nat := 2 ^ 11

theorem or_invalidBit (word : Nat) : (word ||| invalidBit) % 16 = word % 16 := by
  have hmod := Nat.or_mod_two_pow (a := word) (b := invalidBit) (n := 4)
  have hbit : invalidBit % 2 ^ 4 = 0 := by decide
  rw [hbit, Nat.or_zero] at hmod
  exact hmod

def Role.setInvalid (role : Role) : Role where
  word := role.word ||| invalidBit
  word_lt := Nat.or_lt_two_pow role.word_lt (by decide)
  level_pos := (or_invalidBit role.word).symm ▸ role.level_pos
  level_le := (or_invalidBit role.word).symm ▸ role.level_le

/-- `struct kvm_mmu_page` -/
structure Page where
  gfn : Nat
  role : Role
  rootCount : Nat
  refcount : Nat
  spteSet : Option (Vector UInt8 512)
deriving DecidableEq

/-- What an event says of a page. -/
structure Entry where
  gfn : Nat
  role : Role
  rootCount : Nat
deriving DecidableEq

/-- `kvm_mmu_page_node_cmp` -/
def nodeCmp (gfn : Nat) (role : Role) (b : Page) : Ordering :=
  (compare b.gfn gfn).then (compare b.role.word role.word)

/-- `1UL << (role.level * 9)` -/
def Role.nrGfn (role : Role) : Nat := 2 ^ (role.level * 9)

def Page.gfnEnd (b : Page) : Nat := (b.gfn + b.role.nrGfn - 1) % 2 ^ 64

/-- `kvm_mmu_page_find` -/
def pageFind (gfn : Nat) (b : Page) : Ordering :=
  if b.gfnEnd > gfn then .gt else if b.gfn < gfn then .lt else .eq

/-- `kvm_mmu_page_node_new` -/
def Entry.newPage (e : Entry) : Page := ⟨e.gfn, e.role, e.rootCount, 1, none⟩

end Pages

section Store

/-- `struct kvm_mmu_gen`; the pages of a level are at `level - 1`. -/
structure Gen where
  mmuValidGen : Nat
  kvmMmuPages : Nat → RbList Page
  kvmMmuGetPage : Nat
  kvmMmuGetPageCreated : Nat
  kvmMmuPrepareZapPage : Nat
  kvmMmuSetSpte : Nat

def newGen (mmuValidGen : Nat) : Gen := ⟨mmuValidGen, fun _ => .init Page, 0, 0, 0, 0⟩

/-- `kvm_mmu_gen_list` -/
abbrev GenList := List Gen

def GenList.find (gens : GenList) (mmuValidGen : Nat) : Option Gen :=
  gens.find? (·.mmuValidGen == mmuValidGen)

/-- The generation that is found is changed in place. -/
def GenList.update (mmuValidGen : Nat) (f : Gen → Gen) : GenList → GenList
  | [] => []
  | g :: gens => if g.mmuValidGen = mmuValidGen then f g :: gens else g :: update mmuValidGen f gens

/-- `list_del` and `free` of the generation that is found. -/
def GenList.release (mmuValidGen : Nat) (gens : GenList) : GenList :=
  gens.eraseP (·.mmuValidGen == mmuValidGen)

def Gen.setPages (g : Gen) (level : Nat) (pages : RbList Page) : Gen :=
  { g with kvmMmuPages := Function.update g.kvmMmuPages (level - 1) pages }

/-- All levels are empty. -/
def Gen.isEmpty (g : Gen) : Bool := (List.range MMU_MAX_LEVEL).all fun i => (g.kvmMmuPages i).isEmpty

variable (bal : Rebalance Page)

/-- The page that is found gets one more reference, or a new page is added. -/
def createPage (pages : RbList Page) (e : Entry) : RbList Page :=
  match pages.entries.find (nodeCmp e.gfn e.role) with
  | some _ => { pages with entries := pages.entries.change (nodeCmp e.gfn e.role) fun b =>
      { b with refcount := (b.refcount + 1) % 2 ^ 32 } }
  | none => pages.addNode bal (nodeCmp e.gfn e.role) e.newPage

/-- What `kvm_mmu_gen_get_page` does to its generation. -/
def Gen.getPage (g : Gen) (e : Entry) (created : Bool) : Gen × Int :=
  let pages := g.kvmMmuPages (e.role.level - 1)
  let found := pages.entries.find (nodeCmp e.gfn e.role)
  let (pages, ret) :=
    if created then (createPage bal pages e, if found.isSome then -17 else 0)
    else if e.gfn ≠ 0 then (pages, -1)
    else if found.isSome then
      ({ pages with entries := pages.entries.change (nodeCmp e.gfn e.role) fun b =>
          { b with rootCount := max b.rootCount e.rootCount } }, 0)
    else (pages, -1)
  ({ g.setPages e.role.level pages with
    kvmMmuGetPage := g.kvmMmuGetPage + 1
    kvmMmuGetPageCreated := if created then g.kvmMmuGetPageCreated + 1 else g.kvmMmuGetPageCreated }, ret)

/-- `kvm_mmu_gen_get_page` -/
def getPage (gens : GenList) (mmuValidGen : Nat) (e : Entry) (created : Bool) : GenList × Int :=
  let gens := match gens.find mmuValidGen with
    | some _ => gens
    | none => newGen mmuValidGen :: gens
  let ret := (gens.find mmuValidGen).map fun g => (g.getPage bal e created).2
  (gens.update mmuValidGen fun g => (g.getPage bal e created).1, ret.getD 0)

/-- The page that is found loses a reference, and is removed with the last one. -/
def dropPage (pages : RbList Page) (e : Entry) (b : Page) : RbList Page :=
  let refcount := (b.refcount + (2 ^ 32 - 1)) % 2 ^ 32
  if refcount = 0 then ((pages.remove bal (nodeCmp e.gfn e.role)).map Prod.snd).getD pages
  else { pages with entries := pages.entries.change (nodeCmp e.gfn e.role) fun b =>
    { b with refcount := refcount } }

/-- The page that is found becomes invalid; of several references one does. -/
def invalidatePage (pages : RbList Page) (e : Entry) (b : Page) : RbList Page × Int :=
  let role := b.role.setInvalid
  if b.refcount = 1 then
    ({ pages with entries := pages.entries.change (nodeCmp e.gfn e.role) fun b => { b with role := role } }, 0)
  else
    let pages := { pages with entries := pages.entries.change (nodeCmp e.gfn e.role) fun b =>
      { b with refcount := (b.refcount + (2 ^ 32 - 1)) % 2 ^ 32 } }
    (pages.addNode bal (nodeCmp b.gfn role) (Entry.newPage ⟨b.gfn, role, b.rootCount⟩),
      if (pages.entries.find (nodeCmp b.gfn role)).isSome then -17 else 0)

/-- What `kvm_mmu_gen_zap_page` does to its generation, and whether a page has been taken off. -/
def Gen.zapPage (g : Gen) (e : Entry) : Gen × Bool × Int :=
  let pages := g.kvmMmuPages (e.role.level - 1)
  match pages.entries.find (nodeCmp e.gfn e.role) with
  | none => (g, false, -1)
  | some b =>
    if e.rootCount = 0 then
      ({ g.setPages e.role.level (dropPage bal pages e b) with
        kvmMmuPrepareZapPage := g.kvmMmuPrepareZapPage + 1 }, true, 0)
    else
      let (pages, ret) := invalidatePage bal pages e b
      (g.setPages e.role.level pages, false, ret)

/-- `kvm_mmu_gen_zap_page` -/
def zapPage (gens : GenList) (mmuValidGen : Nat) (e : Entry) : GenList × Int :=
  match gens.find mmuValidGen with
  | none => (gens, -1)
  | some g =>
    let (g, remove, ret) := g.zapPage bal e
    if remove && (g.kvmMmuPages (e.role.level - 1)).isEmpty && g.isEmpty then
      (gens.release mmuValidGen, ret)
    else (gens.update mmuValidGen fun _ => g, ret)

/-- `spte_set[bit] |= flags`, in a page that may have no entries yet. -/
def Page.orSpte (b : Page) (bit : Fin 512) (flags : UInt8) : Page :=
  let set := b.spteSet.getD (Vector.replicate 512 0)
  { b with spteSet := some (set.set bit (set[bit] ||| flags)) }

/-- An entry of a page; a page without entries has none set. -/
def Page.spte (p : Page) (i : Fin 512) : UInt8 := match p.spteSet with
  | none => 0
  | some set => set[i]

/-- `kvm_mmu_gen_set_spte`; none where the comparison is given no page. There is always memory. -/
def setSpte (gens : GenList) (mmuValidGen gfn level : Nat) (flags : UInt8) : Option (GenList × Int) :=
  match gens.find mmuValidGen with
  | none => some (gens, -1)
  | some g => match (g.kvmMmuPages (level - 1)).findFirst (pageFind gfn) with
    | none => none
    | some none => some (gens, -1)
    | some (some b) =>
      if b.role.level ≠ level ∨ gfn < b.gfn ∨ gfn > b.gfnEnd then some (gens, -1)
      else if hbit : (gfn - b.gfn) / 2 ^ ((b.role.level - 1) * 9) < 512 then
        let pages := (g.kvmMmuPages (level - 1)).changeFirst (pageFind gfn) fun b => b.orSpte ⟨_, hbit⟩ flags
        some (gens.update mmuValidGen fun g =>
          { g.setPages level pages with kvmMmuSetSpte := g.kvmMmuSetSpte + 1 }, 0)
      else some (gens, -1)

end Store

section Dump

/-- A line of the spte loop. -/
structure SpteLine where
  start : Nat
  stop : Nat
  mmio : Bool
deriving DecidableEq

/-- Entries `first` up to `stop` with these flags. -/
structure Run where
  first : Nat
  stop : Nat
  flags : UInt8
deriving DecidableEq

/-- The loop over the entries from `i` on: where it meets flags it looks for the end of their run, and
goes on behind that end. -/
def spteLoop : Nat → Nat → List UInt8 → List Run
  | 0, _, _ => []
  | _ + 1, _, [] => []
  | fuel + 1, i, flags :: set =>
    if flags ≠ 0 then
      let e := i + 1 + (set.takeWhile (· == flags)).length
      ⟨i, e, flags⟩ :: spteLoop fuel (e + 1) ((set.dropWhile (· == flags)).drop 1)
    else spteLoop fuel (i + 1) set

/-- `1UL << ((role.level-1) * 9)` -/
def Role.entryGfn (role : Role) : Nat := 2 ^ ((role.level - 1) * 9)

/-- What is printed for a run. -/
def Page.spteLine (b : Page) (run : Run) : SpteLine where
  start := (b.gfn + run.first * b.role.entryGfn) % 2 ^ 64
  stop := (b.gfn + run.stop * b.role.entryGfn + (2 ^ 64 - 1)) % 2 ^ 64
  mmio := run.flags &&& SPTE_MMIO != 0

/-- The spte loop of `kvm_mmu_gen_dump`. -/
def Page.dumpSpte (b : Page) : List SpteLine :=
  match b.spteSet with
  | none => []
  | some set => (spteLoop 512 0 set.toList).map b.spteLine

end Dump

end PerfProf.Kvmmmu
