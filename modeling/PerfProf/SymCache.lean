import PerfProf.SharedRefs
import PerfProf.SymObject

/-! What the cache of symbol objects keeps through every run of gets and puts, as long as the cut
differences put the namespaces in an order and each new file of another namespace can be read. -/
namespace PerfProf.SymObject
open Rblist SharedRefs
open PerfProf.Top (CStr strcmp orders_strcmp)

section Spec

def State.list (st : State) : List Obj := st.objects.entries.toList

def Obj.key (o : Obj) : TmpObject := ⟨o.mnt, o.name⟩

/-- The references of callers, by the address of the object. -/
def references (held : Nat → Nat) : Call → Nat → Nat → Nat
  | .get _, obj => if obj = 0 then held else Function.update held obj (held obj + 1)
  | .put addr, _ => Function.update held addr (held addr - 1)

/-- malloc returns addresses that are not in use, and only objects that are held are put. -/
def Legal (st : State) (held : Nat → Nat) : Call → Prop
  | .get g => g.objAddr ≠ 0 ∧ (∀ o ∈ st.list, o.addr ≠ g.objAddr) ∧ g.mntAddr ≠ 0 ∧ ∀ m ∈ st.mntns, m.addr ≠ g.mntAddr
  | .put addr => addr = 0 ∨ 0 < held addr

/-- The states of all runs whose calls are `ok`, with the references. -/
inductive Reaches (bal : Rebalance Obj) (dflt : Nat) (ok : State → Call → Prop) : State → (Nat → Nat) → Prop where
  | init : Reaches bal dflt ok init fun _ => 0
  | step {st : State} {held : Nat → Nat} {x : Call} (h : Reaches bal dflt ok st held) (hlegal : Legal st held x)
      (hok : ok st x) : Reaches bal dflt ok (step bal dflt st x).1 (references held x (step bal dflt st x).2)

/-- One object for each namespace and name, which is found and counts its references; each namespace counts its
objects and has some; the process is in the default namespace. -/
structure Good (st : State) (held : Nat → Nat) : Prop where
  once : (st.list.map Obj.key).Nodup
  found : ∀ o ∈ st.list, st.objects.entries.find (objectNodeCmp o.key) = some o
  counted : ∀ o ∈ st.list, o.refcnt = held o.addr ∧ 0 < o.refcnt
  stored : ∀ addr, 0 < held addr → ∃ o ∈ st.list, o.addr = addr
  inodes : (st.mntns.map Mntns.mntnsIno).Nodup
  mntns : ∀ m ∈ st.mntns, m.refcnt = st.list.countP (fun o => o.mnt = m.addr) ∧ 0 < m.refcnt
  known : ∀ o ∈ st.list, o.mnt ≠ 0 → ∃ m ∈ st.mntns, m.addr = o.mnt
  home : st.ns = none

/-- Of two pointers one comes first, and the order is transitive. -/
structure Ordered (ms : List Nat) : Prop where
  apart : ∀ a ∈ ms, ∀ b ∈ ms, a ≠ b → mntDiff a b ≠ 0 ∧ mntDiff a b ≠ -2 ^ 31
  trans : ∀ a ∈ ms, ∀ b ∈ ms, ∀ c ∈ ms, mntDiff a b < 0 → mntDiff b c < 0 → mntDiff a c < 0

/-- The cut differences put the namespaces of the objects and of the call in an order, a new file of another
namespace can be read, and the references do not come to the greatest number. -/
def Sound (dflt : Nat) (st : State) : Call → Prop
  | .get g =>
    Ordered ((mntOf dflt st g).1 :: st.list.map Obj.mnt) ∧
    ((mntOf dflt st g).1 ≠ 0 → (∀ o ∈ st.list, o.key ≠ ⟨(mntOf dflt st g).1, g.name⟩) → (elfInfo g).isSome) ∧
    ∀ o ∈ st.list, o.key = ⟨(mntOf dflt st g).1, g.name⟩ → o.refcnt + 1 < 2 ^ 32 - 1
  | .put _ => True

end Spec

section Namespaces
variable {dflt ino p : Nat} {ms ms' : List Mntns} {ps : List Nat} {g : Get}

theorem useMntns_none (h : useMntns ino ms = none) : ∀ m ∈ ms, m.mntnsIno ≠ ino := by
  induction ms with
  | nil => exact nofun
  | cons m ms ih =>
    unfold useMntns at h
    split_ifs at h with hino
    exact List.forall_mem_cons.mpr ⟨hino, ih (Option.map_eq_none_iff.mp h)⟩

theorem useMntns_some (h : useMntns ino ms = some (p, ms')) : ∃ xs m ys, ms = xs ++ m :: ys ∧ p = m.addr ∧
    ms' = xs ++ { m with refcnt := m.refcnt + 1 } :: ys := by
  induction ms generalizing ms' with
  | nil => cases h
  | cons m ms ih =>
    unfold useMntns at h
    split_ifs at h with hino
    · cases h
      exact ⟨[], m, ms, rfl, rfl, rfl⟩
    · obtain ⟨⟨q, ms''⟩, hrest, hpair⟩ := Option.map_eq_some_iff.mp h
      cases hpair
      obtain ⟨xs, n, ys, rfl, hp, rfl⟩ := ih hrest
      exact ⟨m :: xs, n, ys, rfl, hp, rfl⟩

theorem putMntns_eq {xs ys : List Mntns} {m : Mntns} (hxs : ∀ n ∈ xs, n.addr ≠ m.addr) :
    putMntns m.addr (xs ++ m :: ys) =
      xs ++ if m.refcnt - 1 = 0 then ys else { m with refcnt := m.refcnt - 1 } :: ys := by
  induction xs with
  | nil => exact if_pos rfl
  | cons n xs ih =>
    obtain ⟨hn, hxs⟩ := List.forall_mem_cons.mp hxs
    rw [List.cons_append, putMntns, if_neg hn, ih hxs]
    rfl

/-- The table of the namespaces: the books are kept, and no inode has two entries. -/
structure Table (ms : List Mntns) (ps : List Nat) (p : Nat) : Prop where
  books : Books Mntns.addr Mntns.refcnt ms ps p
  inodes : (ms.map Mntns.mntnsIno).Nodup

/-- `get_mntns` hands a pointer over. -/
theorem Table.get (h : Table ms ps 0) (hzero : g.mntAddr ≠ 0) (hnew : ∀ m ∈ ms, m.addr ≠ g.mntAddr) :
    Table (getMntns dflt g ms).2 ps (getMntns dflt g ms).1 := by
  unfold getMntns
  cases g.ino with
  | none => exact h
  | some ino =>
    dsimp only
    split_ifs
    · exact h
    · cases huse : useMntns ino ms with
      | some p =>
        obtain ⟨xs, m, ys, rfl, hp, hms⟩ := useMntns_some huse
        dsimp only
        rw [hp, hms]
        refine ⟨h.books.use rfl rfl, ?_⟩
        have hinodes := h.inodes
        rw [List.map_append, List.map_cons] at hinodes ⊢
        exact hinodes
      | none =>
        cases g.fd with
        | none => exact h
        | some fd =>
          refine ⟨h.books.new hzero hnew rfl, List.nodup_cons.mpr ⟨fun hmem => ?_, h.inodes⟩⟩
          obtain ⟨m, hm, hino⟩ := List.mem_map.mp hmem
          exact useMntns_none huse m hm hino

/-- `put_mntns` gives it back. -/
theorem Table.put (h : Table ms ps p) : Table (if p = 0 then ms else putMntns p ms) ps 0 := by
  split_ifs with hp
  · rw [hp] at h
    exact h
  · obtain ⟨m, hm, rfl⟩ := h.books.known p List.mem_cons_self hp
    obtain ⟨xs, ys, rfl⟩ := List.append_of_mem hm
    have hxs : ∀ n ∈ xs, n.addr ≠ m.addr := fun n hn => h.books.others n (List.mem_append_left ys hn)
    have hinodes := h.inodes
    rw [putMntns_eq hxs]
    rw [List.map_append, List.map_cons] at hinodes
    split_ifs with hone
    · refine ⟨h.books.drop hone, ?_⟩
      rw [List.map_append]
      exact hinodes.sublist ((List.sublist_cons_self _ _).append_left _)
    · refine ⟨h.books.put rfl rfl hone, ?_⟩
      rw [List.map_append, List.map_cons]
      exact hinodes

theorem Table.perm {qs : List Nat} (h : Table ms ps p) (hperm : ps.Perm qs) : Table ms qs p :=
  ⟨h.books.perm hperm, h.inodes⟩

theorem table_cons : Table ms (p :: ps) 0 ↔ Table ms ps p :=
  ⟨fun h => ⟨books_cons.mp h.books, h.inodes⟩, fun h => ⟨books_cons.mpr h.books, h.inodes⟩⟩

end Namespaces

section Order
variable {ms : List Nat} {s t u : TmpObject} {l : List Obj} {o b : Obj}

/-- The order of the keys under the cut differences. -/
def Below (s t : TmpObject) : Prop := if s.mnt = t.mnt then s.name < t.name else mntDiff s.mnt t.mnt < 0

theorem Ordered.subset {ns : List Nat} (h : Ordered ms) (hsub : ns ⊆ ms) : Ordered ns :=
  ⟨fun a ha b hb => h.apart a (hsub ha) b (hsub hb),
    fun a ha b hb c hc => h.trans a (hsub ha) b (hsub hb) c (hsub hc)⟩

theorem mntDiff_swap {a b : Nat} (h : mntDiff a b ≠ -2 ^ 31) : mntDiff b a = -mntDiff a b := by
  unfold mntDiff at h ⊢
  unfold Int.bmod at h ⊢
  dsimp only at h ⊢
  split_ifs at h ⊢ <;> omega

theorem mntDiff_self (a : Nat) : mntDiff a a = 0 := by
  unfold mntDiff
  rw [Int.sub_self]
  rfl

theorem cmp_lt_iff : objectNodeCmp t o = .lt ↔ Below o.key t := by
  unfold objectNodeCmp Below Obj.key
  dsimp only
  split_ifs
  · exact (orders_strcmp o.name t.name).1
  · exact compare_lt_iff_lt

theorem cmp_gt_iff (h : Ordered ms) (ho : o.mnt ∈ ms) (ht : t.mnt ∈ ms) :
    objectNodeCmp t o = .gt ↔ Below t o.key := by
  unfold objectNodeCmp Below Obj.key
  dsimp only
  by_cases heq : o.mnt = t.mnt
  · rw [if_pos heq, if_pos heq.symm]
    exact (orders_strcmp o.name t.name).2
  · rw [if_neg heq, if_neg (Ne.symm heq), compare_gt_iff_gt, mntDiff_swap (h.apart _ ho _ ht heq).2]
    omega

theorem cmp_eq_iff (h : Ordered ms) (ho : o.mnt ∈ ms) (ht : t.mnt ∈ ms) :
    objectNodeCmp t o = .eq ↔ o.key = t := by
  have hkey : o.key = t ↔ o.mnt = t.mnt ∧ o.name = t.name := by
    cases t
    exact TmpObject.mk.injEq _ _ _ _ ▸ Iff.rfl
  rw [hkey]
  unfold objectNodeCmp
  by_cases heq : o.mnt = t.mnt
  · rw [if_pos heq, and_iff_right heq]
    constructor
    · intro hcmp
      rcases (orders_strcmp o.name t.name).cases with ⟨hlt, -⟩ | ⟨-, hname⟩ | ⟨hgt, -⟩
      · rw [hlt] at hcmp
        cases hcmp
      · exact hname
      · rw [hgt] at hcmp
        cases hcmp
    · intro hname
      rcases (orders_strcmp o.name t.name).cases with ⟨-, hlt⟩ | ⟨hcmp, -⟩ | ⟨-, hgt⟩
      · exact absurd hlt (hname ▸ lt_irrefl _)
      · exact hcmp
      · exact absurd hgt (hname ▸ lt_irrefl _)
  · rw [if_neg heq, compare_eq_iff_eq]
    exact iff_of_false (h.apart _ ho _ ht heq).1 fun hboth => heq hboth.1

theorem Below.trans (h : Ordered ms) (hs : s.mnt ∈ ms) (ht : t.mnt ∈ ms) (hu : u.mnt ∈ ms) (hst : Below s t)
    (htu : Below t u) : Below s u := by
  unfold Below at hst htu ⊢
  by_cases h₁ : s.mnt = t.mnt
  · rw [if_pos h₁] at hst
    rw [h₁]
    by_cases h₂ : t.mnt = u.mnt
    · rw [if_pos h₂] at htu ⊢
      exact lt_trans hst htu
    · rw [if_neg h₂] at htu ⊢
      exact htu
  · rw [if_neg h₁] at hst
    by_cases h₂ : t.mnt = u.mnt
    · rw [← h₂, if_neg h₁]
      exact hst
    · rw [if_neg h₂] at htu
      have hsu := h.trans _ hs _ ht _ hu hst htu
      have hne : s.mnt ≠ u.mnt := by
        intro heq
        rw [heq, mntDiff_self] at hsu
        exact lt_irrefl _ hsu
      rw [if_neg hne]
      exact hsu

theorem below_irrefl (t : TmpObject) : ¬ Below t t := by
  unfold Below
  rw [if_pos rfl]
  exact lt_irrefl _

/-- The objects are in order. -/
def InOrder (l : List Obj) : Prop := l.Pairwise fun a b => Below a.key b.key

theorem InOrder.rises (hl : InOrder l) (h : Ordered (t.mnt :: l.map Obj.mnt)) : Rises (objectNodeCmp t) l := by
  have hmem {o : Obj} (ho : o ∈ l) : o.mnt ∈ t.mnt :: l.map Obj.mnt := List.mem_cons_of_mem _ (List.mem_map_of_mem ho)
  refine List.Pairwise.imp_of_mem (fun {a b} ha hb hab => ⟨fun hlt => ?_, fun hgt => ?_⟩) hl
  · rw [cmp_lt_iff] at hlt ⊢
    exact Below.trans h (hmem ha) (hmem hb) List.mem_cons_self hab hlt
  · rw [cmp_gt_iff h (hmem ha) List.mem_cons_self] at hgt
    rw [cmp_gt_iff h (hmem hb) List.mem_cons_self]
    exact Below.trans h List.mem_cons_self (hmem ha) (hmem hb) hgt hab

theorem InOrder.nodup (hl : InOrder l) : (l.map Obj.key).Nodup := by
  refine List.Pairwise.map Obj.key (fun {a b} hab heq => ?_) hl
  rw [heq] at hab
  exact below_irrefl _ hab

/-- An object is found by its key. -/
theorem find_key {tree : Rblist.Tree Obj} (hl : InOrder tree.toList) (h : Ordered (tree.toList.map Obj.mnt))
    (ho : o ∈ tree.toList) : tree.find (objectNodeCmp o.key) = some o := by
  have hmem {b : Obj} (hb : b ∈ tree.toList) : b.mnt ∈ tree.toList.map Obj.mnt := List.mem_map_of_mem hb
  have hordered : Ordered (o.key.mnt :: tree.toList.map Obj.mnt) :=
    h.subset (List.cons_subset.mpr ⟨hmem ho, List.Subset.refl _⟩)
  cases hfind : tree.find (objectNodeCmp o.key) with
  | none =>
    have hno := (Tree.find_none (hl.rises hordered)).mp hfind o ho
    exact absurd ((cmp_eq_iff h (hmem ho) (hmem ho)).mpr rfl) hno
  | some b =>
    obtain ⟨hb, heq⟩ := Tree.mem_find hfind
    have hkey := (cmp_eq_iff h (hmem hb) (hmem ho)).mp heq
    rw [List.inj_on_of_nodup_map hl.nodup hb ho hkey]

end Order

section Cache
variable {bal : Rebalance Obj} {dflt : Nat} {st : State} {held : Nat → Nat} {g : Get} {o : Obj} {addr : Nat}

/-- The objects with their references, and the namespaces with theirs. -/
structure Cache (st : State) (held : Nat → Nat) : Prop where
  ordered : Ordered (st.list.map Obj.mnt)
  inOrder : InOrder st.list
  addrs : (st.list.map Obj.addr).Nodup
  nonzero : ∀ o ∈ st.list, o.addr ≠ 0
  counted : ∀ o ∈ st.list, o.refcnt = held o.addr ∧ 0 < o.refcnt ∧ o.refcnt < 2 ^ 32 - 1
  stored : ∀ addr, 0 < held addr → ∃ o ∈ st.list, o.addr = addr
  table : Table st.mntns (st.list.map Obj.mnt) 0
  home : st.ns = none

theorem cache_init : Cache init fun _ => 0 :=
  ⟨⟨nofun, nofun⟩, List.Pairwise.nil, List.nodup_nil, nofun, nofun, fun _ h => absurd h (lt_irrefl 0),
    ⟨books_nil _ _, List.nodup_nil⟩, rfl⟩

theorem Cache.good (h : Cache st held) : Good st held := by
  refine ⟨h.inOrder.nodup, fun o ho => find_key h.inOrder h.ordered ho, fun o ho => ?_, h.stored, h.table.inodes,
    fun m hm => ?_, fun o ho hne => ?_, h.home⟩
  · obtain ⟨hcount, hpos, -⟩ := h.counted o ho
    exact ⟨hcount, hpos⟩
  · obtain ⟨hcount, hpos⟩ := h.table.books.count m hm
    rw [if_neg (h.table.books.nonzero m hm), List.count_eq_countP, List.countP_map, Int.add_zero] at hcount
    exact ⟨hcount, hpos⟩
  · exact h.table.books.known o.mnt (List.mem_cons_of_mem 0 (List.mem_map_of_mem ho)) hne

/-- The address tells the object. -/
theorem Cache.eq_of_addr (h : Cache st held) {b : Obj} (ho : o ∈ st.list) (hb : b ∈ st.list)
    (heq : o.addr = b.addr) : o = b := List.inj_on_of_nodup_map h.addrs ho hb heq

/-- The references of the object at an address are changed. -/
def withRefs (addr n : Nat) (o : Obj) : Obj := if o.addr = addr then { o with refcnt := n } else o

theorem withRefs_key (addr n : Nat) (o : Obj) : (withRefs addr n o).key = o.key := by
  unfold withRefs
  split_ifs <;> rfl

theorem withRefs_mnt (addr n : Nat) (o : Obj) : (withRefs addr n o).mnt = o.mnt :=
  congrArg TmpObject.mnt (withRefs_key addr n o)

theorem withRefs_addr (addr n : Nat) (o : Obj) : (withRefs addr n o).addr = o.addr := by
  unfold withRefs
  split_ifs <;> rfl

theorem map_withRefs_mnt (addr n : Nat) (l : List Obj) : (l.map (withRefs addr n)).map Obj.mnt = l.map Obj.mnt := by
  rw [List.map_map]
  exact List.map_congr_left fun o _ => withRefs_mnt addr n o

/-- An object that is held has other references. -/
theorem Cache.setRefs {st' : State} {n : Nat} (h : Cache st held) (ho : o ∈ st.list) (hn : 0 < n)
    (hmax : n < 2 ^ 32 - 1) (hlist : st'.list = st.list.map (withRefs o.addr n))
    (htable : Table st'.mntns (st.list.map Obj.mnt) 0) (hhome : st'.ns = none) :
    Cache st' (Function.update held o.addr n) := by
  have hmem {b : Obj} (hb : b ∈ st'.list) : ∃ a ∈ st.list, withRefs o.addr n a = b := by
    rw [hlist] at hb
    exact List.mem_map.mp hb
  refine ⟨?_, ?_, ?_, fun b hb => ?_, fun b hb => ?_, fun addr haddr => ?_, ?_, hhome⟩
  · rw [hlist, map_withRefs_mnt]
    exact h.ordered
  · rw [hlist]
    unfold InOrder
    rw [List.pairwise_map]
    simp only [withRefs_key]
    exact h.inOrder
  · rw [hlist, List.map_map]
    have haddrs : st.list.map (Obj.addr ∘ withRefs o.addr n) = st.list.map Obj.addr :=
      List.map_congr_left fun b _ => withRefs_addr o.addr n b
    rw [haddrs]
    exact h.addrs
  · obtain ⟨a, ha, rfl⟩ := hmem hb
    rw [withRefs_addr]
    exact h.nonzero a ha
  · obtain ⟨a, ha, rfl⟩ := hmem hb
    rw [withRefs_addr]
    unfold withRefs
    by_cases heq : a.addr = o.addr
    · rw [if_pos heq, heq, Function.update_self]
      exact ⟨rfl, hn, hmax⟩
    · rw [if_neg heq, Function.update_of_ne heq]
      exact h.counted a ha
  · have hstored : ∃ a ∈ st.list, a.addr = addr := by
      by_cases heq : addr = o.addr
      · exact ⟨o, ho, heq.symm⟩
      · rw [Function.update_of_ne heq] at haddr
        exact h.stored addr haddr
    obtain ⟨a, ha, rfl⟩ := hstored
    rw [hlist]
    exact ⟨_, List.mem_map_of_mem ha, withRefs_addr o.addr n a⟩
  · rw [hlist, map_withRefs_mnt]
    exact htable

theorem change_toList {f : Obj → Obj} {n : Nat} (objects : RbList Obj)
    (hf : ∀ b ∈ objects.entries.toList, b.addr = addr → f b = { b with refcnt := n }) :
    (change addr f objects).entries.toList = objects.entries.toList.map (withRefs addr n) := by
  unfold change
  rw [Tree.toList_map]
  refine List.map_congr_left fun b hb => ?_
  unfold withRefs
  split_ifs with heq
  · exact hf b hb heq
  · rfl

theorem erase_toList (addr : Nat) (tree : Rblist.Tree Obj) :
    (erase addr tree).toList = tree.toList.filter fun o => o.addr ≠ addr := by
  induction tree with
  | leaf => rfl
  | node l o r ihl ihr =>
    unfold erase
    rw [Tree.toList, List.filter_append]
    split_ifs with heq
    · rw [Tree.toList_join, ihl, ihr, List.filter_cons_of_neg (by simpa using heq)]
    · rw [Tree.toList, ihl, ihr, List.filter_cons_of_pos (by simpa using heq)]

/-- The last reference is put. -/
theorem Cache.removeNode (h : Cache st held) (ho : o ∈ st.list) (bal : Rebalance Obj) :
    Cache (SymObject.removeNode bal o st) (Function.update held o.addr 0) := by
  have hlist : (SymObject.removeNode bal o st).list = st.list.filter fun b => b.addr ≠ o.addr :=
    (bal.toList_erased _).trans (erase_toList o.addr _)
  have hmem {b : Obj} (hb : b ∈ (SymObject.removeNode bal o st).list) : b ∈ st.list ∧ b.addr ≠ o.addr := by
    rw [hlist] at hb
    obtain ⟨hb, hne⟩ := List.mem_filter.mp hb
    exact ⟨hb, of_decide_eq_true hne⟩
  have hsub : (SymObject.removeNode bal o st).list.Sublist st.list := hlist ▸ List.filter_sublist
  have hperm : st.list.Perm (o :: (SymObject.removeNode bal o st).list) := by
    obtain ⟨xs, ys, hsplit⟩ := List.append_of_mem ho
    have haddrs := h.addrs
    rw [hsplit, List.map_append, List.map_cons, List.nodup_middle, List.nodup_cons, ← List.map_append] at haddrs
    have hkeep : ∀ b ∈ xs ++ ys, decide (b.addr ≠ o.addr) = true := fun b hb =>
      decide_eq_true fun heq => haddrs.1 (heq ▸ List.mem_map_of_mem hb)
    rw [hlist, hsplit, List.filter_append, List.filter_cons_of_neg (by simp), ← List.filter_append,
      List.filter_eq_self.mpr hkeep]
    exact List.perm_middle
  refine ⟨?_, h.inOrder.sublist hsub, h.addrs.sublist (hsub.map _), fun b hb => h.nonzero b (hmem hb).1,
    fun b hb => ?_, fun addr haddr => ?_, ?_, h.home⟩
  · exact h.ordered.subset (hsub.map _).subset
  · rw [Function.update_of_ne (hmem hb).2]
    exact h.counted b (hmem hb).1
  · have hne : addr ≠ o.addr := by
      rintro rfl
      rw [Function.update_self] at haddr
      exact absurd haddr (lt_irrefl 0)
    rw [Function.update_of_ne hne] at haddr
    obtain ⟨b, hb, rfl⟩ := h.stored addr haddr
    rw [hlist]
    exact ⟨b, List.mem_filter.mpr ⟨hb, decide_eq_true hne⟩, rfl⟩
  · exact (table_cons.mp (h.table.perm (hperm.map Obj.mnt))).put

/-- A put of an object that is held. -/
theorem Cache.put (h : Cache st held) (addr : Nat) (bal : Rebalance Obj) :
    Cache (objPut bal addr st) (Function.update held addr (held addr - 1)) := by
  unfold objPut
  cases hfind : st.objects.entries.toList.find? fun o => o.addr = addr with
  | none =>
    have hno : held addr = 0 := by
      by_contra hne
      obtain ⟨o, ho, heq⟩ := h.stored addr (Nat.pos_of_ne_zero hne)
      exact List.find?_eq_none.mp hfind o ho (decide_eq_true heq)
    have hsame : held addr - 1 = held addr := by omega
    rw [hsame, Function.update_eq_self]
    exact h
  | some o =>
    have ho : o ∈ st.list := List.mem_of_find?_eq_some hfind
    have haddr : o.addr = addr :=
      of_decide_eq_true (List.find?_some (p := fun o : Obj => decide (o.addr = addr)) hfind)
    subst haddr
    obtain ⟨hcount, hpos, hmax⟩ := h.counted o ho
    have hdec : refcountDecAndTest o.refcnt = (o.refcnt - 1, decide (o.refcnt - 1 = 0)) := if_neg (ne_of_lt hmax)
    rw [← hcount]
    dsimp only
    rw [hdec]
    by_cases hlast : o.refcnt - 1 = 0
    · rw [if_pos (decide_eq_true hlast), hlast]
      exact h.removeNode ho bal
    · rw [if_neg (by simpa using hlast)]
      refine h.setRefs ho (Nat.pos_of_ne_zero hlast) (by omega) ?_ h.table h.home
      apply change_toList
      intro b hb heq
      rw [h.eq_of_addr hb ho heq, hdec]

/-- The objects with a new one among them, which is held once. -/
theorem Cache.newObject {st' : State} {xs ys : List Obj} (h : Cache st held) (hone : o.refcnt = 1)
    (hzero : o.addr ≠ 0) (hnew : ∀ b ∈ st.list, b.addr ≠ o.addr) (hsplit : st.list = xs ++ ys)
    (hlist : st'.list = xs ++ o :: ys) (hordered : Ordered (o.mnt :: st.list.map Obj.mnt))
    (hxs : ∀ b ∈ xs, Below b.key o.key) (hys : ∀ b ∈ ys, Below o.key b.key)
    (htable : Table st'.mntns (st.list.map Obj.mnt) o.mnt) (hhome : st'.ns = none) :
    Cache st' (Function.update held o.addr 1) := by
  have hperm : st'.list.Perm (o :: st.list) := by
    rw [hlist, hsplit]
    exact List.perm_middle
  have hall {P : Obj → Prop} (ho : P o) (hold : ∀ b ∈ st.list, P b) : ∀ b ∈ st'.list, P b := fun b hb =>
    (List.mem_cons.mp (hperm.mem_iff.mp hb)).elim (fun heq => heq ▸ ho) (hold b)
  refine ⟨?_, ?_, ?_, hall hzero h.nonzero, ?_, fun addr haddr => ?_, ?_, hhome⟩
  · exact hordered.subset (hperm.map Obj.mnt).subset
  · have hinOrder := h.inOrder
    rw [hsplit] at hinOrder
    obtain ⟨hleft, hright, hboth⟩ := List.pairwise_append.mp hinOrder
    rw [hlist]
    refine List.pairwise_append.mpr ⟨hleft, List.pairwise_cons.mpr ⟨hys, hright⟩, fun a ha b hb => ?_⟩
    rcases List.mem_cons.mp hb with rfl | hb
    · exact hxs a ha
    · exact hboth a ha b hb
  · rw [(hperm.map Obj.addr).nodup_iff, List.map_cons, List.nodup_cons]
    refine ⟨fun hmem => ?_, h.addrs⟩
    obtain ⟨b, hb, heq⟩ := List.mem_map.mp hmem
    exact hnew b hb heq
  · refine hall ?_ fun b hb => ?_
    · rw [Function.update_self, hone]
      exact ⟨rfl, by decide, by decide⟩
    · rw [Function.update_of_ne (hnew b hb)]
      exact h.counted b hb
  · by_cases heq : addr = o.addr
    · exact ⟨o, hperm.mem_iff.mpr List.mem_cons_self, heq.symm⟩
    · rw [Function.update_of_ne heq] at haddr
      obtain ⟨b, hb, rfl⟩ := h.stored addr haddr
      exact ⟨b, hperm.mem_iff.mpr (List.mem_cons_of_mem o hb), rfl⟩
  · exact (table_cons.mpr htable).perm (hperm.map Obj.mnt).symm

theorem mntOf_table (h : Cache st held) (hlegal : Legal st held (.get g)) (dflt : Nat) :
    Table (mntOf dflt st g).2 (st.list.map Obj.mnt) (mntOf dflt st g).1 := by
  unfold mntOf
  split_ifs
  · exact h.table
  · exact h.table.get hlegal.2.2.1 hlegal.2.2.2

/-- A get of an object that is stored. -/
theorem Cache.getOld (h : Cache st held) (hlegal : Legal st held (.get g)) (ho : o ∈ st.list)
    (hmax : o.refcnt + 1 < 2 ^ 32 - 1)
    (hfind : st.objects.entries.find (objectNodeCmp ⟨(mntOf dflt st g).1, g.name⟩) = some o) (bal : Rebalance Obj) :
    Cache (objGet bal dflt g st).1 (references held (.get g) (objGet bal dflt g st).2) := by
  obtain ⟨hcount, hpos, hlt⟩ := h.counted o ho
  have hrefs : references held (.get g) o.addr = Function.update held o.addr (o.refcnt + 1) := by
    rw [hcount]
    exact if_neg (h.nonzero o ho)
  have hinc : refcountInc o.refcnt = o.refcnt + 1 := if_neg (ne_of_lt hlt)
  have hget : objGet bal dflt g st = ({ st with
      objects := change o.addr (fun o => { o with refcnt := refcountInc o.refcnt }) st.objects
      mntns := if (mntOf dflt st g).1 = 0 then (mntOf dflt st g).2
        else putMntns (mntOf dflt st g).1 (mntOf dflt st g).2 }, o.addr) := by
    unfold objGet findnew
    dsimp only
    rw [hfind]
    exact if_neg (Nat.ne_of_gt hpos)
  rw [hget, hrefs]
  refine h.setRefs ho (Nat.succ_pos _) hmax ?_ (mntOf_table h hlegal dflt).put h.home
  apply change_toList
  intro b hb heq
  rw [h.eq_of_addr hb ho heq, hinc]

/-- The namespace of the process behind `object_node_new`. -/
theorem objectNodeNew_home {p : Nat} (h : Cache st held) (hread : p ≠ 0 → (elfInfo g).isSome) (ms : List Mntns) :
    (objectNodeNew g p { st with mntns := ms }).1 = none := by
  unfold objectNodeNew
  by_cases hp : p = 0
  · rw [if_pos hp]
    cases elfInfo g with
    | none => exact h.home
    | some info => exact (if_pos hp).trans h.home
  · obtain ⟨info, hinfo⟩ := Option.isSome_iff_exists.mp (hread hp)
    rw [hinfo]
    exact if_neg hp

/-- A get that makes the object. -/
theorem Cache.getNew (h : Cache st held) (hlegal : Legal st held (.get g))
    (hordered : Ordered ((mntOf dflt st g).1 :: st.list.map Obj.mnt))
    (hread : (mntOf dflt st g).1 ≠ 0 → (elfInfo g).isSome)
    (hfind : st.objects.entries.find (objectNodeCmp ⟨(mntOf dflt st g).1, g.name⟩) = none) (bal : Rebalance Obj) :
    Cache (objGet bal dflt g st).1 (references held (.get g) (objGet bal dflt g st).2) := by
  have htable := mntOf_table h hlegal dflt
  have hhome := objectNodeNew_home h hread (mntOf dflt st g).2
  obtain ⟨hzero, hnew, -, -⟩ := hlegal
  unfold objGet findnew
  dsimp only
  rw [hfind]
  cases hinfo : elfInfo g with
  | none =>
    -- only in the default namespace, of which there is no reference
    have hp : (mntOf dflt st g).1 = 0 := by
      by_contra hp
      have hsome := hread hp
      rw [hinfo] at hsome
      cases hsome
    unfold objectNodeNew at hhome ⊢
    rw [hinfo] at hhome ⊢
    rw [hp] at htable
    exact ⟨h.ordered, h.inOrder, h.addrs, h.nonzero, h.counted, h.stored, htable, hhome⟩
  | some info =>
    obtain ⟨type, shAddr, shOffset⟩ := info
    have hmem {b : Obj} (hb : b ∈ st.list) : b.mnt ∈ (mntOf dflt st g).1 :: st.list.map Obj.mnt :=
      List.mem_cons_of_mem _ (List.mem_map_of_mem hb)
    have hrises := h.inOrder.rises (t := ⟨(mntOf dflt st g).1, g.name⟩) hordered
    obtain ⟨xs, ys, hsplit, hlink, hxs, hys⟩ := Tree.link_between
      (e := ⟨g.objAddr, 0, (mntOf dflt st g).1, g.name, shAddr, shOffset, type⟩) hrises
      ((Tree.find_none hrises).mp hfind)
    have hsplit : st.list = xs ++ ys := hsplit
    have hadd : (st.objects.addNode bal (objectNodeCmp ⟨(mntOf dflt st g).1, g.name⟩)
        ⟨g.objAddr, 0, (mntOf dflt st g).1, g.name, shAddr, shOffset, type⟩).entries.toList =
          xs ++ ⟨g.objAddr, 0, (mntOf dflt st g).1, g.name, shAddr, shOffset, type⟩ :: ys := by
      unfold RbList.addNode
      rw [hfind]
      exact (bal.toList_inserted _).trans hlink
    have hsame : ∀ b ∈ st.list, withRefs g.objAddr 1 b = b := fun b hb => if_neg (hnew b hb)
    unfold objectNodeNew at hhome ⊢
    rw [hinfo] at hhome ⊢
    have hheld : references held (.get g) g.objAddr = Function.update held g.objAddr 1 := by
      have hno : held g.objAddr = 0 := by
        by_contra hne
        obtain ⟨b, hb, heq⟩ := h.stored _ (Nat.pos_of_ne_zero hne)
        exact hnew b hb heq
      refine (if_neg hzero).trans ?_
      rw [hno]
    refine (congrArg _ hheld).mpr ?_
    refine h.newObject (o := ⟨g.objAddr, 1, (mntOf dflt st g).1, g.name, shAddr, shOffset, type⟩) rfl hzero hnew
      hsplit ?_ hordered (fun b hb => cmp_lt_iff.mp (hxs b hb)) (fun b hb => ?_) htable hhome
    · refine (change_toList _ fun b _ _ => rfl).trans ?_
      rw [hadd, List.map_append, List.map_cons]
      rw [List.map_congr_left fun b hb => hsame b (hsplit ▸ List.mem_append_left ys hb), List.map_id']
      rw [List.map_congr_left fun b hb => hsame b (hsplit ▸ List.mem_append_right xs hb), List.map_id']
      exact congrArg (fun o => xs ++ o :: ys) (if_pos rfl)
    · exact (cmp_gt_iff hordered (hmem (hsplit ▸ List.mem_append_right xs hb)) List.mem_cons_self).mp (hys b hb)

/-- One call. -/
theorem Cache.step {x : Call} (h : Cache st held) (hlegal : Legal st held x) (hsound : Sound dflt st x)
    (bal : Rebalance Obj) :
    Cache (SymObject.step bal dflt st x).1 (references held x (SymObject.step bal dflt st x).2) := by
  cases x with
  | put addr => exact h.put addr bal
  | get g =>
    obtain ⟨hordered, hread, hfew⟩ := hsound
    have hmem {b : Obj} (hb : b ∈ st.list) : b.mnt ∈ (mntOf dflt st g).1 :: st.list.map Obj.mnt :=
      List.mem_cons_of_mem _ (List.mem_map_of_mem hb)
    have hkey {b : Obj} (hb : b ∈ st.list) := cmp_eq_iff (t := ⟨(mntOf dflt st g).1, g.name⟩) hordered (hmem hb)
      List.mem_cons_self
    cases hfind : st.objects.entries.find (objectNodeCmp ⟨(mntOf dflt st g).1, g.name⟩) with
    | some o =>
      obtain ⟨ho, heq⟩ := Tree.mem_find hfind
      exact h.getOld hlegal ho (hfew o ho ((hkey ho).mp heq)) hfind bal
    | none =>
      have hrises := h.inOrder.rises (t := ⟨(mntOf dflt st g).1, g.name⟩) hordered
      have hno := (Tree.find_none hrises).mp hfind
      exact h.getNew hlegal hordered (fun hp => hread hp fun o ho heq => hno o ho ((hkey ho).mpr heq)) hfind bal

theorem reaches_cache (h : Reaches bal dflt (Sound dflt) st held) : Cache st held := by
  induction h with
  | init => exact cache_init
  | step h hlegal hok ih => exact ih.step hlegal hok bal

/-- Every run of sound calls keeps the cache good. -/
theorem reaches_good (h : Reaches bal dflt (Sound dflt) st held) : Good st held := (reaches_cache h).good

end Cache

section Runs

/-- The file `x`, for a process in the namespace of an inode. -/
def getX (ino : Option Nat) (mntAddr objAddr : Nat) (text : Option (Nat × Nat)) : Call :=
  .get ⟨[120], 7, ino, some 5, mntAddr, objAddr, some ET_DYN, text⟩

/-- The states behind some calls, with the references. -/
def after (calls : List Call) : State × (Nat → Nat) :=
  calls.foldl (fun p x => ((step .none 1 p.1 x).1, references p.2 x (step .none 1 p.1 x).2)) (init, fun _ => 0)

theorem reaches_after {ok : State → Call → Prop} {calls : List Call} {x : Call}
    (h : Reaches .none 1 ok (after calls).1 (after calls).2) (hlegal : Legal (after calls).1 (after calls).2 x)
    (hok : ok (after calls).1 x) :
    Reaches .none 1 ok (after (calls ++ [x])).1 (after (calls ++ [x])).2 := by
  unfold after
  rw [List.foldl_concat]
  exact h.step hlegal hok

instance (st : State) (held : Nat → Nat) (x : Call) : Decidable (Legal st held x) :=
  match x with
  | .get _ => inferInstanceAs (Decidable (_ ∧ _ ∧ _ ∧ _))
  | .put _ => inferInstanceAs (Decidable (_ ∨ _))

/-- A file in two namespaces, the first of which is the default one. -/
def twoGets : List Call := [getX none 256 4096 (some (0, 0)), getX (some 2) 272 4112 (some (0, 0))]

theorem reaches_good_two : Good (after twoGets).1 (after twoGets).2 := by
  have h₁ : Reaches .none 1 (Sound 1) (after []).1 (after []).2 := .init
  have h₂ := reaches_after (x := getX none 256 4096 (some (0, 0))) h₁ (by decide)
    ⟨⟨by decide, by decide⟩, by decide, by decide⟩
  have h₃ := reaches_after (x := getX (some 2) 272 4112 (some (0, 0))) h₂ (by decide)
    ⟨⟨by decide, by decide⟩, by decide, by decide⟩
  exact reaches_good h₃

/-- A shared object in another namespace whose section cannot be read. -/
def unreadable : List Call := [getX (some 2) 256 4096 none]

/-- A file in three namespaces whose pointers go round in a circle, and the put of the first. -/
def circle : List Call :=
  [getX none 0x1000 0x2000 (some (0, 0)), getX (some 2) 0x555555555550 0x3000 (some (0, 0)),
    getX (some 3) 0x5555AAAAAAA0 0x4000 (some (0, 0)), .put 0x2000]

/-- Without the conditions the process stays in the other namespace, or an object that is stored is not found. -/
theorem circle_not_good :
    (Reaches .none 1 (fun _ _ => True) (after unreadable).1 (after unreadable).2 ∧
      ¬ Good (after unreadable).1 (after unreadable).2) ∧
    Reaches .none 1 (fun _ _ => True) (after circle).1 (after circle).2 ∧ ¬ Good (after circle).1 (after circle).2 := by
  have hinit : Reaches .none 1 (fun _ _ => True) (after []).1 (after []).2 := .init
  refine ⟨⟨reaches_after hinit (by decide) trivial, fun hgood => ?_⟩, ?_, fun hgood => ?_⟩
  · exact absurd hgood.home (by decide)
  · have h₁ := reaches_after (x := getX none 0x1000 0x2000 (some (0, 0))) hinit (by decide) trivial
    have h₂ := reaches_after (x := getX (some 2) 0x555555555550 0x3000 (some (0, 0))) h₁ (by decide) trivial
    have h₃ := reaches_after (x := getX (some 3) 0x5555AAAAAAA0 0x4000 (some (0, 0))) h₂ (by decide) trivial
    exact reaches_after (x := .put 0x2000) h₃ (by decide) trivial
  · exact absurd hgood.found (by decide)

end Runs

end PerfProf.SymObject
