import Mathlib.Data.List.Induction
import Mathlib.Data.List.Lex
import Mathlib.Data.List.Pairwise
import Mathlib.Data.List.Perm.Subperm
import Mathlib.Data.Prod.Lex
import PerfProf.Rblist

/-! Search trees under a comparison function, as the rblist uses a red-black tree: what is known of
the rebalancing is that it keeps the entries in order. Under a comparison that agrees with a key
the tree is the sorted list of its entries; under any comparison, a coarser order is kept. -/
namespace PerfProf.Rblist

section Model
variable {α : Type}

inductive Tree (α : Type) where
  | leaf
  | node (l : Tree α) (a : α) (r : Tree α)
deriving DecidableEq

namespace Tree

def toList : Tree α → List α
  | leaf => []
  | node l a r => l.toList ++ a :: r.toList

/-- The walk down the tree: left where the entry is above the new one, right where it is below. -/
def find (cmp : α → Ordering) : Tree α → Option α
  | leaf => none
  | node l a r => match cmp a with
    | .gt => find cmp l
    | .lt => find cmp r
    | .eq => some a

/-- A new leaf entry `e`, unless the walk finds an equal one. -/
def link (cmp : α → Ordering) (e : α) : Tree α → Tree α
  | leaf => node leaf e leaf
  | node l a r => match cmp a with
    | .gt => node (link cmp e l) a r
    | .lt => node l a (link cmp e r)
    | .eq => node l a r

/-- The entry that the walk finds is changed in place. -/
def change (cmp : α → Ordering) (f : α → α) : Tree α → Tree α
  | leaf => leaf
  | node l a r => match cmp a with
    | .gt => node (change cmp f l) a r
    | .lt => node l a (change cmp f r)
    | .eq => node l (f a) r

/-- Every entry is changed in place. -/
def map (f : α → α) : Tree α → Tree α
  | leaf => leaf
  | node l a r => node (map f l) (f a) (map f r)

/-- The first entry and the tree without it. -/
def popFirst : Tree α → Option (α × Tree α)
  | leaf => none
  | node l a r => match popFirst l with
    | none => some (a, r)
    | some (b, l) => some (b, node l a r)

/-- The entries of both trees, with the first of `r` on top. -/
def join (l r : Tree α) : Tree α :=
  match r.popFirst with
  | none => l
  | some (a, r) => node l a r

/-- The entry that the walk finds and the tree without it. -/
def remove (cmp : α → Ordering) : Tree α → Option (α × Tree α)
  | leaf => none
  | node l a r => match cmp a with
    | .gt => (remove cmp l).map fun (b, l) => (b, node l a r)
    | .lt => (remove cmp r).map fun (b, r) => (b, node l a r)
    | .eq => some (a, join l r)

end Tree

/-- The rotations after an entry has been linked or erased. -/
structure Rebalance (α : Type) where
  inserted : Tree α → Tree α
  erased : Tree α → Tree α
  toList_inserted : ∀ t, (inserted t).toList = t.toList
  toList_erased : ∀ t, (erased t).toList = t.toList

def Rebalance.none : Rebalance α := ⟨id, id, fun _ => rfl, fun _ => rfl⟩

/-- `struct rblist`; `frees` tells whether `node_delete` frees the node, `freed` are those that it
has freed. -/
structure RbList (α : Type) where
  entries : Tree α
  frees : Bool
  freed : List α
deriving DecidableEq

namespace RbList

/-- `rblist__init` with the functions set. -/
def init (α : Type) : RbList α := ⟨.leaf, true, []⟩

def isEmpty (l : RbList α) : Bool := l.entries.toList.isEmpty

/-- `rblist__add_node`. -/
def addNode (bal : Rebalance α) (cmp : α → Ordering) (e : α) (l : RbList α) : RbList α :=
  match l.entries.find cmp with
  | some _ => l
  | none => { l with entries := bal.inserted (l.entries.link cmp e) }

/-- `rblist__findnew`, and what the caller does with the node. -/
def findnew (bal : Rebalance α) (cmp : α → Ordering) (new : α) (f : α → α) (l : RbList α) :
    RbList α :=
  match l.entries.find cmp with
  | some _ => { l with entries := l.entries.change cmp f }
  | none => { l with entries := bal.inserted (l.entries.link cmp (f new)) }

/-- `rblist__entry(.., 0)` and `rblist__remove_node`. -/
def removeFirst (bal : Rebalance α) (l : RbList α) : Option (α × RbList α) :=
  match l.entries.popFirst with
  | none => none
  | some (a, t) => some (a, { l with
      entries := bal.erased t
      freed := if l.frees then l.freed ++ [a] else l.freed })

/-- `rblist__find` and `rblist__remove_node`. -/
def remove (bal : Rebalance α) (cmp : α → Ordering) (l : RbList α) : Option (α × RbList α) :=
  (l.entries.remove cmp).map fun (a, t) => (a, { l with
    entries := bal.erased t
    freed := if l.frees then l.freed ++ [a] else l.freed })

/-- A loop that takes the first entry until there is none, and carries `s` along. -/
def drain {σ : Type} (bal : Rebalance α) (step : σ → α → σ) : Nat → RbList α → σ → RbList α × σ
  | 0, l, s => (l, s)
  | fuel+1, l, s => match l.removeFirst bal with
    | none => (l, s)
    | some (a, l) => drain bal step fuel l (step s a)

/-- One turn for each entry. -/
def drainAll {σ : Type} (bal : Rebalance α) (step : σ → α → σ) (l : RbList α) (s : σ) :
    RbList α × σ :=
  drain bal step l.entries.toList.length l s

end RbList

/-- The sorted list with the entry of the key of `new` changed, after `new` has been added where
there was none. -/
def upsert {κ : Type} [LinearOrder κ] (key : α → κ) (new : α) (f : α → α) : List α → List α
  | [] => [f new]
  | b :: l =>
    if key b < key new then b :: upsert key new f l
    else if key new < key b then f new :: b :: l
    else f b :: l

end Model

section Drain
variable {α σ : Type} {bal : Rebalance α} {t t' : Tree α} {a : α} {l : RbList α}

theorem Tree.popFirst_none (h : t.popFirst = none) : t = .leaf := by
  cases t with
  | leaf => rfl
  | node l a r =>
    rw [popFirst] at h
    split at h <;> cases h

theorem Tree.popFirst_some (h : t.popFirst = some (a, t')) : t.toList = a :: t'.toList := by
  induction t generalizing t' with
  | leaf => cases h
  | node l b r ihl ihr =>
    rw [popFirst] at h
    split at h
    · rename_i hl
      cases h
      rw [popFirst_none hl]
      rfl
    · rename_i c l' hl
      cases h
      rw [toList, ihl hl]
      rfl

theorem Tree.toList_join (l r : Tree α) : (l.join r).toList = l.toList ++ r.toList := by
  rw [join]
  cases hpop : r.popFirst with
  | none =>
    rw [popFirst_none hpop]
    exact (List.append_nil _).symm
  | some p =>
    rw [popFirst_some hpop]
    rfl

theorem RbList.removeFirst_eq (bal : Rebalance α) (l : RbList α) :
    match l.removeFirst bal with
    | none => l.entries.toList = []
    | some (a, l') => l.entries.toList = a :: l'.entries.toList := by
  rw [RbList.removeFirst]
  cases hpop : l.entries.popFirst with
  | none =>
    dsimp only
    rw [Tree.popFirst_none hpop]
    rfl
  | some p =>
    dsimp only
    rw [bal.toList_erased]
    exact Tree.popFirst_some hpop

/-- What is removed is what the walk finds. -/
theorem Tree.remove_some {cmp : α → Ordering} (h : t.remove cmp = some (a, t')) :
    cmp a = .eq ∧ ∃ xs ys, t.toList = xs ++ a :: ys ∧ t'.toList = xs ++ ys := by
  induction t generalizing t' with
  | leaf => cases h
  | node l b r ihl ihr =>
    rw [remove] at h
    cases hcmp : cmp b with
    | gt =>
      rw [hcmp] at h
      obtain ⟨⟨c, l'⟩, hl, hpair⟩ := Option.map_eq_some_iff.mp h
      cases hpair
      obtain ⟨heq, xs, ys, hsplit, hrest⟩ := ihl hl
      refine ⟨heq, xs, ys ++ b :: r.toList, ?_, ?_⟩
      · rw [toList, hsplit, List.append_assoc]
        rfl
      · rw [toList, hrest, List.append_assoc]
    | lt =>
      rw [hcmp] at h
      obtain ⟨⟨c, r'⟩, hr, hpair⟩ := Option.map_eq_some_iff.mp h
      cases hpair
      obtain ⟨heq, xs, ys, hsplit, hrest⟩ := ihr hr
      refine ⟨heq, l.toList ++ b :: xs, ys, ?_, ?_⟩
      · rw [toList, hsplit, List.append_assoc]
        rfl
      · rw [toList, hrest, List.append_assoc]
        rfl
    | eq =>
      rw [hcmp] at h
      cases h
      exact ⟨hcmp, l.toList, r.toList, rfl, toList_join l r⟩

theorem RbList.remove_some {cmp : α → Ordering} {l' : RbList α}
    (h : l.remove bal cmp = some (a, l')) : cmp a = .eq ∧
      ∃ xs ys, l.entries.toList = xs ++ a :: ys ∧ l'.entries.toList = xs ++ ys := by
  obtain ⟨⟨b, t⟩, ht, hpair⟩ := Option.map_eq_some_iff.mp h
  cases hpair
  obtain ⟨heq, xs, ys, hsplit, hrest⟩ := Tree.remove_some ht
  exact ⟨heq, xs, ys, hsplit, (bal.toList_erased t).trans hrest⟩

/-- Everything is taken in order, and freed if `node_delete` does so. -/
theorem RbList.drainAll_eq (bal : Rebalance α) (step : σ → α → σ) (l : RbList α) (s : σ) :
    (l.drainAll bal step s).2 = l.entries.toList.foldl step s ∧
      (l.drainAll bal step s).1.entries.toList = [] ∧
      (l.drainAll bal step s).1.frees = l.frees ∧
      (l.drainAll bal step s).1.freed =
        l.freed ++ (if l.frees then l.entries.toList else []) := by
  unfold drainAll
  generalize hlen : l.entries.toList.length = n
  induction n generalizing l s with
  | zero =>
    have hnil := List.length_eq_zero_iff.mp hlen
    rw [hnil]
    refine ⟨rfl, hnil, rfl, ?_⟩
    rw [ite_self, List.append_nil]
    rfl
  | succ n ih =>
    rw [drain, removeFirst]
    cases hpop : l.entries.popFirst with
    | none =>
      rw [Tree.popFirst_none hpop] at hlen
      cases hlen
    | some p =>
      obtain ⟨a, t⟩ := p
      have hlist := Tree.popFirst_some hpop
      have hlen' : t.toList.length = n := by
        rw [hlist] at hlen
        exact Nat.succ_inj.mp hlen
      obtain ⟨hs, hnil, hfrees, hfreed⟩ := ih ⟨bal.erased t, l.frees,
        if l.frees then l.freed ++ [a] else l.freed⟩ (step s a)
        (by rw [bal.toList_erased]; exact hlen')
      simp only [bal.toList_erased] at hs hfreed
      refine ⟨?_, hnil, hfrees, ?_⟩
      · rw [hlist]
        exact hs
      · rw [hlist]
        refine hfreed.trans ?_
        cases l.frees with
        | true => simp
        | false => simp

/-- Nothing is freed where an entry is added. -/
theorem RbList.addNode_frees (bal : Rebalance α) (cmp : α → Ordering) (e : α) (l : RbList α) :
    (l.addNode bal cmp e).frees = l.frees ∧ (l.addNode bal cmp e).freed = l.freed := by
  unfold addNode
  cases l.entries.find cmp with
  | none => exact ⟨rfl, rfl⟩
  | some a => exact ⟨rfl, rfl⟩

theorem RbList.findnew_frees (bal : Rebalance α) (cmp : α → Ordering) (new : α) (f : α → α)
    (l : RbList α) :
    (l.findnew bal cmp new f).frees = l.frees ∧ (l.findnew bal cmp new f).freed = l.freed := by
  unfold findnew
  cases l.entries.find cmp with
  | none => exact ⟨rfl, rfl⟩
  | some a => exact ⟨rfl, rfl⟩

theorem RbList.addNode_foldl_frees (bal : Rebalance α) (cmps : α → α → Ordering) (l : List α)
    (s : RbList α) :
    (l.foldl (fun s e => RbList.addNode bal (cmps e) e s) s).frees = s.frees ∧
      (l.foldl (fun s e => RbList.addNode bal (cmps e) e s) s).freed = s.freed := by
  induction l generalizing s with
  | nil => exact ⟨rfl, rfl⟩
  | cons e l ih =>
    obtain ⟨hfrees, hfreed⟩ := addNode_frees bal (cmps e) e s
    rw [List.foldl_cons, (ih _).1, (ih _).2]
    exact ⟨hfrees, hfreed⟩

theorem foldl_concat_eq (out l : List α) : l.foldl (fun out a => out ++ [a]) out = out ++ l := by
  induction l generalizing out with
  | nil => exact (List.append_nil out).symm
  | cons a l ih => rw [List.foldl_cons, ih, List.append_assoc, List.singleton_append]

/-- Everything is handed out in order. -/
theorem RbList.drainAll_out (bal : Rebalance α) (l : RbList α) :
    (l.drainAll bal (fun out a => out ++ [a]) []).2 = l.entries.toList := by
  rw [(RbList.drainAll_eq bal (fun out a => out ++ [a]) l []).1, foldl_concat_eq, List.nil_append]

end Drain

section Orders
variable {α β : Type} [LinearOrder α] [LinearOrder β] {o p : Ordering} {a b : α} {c d : β}

/-- The outcome `o` of comparing `a` with `b`. -/
def Orders (o : Ordering) (a b : α) : Prop := (o = .lt ↔ a < b) ∧ (o = .gt ↔ b < a)

theorem Orders.cases (h : Orders o a b) :
    o = .lt ∧ a < b ∨ o = .eq ∧ a = b ∨ o = .gt ∧ b < a := by
  rcases lt_trichotomy a b with hlt | heq | hgt
  · exact Or.inl ⟨h.1.mpr hlt, hlt⟩
  · right; left
    subst heq
    cases ho : o with
    | lt => exact absurd (h.1.mp ho) (lt_irrefl a)
    | eq => exact ⟨rfl, rfl⟩
    | gt => exact absurd (h.2.mp ho) (lt_irrefl a)
  · exact Or.inr (Or.inr ⟨h.2.mpr hgt, hgt⟩)

theorem orders_of_lt (h : a < b) : Orders .lt a b :=
  ⟨iff_of_true rfl h, iff_of_false nofun (not_lt_of_gt h)⟩

theorem orders_of_gt (h : b < a) : Orders .gt a b :=
  ⟨iff_of_false nofun (not_lt_of_gt h), iff_of_true rfl h⟩

theorem orders_of_eq (h : a = b) : Orders .eq a b :=
  ⟨iff_of_false nofun (not_lt_of_ge (ge_of_eq h)), iff_of_false nofun (not_lt_of_ge (le_of_eq h))⟩

theorem orders_compare (a b : α) : Orders (compare a b) a b :=
  ⟨compare_lt_iff_lt, compare_gt_iff_gt⟩

theorem Orders.dual (h : Orders o a b) : Orders o (OrderDual.toDual b) (OrderDual.toDual a) := h

theorem Orders.lex (h : Orders o a b) (h' : Orders p c d) :
    Orders (o.then p) (toLex (a, c)) (toLex (b, d)) := by
  rcases h.cases with ⟨rfl, hlt⟩ | ⟨rfl, rfl⟩ | ⟨rfl, hgt⟩
  · exact orders_of_lt (Prod.Lex.toLex_lt_toLex.mpr (Or.inl hlt))
  · rcases h'.cases with ⟨rfl, hlt⟩ | ⟨rfl, rfl⟩ | ⟨rfl, hgt⟩
    · exact orders_of_lt (Prod.Lex.toLex_lt_toLex.mpr (Or.inr ⟨rfl, hlt⟩))
    · exact orders_of_eq rfl
    · exact orders_of_gt (Prod.Lex.toLex_lt_toLex.mpr (Or.inr ⟨rfl, hgt⟩))
  · exact orders_of_gt (Prod.Lex.toLex_lt_toLex.mpr (Or.inl hgt))

theorem Orders.cons {l m : List α} (h : Orders o a b) (h' : Orders p l m) :
    Orders (o.then p) (a :: l) (b :: m) := by
  rcases h.cases with ⟨rfl, hlt⟩ | ⟨rfl, rfl⟩ | ⟨rfl, hgt⟩
  · exact orders_of_lt (List.cons_lt_cons_iff.mpr (Or.inl hlt))
  · rcases h'.cases with ⟨rfl, hlt⟩ | ⟨rfl, rfl⟩ | ⟨rfl, hgt⟩
    · exact orders_of_lt (List.cons_lt_cons_iff.mpr (Or.inr ⟨rfl, hlt⟩))
    · exact orders_of_eq rfl
    · exact orders_of_gt (List.cons_lt_cons_iff.mpr (Or.inr ⟨rfl, hgt⟩))
  · exact orders_of_gt (List.cons_lt_cons_iff.mpr (Or.inl hgt))

end Orders

section Agree
variable {α κ : Type} [LinearOrder κ] {key : α → κ} {cmp : α → Ordering} {new e x : α}
  {f : α → α} {t : Tree α}

/-- The comparison with the new entry is that of the keys. -/
def Agrees (key : α → κ) (cmp : α → Ordering) (k : κ) (l : List α) : Prop :=
  ∀ b ∈ l, Orders (cmp b) (key b) k

theorem upsert_append_lt {l l' : List α} (h : ∀ b ∈ l, key b < key new) :
    upsert key new f (l ++ l') = l ++ upsert key new f l' := by
  induction l with
  | nil => rfl
  | cons b l ih =>
    obtain ⟨hb, hl⟩ := List.forall_mem_cons.mp h
    rw [List.cons_append, upsert, if_pos hb, ih hl]
    rfl

theorem upsert_append_cons_gt {l l' : List α} {a : α} (h : key new < key a) :
    upsert key new f (l ++ a :: l') = upsert key new f l ++ a :: l' := by
  induction l with
  | nil => exact (if_neg (not_lt_of_gt h)).trans (if_pos h)
  | cons b l ih =>
    rw [List.cons_append, upsert, upsert, ih]
    split_ifs <;> rfl

theorem Sorted.split {l l' : List α} {a : α} (h : Sorted key (l ++ a :: l')) :
    Sorted key l ∧ Sorted key l' ∧ (∀ b ∈ l, key b < key a) ∧ ∀ b ∈ l', key a < key b := by
  obtain ⟨hl, hr, hlr⟩ := List.pairwise_append.mp h
  obtain ⟨ha, hr⟩ := List.pairwise_cons.mp hr
  exact ⟨hl, hr, fun b hb => hlr b hb a (List.mem_cons_self ..), ha⟩

/-- What the walk finds, links or changes is what the sorted list says. -/
theorem Tree.upsert_toList (hs : Sorted key t.toList) (ha : Agrees key cmp (key new) t.toList) :
    upsert key new f t.toList = match t.find cmp with
      | some _ => (t.change cmp f).toList
      | none => (t.link cmp (f new)).toList := by
  induction t with
  | leaf => rfl
  | node l a r ihl ihr =>
    obtain ⟨hl, hr, hla, har⟩ := Sorted.split hs
    have hcmp := ha a (by rw [toList]; exact List.mem_append_right _ (List.mem_cons_self ..))
    have hal : Agrees key cmp (key new) l.toList := fun b hb =>
      ha b (by rw [toList]; exact List.mem_append_left _ hb)
    have har' : Agrees key cmp (key new) r.toList := fun b hb =>
      ha b (by rw [toList]; exact List.mem_append_right _ (List.mem_cons_of_mem _ hb))
    rw [toList, find, change, link]
    rcases hcmp.cases with ⟨hlt', hlt⟩ | ⟨heq', heq⟩ | ⟨hgt', hgt⟩
    · have hbelow : ∀ b ∈ l.toList, key b < key new := fun b hb => lt_trans (hla b hb) hlt
      rw [hlt', upsert_append_lt hbelow, upsert, if_pos hlt, ihr hr har']
      dsimp only
      cases r.find cmp with
      | none => rfl
      | some b => rfl
    · have hbelow : ∀ b ∈ l.toList, key b < key new := fun b hb => heq ▸ hla b hb
      rw [heq', upsert_append_lt hbelow, upsert, if_neg (not_lt.mpr (le_of_eq heq.symm)),
        if_neg (not_lt.mpr (le_of_eq heq))]
      rfl
    · rw [hgt', upsert_append_cons_gt hgt, ihl hl hal]
      dsimp only
      cases l.find cmp with
      | none => rfl
      | some b => rfl

theorem RbList.findnew_toList (bal : Rebalance α) {l : RbList α}
    (hs : Sorted key l.entries.toList) (ha : Agrees key cmp (key new) l.entries.toList) :
    (l.findnew bal cmp new f).entries.toList = upsert key new f l.entries.toList := by
  rw [Tree.upsert_toList hs ha, findnew]
  cases l.entries.find cmp with
  | some b => rfl
  | none => exact bal.toList_inserted _

theorem Tree.toList_map (f : α → α) (t : Tree α) : (t.map f).toList = t.toList.map f := by
  induction t with
  | leaf => rfl
  | node l a r ihl ihr => rw [map, toList, toList, ihl, ihr, List.map_append, List.map_cons]

theorem Tree.change_id (cmp : α → Ordering) (t : Tree α) : t.change cmp id = t := by
  induction t with
  | leaf => rfl
  | node l a r ihl ihr =>
    rw [change, ihl, ihr]
    cases cmp a <;> rfl

theorem RbList.addNode_toList (bal : Rebalance α) {l : RbList α}
    (hs : Sorted key l.entries.toList) (ha : Agrees key cmp (key e) l.entries.toList) :
    (l.addNode bal cmp e).entries.toList = upsert key e id l.entries.toList := by
  rw [Tree.upsert_toList hs ha, addNode, Tree.change_id]
  cases l.entries.find cmp with
  | some b => rfl
  | none => exact bal.toList_inserted _

end Agree

section Gather
variable {α ι κ : Type} [LinearOrder κ] {key : α → κ} {new : ι → α} {f : ι → α → α} {x : ι}
  {l : List α} {ins : List ι} {a b : α} {k : κ}

/-- The entry of a key. -/
def entryAt (key : α → κ) (k : κ) (l : List α) : Option α := l.find? fun a => key a = k

theorem Sorted.entryAt_eq (hs : Sorted key l) :
    entryAt key k l = some b ↔ b ∈ l ∧ key b = k := by
  constructor
  · intro h
    have hkey := List.find?_some (p := fun a => decide (key a = k)) h
    exact ⟨List.mem_of_find?_eq_some h, of_decide_eq_true hkey⟩
  · rintro ⟨hb, rfl⟩
    induction l with
    | nil => cases hb
    | cons c l ih =>
      obtain ⟨hc, hl⟩ := List.pairwise_cons.mp hs
      rcases List.mem_cons.mp hb with rfl | hb
      · exact List.find?_cons_of_pos (decide_eq_true rfl)
      · have hne : key c ≠ key b := ne_of_lt (hc b hb)
        exact (List.find?_cons_of_neg (by simpa using hne)).trans (ih hl hb)

theorem Sorted.entryAt_none (h : ∀ b ∈ l, k < key b) : entryAt key k l = none := by
  refine List.find?_eq_none.mpr fun b hb => ?_
  simpa using ne_of_gt (h b hb)

/-- The entry that `ins` leave, the first of which has made it. -/
def entryOf (new : ι → α) (f : ι → α → α) : List ι → Option α
  | [] => none
  | x :: xs => some (xs.foldl (fun a z => f z a) (f x (new x)))

theorem entryOf_concat (xs : List ι) (z : ι) :
    entryOf new f (xs ++ [z]) = some (f z ((entryOf new f xs).getD (new z))) := by
  cases xs with
  | nil => rfl
  | cons x xs => simp [entryOf]

/-- The inputs gathered by their keys. -/
def gather (key : α → κ) (new : ι → α) (f : ι → α → α) (ins : List ι) : List α :=
  ins.foldl (fun l x => upsert key (new x) (f x) l) []

/-- The inputs of one key. -/
def inputsOf (key : α → κ) (new : ι → α) (k : κ) (ins : List ι) : List ι :=
  ins.filter fun x => key (new x) = k

theorem inputsOf_concat (key : α → κ) (new : ι → α) (k : κ) (ins : List ι) (x : ι) :
    inputsOf key new k (ins ++ [x]) =
      if key (new x) = k then inputsOf key new k ins ++ [x] else inputsOf key new k ins := by
  simp only [inputsOf, List.filter_append, List.filter_cons, List.filter_nil, decide_eq_true_eq]
  split_ifs with h
  · rfl
  · exact List.append_nil _

theorem entryAt_cons (key : α → κ) (k : κ) (a : α) (l : List α) :
    entryAt key k (a :: l) = if key a = k then some a else entryAt key k l := by
  unfold entryAt
  split_ifs with h
  · exact List.find?_cons_of_pos (decide_eq_true h)
  · exact List.find?_cons_of_neg (by simpa using h)

theorem entryAt_upsert (hf : ∀ a, key (f x a) = key a) (hs : Sorted key l) (k : κ) :
    entryAt key k (upsert key (new x) (f x) l) =
      if key (new x) = k then some (f x ((entryAt key k l).getD (new x)))
      else entryAt key k l := by
  induction l with
  | nil =>
    rw [upsert, entryAt_cons, hf]
    rfl
  | cons c l ih =>
    obtain ⟨hc, hl⟩ := List.pairwise_cons.mp hs
    rw [upsert]
    by_cases hlt : key c < key (new x)
    · rw [if_pos hlt, entryAt_cons, ih hl, entryAt_cons]
      by_cases hck : key c = k
      · have hne : key (new x) ≠ k := fun h => ne_of_lt hlt (hck.trans h.symm)
        rw [if_pos hck, if_pos hck, if_neg hne]
      · rw [if_neg hck, if_neg hck]
    · rw [if_neg hlt]
      by_cases hgt : key (new x) < key c
      · have hnone : key (new x) = k → entryAt key k (c :: l) = none := by
          rintro rfl
          refine Sorted.entryAt_none fun d hd => ?_
          rcases List.mem_cons.mp hd with rfl | hd
          · exact hgt
          · exact lt_trans hgt (hc d hd)
        rw [if_pos hgt, entryAt_cons key k (f x (new x)), hf]
        split_ifs with hk
        · rw [hnone hk]
          rfl
        · rfl
      · have heq : key c = key (new x) := le_antisymm (not_lt.mp hgt) (not_lt.mp hlt)
        rw [if_neg hgt, entryAt_cons, entryAt_cons, hf, heq]
        split_ifs with hk
        · rfl
        · rfl

theorem mem_upsert (h : b ∈ upsert key (new x) (f x) l) :
    b ∈ l ∨ b = f x (new x) ∨ ∃ a ∈ l, b = f x a := by
  induction l with
  | nil => exact Or.inr (Or.inl (List.mem_singleton.mp h))
  | cons c l ih =>
    rw [upsert] at h
    split_ifs at h
    · rcases List.mem_cons.mp h with rfl | h
      · exact Or.inl (List.mem_cons_self ..)
      · rcases ih h with hb | hb | ⟨a, ha, hb⟩
        · exact Or.inl (List.mem_cons_of_mem _ hb)
        · exact Or.inr (Or.inl hb)
        · exact Or.inr (Or.inr ⟨a, List.mem_cons_of_mem _ ha, hb⟩)
    · rcases List.mem_cons.mp h with rfl | h
      · exact Or.inr (Or.inl rfl)
      · exact Or.inl h
    · rcases List.mem_cons.mp h with rfl | h
      · exact Or.inr (Or.inr ⟨c, List.mem_cons_self .., rfl⟩)
      · exact Or.inl (List.mem_cons_of_mem _ h)

theorem Sorted.upsert (hf : ∀ a, key (f x a) = key a) (hs : Sorted key l) :
    Sorted key (upsert key (new x) (f x) l) := by
  induction l with
  | nil => exact List.pairwise_singleton _ _
  | cons c l ih =>
    obtain ⟨hc, hl⟩ := List.pairwise_cons.mp hs
    rw [Rblist.upsert]
    split_ifs with hlt hgt
    · refine List.pairwise_cons.mpr ⟨fun d hd => ?_, ih hl⟩
      rcases mem_upsert hd with hd | rfl | ⟨a, ha, rfl⟩
      · exact hc d hd
      · rw [hf]
        exact hlt
      · rw [hf]
        exact hc a ha
    · refine List.pairwise_cons.mpr ⟨fun d hd => ?_, hs⟩
      rw [hf]
      rcases List.mem_cons.mp hd with rfl | hd
      · exact hgt
      · exact lt_trans hgt (hc d hd)
    · refine List.pairwise_cons.mpr ⟨fun d hd => ?_, hl⟩
      rw [hf]
      exact hc d hd

/-- What is in the list after an input: what was there under another key, and what `f` makes of the
entry of this one, which may be new. -/
theorem Sorted.mem_upsert_cases (hf : ∀ a, key (f x a) = key a) (hs : Sorted key l)
    (hb : b ∈ Rblist.upsert key (new x) (f x) l) :
    b ∈ l ∧ key b ≠ key (new x) ∨
      ∃ a, b = f x a ∧ (a ∈ l ∧ key a = key (new x) ∨ a = new x ∧ ∀ c ∈ l, key c ≠ key (new x)) := by
  have hentry := (hs.upsert hf).entryAt_eq.mpr ⟨hb, rfl⟩
  rw [entryAt_upsert hf hs] at hentry
  split_ifs at hentry with hk
  · right
    refine ⟨_, (Option.some.inj hentry).symm, ?_⟩
    rw [← hk]
    cases hold : entryAt key (key (new x)) l with
    | some a => exact .inl (hs.entryAt_eq.mp hold)
    | none =>
      refine .inr ⟨rfl, fun c hc hck => ?_⟩
      rw [hs.entryAt_eq.mpr ⟨hc, hck⟩] at hold
      cases hold
  · exact .inl ⟨(hs.entryAt_eq.mp hentry).1, fun h => hk h.symm⟩

theorem Sorted.key_upsert (hf : ∀ a, key (f x a) = key a) (hs : Sorted key l) (k : κ) :
    (∃ b ∈ Rblist.upsert key (new x) (f x) l, key b = k) ↔
      key (new x) = k ∨ ∃ b ∈ l, key b = k := by
  have hsome : ∀ {m : List α}, Sorted key m →
      ((∃ b ∈ m, key b = k) ↔ (entryAt key k m).isSome = true) := fun hm => by
    simp only [Option.isSome_iff_exists, hm.entryAt_eq]
  rw [hsome (hs.upsert hf), hsome hs, entryAt_upsert hf hs]
  split_ifs with hk
  · simp [hk]
  · simp [hk]

/-- One entry for each key, in order, which has seen exactly the inputs of that key. -/
theorem gather_spec (hf : ∀ x a, key (f x a) = key a) (ins : List ι) :
    Sorted key (gather key new f ins) ∧
      ∀ k, entryAt key k (gather key new f ins) = entryOf new f (inputsOf key new k ins) := by
  induction ins using List.reverseRecOn with
  | nil => exact ⟨List.Pairwise.nil, fun _ => rfl⟩
  | append_singleton ins x ih =>
    obtain ⟨hs, hentry⟩ := ih
    have hstep : gather key new f (ins ++ [x]) = upsert key (new x) (f x) (gather key new f ins) := by
      rw [gather, List.foldl_concat]
      rfl
    rw [hstep]
    refine ⟨hs.upsert (hf x), fun k => ?_⟩
    rw [entryAt_upsert (hf x) hs, hentry k, inputsOf_concat]
    split_ifs with hk
    · rw [entryOf_concat]
    · rfl

/-- Without equal keys nothing is dropped: the entries are sorted. -/
theorem upsert_perm {e : α} (h : ∀ b ∈ l, key b ≠ key e) :
    (upsert key e id l).Perm (e :: l) := by
  induction l with
  | nil => exact List.Perm.refl _
  | cons c l ih =>
    obtain ⟨hc, hl⟩ := List.forall_mem_cons.mp h
    rw [upsert]
    split_ifs with hlt hgt
    · exact ((ih hl).cons c).trans (List.Perm.swap e c l)
    · exact List.Perm.refl _
    · exact absurd (le_antisymm (not_lt.mp hgt) (not_lt.mp hlt)) hc

theorem gather_perm {l : List α} (h : (l.map key).Nodup) :
    (gather key id (fun _ => id) l).Perm l := by
  induction l using List.reverseRecOn with
  | nil => exact List.Perm.nil
  | append_singleton l x ih =>
    rw [List.map_append, List.nodup_append] at h
    obtain ⟨hl, -, hx⟩ := h
    have hp := ih hl
    rw [gather, List.foldl_concat]
    refine (upsert_perm fun b hb => ?_).trans ?_
    · exact hx _ (List.mem_map_of_mem (hp.mem_iff.mp hb)) _ (List.mem_singleton.mpr rfl)
    · exact (hp.cons x).trans (List.perm_append_singleton x l).symm

/-- Entries added one after the other are gathered by their keys. -/
theorem RbList.addNode_foldl (bal : Rebalance α) (cmps : α → α → Ordering)
    (horders : ∀ e b, Orders (cmps e b) (key b) (key e)) (l : List α) :
    (l.foldl (fun s e => RbList.addNode bal (cmps e) e s) (.init α)).entries.toList =
      gather key id (fun _ => id) l := by
  induction l using List.reverseRecOn with
  | nil => rfl
  | append_singleton l e ih =>
    rw [List.foldl_concat, gather, List.foldl_concat]
    generalize l.foldl (fun s e => RbList.addNode bal (cmps e) e s) (.init α) = sorted at ih ⊢
    have hsorted : Sorted key sorted.entries.toList := by
      rw [ih]
      exact (gather_spec (fun _ _ => rfl) l).1
    rw [RbList.addNode_toList bal hsorted (fun b _ => horders e b), ih]
    rfl

end Gather

section Coarse
variable {α κ : Type} [LinearOrder κ] {key : α → κ} {cmp : α → Ordering} {e : α} {t : Tree α}

/-- The comparison with `e` is right about entries whose keys differ. -/
def Respects (key : α → κ) (cmp : α → Ordering) (e : α) (l : List α) : Prop :=
  ∀ b ∈ l, (key b < key e → cmp b = .lt) ∧ (key e < key b → cmp b = .gt)

theorem Respects.tied {l : List α} {b : α} (h : Respects key cmp e l) (hb : b ∈ l)
    (heq : cmp b = .eq) : key b = key e := by
  obtain ⟨hlt, hgt⟩ := h b hb
  rcases lt_trichotomy (key b) (key e) with hk | hk | hk
  · rw [hlt hk] at heq
    cases heq
  · exact hk
  · rw [hgt hk] at heq
    cases heq

theorem Tree.mem_find {b : α} (h : t.find cmp = some b) : b ∈ t.toList ∧ cmp b = .eq := by
  induction t with
  | leaf => cases h
  | node l a r ihl ihr =>
    rw [find] at h
    split at h
    · obtain ⟨hb, heq⟩ := ihl h
      exact ⟨List.mem_append_left _ hb, heq⟩
    · obtain ⟨hb, heq⟩ := ihr h
      exact ⟨List.mem_append_right _ (List.mem_cons_of_mem _ hb), heq⟩
    · cases h
      exact ⟨List.mem_append_right _ (List.mem_cons_self ..), ‹_›⟩

/-- Where the walk does not stop, `e` is put between two neighbours, in the order of the key. -/
theorem Tree.link_toList (key : α → κ) (e : α) (h : t.find cmp = none) :
    ∃ l r, t.toList = l ++ r ∧ (t.link cmp e).toList = l ++ e :: r ∧
      ((t.toList.Pairwise fun a b => key a ≤ key b) → Respects key cmp e t.toList →
        (∀ b ∈ l, key b ≤ key e) ∧ ∀ b ∈ r, key e ≤ key b) := by
  induction t with
  | leaf => exact ⟨[], [], rfl, rfl, fun _ _ => ⟨nofun, nofun⟩⟩
  | node tl a tr ihl ihr =>
    rw [find] at h
    rw [toList, link]
    have hle : ∀ o, cmp a = o → o = .lt → Respects key cmp e (tl.toList ++ a :: tr.toList) →
        key a ≤ key e := by
      rintro o ho rfl hr
      by_contra hgt
      have hgt' := (hr a (List.mem_append_right _ (List.mem_cons_self ..))).2 (not_le.mp hgt)
      rw [ho] at hgt'
      cases hgt'
    have hge : ∀ o, cmp a = o → o = .gt → Respects key cmp e (tl.toList ++ a :: tr.toList) →
        key e ≤ key a := by
      rintro o ho rfl hr
      by_contra hlt
      have hlt' := (hr a (List.mem_append_right _ (List.mem_cons_self ..))).1 (not_le.mp hlt)
      rw [ho] at hlt'
      cases hlt'
    cases hcmp : cmp a with
    | gt =>
      rw [hcmp] at h
      obtain ⟨l, r, hsplit, hlink, hord⟩ := ihl h
      refine ⟨l, r ++ a :: tr.toList, ?_, ?_, ?_⟩
      · rw [hsplit, List.append_assoc]
      · rw [toList, hlink, List.append_assoc]
        rfl
      · intro hs hr
        obtain ⟨hsl, hsr, -⟩ := List.pairwise_append.mp hs
        obtain ⟨hl, hr'⟩ := hord hsl fun b hb => hr b (List.mem_append_left _ hb)
        have hea := hge _ hcmp rfl hr
        refine ⟨hl, fun b hb => ?_⟩
        rcases List.mem_append.mp hb with hb | hb
        · exact hr' b hb
        · rcases List.mem_cons.mp hb with rfl | hb
          · exact hea
          · exact le_trans hea ((List.pairwise_cons.mp hsr).1 b hb)
    | lt =>
      rw [hcmp] at h
      obtain ⟨l, r, hsplit, hlink, hord⟩ := ihr h
      refine ⟨tl.toList ++ a :: l, r, ?_, ?_, ?_⟩
      · rw [hsplit, List.append_assoc]
        rfl
      · rw [toList, hlink, List.append_assoc]
        rfl
      · intro hs hr
        obtain ⟨-, hsr, hlr⟩ := List.pairwise_append.mp hs
        obtain ⟨hl, hr'⟩ := hord (List.pairwise_cons.mp hsr).2 fun b hb =>
          hr b (List.mem_append_right _ (List.mem_cons_of_mem _ hb))
        have hae := hle _ hcmp rfl hr
        refine ⟨fun b hb => ?_, hr'⟩
        rcases List.mem_append.mp hb with hb | hb
        · exact le_trans (hlr b hb a (List.mem_cons_self ..)) hae
        · rcases List.mem_cons.mp hb with rfl | hb
          · exact hae
          · exact hl b hb
    | eq =>
      rw [hcmp] at h
      cases h

variable {bal : Rebalance α} {l : RbList α}

theorem RbList.addNode_coarse (hs : l.entries.toList.Pairwise fun a b => key a ≤ key b)
    (hr : Respects key cmp e l.entries.toList) :
    ((l.addNode bal cmp e).entries.toList.Pairwise fun a b => key a ≤ key b) ∧
      ((l.addNode bal cmp e).entries.toList.Perm (e :: l.entries.toList) ∨
        (l.addNode bal cmp e).entries.toList = l.entries.toList ∧
          ∃ b ∈ l.entries.toList, key b = key e) := by
  unfold addNode
  cases hfind : l.entries.find cmp with
  | some b =>
    obtain ⟨hb, heq⟩ := Tree.mem_find hfind
    exact ⟨hs, Or.inr ⟨rfl, b, hb, hr.tied hb heq⟩⟩
  | none =>
    obtain ⟨front, back, hsplit, hlink, hord⟩ := Tree.link_toList key e hfind
    obtain ⟨hfront, hback⟩ := hord hs hr
    dsimp only
    rw [bal.toList_inserted, hlink]
    rw [hsplit] at hs ⊢
    obtain ⟨hsf, hsb, hfb⟩ := List.pairwise_append.mp hs
    refine ⟨List.pairwise_append.mpr ⟨hsf, List.pairwise_cons.mpr ⟨hback, hsb⟩, ?_⟩,
      Or.inl List.perm_middle⟩
    intro a ha b hb
    rcases List.mem_cons.mp hb with rfl | hb
    · exact hfront a ha
    · exact hfb a ha b hb

/-- Each of `rows` at most once and in the order of the key; where one is missing there is another
of its key. -/
structure Collected (key : α → κ) (rows sorted : List α) : Prop where
  once : sorted.Subperm rows
  ordered : sorted.Pairwise fun a b => key a ≤ key b
  complete : ∀ r ∈ rows, ∃ b ∈ sorted, key b = key r

theorem Collected.mem_of_untied {rows sorted : List α} {r : α} (h : Collected key rows sorted)
    (hr : r ∈ rows) (huntied : ∀ b ∈ rows, key b = key r → b = r) : r ∈ sorted := by
  obtain ⟨b, hb, hkey⟩ := h.complete r hr
  exact huntied b (h.once.subset hb) hkey ▸ hb

/-- Rows added one after the other under comparisons that may be wrong about ties. -/
theorem collected_foldl (bal : Rebalance α) (cmps : α → α → Ordering) (rows : List α)
    (h : ∀ e ∈ rows, Respects key (cmps e) e rows) :
    Collected key rows
      (rows.foldl (fun s e => RbList.addNode bal (cmps e) e s) (.init α)).entries.toList := by
  suffices hall : ∀ done, done <+: rows → Collected key done
      (done.foldl (fun s e => RbList.addNode bal (cmps e) e s) (.init α)).entries.toList from
    hall rows (List.prefix_refl rows)
  intro done
  induction done using List.reverseRecOn with
  | nil =>
    intro _
    exact ⟨List.Subperm.refl _, List.Pairwise.nil, nofun⟩
  | append_singleton done e ih =>
    intro hpre
    have hdone := ih ((List.prefix_append done [e]).trans hpre)
    rw [List.foldl_concat]
    generalize done.foldl (fun s e => RbList.addNode bal (cmps e) e s) (.init α) = s at hdone ⊢
    have hsub : s.entries.toList ⊆ rows := fun b hb =>
      hpre.subset (List.mem_append_left _ (hdone.once.subset hb))
    have he : e ∈ rows := hpre.subset (List.mem_append_right _ (List.mem_singleton.mpr rfl))
    obtain ⟨hord, hcases⟩ := @RbList.addNode_coarse _ _ _ _ _ e bal _ hdone.ordered
      fun b hb => h e he b (hsub hb)
    refine ⟨?_, hord, ?_⟩
    · rcases hcases with hperm | ⟨hsame, -⟩
      · refine hperm.subperm.trans ?_
        refine (List.subperm_cons e).mpr hdone.once |>.trans ?_
        exact (List.perm_append_singleton e done).symm.subperm
      · rw [hsame]
        exact hdone.once.trans (List.sublist_append_left done [e]).subperm
    · intro r hr
      have hkeep : ∀ b ∈ s.entries.toList, b ∈ (s.addNode bal (cmps e) e).entries.toList := by
        intro b hb
        rcases hcases with hperm | ⟨hsame, -⟩
        · exact hperm.mem_iff.mpr (List.mem_cons_of_mem _ hb)
        · rw [hsame]
          exact hb
      rcases List.mem_append.mp hr with hr | hr
      · obtain ⟨b, hb, hkey⟩ := hdone.complete r hr
        exact ⟨b, hkeep b hb, hkey⟩
      · rw [List.mem_singleton.mp hr]
        rcases hcases with hperm | ⟨-, b, hb, hkey⟩
        · exact ⟨e, hperm.mem_iff.mpr (List.mem_cons_self ..), rfl⟩
        · exact ⟨b, hkeep b hb, hkey⟩

end Coarse

end PerfProf.Rblist
