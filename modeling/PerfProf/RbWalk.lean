import Mathlib.Data.List.TakeWhile
import PerfProf.RbTree

/-! The walk down a search tree under a comparison that rises along the entries, and the walk to the
first entry that is not below. -/
namespace PerfProf.Rblist

section Model
variable {α : Type}

/-- The loop of `rblist__find_first`, with the last candidate. -/
def Tree.findFirst (cmp : α → Ordering) : Tree α → Option α → Option α
  | leaf, found => found
  | node l a r, found => match cmp a with
    | .lt => findFirst cmp r found
    | _ => findFirst cmp l (some a)

/-- `rblist__find_first`; none if the comparison is given the first entry of an empty list, which is
not there. -/
def RbList.findFirst (cmp : α → Ordering) (l : RbList α) : Option (Option α) :=
  match l.entries.toList.head? with
  | none => none
  | some first => if cmp first = .lt then some (l.entries.findFirst cmp none) else some (some first)

/-- The first entry is changed in place. -/
def Tree.changeHead (f : α → α) : Tree α → Tree α
  | leaf => leaf
  | node leaf a r => node leaf (f a) r
  | node l a r => node (changeHead f l) a r

/-- The entry that the walk to the first ends with is changed in place. -/
def Tree.changeFirst (cmp : α → Ordering) (f : α → α) : Tree α → Option (Tree α)
  | leaf => none
  | node l a r => match cmp a with
    | .lt => (changeFirst cmp f r).map fun r => node l a r
    | _ => match changeFirst cmp f l with
      | some l => some (node l a r)
      | none => some (node l (f a) r)

/-- The node that `rblist__find_first` returns is changed in place. -/
def RbList.changeFirst (cmp : α → Ordering) (f : α → α) (l : RbList α) : RbList α :=
  match l.entries.toList.head? with
  | none => l
  | some first =>
    if cmp first = .lt then { l with entries := (l.entries.changeFirst cmp f).getD l.entries }
    else { l with entries := l.entries.changeHead f }

/-- What is below stands before what is not. -/
def Splits (cmp : α → Ordering) (l : List α) : Prop := l.Pairwise fun a b => cmp b = .lt → cmp a = .lt

/-- What is below stands before what is not, what is above behind. -/
def Rises (cmp : α → Ordering) (l : List α) : Prop :=
  l.Pairwise fun a b => (cmp b = .lt → cmp a = .lt) ∧ (cmp a = .gt → cmp b = .gt)

end Model

section Walk
variable {α : Type} {cmp : α → Ordering} {t : Tree α} {l r : List α} {a b e : α}

theorem Rises.left (h : Rises cmp (l ++ a :: r)) : Rises cmp l :=
  (List.pairwise_append.mp h).1

theorem Rises.right (h : Rises cmp (l ++ a :: r)) : Rises cmp r :=
  (List.pairwise_cons.mp (List.pairwise_append.mp h).2.1).2

theorem Rises.before (h : Rises cmp (l ++ a :: r)) (ha : cmp a = .lt) (hb : b ∈ l) : cmp b = .lt :=
  ((List.pairwise_append.mp h).2.2 b hb a List.mem_cons_self).1 ha

theorem Rises.behind (h : Rises cmp (l ++ a :: r)) (ha : cmp a = .gt) (hb : b ∈ r) : cmp b = .gt :=
  ((List.pairwise_cons.mp (List.pairwise_append.mp h).2.1).1 b hb).2 ha

/-- An entry that is equal is found. -/
theorem Tree.find_none (h : Rises cmp t.toList) :
    t.find cmp = none ↔ ∀ b ∈ t.toList, cmp b ≠ .eq := by
  induction t with
  | leaf => exact iff_of_true rfl (List.forall_mem_nil _)
  | node l a r ihl ihr =>
    have hall : (∀ b ∈ (node l a r).toList, cmp b ≠ .eq) ↔
        (∀ b ∈ l.toList, cmp b ≠ .eq) ∧ cmp a ≠ .eq ∧ ∀ b ∈ r.toList, cmp b ≠ .eq := by
      rw [toList, List.forall_mem_append, List.forall_mem_cons]
    rw [hall, find]
    cases hcmp : cmp a with
    | lt =>
      have hl : ∀ b ∈ l.toList, cmp b ≠ .eq := by
        intro b hb
        rw [h.before hcmp hb]
        decide
      dsimp only
      rw [ihr h.right]
      exact ⟨fun hr => ⟨hl, by decide, hr⟩, fun h => h.2.2⟩
    | eq => exact iff_of_false (Option.some_ne_none a) fun h => absurd rfl h.2.1
    | gt =>
      have hr : ∀ b ∈ r.toList, cmp b ≠ .eq := by
        intro b hb
        rw [h.behind hcmp hb]
        decide
      dsimp only
      rw [ihl h.left]
      exact ⟨fun hl => ⟨hl, by decide, hr⟩, fun h => h.1⟩

/-- What is found can be changed in place or taken out. -/
theorem Tree.find_some (h : t.find cmp = some b) : cmp b = .eq ∧ ∃ xs ys, t.toList = xs ++ b :: ys ∧
    (∀ f, (t.change cmp f).toList = xs ++ f b :: ys) ∧
      ∃ t', t.remove cmp = some (b, t') ∧ t'.toList = xs ++ ys := by
  induction t with
  | leaf => cases h
  | node l a r ihl ihr =>
    rw [find] at h
    cases hcmp : cmp a with
    | lt =>
      rw [hcmp] at h
      obtain ⟨heq, xs, ys, hlist, hchange, t', hremove, hrest⟩ := ihr h
      refine ⟨heq, l.toList ++ a :: xs, ys, ?_, fun f => ?_, node l a t', ?_, ?_⟩
      · rw [toList, hlist, List.append_assoc, List.cons_append]
      · rw [change, hcmp]
        dsimp only
        rw [toList, hchange, List.append_assoc, List.cons_append]
      · rw [remove, hcmp]
        dsimp only
        rw [hremove, Option.map_some]
      · rw [toList, hrest, List.append_assoc, List.cons_append]
    | eq =>
      rw [hcmp] at h
      cases h
      refine ⟨hcmp, l.toList, r.toList, rfl, fun f => ?_, l.join r, ?_, toList_join l r⟩
      · rw [change, hcmp]
        rfl
      · rw [remove, hcmp]
    | gt =>
      rw [hcmp] at h
      obtain ⟨heq, xs, ys, hlist, hchange, t', hremove, hrest⟩ := ihl h
      refine ⟨heq, xs, ys ++ a :: r.toList, ?_, fun f => ?_, node t' a r, ?_, ?_⟩
      · rw [toList, hlist, List.append_assoc, List.cons_append]
      · rw [change, hcmp]
        dsimp only
        rw [toList, hchange, List.append_assoc, List.cons_append]
      · rw [remove, hcmp]
        dsimp only
        rw [hremove, Option.map_some]
      · rw [toList, hrest, List.append_assoc]

/-- A new entry is put between what is below and what is above. -/
theorem Tree.link_between (h : Rises cmp t.toList) (hne : ∀ b ∈ t.toList, cmp b ≠ .eq) :
    ∃ xs ys, t.toList = xs ++ ys ∧ (t.link cmp e).toList = xs ++ e :: ys ∧
      (∀ b ∈ xs, cmp b = .lt) ∧ ∀ b ∈ ys, cmp b = .gt := by
  induction t with
  | leaf => exact ⟨[], [], rfl, rfl, nofun, nofun⟩
  | node l a r ihl ihr =>
    rw [toList, List.forall_mem_append, List.forall_mem_cons] at hne
    obtain ⟨hl, ha, hr⟩ := hne
    rw [link]
    cases hcmp : cmp a with
    | lt =>
      obtain ⟨xs, ys, hlist, hlink, hbelow, habove⟩ := ihr h.right hr
      refine ⟨l.toList ++ a :: xs, ys, ?_, ?_, ?_, habove⟩
      · rw [toList, hlist, List.append_assoc, List.cons_append]
      · rw [toList, hlink, List.append_assoc, List.cons_append]
      · rw [List.forall_mem_append, List.forall_mem_cons]
        exact ⟨fun b hb => h.before hcmp hb, hcmp, hbelow⟩
    | eq => exact absurd hcmp ha
    | gt =>
      obtain ⟨xs, ys, hlist, hlink, hbelow, habove⟩ := ihl h.left hl
      refine ⟨xs, ys ++ a :: r.toList, ?_, ?_, hbelow, ?_⟩
      · rw [toList, hlist, List.append_assoc]
      · rw [toList, hlink, List.append_assoc, List.cons_append]
      · rw [List.forall_mem_append, List.forall_mem_cons]
        exact ⟨habove, hcmp, fun b hb => h.behind hcmp hb⟩

theorem Tree.link_ne_nil (cmp : α → Ordering) (e : α) (t : Tree α) : (t.link cmp e).toList ≠ [] := by
  cases t with
  | leaf => exact List.cons_ne_nil _ _
  | node l a r =>
    rw [link]
    cases cmp a <;> exact List.append_ne_nil_of_right_ne_nil _ (List.cons_ne_nil _ _)

theorem Rises.splits (h : Rises cmp l) : Splits cmp l := h.imp fun hboth => hboth.1

theorem Tree.findFirst_eq (h : Splits cmp t.toList) (found : Option α) :
    t.findFirst cmp found = (t.toList.find? fun b => cmp b != .lt).or found := by
  induction t generalizing found with
  | leaf => rfl
  | node l a r ihl ihr =>
    obtain ⟨hleft, hright, hbefore⟩ := List.pairwise_append.mp h
    rw [findFirst, toList, List.find?_append, List.find?_cons]
    cases hcmp : cmp a with
    | lt =>
      have hl : (l.toList.find? fun b => cmp b != .lt) = none := by
        rw [List.find?_eq_none]
        intro b hb
        rw [hbefore b hb a List.mem_cons_self hcmp]
        decide
      dsimp only
      rw [ihr (List.pairwise_cons.mp hright).2, hl]
      rfl
    | eq =>
      dsimp only
      rw [ihl hleft]
      cases l.toList.find? fun b => cmp b != .lt <;> rfl
    | gt =>
      dsimp only
      rw [ihl hleft]
      cases l.toList.find? fun b => cmp b != .lt <;> rfl

/-- A lower bound, where there is an entry to begin with. -/
theorem RbList.findFirst_eq {l : RbList α} (h : Splits cmp l.entries.toList)
    (hne : l.entries.toList ≠ []) :
    l.findFirst cmp = some (l.entries.toList.find? fun b => cmp b != .lt) := by
  rw [findFirst, Tree.findFirst_eq h, Option.or_none]
  cases hlist : l.entries.toList with
  | nil => exact absurd hlist hne
  | cons a rest =>
    rw [List.head?_cons, List.find?_cons]
    dsimp only
    by_cases hcmp : cmp a = .lt
    · rw [if_pos hcmp, hcmp]
    · have hne : (cmp a != .lt) = true := bne_iff_ne.mpr hcmp
      rw [if_neg hcmp, hne]

theorem Tree.changeHead_toList (f : α → α) (t : Tree α) {rest : List α} (h : t.toList = a :: rest) :
    (t.changeHead f).toList = f a :: rest := by
  induction t generalizing rest with
  | leaf => cases h
  | node l b r ihl ihr =>
    cases l with
    | leaf =>
      cases h
      rfl
    | node ll c lr =>
      have hne : (node ll c lr).toList ≠ [] := List.append_ne_nil_of_right_ne_nil _ (List.cons_ne_nil _ _)
      obtain ⟨x, front, hfront⟩ := List.exists_cons_of_ne_nil hne
      rw [toList, hfront, List.cons_append, List.cons.injEq] at h
      obtain ⟨rfl, rfl⟩ := h
      rw [changeHead, toList, ihl hfront, List.cons_append]
      simp

theorem Tree.changeFirst_none (h : ∀ b ∈ t.toList, cmp b = .lt) (f : α → α) :
    t.changeFirst cmp f = none := by
  induction t with
  | leaf => rfl
  | node l a r ihl ihr =>
    rw [toList, List.forall_mem_append, List.forall_mem_cons] at h
    rw [changeFirst, h.2.1]
    dsimp only
    rw [ihr h.2.2, Option.map_none]

/-- The first entry that is not below is changed. -/
theorem Tree.changeFirst_toList {xs ys : List α} (hrises : Rises cmp t.toList)
    (h : t.toList = xs ++ a :: ys) (hxs : ∀ b ∈ xs, cmp b = .lt) (ha : cmp a ≠ .lt) (f : α → α) :
    ∃ t', t.changeFirst cmp f = some t' ∧ t'.toList = xs ++ f a :: ys := by
  induction t generalizing xs ys with
  | leaf => cases xs <;> cases h
  | node l b r ihl ihr =>
    -- the entry on top
    have htop (hl : l.toList = xs) (hb : b = a) (hr : r.toList = ys) :
        ∃ t', (node l b r).changeFirst cmp f = some t' ∧ t'.toList = xs ++ f a :: ys := by
      subst hl hb hr
      refine ⟨node l (f b) r, ?_, rfl⟩
      rw [changeFirst, changeFirst_none hxs f]
      cases hcmp : cmp b with
      | lt => exact absurd hcmp ha
      | eq => rfl
      | gt => rfl
    rw [toList] at h hrises
    rcases List.append_eq_append_iff.mp h with ⟨m, rfl, hm⟩ | ⟨m, hl, hm⟩
    · cases m with
      | nil =>
        cases hm
        exact htop (List.append_nil _).symm rfl rfl
      | cons c m =>
        rw [List.cons_append, List.cons.injEq] at hm
        obtain ⟨rfl, hr⟩ := hm
        rw [List.forall_mem_append, List.forall_mem_cons] at hxs
        obtain ⟨t', ht', hlist⟩ := ihr hrises.right hr hxs.2.2
        refine ⟨node l b t', ?_, ?_⟩
        · rw [changeFirst, hxs.2.1]
          dsimp only
          rw [ht', Option.map_some]
        · rw [toList, hlist, List.append_assoc, List.cons_append]
    · cases m with
      | nil =>
        cases hm
        exact htop (hl.trans (List.append_nil _)) rfl rfl
      | cons c m =>
        rw [List.cons_append, List.cons.injEq] at hm
        obtain ⟨rfl, rfl⟩ := hm
        obtain ⟨t', ht', hlist⟩ := ihl hrises.left hl hxs
        have hmem : a ∈ l.toList := hl ▸ List.mem_append_right _ List.mem_cons_self
        refine ⟨node t' b r, ?_, ?_⟩
        · rw [changeFirst, ht']
          cases hcmp : cmp b with
          | lt => exact absurd (hrises.before hcmp hmem) ha
          | eq => rfl
          | gt => rfl
        · rw [toList, hlist, List.append_assoc, List.cons_append]

/-- The node of the lower bound is changed. -/
theorem RbList.changeFirst_toList {l : RbList α} {xs ys : List α} (hrises : Rises cmp l.entries.toList)
    (h : l.entries.toList = xs ++ a :: ys) (hxs : ∀ b ∈ xs, cmp b = .lt) (ha : cmp a ≠ .lt)
    (f : α → α) : (l.changeFirst cmp f).entries.toList = xs ++ f a :: ys := by
  obtain ⟨t', ht', hlist⟩ := Tree.changeFirst_toList hrises h hxs ha f
  unfold changeFirst
  cases xs with
  | nil =>
    rw [List.nil_append] at h
    rw [h, List.head?_cons]
    dsimp only
    rw [if_neg ha]
    exact Tree.changeHead_toList f l.entries h
  | cons x xs =>
    rw [h, List.cons_append, List.head?_cons]
    dsimp only
    rw [if_pos (hxs x List.mem_cons_self), ht']
    exact hlist

end Walk

section Keys
variable {α κ : Type} [LinearOrder κ] {key : α → κ} {cmp : α → Ordering} {k : κ} {l : List α}

theorem Sorted.rises (hs : Sorted key l) (ha : Agrees key cmp k l) : Rises cmp l := by
  refine List.Pairwise.imp_of_mem (fun {a b} hma hmb hlt => ⟨fun hb => ?_, fun hgt => ?_⟩) hs
  · exact (ha a hma).1.mpr (lt_trans hlt ((ha b hmb).1.mp hb))
  · exact (ha b hmb).2.mpr (lt_trans ((ha a hma).2.mp hgt) hlt)

/-- No two entries have one key. -/
theorem Sorted.eq_of_key {a b : α} (hs : Sorted key l) (ha : a ∈ l) (hb : b ∈ l) (heq : key a = key b) :
    a = b := by
  obtain ⟨xs, ys, rfl⟩ := List.append_of_mem ha
  obtain ⟨-, -, hxs, hys⟩ := hs.split
  rcases List.mem_append.mp hb with hb | hb
  · exact absurd (hxs b hb) (heq ▸ lt_irrefl _)
  · rcases List.mem_cons.mp hb with rfl | hb
    · rfl
    · exact absurd (hys b hb) (heq ▸ lt_irrefl _)

theorem Agrees.eq_iff {b : α} (ha : Agrees key cmp k l) (hb : b ∈ l) : cmp b = .eq ↔ key b = k := by
  obtain ⟨hlt, hgt⟩ := ha b hb
  constructor
  · intro heq
    rw [heq] at hlt hgt
    exact le_antisymm (not_lt.mp fun h => nomatch hgt.mpr h) (not_lt.mp fun h => nomatch hlt.mpr h)
  · intro hk
    cases hcmp : cmp b with
    | eq => rfl
    | lt => exact absurd (hlt.mp hcmp) (hk ▸ lt_irrefl _)
    | gt => exact absurd (hgt.mp hcmp) (hk ▸ lt_irrefl _)

/-- An entry of a new key is added. -/
theorem RbList.addNode_new (bal : Rebalance α) {e : α} {l : RbList α} (hs : Sorted key l.entries.toList)
    (ha : Agrees key cmp (key e) l.entries.toList) (hnew : ∀ b ∈ l.entries.toList, key b ≠ key e) :
    l.entries.find cmp = none ∧ Sorted key (l.addNode bal cmp e).entries.toList ∧
      ∀ c, c ∈ (l.addNode bal cmp e).entries.toList ↔ c = e ∨ c ∈ l.entries.toList := by
  have hrises := hs.rises ha
  have hne : ∀ b ∈ l.entries.toList, cmp b ≠ .eq := fun b hb heq => hnew b hb ((ha.eq_iff hb).mp heq)
  have hfind := (Tree.find_none hrises).mpr hne
  refine ⟨hfind, ?_, fun c => ?_⟩
  · rw [addNode_toList bal hs ha]
    exact @Sorted.upsert _ Unit _ _ key (fun _ => e) (fun _ => id) () _ (fun _ => rfl) hs
  · obtain ⟨xs, ys, hlist, hlink, -, -⟩ := Tree.link_between (e := e) hrises hne
    unfold addNode
    rw [hfind]
    dsimp only
    rw [bal.toList_inserted, hlink, hlist]
    simp only [List.mem_append, List.mem_cons]
    exact or_left_comm

end Keys

section Raise
variable {α : Type}

def Tree.ofList : List α → Tree α
  | [] => leaf
  | a :: l => node leaf a (ofList l)

theorem Tree.toList_ofList (l : List α) : (ofList l).toList = l := by
  induction l with
  | nil => rfl
  | cons a l ih => rw [ofList, toList, ih, toList, List.nil_append]

variable [DecidableEq α] {a : α} {t : Tree α}

/-- The tree with an entry on top, if it is there. -/
def Tree.raise (a : α) (t : Tree α) : Tree α :=
  match t.toList.dropWhile (· ≠ a) with
  | [] => t
  | b :: r => node (ofList (t.toList.takeWhile (· ≠ a))) b (ofList r)

theorem Tree.toList_raise (a : α) (t : Tree α) : (t.raise a).toList = t.toList := by
  unfold raise
  cases hdrop : t.toList.dropWhile (· ≠ a) with
  | nil => rfl
  | cons b r =>
    dsimp only
    rw [toList, toList_ofList, toList_ofList, ← hdrop]
    exact List.takeWhile_append_dropWhile

theorem Tree.raise_of_mem (h : a ∈ t.toList) : ∃ l r, t.raise a = node l a r := by
  unfold raise
  cases hdrop : t.toList.dropWhile (· ≠ a) with
  | nil =>
    have hne := List.dropWhile_eq_nil_iff.mp hdrop a h
    exact absurd rfl (of_decide_eq_true hne)
  | cons b r =>
    have hb := List.head?_dropWhile_not (fun b => decide (b ≠ a)) t.toList
    rw [hdrop] at hb
    have hba : b = a := by simpa using hb
    exact ⟨_, _, by rw [hba]⟩

/-- Rotations that always bring one entry to the top. -/
def Rebalance.raise (a : α) : Rebalance α := ⟨Tree.raise a, Tree.raise a, Tree.toList_raise a, Tree.toList_raise a⟩

end Raise

end PerfProf.Rblist
