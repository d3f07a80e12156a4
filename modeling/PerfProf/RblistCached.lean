import Mathlib.Data.Nat.Log
import PerfProf.RbWalk
import PerfProf.RedBlackErase

/-! lib/rblist.c over the red-black tree, with its count and its pointer to the first node. A pointer
to a node is its entry. Whatever is added, removed and cleared, no missing node is followed, and the
list is the sorted list of what it was given; a walk down takes no more than twice the logarithm. -/
namespace PerfProf.RedBlack
open PerfProf.Rblist

section Model
variable {α : Type}

/-- The walk of `rblist__add_node` and `__rblist__findnew`, with `leftmost`. -/
def walk (cmp : α → Ordering) : RbTree α → List (Frame α) → Bool → RbTree α × List (Frame α) × Bool
  | .nil, path, leftmost => (.nil, path, leftmost)
  | .node c l a r, path, leftmost => match cmp a with
    | .gt => walk cmp l (⟨.left, c, a, r⟩ :: path) leftmost
    | .lt => walk cmp r (⟨.right, c, a, l⟩ :: path) false
    | .eq => (.node c l a r, path, leftmost)

/-- A node in its tree. -/
structure Cursor (α : Type) where
  color : Color
  left : RbTree α
  entry : α
  right : RbTree α
  path : List (Frame α)

/-- The node that a pointer points to. -/
def seat [DecidableEq α] (x : α) : RbTree α → List (Frame α) → Option (Cursor α)
  | .nil, _ => none
  | .node c l a r, path =>
    if a = x then some ⟨c, l, a, r, path⟩
    else (seat x l (⟨.left, c, a, r⟩ :: path)).or (seat x r (⟨.right, c, a, l⟩ :: path))

/-- The way up of `rb_next`. -/
def climb : List (Frame α) → Option α
  | [] => none
  | f :: path => match f.side with
    | .right => climb path
    | .left => some f.entry

def rbNext (k : Cursor α) : Option α :=
  match leftmost k.right [] with
  | some (_, a, _, _) => some a
  | none => climb k.path

/-- `struct rblist`, with the cached root. -/
structure CachedList (α : Type) where
  root : RbTree α
  leftmost : Option α
  nrEntries : Nat

namespace CachedList

/-- `rblist__init`. -/
def init (α : Type) : CachedList α := ⟨.nil, none, 0⟩

/-- `rb_link_node` and `rb_insert_color_cached`. -/
def insert (l : CachedList α) (e : α) (path : List (Frame α)) (leftmost : Bool) : Option (CachedList α) :=
  (rbInsert path (.node .red .nil e .nil)).map fun root =>
    ⟨root, if leftmost then some e else l.leftmost, (l.nrEntries + 1) % 2 ^ 32⟩

/-- `rblist__add_node`, with whether the node was added; `node_new` makes `e`. -/
def addNode (cmp : α → Ordering) (e : α) (l : CachedList α) : Option (CachedList α × Bool) :=
  match walk cmp l.root [] true with
  | (.nil, path, leftmost) => (l.insert e path leftmost).map (·, true)
  | (.node _ _ _ _, _, _) => some (l, false)

/-- `rblist__findnew`, with the node. -/
def findnew (cmp : α → Ordering) (e : α) (l : CachedList α) : Option (CachedList α × α) :=
  match walk cmp l.root [] true with
  | (.nil, path, leftmost) => (l.insert e path leftmost).map (·, e)
  | (.node _ _ a _, _, _) => some (l, a)

/-- `rblist__remove_node`, of the node that `x` points to. -/
def removeNode [DecidableEq α] (x : α) (l : CachedList α) : Option (CachedList α) :=
  (seat x l.root []).bind fun k =>
    (rbErase k.path k.color k.left k.right).map fun root =>
      ⟨root, if l.leftmost = some x then rbNext k else l.leftmost, (l.nrEntries + (2 ^ 32 - 1)) % 2 ^ 32⟩

/-- The loop of `rblist__exit`, with the nodes that it has deleted. -/
def exitLoop [DecidableEq α] : Nat → Option α → CachedList α → List α → Option (CachedList α × List α)
  | _, none, l, out => some (l, out)
  | 0, some _, _, _ => none
  | fuel+1, some pos, l, out =>
    (seat pos l.root []).bind fun k =>
      (l.removeNode pos).bind fun l => exitLoop fuel (rbNext k) l (out ++ [pos])

/-- `rblist__exit`. -/
def exit [DecidableEq α] (l : CachedList α) : Option (CachedList α × List α) :=
  exitLoop l.root.toList.length l.leftmost l []

/-- The loop of `rblist__entry`; none inside where a pointer is not to a node of the tree. -/
def entryLoop [DecidableEq α] (root : RbTree α) : Nat → Option α → Option (Option α)
  | _, none => some none
  | 0, some node => some (some node)
  | idx+1, some node => (seat node root []).bind fun k => entryLoop root idx (rbNext k)

/-- `rblist__entry`. -/
def entry [DecidableEq α] (l : CachedList α) (idx : Nat) : Option (Option α) := entryLoop l.root idx l.leftmost

end CachedList

end Model

section Shape
variable {α : Type} {t : RbTree α} {cmp : α → Ordering} {a e x : α}

/-- The tree without its colors. -/
def RbTree.shape : RbTree α → Rblist.Tree α
  | .nil => .leaf
  | .node _ l a r => .node l.shape a r.shape

theorem RbTree.shape_toList (t : RbTree α) : t.shape.toList = t.toList := by
  induction t with
  | nil => rfl
  | node c l a r ihl ihr => rw [shape, Rblist.Tree.toList, ihl, ihr, toList]

theorem walk_plug (cmp : α → Ordering) (t : RbTree α) (path : List (Frame α)) (leftmost : Bool) :
    plug (walk cmp t path leftmost).1 (walk cmp t path leftmost).2.1 = plug t path := by
  induction t generalizing path leftmost with
  | nil => rfl
  | node c l a r ihl ihr =>
    rw [walk]
    cases cmp a with
    | lt => exact ihr _ false
    | eq => rfl
    | gt => exact ihl _ leftmost

/-- The walk ends at an equal entry, or where a new one is linked. -/
theorem walk_find (cmp : α → Ordering) (t : RbTree α) (path : List (Frame α)) (leftmost : Bool) :
    match (walk cmp t path leftmost).1 with
    | .nil => t.shape.find cmp = none ∧ ∀ e,
      (plug (.node .red .nil e .nil) (walk cmp t path leftmost).2.1).toList =
        before path ++ (t.shape.link cmp e).toList ++ after path
    | .node _ _ a _ => t.shape.find cmp = some a := by
  induction t generalizing path leftmost with
  | nil =>
    refine ⟨rfl, fun e => ?_⟩
    rw [walk, toList_plug]
    rfl
  | node c l a r ihl ihr =>
    rw [walk, RbTree.shape, Rblist.Tree.find]
    simp only [Rblist.Tree.link]
    cases cmp a with
    | lt =>
      have ih := ihr (⟨.right, c, a, l⟩ :: path) false
      dsimp only at ih ⊢
      cases hwalk : (walk cmp r (⟨.right, c, a, l⟩ :: path) false).1 with
      | node _ _ b _ =>
        rw [hwalk] at ih
        exact ih
      | nil =>
        rw [hwalk] at ih
        refine ⟨ih.1, fun e => (ih.2 e).trans ?_⟩
        simp [before, after, Frame.before, Frame.after, Rblist.Tree.toList, RbTree.shape_toList]
    | eq => rfl
    | gt =>
      have ih := ihl (⟨.left, c, a, r⟩ :: path) leftmost
      dsimp only at ih ⊢
      cases hwalk : (walk cmp l (⟨.left, c, a, r⟩ :: path) leftmost).1 with
      | node _ _ b _ =>
        rw [hwalk] at ih
        exact ih
      | nil =>
        rw [hwalk] at ih
        refine ⟨ih.1, fun e => (ih.2 e).trans ?_⟩
        simp [before, after, Frame.before, Frame.after, Rblist.Tree.toList, RbTree.shape_toList]

/-- `leftmost` stays set where the walk never goes right, so that nothing is before the new node. -/
theorem walk_leftmost (cmp : α → Ordering) (t : RbTree α) (path : List (Frame α)) (leftmost : Bool) :
    ∃ extra, before (walk cmp t path leftmost).2.1 = before path ++ extra ∧
      ((walk cmp t path leftmost).2.2 = true ↔ leftmost = true ∧ extra = []) := by
  induction t generalizing path leftmost with
  | nil => exact ⟨[], (List.append_nil _).symm, by simp [walk]⟩
  | node c l a r ihl ihr =>
    rw [walk]
    cases cmp a with
    | lt =>
      obtain ⟨extra, hbefore, hflag⟩ := ihr (⟨.right, c, a, l⟩ :: path) false
      refine ⟨l.toList ++ [a] ++ extra, ?_, ?_⟩
      · rw [hbefore]
        simp [before, Frame.before]
      · rw [hflag]
        simp
    | eq => exact ⟨[], (List.append_nil _).symm, by simp⟩
    | gt =>
      obtain ⟨extra, hbefore, hflag⟩ := ihl (⟨.left, c, a, r⟩ :: path) leftmost
      refine ⟨extra, ?_, hflag⟩
      rw [hbefore]
      simp [before, Frame.before]

end Shape

section Placement
variable {α : Type} {t l r : RbTree α} {cmp : α → Ordering} {a : α}
  {path : List (Frame α)} {c : Color} {n : Nat} {b : Bool}

/-- A subtree in its place in a red-black tree. -/
def Placed (t : RbTree α) (path : List (Frame α)) : Prop :=
  ∃ c n b, Rb t c n ∧ Around path b n ∧ (c = .red → b = true)

theorem Placed.root (h : IsRedBlack t) : Placed t [] := by
  obtain ⟨n, hn⟩ := h
  exact ⟨.black, n, false, hn, .root, by simp⟩

theorem Placed.left (h : Placed (.node c l a r) path) : Placed l (⟨.left, c, a, r⟩ :: path) := by
  obtain ⟨d, n, b, hrb, haround, hd⟩ := h
  cases hrb with
  | red hl hr => exact ⟨_, _, _, hl, .red hr (hd rfl ▸ haround), by simp⟩
  | black hl hr => exact ⟨_, _, _, hl, .black hr haround, fun _ => rfl⟩

theorem Placed.right (h : Placed (.node c l a r) path) : Placed r (⟨.right, c, a, l⟩ :: path) := by
  obtain ⟨d, n, b, hrb, haround, hd⟩ := h
  cases hrb with
  | red hl hr => exact ⟨_, _, _, hr, .red hl (hd rfl ▸ haround), by simp⟩
  | black hl hr => exact ⟨_, _, _, hr, .black hl haround, fun _ => rfl⟩

theorem walk_placed (cmp : α → Ordering) (h : Placed t path) (leftmost : Bool) :
    Placed (walk cmp t path leftmost).1 (walk cmp t path leftmost).2.1 := by
  induction t generalizing path leftmost with
  | nil => exact h
  | node c l a r ihl ihr =>
    rw [walk]
    cases cmp a with
    | lt => exact ihr h.right false
    | eq => exact h
    | gt => exact ihl h.left leftmost

theorem climb_eq (path : List (Frame α)) : climb path = (after path).head? := by
  induction path with
  | nil => rfl
  | cons f path ih =>
    rw [climb, after, Frame.after]
    cases f.side with
    | left => rfl
    | right => exact ih

/-- `rb_next` is the next entry in order. -/
theorem rbNext_eq (k : Cursor α) : rbNext k = (k.right.toList ++ after k.path).head? := by
  rw [rbNext]
  cases hleft : leftmost k.right [] with
  | some out =>
    obtain ⟨c, a, r, path⟩ := out
    obtain ⟨-, hlist⟩ := leftmost_toList hleft
    simp only [after, List.append_nil] at hlist
    rw [hlist]
    rfl
  | none =>
    have hnil : k.right = .nil := by
      by_contra hne
      exact leftmost_ne_none hne [] hleft
    rw [hnil]
    exact climb_eq k.path

end Placement

section Cursors
variable {α : Type} [DecidableEq α] {t : RbTree α} {x : α} {k : Cursor α} {path : List (Frame α)}

def Cursor.node (k : Cursor α) : RbTree α := .node k.color k.left k.entry k.right

theorem seat_placed (h : Placed t path) (hk : seat x t path = some k) :
    k.entry = x ∧ Placed k.node k.path ∧ plug k.node k.path = plug t path := by
  induction t generalizing path with
  | nil => cases hk
  | node c l a r ihl ihr =>
    rw [seat] at hk
    split at hk
    · rename_i heq
      cases hk
      exact ⟨heq, h, rfl⟩
    · cases hleft : seat x l (⟨.left, c, a, r⟩ :: path) with
      | some k' =>
        rw [hleft] at hk
        cases hk
        exact ihl h.left hleft
      | none =>
        rw [hleft] at hk
        exact ihr h.right hk

theorem seat_mem (h : x ∈ t.toList) (path : List (Frame α)) : ∃ k, seat x t path = some k := by
  induction t generalizing path with
  | nil => cases h
  | node c l a r ihl ihr =>
    rw [seat]
    by_cases heq : a = x
    · exact ⟨_, if_pos heq⟩
    · rw [if_neg heq]
      rw [RbTree.toList, List.mem_append, List.mem_cons] at h
      cases hleft : seat x l (⟨.left, c, a, r⟩ :: path) with
      | some k => exact ⟨k, rfl⟩
      | none =>
        obtain hin | rfl | hin := h
        · obtain ⟨k, hk⟩ := ihl hin (⟨.left, c, a, r⟩ :: path)
          rw [hk] at hleft
          cases hleft
        · exact absurd rfl heq
        · exact ihr hin _

/-- What a pointer to a node of the tree gives. -/
theorem seat_spec (h : IsRedBlack t) (hx : x ∈ t.toList) : ∃ k xs ys, seat x t [] = some k ∧
    Placed k.node k.path ∧ t.toList = xs ++ x :: ys ∧ rbNext k = ys.head? ∧
    before k.path ++ (k.left.toList ++ k.right.toList) ++ after k.path = xs ++ ys := by
  obtain ⟨k, hk⟩ := seat_mem hx []
  obtain ⟨rfl, hplaced, hplug⟩ := seat_placed (Placed.root h) hk
  refine ⟨k, before k.path ++ k.left.toList, k.right.toList ++ after k.path, hk, hplaced, ?_, rbNext_eq k, ?_⟩
  · have hlist := congrArg RbTree.toList hplug
    rw [toList_plug] at hlist
    rw [plug] at hlist
    rw [← hlist]
    simp [Cursor.node, RbTree.toList]
  · simp

end Cursors

section Operations
variable {α κ : Type} [LinearOrder κ] {key : α → κ} {cmp : α → Ordering} {e x : α} {l : CachedList α}
  {path : List (Frame α)} {xs ys : List α}

/-- The tree is red-black; the cached pointer and the count are those of its entries. -/
structure WellFormed (l : CachedList α) : Prop where
  redBlack : IsRedBlack l.root
  first : l.leftmost = l.root.toList.head?
  count : l.nrEntries = l.root.toList.length % 2 ^ 32

theorem WellFormed.init : WellFormed (CachedList.init α) := ⟨⟨0, .nil⟩, rfl, rfl⟩

/-- A new node where the walk has ended. -/
theorem insert_spec (cmp : α → Ordering) (h : WellFormed l) (hwalk : (walk cmp l.root [] true).1 = .nil) (e : α) :
    ∃ l', l.insert e (walk cmp l.root [] true).2.1 (walk cmp l.root [] true).2.2 = some l' ∧ WellFormed l' ∧
      l'.root.toList = (l.root.shape.link cmp e).toList := by
  have hplaced := walk_placed cmp (Placed.root h.redBlack) true
  have hplug := congrArg RbTree.toList (walk_plug cmp l.root [] true)
  have hfind := walk_find cmp l.root [] true
  obtain ⟨extra, hbefore, hflag⟩ := walk_leftmost cmp l.root [] true
  rw [hwalk] at hplaced hplug hfind
  generalize walk cmp l.root [] true = out at hplaced hplug hfind hbefore hflag ⊢
  obtain ⟨end_, path, leftmost⟩ := out
  dsimp only at hplaced hplug hfind hbefore hflag ⊢
  obtain ⟨c, n, b, hnil, haround, -⟩ := hplaced
  cases hnil
  obtain ⟨root, hinsert, hrb, hlist⟩ := rbInsert_spec haround (.red (a := e) .nil .nil)
  have hnew : root.toList = before path ++ e :: after path := by
    rw [hlist, toList_plug]
    simp [RbTree.toList]
  rw [toList_plug] at hplug
  simp only [RbTree.toList, List.append_nil, plug] at hplug
  refine ⟨⟨root, if leftmost then some e else l.leftmost, (l.nrEntries + 1) % 2 ^ 32⟩, ?_, ⟨hrb, ?_, ?_⟩, ?_⟩
  · rw [CachedList.insert, hinsert]
    rfl
  · show (if leftmost = true then some e else l.leftmost) = root.toList.head?
    rw [hnew, h.first, ← hplug]
    simp only [before, List.nil_append] at hbefore
    by_cases hleft : leftmost = true
    · rw [if_pos hleft, hbefore, (hflag.mp hleft).2]
      rfl
    · rw [if_neg hleft]
      cases hextra : extra with
      | nil => exact absurd (hflag.mpr ⟨rfl, hextra⟩) hleft
      | cons y extra =>
        rw [hbefore, hextra]
        rfl
  · show (l.nrEntries + 1) % 2 ^ 32 = root.toList.length % 2 ^ 32
    rw [hnew, h.count, ← hplug]
    simp only [List.length_append, List.length_cons]
    omega
  · show root.toList = _
    rw [hlist, hfind.2 e]
    simp [before, after]

/-- `rblist__add_node`, and `rblist__findnew`. -/
theorem addNode_spec (e : α) (h : WellFormed l) (hs : Sorted key l.root.toList)
    (ha : Agrees key cmp (key e) l.root.toList) :
    ∃ l' added, l.addNode cmp e = some (l', added) ∧ WellFormed l' ∧
      l'.root.toList = upsert key e id l.root.toList ∧ added = (l.root.shape.find cmp).isNone ∧
      l.findnew cmp e = some (l', (l.root.shape.find cmp).getD e) := by
  rw [← RbTree.shape_toList] at hs ha
  have hupsert := Tree.upsert_toList (f := id) hs ha
  rw [RbTree.shape_toList, Tree.change_id] at hupsert
  have hfind := walk_find cmp l.root [] true
  have hinsert := insert_spec cmp h
  unfold CachedList.addNode CachedList.findnew
  generalize walk cmp l.root [] true = out at hfind hinsert ⊢
  obtain ⟨t, path, leftmost⟩ := out
  cases t with
  | nil =>
    obtain ⟨l', heq, hwf, hlist⟩ := hinsert rfl e
    refine ⟨l', true, ?_, hwf, ?_, ?_, ?_⟩
    · simp only [heq, Option.map_some]
    · rw [hupsert, hfind.1]
      exact hlist
    · rw [hfind.1]
      rfl
    · simp only [heq, Option.map_some, hfind.1, Option.getD_none]
  | node c tl a tr =>
    have hfind : l.root.shape.find cmp = some a := hfind
    refine ⟨l, false, rfl, h, ?_, ?_, ?_⟩
    · rw [hupsert, hfind]
      exact (RbTree.shape_toList l.root).symm
    · rw [hfind]
      rfl
    · rw [hfind]
      rfl

section Pointers
variable [DecidableEq α]

/-- A node is the entry at one place only. -/
theorem split_unique {xs' ys' : List α} (hnodup : (xs ++ x :: ys).Nodup) (h : xs ++ x :: ys = xs' ++ x :: ys') :
    xs = xs' ∧ ys = ys' := by
  have hx : x ∉ xs := fun hin => by
    obtain ⟨-, -, hne⟩ := List.nodup_append.mp hnodup
    exact hne x hin x (List.mem_cons_self ..) rfl
  have hx' : x ∉ xs' := fun hin => by
    rw [h] at hnodup
    obtain ⟨-, -, hne⟩ := List.nodup_append.mp hnodup
    exact hne x hin x (List.mem_cons_self ..) rfl
  have hlen := congrArg (List.idxOf x) h
  rw [List.idxOf_append_of_notMem hx, List.idxOf_append_of_notMem hx', List.idxOf_cons_self,
    List.idxOf_cons_self] at hlen
  obtain ⟨rfl, hrest⟩ := List.append_inj h (by omega)
  exact ⟨rfl, List.tail_eq_of_cons_eq hrest⟩

/-- `rblist__remove_node`, and `rb_next` before it. -/
theorem removeNode_spec (h : WellFormed l) (hnodup : l.root.toList.Nodup) (xs : List α)
    (hlist : l.root.toList = xs ++ x :: ys) :
    ∃ k l', seat x l.root [] = some k ∧ rbNext k = ys.head? ∧ l.removeNode x = some l' ∧ WellFormed l' ∧
      l'.root.toList = xs ++ ys := by
  have hx : x ∈ l.root.toList := by
    rw [hlist]
    exact List.mem_append_right _ (List.mem_cons_self ..)
  obtain ⟨k, xs', ys', hk, ⟨c, n, b, hrb, haround, hc⟩, hsplit, hnext, hrest⟩ := seat_spec h.redBlack hx
  have hsame := hlist.symm.trans hsplit
  rw [hlist] at hnodup
  obtain ⟨rfl, rfl⟩ := split_unique hnodup hsame
  have hcolor : c = k.color := by
    cases k with
    | mk color left entry right path =>
      cases hrb with
      | red _ _ => rfl
      | black _ _ => rfl
  subst hcolor
  obtain ⟨root, herase, hroot, herased⟩ := rbErase_spec hrb haround hc
  rw [hrest] at herased
  refine ⟨k, ⟨root, if l.leftmost = some x then rbNext k else l.leftmost, (l.nrEntries + (2 ^ 32 - 1)) % 2 ^ 32⟩,
    hk, hnext, ?_, ⟨hroot, ?_, ?_⟩, herased⟩
  · rw [CachedList.removeNode, hk, Option.bind_some, herase]
    rfl
  · show (if l.leftmost = some x then rbNext k else l.leftmost) = root.toList.head?
    rw [herased, h.first, hlist, hnext]
    cases xs with
    | nil => exact if_pos rfl
    | cons y xs =>
      refine if_neg fun heq => ?_
      cases Option.some.inj heq
      rw [List.cons_append, List.nodup_cons] at hnodup
      exact hnodup.1 (List.mem_append_right _ (List.mem_cons_self ..))
  · show (l.nrEntries + (2 ^ 32 - 1)) % 2 ^ 32 = root.toList.length % 2 ^ 32
    rw [herased, h.count, hlist]
    simp only [List.length_append, List.length_cons]
    omega

theorem exitLoop_spec (fuel : Nat) (out : List α) (h : WellFormed l) (hnodup : l.root.toList.Nodup)
    (hfuel : l.root.toList.length ≤ fuel) : ∃ l', CachedList.exitLoop fuel l.root.toList.head? l out =
      some (l', out ++ l.root.toList) ∧ WellFormed l' ∧ l'.root.toList = [] := by
  induction fuel generalizing l out with
  | zero =>
    have hnil := List.eq_nil_of_length_eq_zero (Nat.le_zero.mp hfuel)
    rw [hnil]
    exact ⟨l, by rw [List.append_nil]; rfl, h, hnil⟩
  | succ fuel ih =>
    cases hlist : l.root.toList with
    | nil => exact ⟨l, by rw [List.append_nil]; rfl, h, hlist⟩
    | cons pos rest =>
      obtain ⟨k, l₁, hk, hnext, hremove, hwf, hrest⟩ := removeNode_spec h hnodup [] hlist
      rw [List.nil_append] at hrest
      rw [hlist, List.nodup_cons] at hnodup
      rw [hlist, List.length_cons] at hfuel
      obtain ⟨l', hloop, hwf', hnil⟩ := ih (out ++ [pos]) hwf (hrest ▸ hnodup.2) (by rw [hrest]; omega)
      refine ⟨l', ?_, hwf', hnil⟩
      rw [List.head?_cons, CachedList.exitLoop, hk, Option.bind_some, hremove, Option.bind_some, hnext, ← hrest,
        hloop, List.append_assoc]
      rfl

/-- `rblist__exit` deletes each node once, in order. -/
theorem exit_spec (h : WellFormed l) (hnodup : l.root.toList.Nodup) :
    ∃ l', l.exit = some (l', l.root.toList) ∧ WellFormed l' ∧ l'.root.toList = [] := by
  rw [CachedList.exit, h.first]
  exact exitLoop_spec _ [] h hnodup le_rfl

theorem entryLoop_spec (h : WellFormed l) (hnodup : l.root.toList.Nodup) (idx : Nat) (xs : List α)
    (hlist : l.root.toList = xs ++ ys) : CachedList.entryLoop l.root idx ys.head? = some ys[idx]? := by
  induction idx generalizing xs ys with
  | zero =>
    cases ys with
    | nil => rfl
    | cons y ys => rfl
  | succ idx ih =>
    cases ys with
    | nil => rfl
    | cons y ys =>
      obtain ⟨k, -, hk, hnext, -⟩ := removeNode_spec h hnodup _ hlist
      have hsplit : l.root.toList = (xs ++ [y]) ++ ys := by simpa using hlist
      have hrest := ih (xs ++ [y]) hsplit
      rw [List.head?_cons, CachedList.entryLoop, hk, Option.bind_some, hnext, hrest]
      rfl

/-- `rblist__entry` is the entry with the index. -/
theorem entry_spec (h : WellFormed l) (hnodup : l.root.toList.Nodup) (idx : Nat) :
    l.entry idx = some l.root.toList[idx]? := by
  rw [CachedList.entry, h.first]
  exact entryLoop_spec h hnodup idx [] rfl

end Pointers

end Operations

section Depth
variable {α : Type} {t : RbTree α} {c : Color} {n : Nat}

/-- The number of nodes on the longest way down. -/
def RbTree.depth : RbTree α → Nat
  | .nil => 0
  | .node _ l _ r => max l.depth r.depth + 1

theorem walk_length (cmp : α → Ordering) (t : RbTree α) (path : List (Frame α)) (leftmost : Bool) :
    (walk cmp t path leftmost).2.1.length ≤ path.length + t.depth := by
  induction t generalizing path leftmost with
  | nil => exact le_rfl
  | node c l a r ihl ihr =>
    rw [walk, RbTree.depth]
    cases cmp a with
    | lt =>
      have ih := ihr (⟨.right, c, a, l⟩ :: path) false
      rw [List.length_cons] at ih
      dsimp only
      omega
    | eq =>
      dsimp only
      omega
    | gt =>
      have ih := ihl (⟨.left, c, a, r⟩ :: path) leftmost
      rw [List.length_cons] at ih
      dsimp only
      omega

/-- By the black nodes the tree is full to half of its depth. -/
theorem Rb.depth_le (h : Rb t c n) :
    t.depth ≤ 2 * n + (if c = .red then 1 else 0) ∧ 2 ^ n ≤ t.toList.length + 1 := by
  induction h with
  | nil => exact ⟨le_rfl, le_rfl⟩
  | red _ _ ihl ihr =>
    rw [RbTree.depth, RbTree.toList, List.length_append, List.length_cons]
    simp only [reduceCtorEq, if_false, if_true] at ihl ihr ⊢
    omega
  | @black l r _ c c' n _ _ ihl ihr =>
    have hcolor : ∀ d : Color, (if d = .red then 1 else 0) ≤ 1 := fun d => by split <;> omega
    have hl := hcolor c
    have hr := hcolor c'
    rw [RbTree.depth, RbTree.toList, List.length_append, List.length_cons, Nat.pow_succ]
    simp only [reduceCtorEq, if_false]
    omega

theorem IsRedBlack.depth_le (h : IsRedBlack t) : t.depth ≤ 2 * Nat.log 2 (t.toList.length + 1) := by
  obtain ⟨n, hn⟩ := h
  obtain ⟨hdepth, hsize⟩ := hn.depth_le
  have hlog := Nat.le_log_of_pow_le (by omega) hsize
  simp only [reduceCtorEq, if_false] at hdepth
  omega

end Depth

/-- What a profiler does with its list. -/
inductive Op (α : Type) where
  | add (e : α)
  | remove (x : α)
  | clear

section Runs
variable {α κ : Type} [DecidableEq α] [LinearOrder κ] {key : α → κ} {cmps : α → α → Ordering} {ops : List (Op α)}

def CachedList.step (cmps : α → α → Ordering) (l : CachedList α) : Op α → Option (CachedList α)
  | .add e => (l.addNode (cmps e) e).map Prod.fst
  | .remove x => l.removeNode x
  | .clear => l.exit.map Prod.fst

def CachedList.run (cmps : α → α → Ordering) (ops : List (Op α)) : Option (CachedList α) :=
  ops.foldlM (CachedList.step cmps) (.init α)

def contentStep (key : α → κ) (entries : List α) : Op α → List α
  | .add e => upsert key e id entries
  | .remove x => entries.erase x
  | .clear => []

/-- The sorted list of what was added and is still there. -/
def contents (key : α → κ) (ops : List (Op α)) : List α := ops.foldl (contentStep key) []

/-- A node that is removed is in the list. -/
def Pointed (key : α → κ) (ops : List (Op α)) : Prop :=
  ∀ pre x post, ops = pre ++ .remove x :: post → x ∈ contents key pre

/-- The same on the list with rotations that are not known. -/
def unknownStep (bal : Rebalance α) (cmps : α → α → Ordering) (l : RbList α) : Op α → RbList α
  | .add e => l.addNode bal (cmps e) e
  | .remove x => match l.remove bal (cmps x) with
    | some (_, l') => l'
    | none => l
  | .clear => (l.drainAll bal (fun _ _ => ()) ()).1

theorem unknownStep_toList (bal : Rebalance α) (horders : ∀ e b, Orders (cmps e b) (key b) (key e))
    {l : RbList α} (hs : Sorted key l.entries.toList) (op : Op α)
    (hop : ∀ x, op = .remove x → x ∈ l.entries.toList) :
    (unknownStep bal cmps l op).entries.toList = contentStep key l.entries.toList op := by
  cases op with
  | add e => exact RbList.addNode_toList bal hs fun b _ => horders e b
  | clear => exact (RbList.drainAll_eq bal (fun _ _ => ()) l ()).2.1
  | remove x =>
    have hx := hop x rfl
    have hagrees : Agrees key (cmps x) (key x) l.entries.toList := fun b _ => horders x b
    cases hfind : l.entries.find (cmps x) with
    | none =>
      have hnone := (Tree.find_none (hs.rises hagrees)).mp hfind x hx
      exact absurd ((hagrees.eq_iff hx).mpr rfl) hnone
    | some b =>
      obtain ⟨heq, xs, ys, hlist, -, t', hremove, hrest⟩ := Tree.find_some hfind
      have hb : b ∈ l.entries.toList := by
        rw [hlist]
        exact List.mem_append_right _ (List.mem_cons_self ..)
      obtain rfl : b = x := hs.eq_of_key hb hx ((hagrees.eq_iff hb).mp heq)
      have hnot : b ∉ xs := fun hin => by
        have hnodup := hs.nodup
        rw [hlist] at hnodup
        exact (List.nodup_append.mp hnodup).2.2 b hin b (List.mem_cons_self ..) rfl
      rw [unknownStep, RbList.remove, hremove]
      refine (bal.toList_erased t').trans ?_
      rw [contentStep, hrest, hlist, List.erase_append_right _ hnot, List.erase_cons_head]

/-- The operations on the real list, one at a time. -/
theorem step_spec (horders : ∀ e b, Orders (cmps e b) (key b) (key e)) {l : CachedList α} (h : WellFormed l)
    (hs : Sorted key l.root.toList) (op : Op α) (hop : ∀ x, op = .remove x → x ∈ l.root.toList) :
    ∃ l', l.step cmps op = some l' ∧ WellFormed l' ∧ l'.root.toList = contentStep key l.root.toList op := by
  cases op with
  | add e =>
    obtain ⟨l', added, heq, hwf, hlist, -⟩ := addNode_spec e h hs fun b _ => horders e b
    refine ⟨l', ?_, hwf, hlist⟩
    rw [CachedList.step, heq]
    rfl
  | remove x =>
    obtain ⟨xs, ys, hlist⟩ := List.append_of_mem (hop x rfl)
    obtain ⟨-, l', -, -, heq, hwf, hrest⟩ := removeNode_spec h hs.nodup xs hlist
    have hnot : x ∉ xs := fun hin => by
      have hnodup := hs.nodup
      rw [hlist] at hnodup
      exact (List.nodup_append.mp hnodup).2.2 x hin x (List.mem_cons_self ..) rfl
    refine ⟨l', heq, hwf, ?_⟩
    rw [contentStep, hrest, hlist, List.erase_append_right _ hnot, List.erase_cons_head]
  | clear =>
    obtain ⟨l', heq, hwf, hnil⟩ := exit_spec h hs.nodup
    refine ⟨l', ?_, hwf, hnil⟩
    rw [CachedList.step, heq]
    rfl

theorem contents_concat (key : α → κ) (ops : List (Op α)) (op : Op α) :
    contents key (ops ++ [op]) = contentStep key (contents key ops) op := by
  rw [contents, List.foldl_append]
  rfl

theorem contents_sorted (key : α → κ) (ops : List (Op α)) : Sorted key (contents key ops) := by
  induction ops using List.reverseRecOn with
  | nil => exact .nil
  | append_singleton ops op ih =>
    rw [contents_concat]
    cases op with
    | add e =>
      exact @Sorted.upsert α Unit κ _ key (fun _ => e) (fun _ => id) () _ (fun _ => rfl) ih
    | remove x => exact List.Pairwise.sublist List.erase_sublist ih
    | clear => exact .nil

/-- After any operations the list is in order and holds the entries that any search tree with these operations
holds. -/
theorem run_spec (horders : ∀ e b, Orders (cmps e b) (key b) (key e)) (hpointed : Pointed key ops) :
    ∃ l, CachedList.run cmps ops = some l ∧ WellFormed l ∧ l.root.toList = contents key ops ∧
      ∀ bal : Rebalance α, (ops.foldl (unknownStep bal cmps) (.init α)).entries.toList = l.root.toList := by
  induction ops using List.reverseRecOn with
  | nil => exact ⟨.init α, rfl, .init, rfl, fun _ => rfl⟩
  | append_singleton ops op ih =>
    obtain ⟨l, heq, hwf, hlist, hbal⟩ := ih fun pre x post hops =>
      hpointed pre x (post ++ [op]) (by rw [hops, List.append_assoc, List.cons_append])
    have hsorted : Sorted key l.root.toList := hlist ▸ contents_sorted key ops
    have hop : ∀ x, op = .remove x → x ∈ l.root.toList := by
      rintro x rfl
      rw [hlist]
      exact hpointed ops x [] rfl
    obtain ⟨l', hstep, hwf', hlist'⟩ := step_spec horders hwf hsorted op hop
    refine ⟨l', ?_, hwf', ?_, fun bal => ?_⟩
    · rw [CachedList.run, List.foldlM_append]
      rw [CachedList.run] at heq
      rw [heq]
      simp [hstep]
    · rw [hlist', contents_concat, hlist]
    · rw [List.foldl_append, List.foldl_cons, List.foldl_nil]
      rw [unknownStep_toList bal horders ((hbal bal).symm ▸ hsorted) op fun x hx => (hbal bal).symm ▸ hop x hx]
      rw [hlist', hbal bal]

/-- Whatever is added, removed and cleared: no missing node is followed, the tree is red-black, the
cached pointer and the count are right, and the entries are the sorted list, as on any search tree
whose rotations keep the order. A walk down visits no more than twice the logarithm. -/
theorem rblist_runs (horders : ∀ e b, Orders (cmps e b) (key b) (key e)) (hpointed : Pointed key ops) :
    ∃ l, CachedList.run cmps ops = some l ∧ WellFormed l ∧ Sorted key l.root.toList ∧
      l.root.toList = contents key ops ∧
      (∀ bal : Rebalance α, (ops.foldl (unknownStep bal cmps) (.init α)).entries.toList = l.root.toList) ∧
      ∀ cmp, (walk cmp l.root [] true).2.1.length ≤ 2 * Nat.log 2 (l.root.toList.length + 1) := by
  obtain ⟨l, heq, hwf, hlist, hbal⟩ := run_spec horders hpointed
  refine ⟨l, heq, hwf, ?_, hlist, hbal, fun cmp => ?_⟩
  · rw [hlist]
    exact contents_sorted key ops
  · have hlength := walk_length cmp l.root [] true
    rw [List.length_nil, Nat.zero_add] at hlength
    exact hlength.trans hwf.redBlack.depth_le

/-- After any operations, taking one entry after the other by its index, and deleting them all while the
tree is rebalanced under the pointer to the next, meets each entry once, in order. -/
theorem rblist_walks (horders : ∀ e b, Orders (cmps e b) (key b) (key e)) (hpointed : Pointed key ops) :
    ∃ l, CachedList.run cmps ops = some l ∧ (∀ idx, l.entry idx = some (contents key ops)[idx]?) ∧
      ∃ l', l.exit = some (l', contents key ops) ∧ l'.root.toList = [] ∧ l'.leftmost = none ∧ l'.nrEntries = 0 := by
  obtain ⟨l, heq, hwf, hlist, -⟩ := run_spec horders hpointed
  have hsorted : Sorted key l.root.toList := hlist ▸ contents_sorted key ops
  obtain ⟨l', hexit, hwf', hnil⟩ := exit_spec hwf hsorted.nodup
  have hfirst := hwf'.first
  have hcount := hwf'.count
  rw [hnil] at hfirst hcount
  exact ⟨l, heq, fun idx => hlist ▸ entry_spec hwf hsorted.nodup idx, l', hlist ▸ hexit, hnil, hfirst, hcount⟩

/-- Keys that come in order, and a removal. -/
def rising : List (Op Nat) := [.add 1, .add 2, .add 3, .add 4, .remove 2]

theorem rising_pointed : Pointed (id : Nat → Nat) rising := by
  intro pre x post heq
  have hsplit : rising = [.add 1, .add 2, .add 3, .add 4] ++ [.remove 2] := rfl
  rw [hsplit] at heq
  obtain rfl | ⟨post', y, rfl⟩ := List.eq_nil_or_concat post
  · obtain ⟨rfl, hx⟩ := List.append_inj' heq rfl
    cases hx
    decide
  · rw [List.concat_eq_append, ← List.cons_append, ← List.append_assoc] at heq
    have hin : Op.remove x ∈ [Op.add 1, .add 2, .add 3, .add 4] := by
      rw [(List.append_inj' heq rfl).1]
      exact List.mem_append_right _ (List.mem_cons_self ..)
    simp at hin

theorem rblist_runs_rising : ∃ l, CachedList.run (fun e b : Nat => compare b e) rising = some l ∧
    l.root.toList = [1, 3, 4] ∧ l.leftmost = some 1 := by
  obtain ⟨l, heq, hwf, -, hlist, -⟩ := rblist_runs (fun e b => orders_compare b e) rising_pointed
  have hcontents : l.root.toList = [1, 3, 4] := hlist
  exact ⟨l, heq, hcontents, by rw [hwf.first, hcontents]; rfl⟩

theorem rblist_walks_rising : ∃ l, CachedList.run (fun e b : Nat => compare b e) rising = some l ∧
    l.entry 1 = some (some 3) := by
  obtain ⟨l, heq, hentry, -⟩ := rblist_walks (fun e b => orders_compare b e) rising_pointed
  exact ⟨l, heq, hentry 1⟩

end Runs

end PerfProf.RedBlack
