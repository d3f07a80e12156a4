import Mathlib.Data.List.Basic

/-! lib/rbtree.c: insertion into red-black trees. A node is given with the path from it up to the
root, which stands for the parent pointers. -/
namespace PerfProf.RedBlack

section Model
variable {α : Type*}

inductive Color where
  | red
  | black
deriving DecidableEq

inductive RbTree (α : Type*) where
  | nil
  | node (color : Color) (left : RbTree α) (entry : α) (right : RbTree α)
deriving DecidableEq

inductive Side where
  | left
  | right
deriving DecidableEq

namespace RbTree

def isRed : RbTree α → Bool
  | node .red _ _ _ => true
  | _ => false

/-- `rb_set_parent_color` of a node that may be missing. -/
def paint (c : Color) : RbTree α → RbTree α
  | nil => nil
  | node _ l a r => node c l a r

def toList : RbTree α → List α
  | nil => []
  | node _ l a r => l.toList ++ a :: r.toList

/-- A node with the child `near` on the given side. -/
def build : Side → Color → RbTree α → α → RbTree α → RbTree α
  | .left, c, near, a, far => node c near a far
  | .right, c, near, a, far => node c far a near

/-- The color, the child on the given side, the entry and the other child. -/
def split : Side → RbTree α → Option (Color × RbTree α × α × RbTree α)
  | _, nil => none
  | .left, node c l a r => some (c, l, a, r)
  | .right, node c l a r => some (c, r, a, l)

end RbTree

end Model

open RbTree (build)

section Insert
variable {α : Type*}

/-- A node above the one at hand, which is its child on `side`; `sibling` is the other child. -/
structure Frame (α : Type*) where
  side : Side
  color : Color
  entry : α
  sibling : RbTree α

/-- The tree of the path with `t` at its lower end. -/
def plug (t : RbTree α) : List (Frame α) → RbTree α
  | [] => t
  | f :: path => plug (build f.side f.color t f.entry f.sibling) path

/-- `__rb_insert` of a red node; none where a missing node is followed. The two halves of its loop
are the same up to the side that the parent is on. -/
def rbInsert : List (Frame α) → RbTree α → Option (RbTree α)
  | [], node => some (node.paint .black)
  | [parent], node => if parent.color = .black then some (plug node [parent]) else none
  | parent :: gparent :: path, node =>
    if parent.color = .black then some (plug node (parent :: gparent :: path))
    else if gparent.sibling.isRed then
      -- Case 1
      rbInsert path (build gparent.side .red (build parent.side .black node parent.entry parent.sibling)
        gparent.entry (gparent.sibling.paint .black))
    else if parent.side = gparent.side then
      -- Case 3
      some (plug (build gparent.side gparent.color node parent.entry
        (build gparent.side .red (parent.sibling.paint .black) gparent.entry gparent.sibling)) path)
    else
      -- Case 2, and Case 3 with the node as the parent
      match node.split gparent.side with
      | none => none
      | some (_, near, entry, far) =>
        some (plug (build gparent.side gparent.color
          (build gparent.side .red parent.sibling parent.entry (near.paint .black)) entry
          (build gparent.side .red (far.paint .black) gparent.entry gparent.sibling)) path)

end Insert

section Order
variable {α : Type*} {t near far : RbTree α} {a : α} {c c' : Color} {side : Side}

/-- The entries in order, given by the side. -/
def arrange : Side → List α → α → List α → List α
  | .left, near, a, far => near ++ a :: far
  | .right, near, a, far => far ++ a :: near

@[simp] theorem toList_paint (c : Color) (t : RbTree α) : (t.paint c).toList = t.toList := by
  cases t with
  | nil => rfl
  | node _ _ _ _ => rfl

@[simp] theorem toList_build (side : Side) (c : Color) (near : RbTree α) (a : α) (far : RbTree α) :
    (build side c near a far).toList = arrange side near.toList a far.toList := by
  cases side with
  | left => rfl
  | right => rfl

theorem split_some (h : t.split side = some (c, near, a, far)) : t = build side c near a far := by
  cases t with
  | nil => cases side <;> cases h
  | node c' l b r =>
    cases side with
    | left =>
      cases h
      rfl
    | right =>
      cases h
      rfl

@[simp] theorem split_build (side : Side) (c : Color) (near : RbTree α) (a : α) (far : RbTree α) :
    (build side c near a far).split side = some (c, near, a, far) := by
  cases side with
  | left => rfl
  | right => rfl

/-- The entries before the lower end of a path, and those behind it. -/
def Frame.before (f : Frame α) : List α :=
  match f.side with
  | .left => []
  | .right => f.sibling.toList ++ [f.entry]

def Frame.after (f : Frame α) : List α :=
  match f.side with
  | .left => f.entry :: f.sibling.toList
  | .right => []

def before : List (Frame α) → List α
  | [] => []
  | f :: path => before path ++ f.before

def after : List (Frame α) → List α
  | [] => []
  | f :: path => f.after ++ after path

theorem arrange_eq (f : Frame α) (l : List α) :
    arrange f.side l f.entry f.sibling.toList = f.before ++ l ++ f.after := by
  unfold Frame.before Frame.after
  cases f.side with
  | left => rfl
  | right => simp [arrange]

theorem toList_plug (t : RbTree α) (path : List (Frame α)) :
    (plug t path).toList = before path ++ t.toList ++ after path := by
  induction path generalizing t with
  | nil => simp [plug, before, after]
  | cons f path ih =>
    rw [plug, ih, toList_build, arrange_eq, before, after]
    simp only [List.append_assoc]

theorem plug_congr {t' : RbTree α} (h : t.toList = t'.toList) (path : List (Frame α)) :
    (plug t path).toList = (plug t' path).toList := by
  rw [toList_plug, toList_plug, h]

theorem arrange_assoc (side : Side) (l m r : List α) (a b : α) :
    arrange side (arrange side l a m) b r = arrange side l a (arrange side m b r) := by
  cases side with
  | left => simp [arrange]
  | right => simp [arrange]

theorem arrange_swap {side side' : Side} (h : side ≠ side') (l r : List α) (a : α) :
    arrange side l a r = arrange side' r a l := by
  cases side with
  | left =>
    cases side' with
    | left => exact absurd rfl h
    | right => rfl
  | right =>
    cases side' with
    | left => rfl
    | right => exact absurd rfl h

end Order

section Invariants
variable {α : Type*} {t near far : RbTree α} {a : α} {c c' : Color} {side : Side} {n : Nat} {b : Bool}

/-- A red node has no red child, and all paths down have the same number of black nodes. -/
inductive Rb {α : Type*} : RbTree α → Color → Nat → Prop where
  | nil : Rb .nil .black 0
  | red {l r : RbTree α} {a : α} {n : Nat} : Rb l .black n → Rb r .black n → Rb (.node .red l a r) .red n
  | black {l r : RbTree α} {a : α} {c c' : Color} {n : Nat} :
    Rb l c n → Rb r c' n → Rb (.node .black l a r) .black (n + 1)

/-- A path that takes a tree with `n` black nodes on each path down; the tree may be red if `b`. -/
inductive Around {α : Type*} : List (Frame α) → Bool → Nat → Prop where
  | root {n : Nat} : Around [] false n
  | red {side : Side} {a : α} {sibling : RbTree α} {path : List (Frame α)} {n : Nat} :
    Rb sibling .black n → Around path true n → Around (⟨side, .red, a, sibling⟩ :: path) false n
  | black {side : Side} {a : α} {sibling : RbTree α} {c : Color} {path : List (Frame α)} {b : Bool} {n : Nat} :
    Rb sibling c n → Around path b (n + 1) → Around (⟨side, .black, a, sibling⟩ :: path) true n

/-- The root of a red-black tree is black. -/
def IsRedBlack (t : RbTree α) : Prop := ∃ n, Rb t .black n

theorem Rb.paint (h : Rb t c n) : ∃ m, Rb (t.paint .black) .black m := by
  cases h with
  | nil => exact ⟨0, .nil⟩
  | red hl hr => exact ⟨_, .black hl hr⟩
  | black hl hr => exact ⟨_, .black hl hr⟩

theorem rb_build_red (side : Side) (hnear : Rb near .black n) (hfar : Rb far .black n) :
    Rb (build side .red near a far) .red n := by
  cases side with
  | left => exact .red hnear hfar
  | right => exact .red hfar hnear

theorem rb_build_black (side : Side) (hnear : Rb near c n) (hfar : Rb far c' n) :
    Rb (build side .black near a far) .black (n + 1) := by
  cases side with
  | left => exact .black hnear hfar
  | right => exact .black hfar hnear

theorem Around.plug {path : List (Frame α)} (h : Around path b n) (ht : Rb t c n) (hc : c = .red → b = true) :
    IsRedBlack (plug t path) := by
  induction h generalizing t c with
  | root =>
    cases c with
    | red => cases hc rfl
    | black => exact ⟨_, ht⟩
  | red hs _ ih =>
    cases c with
    | red => cases hc rfl
    | black => exact ih (rb_build_red _ ht hs) fun _ => rfl
  | black hs _ ih => exact ih (rb_build_black _ ht hs) (by simp)

theorem Rb.paint_black (h : Rb t .black n) : t.paint .black = t := by
  cases h with
  | nil => rfl
  | black _ _ => rfl

theorem Rb.of_isRed (h : Rb t c n) (hred : t.isRed = true) : Rb (t.paint .black) .black (n + 1) := by
  cases h with
  | nil => cases hred
  | red hl hr => exact .black hl hr
  | black _ _ => cases hred

theorem Rb.of_not_isRed (h : Rb t c n) (hred : ¬ t.isRed = true) : Rb t .black n := by
  cases h with
  | nil => exact .nil
  | red _ _ => exact absurd rfl hred
  | black hl hr => exact .black hl hr

theorem rb_split (side : Side) (h : t.split side = some (c, near, a, far)) (ht : Rb t c' n) :
    c = c' ∧ (c = .red → Rb near .black n ∧ Rb far .black n) ∧
      (c = .black → ∃ d d' m, n = m + 1 ∧ Rb near d m ∧ Rb far d' m) := by
  cases ht with
  | nil =>
    cases side with
    | left => cases h
    | right => cases h
  | red hl hr =>
    cases side with
    | left =>
      cases h
      exact ⟨rfl, fun _ => ⟨hl, hr⟩, by simp⟩
    | right =>
      cases h
      exact ⟨rfl, fun _ => ⟨hr, hl⟩, by simp⟩
  | black hl hr =>
    cases side with
    | left =>
      cases h
      exact ⟨rfl, by simp, fun _ => ⟨_, _, _, rfl, hl, hr⟩⟩
    | right =>
      cases h
      exact ⟨rfl, by simp, fun _ => ⟨_, _, _, rfl, hr, hl⟩⟩

theorem Around.of_black {f : Frame α} {path : List (Frame α)} (h : Around (f :: path) b n)
    (hf : f.color = .black) : b = true := by
  cases h with
  | red _ _ => cases hf
  | black _ _ => rfl

/-- Where a red node is set into a red-black tree, the loop ends without following a missing node; the
tree is red-black, with the same entries in order. -/
theorem rbInsert_spec {path : List (Frame α)} (h : Around path b n) (ht : Rb t .red n) :
    ∃ t', rbInsert path t = some t' ∧ IsRedBlack t' ∧ t'.toList = (plug t path).toList := by
  induction path, t using rbInsert.induct generalizing b n with
  | case1 node => exact ⟨_, rfl, ht.paint, toList_paint .black node⟩
  | case2 parent node hblack =>
    refine ⟨_, by rw [rbInsert, if_pos hblack], ?_, rfl⟩
    exact h.plug ht fun _ => h.of_black hblack
  | case3 parent node hred =>
    cases h with
    | red _ h => cases h
    | black _ _ => exact absurd rfl hred
  | case4 parent gparent path node hblack =>
    refine ⟨_, by rw [rbInsert, if_pos hblack], ?_, rfl⟩
    exact h.plug ht fun _ => h.of_black hblack
  | case5 parent gparent path node hred huncle ih =>
    cases h with
    | black _ _ => exact absurd rfl hred
    | red hs h =>
      cases h with
      | black hu h =>
        obtain ⟨t', heq, hrb, hlist⟩ := ih h (rb_build_red _ (rb_build_black _ ht hs) (hu.of_isRed huncle))
        refine ⟨t', ?_, hrb, ?_⟩
        · rw [rbInsert, if_neg hred, if_pos huncle]
          exact heq
        · rw [hlist]
          refine plug_congr ?_ path
          simp only [toList_build, toList_paint]
  | case6 parent gparent path node hred huncle hside =>
    cases h with
    | black _ _ => exact absurd rfl hred
    | red hs h =>
      cases h with
      | black hu h =>
        refine ⟨_, by rw [rbInsert, if_neg hred, if_neg huncle, if_pos hside], ?_, ?_⟩
        · rw [hs.paint_black]
          exact h.plug (rb_build_black _ ht (rb_build_red _ hs (hu.of_not_isRed huncle))) (by simp)
        · refine plug_congr ?_ path
          cases hside
          simp only [toList_build, toList_paint, arrange_assoc]
  | case7 parent gparent path node hred huncle hside hnil =>
    cases ht with
    | red _ _ =>
      cases hg : gparent.side with
      | left =>
        rw [hg] at hnil
        cases hnil
      | right =>
        rw [hg] at hnil
        cases hnil
  | case8 parent gparent path node hred huncle hside color near entry far hsplit =>
    cases h with
    | black _ _ => exact absurd rfl hred
    | red hs h =>
      cases h with
      | black hu h =>
        obtain ⟨hcolor, hkids, -⟩ := rb_split _ hsplit ht
        obtain ⟨hnear, hfar⟩ := hkids hcolor
        refine ⟨_, by rw [rbInsert, if_neg hred, if_neg huncle, if_neg hside, hsplit], ?_, ?_⟩
        · rw [hnear.paint_black, hfar.paint_black]
          exact h.plug (rb_build_black _ (rb_build_red _ hs hnear)
            (rb_build_red _ hfar (hu.of_not_isRed huncle))) (by simp)
        · refine plug_congr ?_ path
          rw [split_some hsplit]
          simp only [toList_build, toList_paint]
          rw [arrange_swap hside]
          simp only [arrange_assoc]

end Invariants

end PerfProf.RedBlack
