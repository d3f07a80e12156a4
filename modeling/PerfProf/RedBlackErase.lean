import PerfProf.RedBlack

/-! lib/rbtree.c and rbtree_augmented.h: erasure from red-black trees. -/
namespace PerfProf.RedBlack
open RbTree (build)

section Model
variable {α : Type*}

/-- The loop of `____rb_erase_color` behind Case 1, with `node` on the side of the parent: what stands
in the place of the parent, and whether the loop goes on there. -/
def eraseFix (parent : Frame α) (node : RbTree α) : Option (RbTree α × Bool) :=
  match parent.sibling.split parent.side with
  | none => none
  | some (_, near, sibling, far) =>
    if far.isRed then
      -- Case 4
      some (build parent.side parent.color (build parent.side .black node parent.entry near) sibling
        (far.paint .black), false)
    else
      match near.isRed, near.split parent.side with
      | true, some (_, near, tmp, far') =>
        -- Case 3 and Case 4
        some (build parent.side parent.color (build parent.side .black node parent.entry near) tmp
          (build parent.side .black (far'.paint .black) sibling far), false)
      | _, _ =>
        -- Case 2
        some (build parent.side .black node parent.entry (build parent.side .red near sibling far),
          parent.color = .black)

/-- `____rb_erase_color`; none where a missing node is followed. Behind Case 1 the parent is red, and
the loop ends. -/
def rbEraseColor : List (Frame α) → RbTree α → Option (RbTree α)
  | [], node => some node
  | parent :: path, node =>
    match parent.sibling.split parent.side with
    | none => none
    | some (.red, near, sibling, far) =>
      -- Case 1
      if near.split parent.side = none then none
      else
        (eraseFix { parent with color := .red, sibling := near.paint .black } node).map fun fixed =>
          plug fixed.1 (⟨parent.side, parent.color, sibling, far⟩ :: path)
    | some (.black, _, _, _) =>
      match eraseFix parent node with
      | none => none
      | some (t, true) => rbEraseColor path t
      | some (t, false) => some (plug t path)

/-- The leftmost node below the tree, with its color, entry and right child, and the path to it. -/
def leftmost : RbTree α → List (Frame α) → Option (Color × α × RbTree α × List (Frame α))
  | .nil, _ => none
  | .node c .nil a r, path => some (c, a, r, path)
  | .node c l a r, path => leftmost l (⟨.left, c, a, r⟩ :: path)

/-- `__rb_erase_augmented`: the lower end of the path from which on the tree is out of balance, and
whether it is. -/
def rbEraseAugmented (path : List (Frame α)) (c : Color) : RbTree α → RbTree α → List (Frame α) × RbTree α × Bool
  | .nil, .nil => (path, .nil, c = .black)
  | .nil, child => (path, child.paint c, false)
  | tmp, .nil => (path, tmp.paint c, false)
  | tmp, child =>
    match leftmost child [] with
    | none => (path, tmp, false)
    | some (c₂, successor, child₂, inner) =>
      (inner ++ ⟨.right, c, successor, tmp⟩ :: path, child₂.paint .black,
        child₂.split .left = none ∧ c₂ = .black)

def eraseEnd (out : List (Frame α) × RbTree α × Bool) : Option (RbTree α) :=
  match out with
  | (path, node, true) => rbEraseColor path node
  | (path, node, false) => some (plug node path)

/-- `rb_erase` of the node with color `c` and children `l` and `r`. -/
def rbErase (path : List (Frame α)) (c : Color) (l r : RbTree α) : Option (RbTree α) :=
  eraseEnd (rbEraseAugmented path c l r)

end Model

section Recolor
variable {α : Type*} {t near far node : RbTree α} {a : α} {c c' : Color} {side : Side} {n : Nat} {b : Bool}

theorem Rb.split_succ (h : Rb t c (n + 1)) (side : Side) :
    ∃ near a far, t.split side = some (c, near, a, far) := by
  cases h with
  | red _ _ =>
    cases side with
    | left => exact ⟨_, _, _, rfl⟩
    | right => exact ⟨_, _, _, rfl⟩
  | black _ _ =>
    cases side with
    | left => exact ⟨_, _, _, rfl⟩
    | right => exact ⟨_, _, _, rfl⟩

theorem split_of_isRed (h : t.isRed = true) (side : Side) : ∃ near a far, t.split side = some (.red, near, a, far) := by
  cases t with
  | nil => cases h
  | node c l x r =>
    cases c with
    | black => cases h
    | red =>
      cases side with
      | left => exact ⟨l, x, r, rfl⟩
      | right => exact ⟨r, x, l, rfl⟩

/-- Below a black sibling the deficit of the node is made up for, or it moves up to the parent. -/
theorem eraseFix_spec (parent : Frame α) (hs : Rb parent.sibling .black (n + 1)) (ht : Rb node .black n) :
    ∃ t more, eraseFix parent node = some (t, more) ∧
      t.toList = (build parent.side parent.color node parent.entry parent.sibling).toList ∧
      (parent.color = .red → more = false ∧ ∃ c, Rb t c (n + 1)) ∧
      (parent.color = .black → Rb t .black (if more then n + 1 else n + 2)) := by
  obtain ⟨near, sibling, far, hsplit⟩ := hs.split_succ parent.side
  obtain ⟨-, -, hkids⟩ := rb_split _ hsplit hs
  obtain ⟨d, d', m, hm, hnear, hfar⟩ := hkids rfl
  cases hm
  have hlist := split_some hsplit
  unfold eraseFix
  rw [hsplit]
  dsimp only
  by_cases hred : far.isRed = true
  · rw [if_pos hred]
    refine ⟨_, _, rfl, ?_, ?_, ?_⟩
    · rw [hlist]
      simp only [toList_build, toList_paint, arrange_assoc]
    · intro hcolor
      rw [hcolor]
      exact ⟨rfl, .red, rb_build_red _ (rb_build_black _ ht hnear) (hfar.of_isRed hred)⟩
    · intro hcolor
      rw [hcolor]
      exact rb_build_black _ (rb_build_black _ ht hnear) (hfar.of_isRed hred)
  · rw [if_neg hred]
    have hfar := hfar.of_not_isRed hred
    by_cases hnred : near.isRed = true
    · obtain ⟨near', tmp, far', hsplit'⟩ := split_of_isRed hnred parent.side
      rw [hnred, hsplit']
      obtain ⟨-, hkids', -⟩ := rb_split _ hsplit' hnear
      obtain ⟨hnear', hfar'⟩ := hkids' rfl
      have hlist' := split_some hsplit'
      refine ⟨_, _, rfl, ?_, ?_, ?_⟩
      · rw [hlist, hlist']
        simp only [toList_build, toList_paint, arrange_assoc]
      · intro hcolor
        rw [hcolor, hfar'.paint_black]
        exact ⟨rfl, .red, rb_build_red _ (rb_build_black _ ht hnear') (rb_build_black _ hfar' hfar)⟩
      · intro hcolor
        rw [hcolor, hfar'.paint_black]
        exact rb_build_black _ (rb_build_black _ ht hnear') (rb_build_black _ hfar' hfar)
    · have hflip := rb_build_black (a := parent.entry) parent.side ht
        (rb_build_red (a := sibling) parent.side (hnear.of_not_isRed hnred) hfar)
      rw [Bool.not_eq_true] at hnred
      rw [hnred]
      refine ⟨_, _, rfl, ?_, ?_, ?_⟩
      · rw [hlist]
        simp only [toList_build]
      · intro hcolor
        rw [hcolor]
        exact ⟨rfl, .black, hflip⟩
      · intro hcolor
        rw [hcolor]
        exact hflip

/-- The loop makes up for the deficit, without following a missing node. -/
theorem rbEraseColor_spec {path : List (Frame α)} (h : Around path b (n + 1)) (ht : Rb node .black n) :
    ∃ t', rbEraseColor path node = some t' ∧ IsRedBlack t' ∧ t'.toList = (plug node path).toList := by
  induction path generalizing node b n with
  | nil => exact ⟨node, rfl, ⟨n, ht⟩, rfl⟩
  | cons parent path ih =>
    rw [rbEraseColor]
    cases h with
    | red hs h =>
      obtain ⟨near, sibling, far, hsplit⟩ := hs.split_succ _
      obtain ⟨t, more, hfix, hlist, hred, -⟩ := eraseFix_spec ⟨_, .red, _, _⟩ hs ht
      obtain ⟨rfl, c, hrb⟩ := hred rfl
      rw [hsplit, hfix]
      exact ⟨_, rfl, h.plug hrb fun _ => rfl, plug_congr hlist path⟩
    | @black side a sib c _ b' _ hs h =>
      obtain ⟨near, sibling, far, hsplit⟩ := hs.split_succ side
      obtain ⟨-, hred, -⟩ := rb_split _ hsplit hs
      cases c with
      | red =>
        obtain ⟨hnear, hfar⟩ := hred rfl
        obtain ⟨near₁, x, near₂, hsplit'⟩ := hnear.split_succ side
        obtain ⟨t, more, hfix, hlist, hpred, -⟩ := eraseFix_spec ⟨side, .red, a, near⟩ hnear ht
        obtain ⟨rfl, c, hrb⟩ := hpred rfl
        rw [hsplit]
        dsimp only
        rw [if_neg (by simp [hsplit']), hnear.paint_black, hfix]
        refine ⟨_, rfl, (Around.black hfar h).plug hrb fun _ => rfl, plug_congr ?_ path⟩
        rw [split_some hsplit]
        simp only [toList_build, hlist, arrange_assoc]
      | black =>
        obtain ⟨t, more, hfix, hlist, -, hblack⟩ := eraseFix_spec ⟨side, .black, a, sib⟩ hs ht
        have hrb := hblack rfl
        rw [hsplit, hfix]
        cases more with
        | true =>
          obtain ⟨t', heq, hrb', hlist'⟩ := ih h hrb
          exact ⟨t', heq, hrb', hlist'.trans (plug_congr hlist path)⟩
        | false => exact ⟨_, rfl, h.plug hrb (by simp), plug_congr hlist path⟩

end Recolor

section Erase
variable {α : Type*} {t l r child : RbTree α} {a x : α} {c c' : Color} {n : Nat} {b : Bool}
  {path path' inner : List (Frame α)}

theorem leftmost_append (t : RbTree α) (inner path : List (Frame α)) :
    leftmost t (inner ++ path) = (leftmost t inner).map fun p => (p.1, p.2.1, p.2.2.1, p.2.2.2 ++ path) := by
  induction t generalizing inner with
  | nil => rfl
  | node c l a r ihl _ =>
    cases l with
    | nil => rfl
    | node _ _ _ _ => exact ihl (⟨.left, c, a, r⟩ :: inner)

theorem leftmost_ne_none (h : t ≠ .nil) (path : List (Frame α)) : leftmost t path ≠ none := by
  induction t generalizing path with
  | nil => exact absurd rfl h
  | node c l a r ihl _ =>
    cases l with
    | nil => simp [leftmost]
    | node _ _ _ _ => exact ihl (by simp) _

theorem leftmost_toList (h : leftmost t path = some (c, a, r, path')) :
    before path' = before path ∧ t.toList ++ after path = a :: (r.toList ++ after path') := by
  induction t generalizing path with
  | nil => cases h
  | node c l a r ihl _ =>
    cases l with
    | nil =>
      cases h
      exact ⟨rfl, rfl⟩
    | node _ _ _ _ =>
      obtain ⟨hbefore, hlist⟩ := ihl h
      refine ⟨hbefore.trans (List.append_nil _), ?_⟩
      rw [RbTree.toList, List.append_assoc]
      exact hlist

/-- The hole below the leftmost node. -/
theorem leftmost_spec (h : Around path b n) (ht : Rb t c n) (hc : c = .red → b = true) (hne : t ≠ .nil) :
    ∃ c' a r path' b' m, leftmost t path = some (c', a, r, path') ∧ Rb (.node c' .nil a r) c' m ∧
      Around path' b' m ∧ (c' = .red → b' = true) := by
  induction t generalizing path b n c with
  | nil => exact absurd rfl hne
  | node color l a r ihl _ =>
    cases l with
    | nil =>
      obtain rfl : color = c := by
        cases ht with
        | red _ _ => rfl
        | black _ _ => rfl
      exact ⟨_, _, _, _, b, n, rfl, ht, h, hc⟩
    | node c₁ l₁ a₁ r₁ =>
      cases ht with
      | red hl hr => exact ihl (.red hr (hc rfl ▸ h)) hl (by simp) (by simp)
      | black hl hr => exact ihl (.black hr h) hl (fun _ => rfl) (by simp)

/-- The entry of a frame does not matter. -/
theorem Around.entry {side : Side} {sibling : RbTree α} (h : Around (inner ++ ⟨side, c, a, sibling⟩ :: path) b n)
    (x : α) : Around (inner ++ ⟨side, c, x, sibling⟩ :: path) b n := by
  induction inner generalizing b n with
  | nil =>
    cases h with
    | red hs h => exact .red hs h
    | black hs h => exact .black hs h
  | cons f inner ih =>
    rw [List.cons_append] at h ⊢
    cases h with
    | red hs h => exact .red hs (ih h)
    | black hs h => exact .black hs (ih h)

/-- A node with one child, or none, goes. -/
theorem eraseEnd_spec (child : RbTree α) (hn : Rb (.node c .nil a child) c n ∨ Rb (.node c child a .nil) c n)
    (h : Around path b n) (hc : c = .red → b = true) :
    (child = .nil → ∃ t', eraseEnd (path, .nil, c = .black) = some t' ∧ IsRedBlack t' ∧
      t'.toList = before path ++ after path) ∧
    (child ≠ .nil → c = .black ∧ IsRedBlack (plug (child.paint .black) path)) := by
  refine ⟨?_, fun hne => ?_⟩
  · rintro rfl
    have hn : Rb (.node c .nil a .nil) c n := by
      obtain hn | hn := hn
      · exact hn
      · exact hn
    have hlist : (plug RbTree.nil path).toList = before path ++ after path := by
      rw [toList_plug]
      simp [RbTree.toList]
    cases hn with
    | red hl _ =>
      cases hl
      exact ⟨_, rfl, h.plug .nil (by simp), hlist⟩
    | black hl _ =>
      cases hl
      obtain ⟨t', heq, hrb, hlist'⟩ := rbEraseColor_spec h .nil
      exact ⟨t', heq, hrb, hlist'.trans hlist⟩
  · -- by the black nodes the child is red
    have hchild : c = .black ∧ ∃ m, n = m + 1 ∧ Rb (child.paint .black) .black (m + 1) := by
      have hkid : ∀ {d : Color}, Rb child d 0 → Rb (child.paint .black) .black (0 + 1) := by
        intro d hd
        refine hd.of_isRed ?_
        cases hd with
        | nil => exact absurd rfl hne
        | red _ _ => rfl
      obtain hn | hn := hn
      · cases hn with
        | red hl hr =>
          cases hl
          cases hr
          exact absurd rfl hne
        | black hl hr =>
          cases hl
          exact ⟨rfl, 0, rfl, hkid hr⟩
      · cases hn with
        | red hl hr =>
          cases hr
          cases hl
          exact absurd rfl hne
        | black hl hr =>
          cases hr
          exact ⟨rfl, 0, rfl, hkid hl⟩
    obtain ⟨rfl, m, rfl, hpaint⟩ := hchild
    exact ⟨rfl, h.plug hpaint (by simp)⟩

theorem split_none : child.split .left = none ↔ child = .nil := by
  cases child with
  | nil => exact ⟨fun _ => rfl, fun _ => rfl⟩
  | node _ _ _ _ => simp [RbTree.split]

theorem before_append (inner path : List (Frame α)) : before (inner ++ path) = before path ++ before inner := by
  induction inner with
  | nil => simp [before]
  | cons f inner ih => simp [before, ih]

theorem after_append (inner path : List (Frame α)) : after (inner ++ path) = after inner ++ after path := by
  induction inner with
  | nil => simp [after]
  | cons f inner ih => simp [after, ih]

/-- Erasing a node from a red-black tree follows no missing node; the tree is red-black, with the
other entries in order. -/
theorem rbErase_spec (hn : Rb (.node c l a r) c n) (h : Around path b n) (hc : c = .red → b = true) :
    ∃ t', rbErase path c l r = some t' ∧ IsRedBlack t' ∧
      t'.toList = before path ++ (l.toList ++ r.toList) ++ after path := by
  -- one child or none
  have hsingle : ∀ child : RbTree α, Rb (.node c .nil a child) c n ∨ Rb (.node c child a .nil) c n → child ≠ .nil →
      ∃ t', eraseEnd (path, child.paint c, false) = some t' ∧ IsRedBlack t' ∧
        t'.toList = before path ++ child.toList ++ after path := by
    intro child hchild hne
    obtain ⟨rfl, hrb⟩ := (eraseEnd_spec child hchild h hc).2 hne
    exact ⟨_, rfl, hrb, by rw [toList_plug, toList_paint]⟩
  cases l with
  | nil =>
    cases r with
    | nil =>
      obtain ⟨t', heq, hrb, hlist⟩ := (eraseEnd_spec .nil (Or.inl hn) h hc).1 rfl
      exact ⟨t', heq, hrb, by simpa [RbTree.toList] using hlist⟩
    | node d rl x rr => exact hsingle _ (Or.inl hn) (by simp)
  | node d ll y lr =>
    cases r with
    | nil =>
      obtain ⟨t', heq, hrb, hlist⟩ := hsingle _ (Or.inr hn) (by simp)
      refine ⟨t', heq, hrb, ?_⟩
      rw [hlist]
      simp [RbTree.toList]
    | node e rl x rr =>
      -- the successor is the leftmost node on the right
      have hbelow : ∃ d' m b', Around (⟨.right, c, a, .node d ll y lr⟩ :: path) b' m ∧
          Rb (.node e rl x rr) d' m ∧ (d' = .red → b' = true) := by
        cases hn with
        | red hl hr => exact ⟨_, _, _, .red hl (hc rfl ▸ h), hr, by simp⟩
        | black hl hr => exact ⟨_, _, _, .black hl h, hr, fun _ => rfl⟩
      obtain ⟨d', m, b', haround, hright, hd'⟩ := hbelow
      obtain ⟨c₂, s, child₂, path₂, b₂, m₂, hleft, hhole, haround₂, hc₂⟩ :=
        leftmost_spec haround hright hd' (by simp)
      have happend := leftmost_append (.node e rl x rr) [] (⟨.right, c, a, .node d ll y lr⟩ :: path)
      rw [List.nil_append, hleft] at happend
      cases hinner : leftmost (.node e rl x rr) [] with
      | none =>
        rw [hinner] at happend
        cases happend
      | some out =>
        obtain ⟨c₃, s₃, child₃, inner⟩ := out
        rw [hinner] at happend
        cases happend
        obtain ⟨hbefore, hlist⟩ := leftmost_toList hinner
        simp only [after, List.append_nil] at hlist
        have haround₃ := haround₂.entry s₃
        have hcontents : before (inner ++ ⟨.right, c, s₃, .node d ll y lr⟩ :: path) ++ child₃.toList ++
            after (inner ++ ⟨.right, c, s₃, .node d ll y lr⟩ :: path) =
            before path ++ ((RbTree.node d ll y lr).toList ++ (RbTree.node e rl x rr).toList) ++ after path := by
          rw [before_append, after_append, hbefore, hlist]
          simp [before, after, Frame.before, Frame.after]
        simp only [rbErase, rbEraseAugmented, hinner]
        obtain ⟨hnil, hsome⟩ := eraseEnd_spec child₃ (Or.inl hhole) haround₃ hc₂
        by_cases hchild : child₃ = .nil
        · obtain ⟨t', heq, hrb, hlist'⟩ := hnil hchild
          subst hchild
          refine ⟨t', ?_, hrb, ?_⟩
          · simpa [RbTree.split, RbTree.paint] using heq
          · rw [hlist', ← hcontents]
            simp [RbTree.toList]
        · obtain ⟨rfl, hrb⟩ := hsome hchild
          refine ⟨_, ?_, hrb, ?_⟩
          · simp [split_none, hchild, eraseEnd]
          · rw [toList_plug, toList_paint, hcontents]

end Erase

end PerfProf.RedBlack
