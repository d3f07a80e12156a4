import PerfProf.RbWalk

/-! lib/rblist.c: `rblist__find_first` is a lower bound for any list that is sorted by its comparison, but
gives the comparison no node to begin with where the list is empty. -/
namespace PerfProf.Rblist

section Model
variable {α ι : Type}

/-- `rblist__find_first`; none where `node_cmp` is given the first node of a list that has none. -/
def rblistFindFirst (nodeCmp : α → ι → Int) (rblist : RbList α) (entry : ι) : Option (Option α) :=
  rblist.findFirst fun node => compare (nodeCmp node entry) 0

end Model

section Spec
variable {α ι : Type}

/-- The nodes that are below the entry stand before those that are not. -/
def SortedBy (nodeCmp : α → ι → Int) (entry : ι) (l : List α) : Prop :=
  l.Pairwise fun a b => nodeCmp b entry < 0 → nodeCmp a entry < 0

/-- The leftmost node that is not below the entry, if there is one. -/
def LowerBound (nodeCmp : α → ι → Int) (entry : ι) (l : List α) : Option α → Prop
  | none => ∀ b ∈ l, nodeCmp b entry < 0
  | some a => ∃ xs ys, l = xs ++ a :: ys ∧ 0 ≤ nodeCmp a entry ∧ ∀ b ∈ xs, nodeCmp b entry < 0

end Spec

section First
variable {α ι : Type} {nodeCmp : α → ι → Int} {entry : ι} {l : List α}

theorem SortedBy.splits (h : SortedBy nodeCmp entry l) : Splits (fun node => compare (nodeCmp node entry) 0) l :=
  h.imp fun hlt heq => compare_lt_iff_lt.mpr (hlt (compare_lt_iff_lt.mp heq))

theorem lowerBound_find (nodeCmp : α → ι → Int) (entry : ι) (l : List α) :
    LowerBound nodeCmp entry l (l.find? fun node => compare (nodeCmp node entry) 0 != .lt) := by
  have hbelow (b : α) : ¬ (compare (nodeCmp b entry) 0 != .lt) = true ↔ nodeCmp b entry < 0 := by
    rw [bne_iff_ne, not_not, compare_lt_iff_lt]
  cases hfind : l.find? fun node => compare (nodeCmp node entry) 0 != .lt with
  | none =>
    intro b hb
    exact (hbelow b).mp (List.find?_eq_none.mp hfind b hb)
  | some a =>
    obtain ⟨ha, xs, ys, hlist, hxs⟩ := List.find?_eq_some_iff_append.mp hfind
    refine ⟨xs, ys, hlist, not_lt.mp fun hlt => (hbelow a).mpr hlt ha, fun b hb => (hbelow b).mp ?_⟩
    have hb := hxs b hb
    rw [Bool.not_eq_true'] at hb
    rw [hb]
    exact Bool.false_ne_true

/-- Whatever the shape of the tree the lower bound is returned, unless the list is empty. -/
theorem rblistFindFirst_iff (nodeCmp : α → ι → Int) (rblist : RbList α) (entry : ι)
    (h : SortedBy nodeCmp entry rblist.entries.toList) :
    (∃ found, rblistFindFirst nodeCmp rblist entry = some found ∧
      LowerBound nodeCmp entry rblist.entries.toList found) ↔ rblist.entries.toList ≠ [] := by
  constructor
  · rintro ⟨found, hfound, -⟩ hnil
    rw [rblistFindFirst, RbList.findFirst, hnil] at hfound
    cases hfound
  · intro hne
    exact ⟨_, RbList.findFirst_eq h.splits hne, lowerBound_find nodeCmp entry rblist.entries.toList⟩

/-- Three numbers; the first is not at the top of the tree. -/
def three : RbList Int := { RbList.init Int with entries := .node (.node .leaf 2 .leaf) 4 (.node .leaf 6 .leaf) }

theorem rblistFindFirst_three :
    (∃ found, rblistFindFirst (fun node entry : Int => node - entry) three 3 = some found ∧
      LowerBound (fun node entry : Int => node - entry) 3 three.entries.toList found) ↔
        three.entries.toList ≠ [] :=
  rblistFindFirst_iff (fun node entry : Int => node - entry) three 3 (by unfold SortedBy; decide)

/-- Of an empty list the comparison is given a node that is not there. -/
theorem rblistFindFirst_empty : ¬ ∃ found,
    rblistFindFirst (fun node entry : Int => node - entry) (RbList.init Int) 3 = some found ∧
      LowerBound (fun node entry : Int => node - entry) 3 (RbList.init Int).entries.toList found := by
  rintro ⟨found, hfound, -⟩
  cases hfound

end First

end PerfProf.Rblist
