import PerfProf.Ptrace

/-! The loop of `__fork__new` in ptrace.c over the devices linked to the parent, with everything
that can fail in it. -/
namespace PerfProf.Ptrace

section Model

/-- What comes of the turn of a device: the result of `prof_dev_clone`, whether `__ptrace_link` gets
memory and may use the clone, and the devices of the parent that a close of the clone closes too. -/
structure Answer where
  clone : Option Nat
  memory : Bool
  usable : Bool
  drops : List Nat
deriving DecidableEq

/-- `dev_list` of the child, `ptrace_list` of the devices, and the devices that have been closed. -/
structure Links where
  devList : List Nat
  ptraceList : Nat → List Nat
  closed : List Nat

/-- `__ptrace_link` with the result of `prof_dev_clone`; none where it follows a null pointer. -/
def ptraceLink (pid : Nat) (a : Answer) (l : Links) : Option (Bool × Links) :=
  match a.clone with
  | none => none
  | some dev =>
    if pid ∈ l.ptraceList dev then some (true, l)
    else if a.memory ∧ a.usable then
      some (true, { l with
        devList := dev :: l.devList
        ptraceList := Function.update l.ptraceList dev (pid :: l.ptraceList dev) })
    else some (false, l)

/-- What a close of the clone leaves of the list. -/
def Answer.leaves (a : Answer) (devs : List Nat) : List Nat := devs.filter (· ∉ a.drops)

theorem Answer.length_leaves (a : Answer) (devs : List Nat) : (a.leaves devs).length ≤ devs.length :=
  List.length_filter_le ..

/-- The loop over `parent->dev_list`; none also where it goes on from a link that has been freed. -/
def cloneDevs (pid : Nat) (answer : Nat → Answer) : List Nat → Links → Option Links
  | [], l => some l
  | dev :: devs, l =>
    match ptraceLink pid (answer dev) l with
    | none => none
    | some (true, l) => cloneDevs pid answer devs l
    | some (false, l) =>
      if dev ∈ (answer dev).drops then none
      else cloneDevs pid answer ((answer dev).leaves devs)
        { l with closed := l.closed ++ (answer dev).clone.toList }
termination_by devs => devs.length
decreasing_by
  · exact Nat.lt_succ_self _
  · exact Nat.lt_succ_of_le (Answer.length_leaves ..)

/-- The devices that get a turn. -/
def turns (answer : Nat → Answer) : List Nat → List Nat
  | [] => []
  | dev :: devs =>
    if (answer dev).memory ∧ (answer dev).usable then dev :: turns answer devs
    else dev :: turns answer ((answer dev).leaves devs)
termination_by devs => devs.length
decreasing_by
  · exact Nat.lt_succ_self _
  · exact Nat.lt_succ_of_le (Answer.length_leaves ..)

/-- What is left of the list of the parent. -/
def dropDevs (s : State) (parent : Nat) (drops : List Nat) : State :=
  match s.node parent with
  | none => s
  | some node =>
    s.setNode parent { node with devList := node.devList.filter (· ∉ drops) }

/-- What the closes in the loop drop. -/
def dropped (answer : Nat → Answer) (devs : List Nat) : List Nat :=
  (turns answer devs).flatMap fun dev =>
    if (answer dev).memory ∧ (answer dev).usable then [] else (answer dev).drops

/-- `__fork__new` of a child that is not to be detached and has a parent; `map` tells whether there
is memory for the thread map. -/
def forkNewClones (s : State) (l : Links) (pid parent : Nat) (child : PidNode) (map : Bool)
    (answer : Nat → Answer) : Option (State × Links) :=
  let s := s.setNode pid { child with initialLink := none }
  let devs := if map then ((s.node parent).map PidNode.devList).getD [] else []
  (cloneDevs pid answer devs { l with devList := child.devList }).map fun l =>
    let child := { child with initialLink := none, devList := l.devList, parent := none }
    let s := dropDevs s parent (dropped answer devs)
    (((s.setNode pid child).putPid parent).contOrDetach pid child, l)

end Model

section Spec

/-- The clones that can be linked. -/
def linkable (answer : Nat → Answer) (devs : List Nat) : List Nat :=
  devs.filterMap fun dev =>
    if (answer dev).memory ∧ (answer dev).usable then (answer dev).clone else none

/-- The clones that cannot. -/
def unlinkable (answer : Nat → Answer) (devs : List Nat) : List Nat :=
  devs.filterMap fun dev =>
    if (answer dev).memory ∧ (answer dev).usable then none else (answer dev).clone

/-- Every clone is a device of its own, without a link to the child. -/
structure Fresh (pid : Nat) (answer : Nat → Answer) (devs : List Nat) (l : Links) : Prop where
  nodup : (devs.filterMap fun dev => (answer dev).clone).Nodup
  unlinked : ∀ dev ∈ devs, ∀ clone, (answer dev).clone = some clone → pid ∉ l.ptraceList clone

/-- The child is linked to the clones that could be used, the others are closed, the reference to
the parent is dropped once, and the child is detached if and only if nothing is linked to it. -/
structure AllOrSkip (before : State) (l : Links) (pid parent : Nat) (child : PidNode)
    (answer : Nat → Answer) (devs : List Nat) (out : State × Links) : Prop where
  linked : out.2.devList = (linkable answer devs).reverse ++ child.devList
  devices : ∀ dev, pid ∈ out.2.ptraceList dev ↔
    dev ∈ linkable answer devs ∨ pid ∈ l.ptraceList dev
  closed : out.2.closed = l.closed ++ unlinkable answer devs
  finish : ∃ s, s = (before.setNode pid { child with
      initialLink := none, devList := out.2.devList, parent := none }).putPid parent ∧
    out.1 = if out.2.devList = [] then s.detach pid child.workload else s.cont pid

end Spec

section Loop
variable {pid dev : Nat} {answer : Nat → Answer} {devs : List Nat} {l l' : Links} {a : Answer}

/-- After a clone has been linked. -/
def Links.link (l : Links) (pid clone : Nat) : Links :=
  { l with
    devList := clone :: l.devList
    ptraceList := Function.update l.ptraceList clone (pid :: l.ptraceList clone) }

theorem link_ptraceList (l : Links) (pid clone dev : Nat) :
    pid ∈ (l.link pid clone).ptraceList dev ↔ dev = clone ∨ pid ∈ l.ptraceList dev := by
  dsimp only [Links.link]
  by_cases hdev : dev = clone
  · subst hdev
    rw [Function.update_self]
    simp
  · rw [Function.update_of_ne hdev, or_iff_right hdev]

/-- A turn links the clone, or leaves it to be closed, if there is one. -/
theorem ptraceLink_some {clone : Nat} (hclone : a.clone = some clone)
    (hfresh : pid ∉ l.ptraceList clone) :
    ptraceLink pid a l =
      if a.memory ∧ a.usable then some (true, l.link pid clone) else some (false, l) := by
  rw [ptraceLink, hclone]
  exact if_neg hfresh

theorem Fresh.leaves (h : Fresh pid answer (dev :: devs) l) (a : Answer) (l' : Links)
    (hsame : l'.ptraceList = l.ptraceList) : Fresh pid answer (a.leaves devs) l' := by
  have hsub : (a.leaves devs).Sublist devs := List.filter_sublist
  refine ⟨?_, fun d hd clone hclone => ?_⟩
  · have htail := (hsub.trans (List.sublist_cons_self dev devs)).filterMap fun dev => (answer dev).clone
    exact htail.nodup h.nodup
  · rw [hsame]
    exact h.unlinked d (List.mem_cons_of_mem _ (hsub.subset hd)) clone hclone

theorem Fresh.linked {clone : Nat} (h : Fresh pid answer (dev :: devs) l)
    (hclone : (answer dev).clone = some clone) : Fresh pid answer devs (l.link pid clone) := by
  have hnodup : (clone :: devs.filterMap fun dev => (answer dev).clone).Nodup := by
    rw [← List.filterMap_cons_some (f := fun dev => (answer dev).clone) hclone]
    exact h.nodup
  obtain ⟨hnot, htail⟩ := List.nodup_cons.mp hnodup
  refine ⟨htail, fun d hd c hc => ?_⟩
  have hne : c ≠ clone := fun heq => hnot (heq ▸ List.mem_filterMap.mpr ⟨d, hd, hc⟩)
  rw [link_ptraceList, or_iff_right hne]
  exact h.unlinked d (List.mem_cons_of_mem _ hd) c hc

/-- What the loop does where every device that gets a turn can be cloned. -/
theorem cloneDevs_spec (hfresh : Fresh pid answer devs l)
    (hok : ∀ dev ∈ turns answer devs, (answer dev).clone ≠ none ∧
      ((answer dev).memory ∧ (answer dev).usable ∨ dev ∉ (answer dev).drops)) :
    ∃ l', cloneDevs pid answer devs l = some l' ∧
      l'.devList = (linkable answer (turns answer devs)).reverse ++ l.devList ∧
      (∀ dev, pid ∈ l'.ptraceList dev ↔
        dev ∈ linkable answer (turns answer devs) ∨ pid ∈ l.ptraceList dev) ∧
      l'.closed = l.closed ++ unlinkable answer (turns answer devs) := by
  induction devs using turns.induct answer generalizing l with
  | case1 =>
    refine ⟨l, by rw [cloneDevs], ?_, fun dev => ?_, ?_⟩
    · rw [turns]
      rfl
    · rw [turns]
      exact (or_iff_right List.not_mem_nil).symm
    · rw [turns]
      exact (List.append_nil _).symm
  | case2 dev devs hlinked ih =>
    rw [turns, if_pos hlinked] at hok ⊢
    obtain ⟨⟨hclone, _⟩, hok⟩ := List.forall_mem_cons.mp hok
    obtain ⟨clone, hclone⟩ := Option.ne_none_iff_exists'.mp hclone
    have hunlinked := hfresh.unlinked dev (List.mem_cons_self ..) clone hclone
    have hlink := ptraceLink_some hclone hunlinked
    rw [if_pos hlinked] at hlink
    obtain ⟨l', hl', hdevs, hptrace, hclosed⟩ := ih (hfresh.linked hclone) hok
    have hturn : linkable answer (dev :: turns answer devs) =
        clone :: linkable answer (turns answer devs) :=
      List.filterMap_cons_some (by rw [if_pos hlinked, hclone])
    have hrest : unlinkable answer (dev :: turns answer devs) =
        unlinkable answer (turns answer devs) := List.filterMap_cons_none (if_pos hlinked)
    refine ⟨l', ?_, ?_, fun d => ?_, ?_⟩
    · rw [cloneDevs, hlink]
      exact hl'
    · rw [hdevs, hturn, List.reverse_cons, List.append_assoc]
      rfl
    · rw [hptrace, hturn, List.mem_cons, link_ptraceList, or_left_comm, or_assoc]
    · rw [hclosed, hrest]
      rfl
  | case3 dev devs hlinked ih =>
    rw [turns, if_neg hlinked] at hok ⊢
    obtain ⟨⟨hclone, hdrops⟩, hok⟩ := List.forall_mem_cons.mp hok
    obtain ⟨clone, hclone⟩ := Option.ne_none_iff_exists'.mp hclone
    have hunlinked := hfresh.unlinked dev (List.mem_cons_self ..) clone hclone
    have hlink := ptraceLink_some hclone hunlinked
    rw [if_neg hlinked] at hlink
    obtain ⟨l', hl', hdevs, hptrace, hclosed⟩ :=
      ih (hfresh.leaves _ { l with closed := l.closed ++ (answer dev).clone.toList } rfl) hok
    have hturn : linkable answer (dev :: turns answer ((answer dev).leaves devs)) =
        linkable answer (turns answer ((answer dev).leaves devs)) :=
      List.filterMap_cons_none (if_neg hlinked)
    have hrest : unlinkable answer (dev :: turns answer ((answer dev).leaves devs)) =
        clone :: unlinkable answer (turns answer ((answer dev).leaves devs)) :=
      List.filterMap_cons_some (by rw [if_neg hlinked, hclone])
    refine ⟨l', ?_, ?_, fun d => ?_, ?_⟩
    · rw [cloneDevs, hlink]
      dsimp only
      rw [if_neg (hdrops.resolve_left hlinked)]
      exact hl'
    · rw [hdevs, hturn]
    · rw [hptrace, hturn]
    · rw [hclosed, hrest, hclone, List.append_assoc]
      rfl

/-- The loop comes to its end only if every device that gets a turn can be cloned. -/
theorem cloneDevs_some (hfresh : Fresh pid answer devs l)
    (h : cloneDevs pid answer devs l = some l') :
    ∀ dev ∈ turns answer devs, (answer dev).clone ≠ none ∧
      ((answer dev).memory ∧ (answer dev).usable ∨ dev ∉ (answer dev).drops) := by
  induction devs using turns.induct answer generalizing l with
  | case1 =>
    rw [turns]
    exact fun _ hdev => absurd hdev List.not_mem_nil
  | case2 dev devs hlinked ih =>
    rw [turns, if_pos hlinked]
    rw [cloneDevs] at h
    cases hclone : (answer dev).clone with
    | none =>
      rw [ptraceLink, hclone] at h
      cases h
    | some clone =>
      have hunlinked := hfresh.unlinked dev (List.mem_cons_self ..) clone hclone
      rw [ptraceLink_some hclone hunlinked, if_pos hlinked] at h
      refine List.forall_mem_cons.mpr ⟨⟨?_, .inl hlinked⟩, ih (hfresh.linked hclone) h⟩
      rw [hclone]
      exact Option.some_ne_none clone
  | case3 dev devs hlinked ih =>
    rw [turns, if_neg hlinked]
    rw [cloneDevs] at h
    cases hclone : (answer dev).clone with
    | none =>
      rw [ptraceLink, hclone] at h
      cases h
    | some clone =>
      have hunlinked := hfresh.unlinked dev (List.mem_cons_self ..) clone hclone
      rw [ptraceLink_some hclone hunlinked, if_neg hlinked] at h
      dsimp only at h
      by_cases hdrops : dev ∈ (answer dev).drops
      · rw [if_pos hdrops] at h
        cases h
      · rw [if_neg hdrops] at h
        refine List.forall_mem_cons.mpr ⟨⟨?_, .inr hdrops⟩,
          ih (hfresh.leaves _ { l with closed := l.closed ++ (answer dev).clone.toList } rfl) h⟩
        rw [hclone]
        exact Option.some_ne_none clone

end Loop

section ForkNew
variable {s : State} {l : Links} {pid parent : Nat} {child : PidNode} {map : Bool}
  {answer : Nat → Answer}

/-- The devices that the loop goes over. -/
def parentDevs (s : State) (pid parent : Nat) (child : PidNode) (map : Bool) : List Nat :=
  if map then (((s.setNode pid { child with initialLink := none }).node parent).map
    PidNode.devList).getD [] else []

/-- The state in which the child gets its devices. -/
def beforeEnd (s : State) (pid parent : Nat) (child : PidNode) (map : Bool)
    (answer : Nat → Answer) : State :=
  dropDevs (s.setNode pid { child with initialLink := none }) parent
    (dropped answer (parentDevs s pid parent child map))

theorem forkNewClones_spec (hfresh : Fresh pid answer (parentDevs s pid parent child map) l)
    (hok : ∀ dev ∈ turns answer (parentDevs s pid parent child map), (answer dev).clone ≠ none ∧
      ((answer dev).memory ∧ (answer dev).usable ∨ dev ∉ (answer dev).drops)) :
    ∃ out, forkNewClones s l pid parent child map answer = some out ∧
      AllOrSkip (beforeEnd s pid parent child map answer) l pid parent child answer
        (turns answer (parentDevs s pid parent child map)) out := by
  have hfresh' : Fresh pid answer (parentDevs s pid parent child map)
      { l with devList := child.devList } := ⟨hfresh.nodup, hfresh.unlinked⟩
  obtain ⟨l', hl', hdevs, hptrace, hclosed⟩ := cloneDevs_spec hfresh' hok
  refine ⟨_, congrArg (Option.map _) hl', hdevs, hptrace, hclosed, _, rfl, ?_⟩
  rfl

/-- Where no close takes a device off the list, every device gets a turn and none is dropped. -/
theorem turns_eq {devs : List Nat} (h : ∀ dev ∈ devs, (answer dev).drops = []) :
    turns answer devs = devs := by
  induction devs with
  | nil => rw [turns]
  | cons dev devs ih =>
    rw [List.forall_mem_cons] at h
    have hleaves : (answer dev).leaves devs = devs := by
      rw [Answer.leaves, h.1, List.filter_eq_self]
      exact fun _ _ => decide_eq_true List.not_mem_nil
    rw [turns, hleaves, ih h.2, ite_self]

theorem dropped_eq {devs : List Nat} (h : ∀ dev ∈ devs, (answer dev).drops = []) :
    dropped answer devs = [] := by
  rw [dropped, turns_eq h, List.flatMap_eq_nil_iff]
  intro dev hdev
  rw [h dev hdev, ite_self]

theorem dropDevs_nil (s : State) (parent : Nat) : dropDevs s parent [] = s := by
  unfold dropDevs
  cases hnode : s.node parent with
  | none => rfl
  | some node =>
    have hall : node.devList.filter (· ∉ ([] : List Nat)) = node.devList :=
      List.filter_eq_self.mpr fun _ _ => decide_eq_true List.not_mem_nil
    dsimp only
    rw [hall]
    show { s with pidList := s.pidList.put parent node } = s
    rw [RefTable.Table.put_self hnode]

/-- Where every device of the parent can be cloned, the loop with all its failures comes to what
`forkNew` does with the clones that can be linked. -/
theorem forkNewClones_eq (l : Links) (hdetach : child.detach = false)
    (hparent : child.parent = some parent)
    (hfresh : Fresh pid answer (parentDevs s pid parent child true) l)
    (hclone : ∀ dev ∈ parentDevs s pid parent child true, (answer dev).clone ≠ none)
    (hdrops : ∀ dev ∈ parentDevs s pid parent child true, (answer dev).drops = []) :
    (forkNewClones s l pid parent child true answer).map Prod.fst =
      some (s.forkNew pid child fun dev =>
        if (answer dev).memory ∧ (answer dev).usable then (answer dev).clone else none) := by
  have hok : ∀ dev ∈ turns answer (parentDevs s pid parent child true),
      (answer dev).clone ≠ none ∧
        ((answer dev).memory ∧ (answer dev).usable ∨ dev ∉ (answer dev).drops) := by
    rw [turns_eq hdrops]
    intro dev hdev
    rw [hdrops dev hdev]
    exact ⟨hclone dev hdev, .inr List.not_mem_nil⟩
  obtain ⟨out, hout, hskip⟩ := forkNewClones_spec hfresh hok
  obtain ⟨s₁, rfl, hfinish⟩ := hskip.finish
  have hbefore : beforeEnd s pid parent child true answer =
      s.setNode pid { child with initialLink := none } := by
    rw [beforeEnd, dropped_eq hdrops, dropDevs_nil]
  have hlinked := hskip.linked
  rw [turns_eq hdrops] at hlinked
  rw [hout, Option.map_some, hfinish, hbefore, hlinked]
  cases child with
  | mk initial detach workload devList refcount _ initialLink =>
    cases hdetach
    cases hparent
    rfl

/-- The clones that can be linked are linked and the others closed, whatever fails, if and only if
`prof_dev_clone` does not fail for any device that gets a turn and no close takes its device off
the list. -/
theorem allOrSkip_iff (s : State) (l : Links) (pid parent : Nat) (child : PidNode) (map : Bool)
    (answer : Nat → Answer)
    (hfresh : Fresh pid answer (parentDevs s pid parent child map) l) :
    (∃ out, forkNewClones s l pid parent child map answer = some out ∧
      AllOrSkip (beforeEnd s pid parent child map answer) l pid parent child answer
        (turns answer (parentDevs s pid parent child map)) out) ↔
    ∀ dev ∈ turns answer (parentDevs s pid parent child map), (answer dev).clone ≠ none ∧
      ((answer dev).memory ∧ (answer dev).usable ∨ dev ∉ (answer dev).drops) := by
  constructor
  · rintro ⟨out, hout, _⟩
    have hfresh' : Fresh pid answer (parentDevs s pid parent child map)
        { l with devList := child.devList } := ⟨hfresh.nodup, hfresh.unlinked⟩
    obtain ⟨l', hl', _⟩ := Option.map_eq_some_iff.mp hout
    exact cloneDevs_some hfresh' hl'
  · exact forkNewClones_spec hfresh

/-- Process 1, to which devices 10 and 11 are linked, has forked process 2. -/
def forked12 : State :=
  (init.setNode 1 ⟨2, false, false, [10, 11], 2, none, none⟩).setNode 2
    ⟨2, false, false, [], 1, some 1, some 1⟩

/-- There is no memory for the second link. -/
def secondClosed (dev : Nat) : Answer := ⟨some (dev + 10), dev = 10, true, []⟩

theorem allOrSkip_iff_second : ∃ out,
    forkNewClones forked12 ⟨[], fun _ => [], []⟩ 2 1 ⟨2, false, false, [], 1, some 1, some 1⟩ true
      secondClosed = some out ∧
    AllOrSkip (beforeEnd forked12 2 1 ⟨2, false, false, [], 1, some 1, some 1⟩ true secondClosed)
      ⟨[], fun _ => [], []⟩ 2 1 ⟨2, false, false, [], 1, some 1, some 1⟩ secondClosed
      (turns secondClosed (parentDevs forked12 2 1 ⟨2, false, false, [], 1, some 1, some 1⟩ true))
      out := by
  have hdevs : parentDevs forked12 2 1 ⟨2, false, false, [], 1, some 1, some 1⟩ true = [10, 11] := by
    decide
  refine (allOrSkip_iff forked12 ⟨[], fun _ => [], []⟩ 2 1 ⟨2, false, false, [], 1, some 1, some 1⟩
    true secondClosed ?_).mpr fun dev _ => ⟨Option.some_ne_none _, .inr List.not_mem_nil⟩
  rw [hdevs]
  exact ⟨by decide, fun _ _ _ _ => List.not_mem_nil⟩

/-- The first device cannot be cloned; the second one could be. -/
def firstFails (dev : Nat) : Answer := ⟨if dev = 10 then none else some 21, true, true, []⟩

/-- The null pointer of the failed clone is followed. -/
theorem failed_clone_not_skipped :
    parentDevs forked12 2 1 ⟨2, false, false, [], 1, some 1, some 1⟩ true = [10, 11] ∧
      forkNewClones forked12 ⟨[], fun _ => [], []⟩ 2 1 ⟨2, false, false, [], 1, some 1, some 1⟩ true
        firstFails = none := by
  have hdevs : parentDevs forked12 2 1 ⟨2, false, false, [], 1, some 1, some 1⟩ true = [10, 11] := by
    decide
  have hloop : cloneDevs 2 firstFails
      (parentDevs forked12 2 1 ⟨2, false, false, [], 1, some 1, some 1⟩ true)
      ⟨[], fun _ => [], []⟩ = none := by
    rw [hdevs, cloneDevs]
    rfl
  exact ⟨hdevs, Option.map_eq_none_iff.mpr hloop⟩

end ForkNew

end PerfProf.Ptrace
