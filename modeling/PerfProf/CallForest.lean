import Mathlib.Data.List.Induction
import Mathlib.Data.List.Nodup
import PerfProf.Forest

/-! The call class of two-event.c: `call_link` hangs a function below the function that called it,
and a print walks the trees from the roots on `caller_head`. -/
namespace PerfProf.CallForest
open Forest

section Model
variable {α : Type} [DecidableEq α]

/-- `struct call_class` with its `struct caller` objects, each named by its tp. A list through
`caller_link` is the `callee_head` of a caller, the one through `class_link` is `caller_head`;
`printed` is what each print has visited. -/
structure CallClass (α : Type) where
  objects : List α
  parent : α → Option α
  depth : α → Nat
  recursive : α → Bool
  callees : α → List α
  callerHead : List α
  calls : UInt64
  maxDepth : Nat
  printed : List (List α)

def callClassNew : CallClass α :=
  ⟨[], fun _ => none, fun _ => 0, fun _ => false, fun _ => [], [], 0, 0, []⟩

namespace CallClass

/-- `call_new`, before anything is linked: the object of a tp is found or made. -/
def callNew (s : CallClass α) (tp : α) : CallClass α :=
  { s with
    objects := if tp ∈ s.objects then s.objects else s.objects ++ [tp]
    parent := Function.update s.parent tp none
    callees := Function.update s.callees tp [] }

/-- `list_empty(&caller->caller_link)`. -/
def callerLinkEmpty (s : CallClass α) (x : α) : Bool := s.objects.all fun p => x ∉ s.callees p

/-- `list_del_init(&caller->caller_link)`. -/
def delCallerLink (s : CallClass α) (x : α) : CallClass α :=
  { s with callees := fun p => (s.callees p).erase x }

/-- `list_move_tail(&callee->caller_link, &caller->callee_head)`. -/
def moveCallerLink (s : CallClass α) (x p : α) : CallClass α :=
  let s := s.delCallerLink x
  { s with callees := Function.update s.callees p (s.callees p ++ [x]) }

def setDepth (s : CallClass α) (x : α) (d : Nat) : CallClass α :=
  { s with depth := Function.update s.depth x d, maxDepth := max s.maxDepth d }

/-- `call_update_depth`; without an answer the recursion does not end. -/
def callUpdateDepth : Nat → α → CallClass α → Option (CallClass α)
  | 0, _, _ => none
  | n+1, x, s =>
    let s := s.setDepth x (above s.parent s.depth x)
    (s.callees x).foldlM (fun s c => callUpdateDepth n c s) s

/-- `call_recursive`: is `callee` the caller or above it? -/
def callRecursive (s : CallClass α) : Nat → Option α → α → Option Bool
  | 0, _, _ => none
  | _+1, none, _ => some false
  | n+1, some c, callee => if c = callee then some true else s.callRecursive n (s.parent c) callee

/-- What `call_iterate` visits. -/
def callIterate (s : CallClass α) (n : Nat) (x : α) : Option (List α) := preorder s.callees n x

def callClassIterate (s : CallClass α) (n : Nat) : Option (List α) :=
  (s.callerHead.mapM (s.callIterate n)).map List.flatten

def callClassPrint (s : CallClass α) (n : Nat) : Option (CallClass α) :=
  if s.calls ≠ 0 then
    (s.callClassIterate n).map fun l => { s with calls := 0, printed := s.printed ++ [l] }
  else some s

/-- An object that has a parent leaves it. -/
def leaveParent (s : CallClass α) (n : Nat) (x : α) : Option (CallClass α) :=
  if s.callerLinkEmpty x then some s
  else (s.callClassPrint n).bind fun s =>
    callUpdateDepth n x { s.delCallerLink x with parent := Function.update s.parent x none }

/-- The branch of `call_link` for `two(A, NULL)`. -/
def linkRoot (s : CallClass α) (n : Nat) (x : α) : Option (CallClass α) :=
  (s.leaveParent n x).map fun s =>
    if x ∈ s.callerHead then s else { s with callerHead := s.callerHead ++ [x] }

/-- The print before an object that is linked already gets another parent. -/
def printLinked (s : CallClass α) (n : Nat) (callee : α) : Option (CallClass α) :=
  if s.parent callee ≠ none ∨ callee ∈ s.callerHead then s.callClassPrint n else some s

/-- The object `callee` is moved below `x`. -/
def setParent (s : CallClass α) (x callee : α) : CallClass α :=
  let s := s.moveCallerLink callee x
  { s with
    callerHead := s.callerHead.erase callee
    parent := Function.update s.parent callee (some x) }

/-- The branch of `call_link` for `two(A, B)` where `B` has an object. -/
def linkCallee (s : CallClass α) (n : Nat) (x callee : α) : Option (CallClass α) :=
  (s.callRecursive n (some x) callee).bind fun r =>
    let s := { s with recursive := Function.update s.recursive x r }
    if s.parent callee ≠ some x ∧ r = false then
      (s.printLinked n callee).bind fun s => callUpdateDepth n callee (s.setParent x callee)
    else some s

/-- `call_link` with what it returns. -/
def callLink (s : CallClass α) (n : Nat) (two : α) (tp2 : Option α) :
    Option (CallClass α × Bool) :=
  if two ∉ s.objects then some (s, false)
  else match tp2 with
    | none => (s.linkRoot n two).map fun s => ({ s with calls := s.calls + 1 }, true)
    | some t =>
      if t ∉ s.objects then some (s, false)
      else (s.linkCallee n two t).map fun s => ({ s with calls := s.calls + 1 }, true)

/-- Calls of `call_link` one after the other. -/
def callLinks (n : Nat) : List (α × Option α) → CallClass α → Option (CallClass α)
  | [], s => some s
  | (two, tp2) :: ops, s => do
    let (s, _) ← s.callLink n two tp2
    callLinks n ops s

end CallClass

/-- The class with an object for each of the tps. -/
def created (tps : List α) : CallClass α := tps.foldl CallClass.callNew callClassNew

end Model

section Depth
variable {α : Type} {s s' s'' : CallClass α} {T : α → Nat} {P Q : α → Prop}

/-- Only depths have changed, for the objects in `P`, to their levels. -/
structure Updated (T : α → Nat) (P : α → Prop) (s s' : CallClass α) : Prop where
  same : s' = { s with depth := s'.depth, maxDepth := s'.maxDepth }
  done : ∀ y, P y → s'.depth y = T y ∧ T y ≤ s'.maxDepth
  other : ∀ y, ¬ P y → s'.depth y = s.depth y
  grows : s.maxDepth ≤ s'.maxDepth

theorem Updated.none (T : α → Nat) (s : CallClass α) : Updated T (fun _ => False) s s :=
  ⟨rfl, fun _ h => h.elim, fun _ _ => rfl, Nat.le_refl _⟩

theorem Updated.trans (h : Updated T P s s') (h' : Updated T Q s' s'') :
    Updated T (fun y => P y ∨ Q y) s s'' := by
  refine ⟨?_, ?_, ?_, Nat.le_trans h.grows h'.grows⟩
  · have h1 := h'.same
    rw [h.same] at h1
    exact h1
  · intro y hy
    by_cases hq : Q y
    · exact h'.done y hq
    · have hp := h.done y (hy.resolve_right hq)
      rw [h'.other y hq]
      exact ⟨hp.1, Nat.le_trans hp.2 h'.grows⟩
  · intro y hy
    rw [not_or] at hy
    rw [h'.other y hy.2, h.other y hy.1]

theorem Updated.keep (h : Updated T P s s') {x : α} (hx : s.depth x = T x) : s'.depth x = T x := by
  by_cases hp : P x
  · exact (h.done x hp).1
  · rw [h.other x hp, hx]

theorem Updated.congr (h : Updated T P s s') (hPQ : ∀ y, P y ↔ Q y) : Updated T Q s s' := by
  have heq : P = Q := funext fun y => propext (hPQ y)
  exact heq ▸ h

variable [DecidableEq α]

theorem updated_setDepth {x : α} {d : Nat} (hd : d = T x) :
    Updated T (· = x) s (s.setDepth x d) := by
  refine ⟨rfl, ?_, ?_, Nat.le_max_left ..⟩
  · rintro y rfl
    rw [← hd]
    exact ⟨Function.update_self .., Nat.le_max_right ..⟩
  · intro y hy
    exact Function.update_of_ne hy ..

variable {parent : α → Option α} {callees : α → List α} {M : Nat}

/-- `call_update_depth` ends and gives every object below its start its level. -/
theorem callUpdateDepth_spec (hc : Consistent parent callees) (hT : Levels parent T)
    (hM : ∀ x, T x ≤ M) (x : α) (s : CallClass α) (hp : s.parent = parent)
    (hcs : s.callees = callees) (hup : ∀ p, parent x = some p → s.depth p = T p) :
    ∃ s', (∀ n, M - T x < n → CallClass.callUpdateDepth n x s = some s') ∧
      Updated T (Under parent x) s s' := by
  induction hk : M - T x using Nat.strongRecOn generalizing x s with
  | _ k ih =>
    -- the children one after the other, each with what is below it
    have hfold : ∀ (cs : List α) (s : CallClass α), (∀ c ∈ cs, parent c = some x) →
        s.parent = parent → s.callees = callees → s.depth x = T x →
        ∃ s', (∀ n, k ≤ n → cs.foldlM (fun s c => CallClass.callUpdateDepth n c s) s = some s') ∧
          Updated T (fun y => ∃ c ∈ cs, Under parent c y) s s' := by
      intro cs
      induction cs with
      | nil =>
        intro s _ _ _ _
        refine ⟨s, fun n _ => rfl, (Updated.none T s).congr fun y => ?_⟩
        simp
      | cons c cs ihcs =>
        intro s hcx hp hcs hx
        rw [List.forall_mem_cons] at hcx
        have hlt : M - T c < k := by
          have h1 := hT.child hcx.1
          have h2 := hM c
          omega
        obtain ⟨s₁, hrun₁, hup₁⟩ := ih _ hlt c s hp hcs (by
          intro p hpc
          rw [hcx.1] at hpc
          cases hpc
          exact hx) rfl
        have hsame := hup₁.same
        obtain ⟨s₂, hrun₂, hup₂⟩ := ihcs s₁ hcx.2 (by rw [hsame]; exact hp)
          (by rw [hsame]; exact hcs) (hup₁.keep hx)
        refine ⟨s₂, ?_, (hup₁.trans hup₂).congr fun y => ?_⟩
        · intro n hn
          rw [List.foldlM_cons, hrun₁ n (by omega)]
          exact hrun₂ n hn
        · simp
    have hself : above s.parent s.depth x = T x := by
      rw [hT x, hp, above, above]
      cases hpx : parent x with
      | none => rfl
      | some p => simp [hup p hpx]
    have hset : Updated T (· = x) s (s.setDepth x (above s.parent s.depth x)) :=
      updated_setDepth hself
    obtain ⟨s', hrun, hupd⟩ := hfold (callees x) (s.setDepth x (above s.parent s.depth x))
      (fun c hcx => (hc.mem c x).mp hcx) hp hcs (hset.done x rfl).1
    refine ⟨s', ?_, (hset.trans hupd).congr fun y => ?_⟩
    · intro n hn
      obtain ⟨n, rfl⟩ : ∃ n', n = n' + 1 := ⟨n - 1, by omega⟩
      rw [CallClass.callUpdateDepth]
      have hkids : (s.setDepth x (above s.parent s.depth x)).callees x = callees x := by
        rw [← hcs]
        rfl
      rw [hkids]
      exact hrun n (by omega)
    · constructor
      · rintro (rfl | ⟨c, hcx, hu⟩)
        · exact .self
        · have hpc := (hc.mem c x).mp hcx
          induction hu with
          | self => exact .child hpc .self
          | child hpy _ ih => exact .child hpy ih
      · intro hu
        induction hu with
        | self => exact Or.inl rfl
        | @child z p hpz _ ih =>
          right
          rcases ih with rfl | ⟨c, hcx, hu⟩
          · exact ⟨z, (hc.mem z p).mpr hpz, .self⟩
          · exact ⟨c, hcx, .child hpz hu⟩

end Depth

section Invariant
variable {α : Type} {s s' : CallClass α} {x b : α}

/-- The parent pointers, the lists and the depths agree. -/
structure Forested (s : CallClass α) : Prop where
  consistent : Consistent s.parent s.callees
  levels : Levels s.parent s.depth
  bound : ∀ x, s.depth x ≤ s.maxDepth
  heads : s.callerHead.Nodup
  roots : ∀ x ∈ s.callerHead, s.parent x = none
  known : ∀ x p, s.parent x = some p → p ∈ s.objects

/-- A print visits everything below `caller_head`, once. -/
theorem Forested.callClassIterate (h : Forested s) :
    ∃ l, (∀ n, s.maxDepth < n → s.callClassIterate n = some l) ∧ l.Nodup ∧
      ∀ y, y ∈ l ↔ ∃ r ∈ s.callerHead, Under s.parent r y := by
  obtain ⟨g, hg⟩ := Classical.axiomOfChoice (preorder_spec h.consistent h.levels h.bound)
  refine ⟨(s.callerHead.map g).flatten, ?_, ?_, ?_⟩
  · intro n hn
    have hmap : s.callerHead.mapM (s.callIterate n) = some (s.callerHead.map g) :=
      mapM_some fun r _ => (hg r).1 n (by omega)
    rw [CallClass.callClassIterate, hmap]
    rfl
  · exact nodup_flatten h.levels h.heads (fun r hr => h.levels.root (h.roots r hr))
      fun r _ => (hg r).2
  · intro y
    simp only [List.mem_flatten, List.mem_map]
    constructor
    · rintro ⟨l, ⟨r, hr, rfl⟩, hy⟩
      exact ⟨r, hr, ((hg r).2.2 y).mp hy⟩
    · rintro ⟨r, hr, hu⟩
      exact ⟨g r, ⟨r, hr, rfl⟩, ((hg r).2.2 y).mpr hu⟩

/-- A print changes neither the trees nor the objects. -/
theorem Forested.callClassPrint (h : Forested s) :
    ∃ s', (∀ n, s.maxDepth < n → s.callClassPrint n = some s') ∧
      s' = { s with calls := s'.calls, printed := s'.printed } := by
  obtain ⟨l, hl, -⟩ := h.callClassIterate
  by_cases hcalls : s.calls ≠ 0
  · refine ⟨{ s with calls := 0, printed := s.printed ++ [l] }, ?_, rfl⟩
    intro n hn
    rw [CallClass.callClassPrint, if_pos hcalls, hl n hn]
    rfl
  · refine ⟨s, ?_, rfl⟩
    intro n _
    rw [CallClass.callClassPrint, if_neg hcalls]

variable [DecidableEq α]

theorem Forested.linkEmpty_iff (h : Forested s) : s.callerLinkEmpty x = true ↔ s.parent x = none := by
  rw [CallClass.callerLinkEmpty, List.all_eq_true]
  constructor
  · intro hall
    cases hp : s.parent x with
    | none => rfl
    | some p =>
      have hmem := (h.consistent.mem x p).mpr hp
      have hnot := hall p (h.known x p hp)
      exact absurd hmem (of_decide_eq_true hnot)
  · intro hp p _
    rw [decide_eq_true_eq, h.consistent.mem, hp]
    exact nofun

theorem Forested.callRecursive (h : Forested s) (c t : α) :
    ∃ r : Bool, (∀ n, s.depth c + 2 ≤ n → s.callRecursive n (some c) t = some r) ∧
      (r = true ↔ Under s.parent t c) := by
  induction hk : s.depth c generalizing c with
  | zero =>
    refine ⟨decide (c = t), ?_, ?_⟩
    · intro n hn
      obtain ⟨n, rfl⟩ : ∃ n', n = n' + 2 := ⟨n - 2, by omega⟩
      have hroot : s.parent c = none := by
        cases hp : s.parent c with
        | none => rfl
        | some p =>
          rw [h.levels.child hp] at hk
          omega
      simp only [CallClass.callRecursive, hroot]
      split <;> simp [*]
    · rw [decide_eq_true_eq]
      constructor
      · rintro rfl
        exact .self
      · intro hu
        cases hu with
        | self => rfl
        | child hp _ =>
          rw [h.levels.child hp] at hk
          omega
  | succ k ih =>
    by_cases hct : c = t
    · refine ⟨true, ?_, ?_⟩
      · intro n hn
        obtain ⟨n, rfl⟩ : ∃ n', n = n' + 1 := ⟨n - 1, by omega⟩
        rw [CallClass.callRecursive, if_pos hct]
      · simp only [true_iff]
        rw [hct]
        exact .self
    · cases hp : s.parent c with
      | none =>
        rw [h.levels.root hp] at hk
        omega
      | some p =>
        rw [h.levels.child hp] at hk
        obtain ⟨r, hrun, hr⟩ := ih p (by omega)
        refine ⟨r, ?_, hr.trans ⟨.child hp, fun hu => hu.parent_of_ne hct hp⟩⟩
        intro n hn
        obtain ⟨n, rfl⟩ : ∃ n', n = n' + 1 := ⟨n - 1, by omega⟩
        rw [CallClass.callRecursive, if_neg hct, hp]
        exact hrun n (by omega)

/-- An object gets another parent, with its lists, and the depths below it are updated. -/
theorem Forested.reparent (h : Forested s) {q : Option α} {callees : α → List α} {heads : List α}
    (hs' : s' = { s with
      parent := Function.update s.parent b q, callees := callees, callerHead := heads
      calls := s'.calls, printed := s'.printed })
    (hq : ∀ a, q = some a → ¬ Under s.parent b a ∧ a ∈ s.objects)
    (hc : Consistent (Function.update s.parent b q) callees) (hheads : heads.Nodup)
    (hroots : ∀ x ∈ heads, Function.update s.parent b q x = none) :
    ∃ n₀ t, (∀ n ≥ n₀, CallClass.callUpdateDepth n b s' = some t) ∧ Forested t ∧
      t.parent = Function.update s.parent b q ∧ t.callerHead = heads ∧ t.objects = s.objects := by
  obtain ⟨T, hT, hkeep, hbound⟩ := h.levels.move fun a ha => (hq a ha).1
  obtain ⟨M, hM⟩ := hbound _ h.bound
  obtain ⟨t, hrun, hupd⟩ := callUpdateDepth_spec hc hT hM b s' (by rw [hs']) (by rw [hs']) (by
    intro p hp
    rw [Function.update_self] at hp
    rw [hs', hkeep p (hq p hp).1])
  have hsame := hupd.same
  have hparent : t.parent = Function.update s.parent b q := by rw [hsame, hs']
  have hdepth : ∀ y, t.depth y = T y ∧ T y ≤ t.maxDepth := by
    intro y
    by_cases hu : Under (Function.update s.parent b q) b y
    · exact hupd.done y hu
    · have hold : s'.depth y = s.depth y := by rw [hs']
      have hmax : s.maxDepth ≤ t.maxDepth := by
        have hgrows := hupd.grows
        rw [hs'] at hgrows
        exact hgrows
      have hy := hkeep y (fun hu' => hu ((under_update ..).mpr hu'))
      rw [hupd.other y hu, hold, hy]
      exact ⟨rfl, Nat.le_trans (h.bound y) hmax⟩
  refine ⟨M - T b + 1, t, fun n hn => hrun n (by omega), ⟨?_, ?_, ?_, ?_, ?_, ?_⟩, hparent, ?_, ?_⟩
  · have hcallees : t.callees = callees := by rw [hsame, hs']
    rw [hparent, hcallees]
    exact hc
  · have hfun : t.depth = T := funext fun y => (hdepth y).1
    rw [hparent, hfun]
    exact hT
  · intro y
    rw [(hdepth y).1]
    exact (hdepth y).2
  · rw [hsame, hs']
    exact hheads
  · rw [hsame, hs']
    exact hroots
  · intro x p hp
    rw [hparent] at hp
    rw [hsame, hs']
    by_cases hx : x = b
    · rw [hx, Function.update_self] at hp
      exact (hq p hp).2
    · rw [Function.update_of_ne hx] at hp
      exact h.known x p hp
  · rw [hsame, hs']
  · rw [hsame, hs']

/-- Taking an object from the callees of its parent. -/
theorem Forested.unlink (h : Forested s) (b : α) :
    Consistent (Function.update s.parent b none) fun p => (s.callees p).erase b := by
  refine ⟨?_, fun p => (h.consistent.nodup p).erase b⟩
  intro x p
  rw [(h.consistent.nodup p).mem_erase_iff, h.consistent.mem]
  by_cases hx : x = b
  · simp [hx]
  · simp [hx]

theorem Forested.relink (h : Forested s) (b c : α) :
    Consistent (Function.update s.parent b (some c))
      (Function.update (fun p => (s.callees p).erase b) c ((s.callees c).erase b ++ [b])) := by
  have hb := h.unlink b
  have hnot : ∀ p, b ∉ (s.callees p).erase b := fun p => (h.consistent.nodup p).not_mem_erase
  constructor
  · intro x p
    have hmem := hb.mem x p
    by_cases hx : x = b
    · rw [hx, Function.update_self]
      by_cases hp : p = c
      · simp [hp]
      · rw [Function.update_of_ne hp]
        simp only [hnot p, Option.some.injEq, false_iff]
        exact fun heq => hp heq.symm
    · rw [Function.update_of_ne hx] at hmem ⊢
      rw [← hmem]
      by_cases hp : p = c
      · simp [hp, hx]
      · rw [Function.update_of_ne hp]
  · intro p
    by_cases hp : p = c
    · rw [hp, Function.update_self]
      refine List.nodup_append.mpr ⟨hb.nodup c, List.nodup_singleton b, ?_⟩
      intro a ha a' ha' heq
      rw [List.mem_singleton] at ha'
      rw [heq, ha'] at ha
      exact hnot c ha
    · rw [Function.update_of_ne hp]
      exact hb.nodup p

theorem Forested.leaveParent (h : Forested s) (x : α) :
    ∃ n₀ u, (∀ n ≥ n₀, s.leaveParent n x = some u) ∧ Forested u ∧
      u.parent = Function.update s.parent x none ∧ u.callerHead = s.callerHead ∧
      u.objects = s.objects := by
  by_cases hempty : s.callerLinkEmpty x = true
  · have hnone := h.linkEmpty_iff.mp hempty
    refine ⟨0, s, fun n _ => if_pos hempty, h, ?_, rfl, rfl⟩
    rw [← hnone, Function.update_eq_self]
  · obtain ⟨s₁, hprint, hs₁⟩ := h.callClassPrint
    have hroots : ∀ r ∈ s.callerHead, Function.update s.parent x none r = none := by
      intro r hr
      by_cases hrx : r = x
      · rw [hrx, Function.update_self]
      · rw [Function.update_of_ne hrx, h.roots r hr]
    obtain ⟨n₁, u, hrun, hforest⟩ := h.reparent (q := none)
      (show { s₁.delCallerLink x with parent := Function.update s₁.parent x none } = _ by
        rw [hs₁]
        rfl) nofun (h.unlink x) h.heads hroots
    refine ⟨max n₁ (s.maxDepth + 1), u, ?_, hforest⟩
    intro n hn
    rw [CallClass.leaveParent, if_neg hempty, hprint n (by omega)]
    exact hrun n (by omega)

/-- What `call_link` makes of an object that is called from nowhere. -/
theorem Forested.linkRoot (h : Forested s) (x : α) :
    ∃ n₀ t, (∀ n ≥ n₀, s.linkRoot n x = some t) ∧ Forested t ∧ t.objects = s.objects ∧
      t.parent = Function.update s.parent x none ∧
      t.callerHead = if x ∈ s.callerHead then s.callerHead else s.callerHead ++ [x] := by
  obtain ⟨n₀, u, hrun, hu, hparent, hheads, hobj⟩ := h.leaveParent x
  rw [← hheads, ← hparent, ← hobj]
  by_cases hx : x ∈ u.callerHead
  · refine ⟨n₀, u, ?_, hu, rfl, rfl, (if_pos hx).symm⟩
    intro n hn
    rw [CallClass.linkRoot, hrun n hn, Option.map_some, if_pos hx]
  · refine ⟨n₀, { u with callerHead := u.callerHead ++ [x] }, ?_, ?_, rfl, rfl, (if_neg hx).symm⟩
    · intro n hn
      rw [CallClass.linkRoot, hrun n hn, Option.map_some, if_neg hx]
    · refine ⟨hu.consistent, hu.levels, hu.bound, ?_, ?_, hu.known⟩
      · refine List.nodup_append.mpr ⟨hu.heads, List.nodup_singleton x, ?_⟩
        intro a ha a' ha' heq
        rw [List.mem_singleton] at ha'
        exact hx (ha' ▸ heq ▸ ha)
      · intro r hr
        rcases List.mem_append.mp hr with hr | hr
        · exact hu.roots r hr
        · rw [List.mem_singleton.mp hr]
          show u.parent x = none
          rw [hparent, Function.update_self]

theorem Forested.printLinked (h : Forested s) (t : α) :
    ∃ s', (∀ n, s.maxDepth < n → s.printLinked n t = some s') ∧
      s' = { s with calls := s'.calls, printed := s'.printed } := by
  by_cases hshow : s.parent t ≠ none ∨ t ∈ s.callerHead
  · obtain ⟨s', hprint, hs'⟩ := h.callClassPrint
    refine ⟨s', ?_, hs'⟩
    intro n hn
    rw [CallClass.printLinked, if_pos hshow, hprint n hn]
  · exact ⟨s, fun n _ => if_neg hshow, rfl⟩

/-- What `call_link` makes of an object that `x` calls. -/
theorem Forested.linkCallee (h : Forested s) (x t : α) (hx : x ∈ s.objects) :
    ∃ n₀ u, (∀ n ≥ n₀, s.linkCallee n x t = some u) ∧ Forested u ∧ u.objects = s.objects ∧
      ((Under s.parent t x ∨ s.parent t = some x) ∧ u.parent = s.parent ∧
          u.callerHead = s.callerHead ∨
        u.parent = Function.update s.parent t (some x) ∧ u.callerHead = s.callerHead.erase t) := by
  obtain ⟨r, hrec, hr⟩ := h.callRecursive x t
  have h₁ : Forested { s with recursive := Function.update s.recursive x r } :=
    ⟨h.consistent, h.levels, h.bound, h.heads, h.roots, h.known⟩
  by_cases hlink : s.parent t ≠ some x ∧ r = false
  · have hnot : ¬ Under s.parent t x := by
      rw [← hr, hlink.2]
      exact Bool.false_ne_true
    have hroots : ∀ y ∈ s.callerHead.erase t, Function.update s.parent t (some x) y = none := by
      intro y hy
      obtain ⟨hne, hmem⟩ := h.heads.mem_erase_iff.mp hy
      rw [Function.update_of_ne hne, h.roots y hmem]
    obtain ⟨s₂, hprint, hs₂⟩ := h₁.printLinked t
    obtain ⟨n₁, u, hrun, hforest, hparent, hheads, hobj⟩ := h₁.reparent (q := some x)
      (show s₂.setParent x t = _ by
        rw [hs₂]
        rfl) (fun a ha => by cases ha; exact ⟨hnot, hx⟩) (h.relink t x) (h.heads.erase t) hroots
    refine ⟨max (max n₁ (s.maxDepth + 1)) (s.depth x + 2), u, ?_, hforest, hobj,
      Or.inr ⟨hparent, hheads⟩⟩
    intro n hn
    rw [CallClass.linkCallee, hrec n (by omega), Option.bind_some]
    dsimp only
    rw [if_pos hlink, hprint n (by show s.maxDepth < n; omega)]
    exact hrun n (by omega)
  · refine ⟨s.depth x + 2, { s with recursive := Function.update s.recursive x r }, ?_, h₁, rfl,
      Or.inl ⟨?_, rfl, rfl⟩⟩
    · intro n hn
      rw [CallClass.linkCallee, hrec n hn, Option.bind_some]
      dsimp only
      rw [if_neg hlink]
    · by_cases hp : s.parent t = some x
      · exact Or.inr hp
      · left
        rw [← hr]
        by_contra hfalse
        exact hlink ⟨hp, Bool.eq_false_iff.mpr hfalse⟩

end Invariant

section Run
variable {α : Type} [DecidableEq α] {s : CallClass α}

/-- The object that one call links, as a root or as a callee. -/
def linkedOp (tps : List α) (op : α × Option α) : Option α :=
  if op.1 ∉ tps then none
  else match op.2 with
    | none => some op.1
    | some t => if t ∉ tps then none else some t

/-- The objects that calls of `call_link` have linked. -/
def linkedBy (tps : List α) (ops : List (α × Option α)) : List α := ops.filterMap (linkedOp tps)

/-- Each object that calls another was linked before. -/
def CallersLinked (tps : List α) (ops : List (α × Option α)) : Prop :=
  ∀ front back two t, ops = front ++ (two, some t) :: back → two ∈ tps → t ∈ tps →
    two ∈ linkedBy tps front

/-- Linked objects are below another or on `caller_head`, and so are the parents. -/
structure Linked (s : CallClass α) (L : List α) : Prop where
  iff : ∀ x, x ∈ L ↔ s.parent x ≠ none ∨ x ∈ s.callerHead
  parents : ∀ x p, s.parent x = some p → p ∈ L

omit [DecidableEq α] in
theorem Linked.above {L : List α} (h : Linked s L) {t x : α} (hu : Under s.parent t x)
    (hx : x ∈ L) : t ∈ L := by
  induction hu with
  | self => exact hx
  | child hp _ ih => exact ih (h.parents _ _ hp)

theorem linked_root {L : List α} (h : Linked s L) {u : CallClass α} {x : α}
    (hparent : u.parent = Function.update s.parent x none)
    (hheads : u.callerHead = if x ∈ s.callerHead then s.callerHead else s.callerHead ++ [x]) :
    Linked u (L ++ [x]) := by
  have hmem : ∀ y, y ∈ u.callerHead ↔ y ∈ s.callerHead ∨ y = x := by
    intro y
    rw [hheads]
    split
    · rename_i hx
      exact ⟨Or.inl, fun hy => hy.elim id fun he => he ▸ hx⟩
    · simp
  constructor
  · intro y
    rw [hmem, hparent, List.mem_append, List.mem_singleton, h.iff]
    by_cases hy : y = x
    · simp [hy]
    · simp [hy]
  · intro y p hp
    rw [hparent] at hp
    by_cases hy : y = x
    · rw [hy, Function.update_self] at hp
      cases hp
    · rw [Function.update_of_ne hy] at hp
      exact List.mem_append_left _ (h.parents y p hp)

theorem linked_callee {L : List α} (h : Linked s L) (hf : Forested s) {u : CallClass α} {x t : α}
    (hx : x ∈ L) (hu : (Under s.parent t x ∨ s.parent t = some x) ∧ u.parent = s.parent ∧
        u.callerHead = s.callerHead ∨
      u.parent = Function.update s.parent t (some x) ∧ u.callerHead = s.callerHead.erase t) :
    Linked u (L ++ [t]) := by
  rcases hu with ⟨hold, hparent, hheads⟩ | ⟨hparent, hheads⟩
  · have ht : t ∈ L := by
      rcases hold with hu | hp
      · exact h.above hu hx
      · rw [h.iff, hp]
        exact Or.inl nofun
    constructor
    · intro y
      rw [hparent, hheads, ← h.iff, List.mem_append, List.mem_singleton]
      exact ⟨fun hy => hy.elim id fun he => he ▸ ht, Or.inl⟩
    · intro y p hp
      rw [hparent] at hp
      exact List.mem_append_left _ (h.parents y p hp)
  · constructor
    · intro y
      rw [hparent, hheads, List.mem_append, List.mem_singleton, h.iff, hf.heads.mem_erase_iff]
      by_cases hy : y = t
      · simp [hy]
      · simp [hy]
    · intro y p hp
      rw [hparent] at hp
      by_cases hy : y = t
      · rw [hy, Function.update_self] at hp
        cases hp
        exact List.mem_append_left _ hx
      · rw [Function.update_of_ne hy] at hp
        exact List.mem_append_left _ (h.parents y p hp)

omit [DecidableEq α] in
theorem forested_calls (h : Forested s) (calls : UInt64) : Forested { s with calls := calls } :=
  ⟨h.consistent, h.levels, h.bound, h.heads, h.roots, h.known⟩

/-- One call keeps the forest, whatever it is asked to link. -/
theorem Forested.callLink (h : Forested s) (two : α) (tp2 : Option α) :
    ∃ n₀ u r, (∀ n ≥ n₀, s.callLink n two tp2 = some (u, r)) ∧ Forested u ∧
      u.objects = s.objects ∧ ∀ L, Linked s L →
        (∀ t, tp2 = some t → two ∈ s.objects → t ∈ s.objects → two ∈ L) →
        Linked u (L ++ (linkedOp s.objects (two, tp2)).toList) := by
  by_cases htwo : two ∈ s.objects
  · cases tp2 with
    | none =>
      obtain ⟨n₀, u, hrun, hu, hobj, hparent, hheads⟩ := h.linkRoot two
      refine ⟨n₀, { u with calls := u.calls + 1 }, true, ?_, forested_calls hu _, hobj, ?_⟩
      · intro n hn
        rw [CallClass.callLink, if_neg (not_not.mpr htwo)]
        rw [hrun n hn]
        rfl
      · intro L hL _
        simp only [linkedOp, htwo, not_true, if_false, Option.toList_some]
        exact linked_root hL hparent hheads
    | some t =>
      by_cases ht : t ∈ s.objects
      · obtain ⟨n₀, u, hrun, hu, hobj, hcases⟩ := h.linkCallee two t htwo
        refine ⟨n₀, { u with calls := u.calls + 1 }, true, ?_, forested_calls hu _, hobj, ?_⟩
        · intro n hn
          rw [CallClass.callLink, if_neg (not_not.mpr htwo)]
          rw [if_neg (not_not.mpr ht), hrun n hn]
          rfl
        · intro L hL hbefore
          simp only [linkedOp, htwo, ht, not_true, if_false, Option.toList_some]
          exact linked_callee hL h (hbefore t rfl htwo ht) hcases
      · refine ⟨0, s, false, ?_, h, rfl, ?_⟩
        · intro n _
          rw [CallClass.callLink, if_neg (not_not.mpr htwo)]
          rw [if_pos ht]
        · intro L hL _
          simp only [linkedOp, htwo, ht, not_true, not_false_iff, if_false, if_true,
            Option.toList_none, List.append_nil]
          exact hL
  · refine ⟨0, s, false, ?_, h, rfl, ?_⟩
    · intro n _
      unfold CallClass.callLink
      rw [if_pos htwo]
    · intro L hL _
      simp only [linkedOp, htwo, not_false_iff, if_true, Option.toList_none, List.append_nil]
      exact hL

theorem callLinks_concat (n : Nat) (ops : List (α × Option α)) (op : α × Option α)
    (s : CallClass α) : CallClass.callLinks n (ops ++ [op]) s =
      (CallClass.callLinks n ops s).bind fun s => (s.callLink n op.1 op.2).map Prod.fst := by
  induction ops generalizing s with
  | nil =>
    rw [List.nil_append, CallClass.callLinks, CallClass.callLinks, Option.bind_some]
    cases s.callLink n op.1 op.2 <;> rfl
  | cons first ops ih =>
    rw [List.cons_append, CallClass.callLinks, CallClass.callLinks]
    cases s.callLink n first.1 first.2 with
    | none => rfl
    | some r => exact ih r.1

theorem created_objects (tps : List α) (x : α) : x ∈ (created tps).objects ↔ x ∈ tps := by
  induction tps using List.reverseRecOn with
  | nil => rfl
  | append_singleton tps tp ih =>
    rw [created, List.foldl_concat, ← created, CallClass.callNew, List.mem_append, ← ih]
    dsimp only
    split
    · rename_i hmem
      simp only [List.mem_singleton]
      exact ⟨Or.inl, fun hx => hx.elim id fun he => he ▸ hmem⟩
    · simp

theorem created_fields (tps : List α) : (created tps).parent = (fun _ => none) ∧
    (created tps).callees = (fun _ => []) ∧ (created tps).depth = (fun _ => 0) ∧
    (created tps).callerHead = [] := by
  induction tps using List.reverseRecOn with
  | nil => exact ⟨rfl, rfl, rfl, rfl⟩
  | append_singleton tps tp ih =>
    obtain ⟨hp, hc, hd, hh⟩ := ih
    rw [created, List.foldl_concat, ← created]
    refine ⟨?_, ?_, hd, hh⟩
    · simp only [CallClass.callNew, hp]
      exact Function.update_eq_self tp (fun _ => none)
    · simp only [CallClass.callNew, hc]
      exact Function.update_eq_self tp (fun _ => [])

theorem created_forested (tps : List α) : Forested (created tps) := by
  obtain ⟨hp, hc, hd, hh⟩ := created_fields tps
  refine ⟨⟨?_, ?_⟩, ?_, ?_, ?_, ?_, ?_⟩
  · intro x p
    simp [hp, hc]
  · intro p
    rw [hc]
    exact List.nodup_nil
  · intro x
    rw [hp, hd]
    rfl
  · intro x
    rw [hd]
    exact Nat.zero_le _
  · rw [hh]
    exact List.nodup_nil
  · rw [hh]
    exact nofun
  · rw [hp]
    exact nofun

theorem linkedOp_congr {tps tps' : List α} (h : ∀ x, x ∈ tps ↔ x ∈ tps') (op : α × Option α) :
    linkedOp tps op = linkedOp tps' op := by
  simp only [linkedOp, h]

/-- Every sequence of calls ends in a forest, whose linked objects are those of the calls. -/
theorem callLinks_forested (tps : List α) (ops : List (α × Option α)) :
    ∃ n₀ s, (∀ n ≥ n₀, CallClass.callLinks n ops (created tps) = some s) ∧ Forested s ∧
      s.objects = (created tps).objects ∧
      (CallersLinked tps ops → Linked s (linkedBy tps ops)) := by
  induction ops using List.reverseRecOn with
  | nil =>
    refine ⟨0, created tps, fun n _ => rfl, created_forested tps, rfl, fun _ => ?_⟩
    obtain ⟨hp, -, -, hh⟩ := created_fields tps
    constructor
    · intro x
      simp [linkedBy, hp, hh]
    · rw [hp]
      exact nofun
  | append_singleton ops op ih =>
    obtain ⟨n₀, s, hrun, hs, hobj, hlinked⟩ := ih
    obtain ⟨n₁, u, r, hlink, hu, hobj', hL⟩ := hs.callLink op.1 op.2
    have hmem : ∀ x, x ∈ s.objects ↔ x ∈ tps := by
      intro x
      rw [hobj, created_objects]
    refine ⟨max n₀ n₁, u, ?_, hu, hobj'.trans hobj, ?_⟩
    · intro n hn
      rw [callLinks_concat, hrun n (by omega), Option.bind_some, hlink n (by omega)]
      rfl
    · intro hcallers
      have hfront : CallersLinked tps ops := by
        intro front back two t hsplit
        exact hcallers front (back ++ [op]) two t (by rw [hsplit, List.append_assoc]; rfl)
      have hlast := hL (linkedBy tps ops) (hlinked hfront) (by
        intro t ht h1 h2
        exact hcallers ops [] op.1 t (by rw [← ht]) ((hmem _).mp h1) ((hmem _).mp h2))
      rw [linkedOp_congr hmem] at hlast
      rw [linkedBy, List.filterMap_append]
      exact hlast

/-- After any calls of `call_link` the parents are acyclic, every object is on its parent's list,
on `caller_head` or on none, depths count the ancestors, the walks over the trees end, and if
callers were linked before, a print visits exactly the linked objects, each once. -/
theorem call_forest (tps : List α) (ops : List (α × Option α)) :
    ∃ s, (∃ n₀, ∀ n ≥ n₀, CallClass.callLinks n ops (created tps) = some s) ∧
      (∀ x, ¬ Relation.TransGen (fun y p => s.parent y = some p) x x) ∧
      ((∀ x p, x ∈ s.callees p ↔ s.parent x = some p) ∧ (∀ p, (s.callees p).Nodup) ∧
        s.callerHead.Nodup ∧ ∀ x ∈ s.callerHead, s.parent x = none) ∧
      (∀ x, s.depth x = match s.parent x with
        | none => 0
        | some p => s.depth p + 1) ∧
      (∀ x, s.depth x ≤ s.maxDepth) ∧
      (∀ caller callee, ∃ n₀ r, ∀ n ≥ n₀, s.callRecursive n (some caller) callee = some r) ∧
      (∀ x, ∃ n₀ s', ∀ n ≥ n₀, CallClass.callUpdateDepth n x s = some s') ∧
      (∀ x, ∃ n₀ l, ∀ n ≥ n₀, s.callIterate n x = some l) ∧
      ∃ n₀ l, (∀ n ≥ n₀, s.callClassIterate n = some l) ∧ l.Nodup ∧
        (CallersLinked tps ops → ∀ x, x ∈ l ↔ x ∈ linkedBy tps ops) := by
  obtain ⟨n₀, s, hrun, hs, -, hlinked⟩ := callLinks_forested tps ops
  obtain ⟨l, hl, hnodup, hmem⟩ := hs.callClassIterate
  refine ⟨s, ⟨n₀, hrun⟩, hs.levels.acyclic,
    ⟨hs.consistent.mem, hs.consistent.nodup, hs.heads, hs.roots⟩, hs.levels, hs.bound, ?_, ?_, ?_,
    s.maxDepth + 1, l, fun n hn => hl n hn, hnodup, ?_⟩
  · intro caller callee
    obtain ⟨r, hr, -⟩ := hs.callRecursive caller callee
    exact ⟨_, r, hr⟩
  · intro x
    obtain ⟨s', hs', -⟩ := callUpdateDepth_spec hs.consistent hs.levels hs.bound x s rfl rfl
      fun p _ => rfl
    exact ⟨_, s', fun n hn => hs' n hn⟩
  · intro x
    obtain ⟨l, hl, -⟩ := preorder_spec hs.consistent hs.levels hs.bound x
    exact ⟨_, l, fun n hn => hl n hn⟩
  · intro hcallers x
    have hL := hlinked hcallers
    rw [hmem]
    constructor
    · rintro ⟨r, hr, hu⟩
      rw [hL.iff]
      cases hp : s.parent x with
      | none => exact Or.inr (hu.of_root hp ▸ hr)
      | some p => exact Or.inl nofun
    · intro hx
      obtain ⟨r, hroot, hu⟩ := hs.levels.exists_root x
      have hr := (hL.iff r).mp (hL.above hu hx)
      exact ⟨r, hr.resolve_left fun h => h hroot, hu⟩

end Run

end PerfProf.CallForest
