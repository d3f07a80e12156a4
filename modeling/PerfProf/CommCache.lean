import Mathlib.Data.List.Induction
import Mathlib.Data.List.Pairwise
import Mathlib.Data.Prod.Lex
import PerfProf.Rblist

/-! The cache of comm.c: the comm of every pid, by the newest event that has arrived, and the pids
that have exited, oldest first, for `comm_gc` to forget. -/
namespace PerfProf.CommCache
open Rblist

section Model
variable {α : Type}

/-- A call of `comm_update`: a sample of task_newtask or task_rename, or, with `exit`, of
sched_process_free. `comm_enabled` also calls it, with time 1, for what it finds in /proc. -/
structure Event (α : Type) where
  time : Nat
  exit : Bool
  pid : Int
  comm : α
deriving DecidableEq

/-- `struct pid_comm_node`; `exitNode` tells whether the exit_node is linked, and a new node has no
comm yet. -/
structure PidCommNode (α : Type) where
  updateTime : Nat
  comm : Option α
  exitNode : Bool
deriving DecidableEq

/-- `pid_comm_node_new`. -/
def pidCommNodeNew : PidCommNode α := ⟨0, none, false⟩

/-- `struct comm_ctx`: the rblist `exited` lists its nodes by their pids; `notified` are the calls
of `notify`, with the pid and the time. -/
structure CommCtx (α : Type) where
  pidComm : Int → Option (PidCommNode α)
  exited : List Int
  notified : List (Int × Nat)

def commInit : CommCtx α := ⟨fun _ => none, [], []⟩

namespace CommCtx

def updateTime (c : CommCtx α) (pid : Int) : Nat :=
  match c.pidComm pid with
  | some node => node.updateTime
  | none => 0

/-- The order of `pid_comm_exit_cmp`. -/
def exitKey (c : CommCtx α) (pid : Int) : Nat ×ₗ Int := toLex (c.updateTime pid, pid)

def setNode (c : CommCtx α) (pid : Int) (node : PidCommNode α) : CommCtx α :=
  { c with pidComm := Function.update c.pidComm pid (some node) }

/-- `rblist__remove_node(&ctx->exited, ..)` with `pid_comm_exit_delete`. -/
def exitDelete (c : CommCtx α) (pid : Int) : CommCtx α :=
  { c with exited := c.exited.erase pid, notified := c.notified ++ [(pid, c.updateTime pid)] }

/-- `rblist__findnew(&ctx->pid_comm, ..)`. -/
def findnew (c : CommCtx α) (pid : Int) : CommCtx α × PidCommNode α :=
  match c.pidComm pid with
  | some node => (c, node)
  | none => (c.setNode pid pidCommNodeNew, pidCommNodeNew)

/-- The part of `comm_update` for an event newer than what is known. -/
def setComm (c : CommCtx α) (e : Event α) (node : PidCommNode α) : CommCtx α :=
  let c := if node.exitNode then c.exitDelete e.pid else c
  c.setNode e.pid { node with updateTime := e.time, comm := some e.comm, exitNode := false }

/-- `rblist__add_node(&ctx->exited, node)` with `pid_comm_exit_new`. -/
def exitAdd (c : CommCtx α) (pid : Int) : CommCtx α :=
  { c with
    exited := addNode c.exitKey pid c.exited
    pidComm := Function.update c.pidComm pid
      ((c.pidComm pid).map fun node => { node with exitNode := true }) }

def commUpdate (c : CommCtx α) (e : Event α) : CommCtx α :=
  let (c, node) := c.findnew e.pid
  let c := if node.updateTime < e.time then c.setComm e node else c
  if e.exit then c.exitAdd e.pid else c

/-- The loop of `comm_gc` over the exited pids. -/
def gcLoop (timeBefore : Nat) : List Int → CommCtx α → CommCtx α
  | [], c => c
  | pid :: rest, c =>
    if timeBefore ≤ c.updateTime pid then c
    else
      let c := c.exitDelete pid
      gcLoop timeBefore rest { c with pidComm := Function.update c.pidComm pid none }

def commGc (c : CommCtx α) (timeBefore : Nat) : CommCtx α := gcLoop timeBefore c.exited c

/-- The events in the order in which they are delivered. -/
def deliver (evs : List (Event α)) : CommCtx α := evs.foldl commUpdate commInit

end CommCtx

end Model

section History
variable {α : Type} {evs : List (Event α)} {x e e' : Event α} {p : Int}

/-- The event of a pid with the largest timestamp. -/
def Latest (evs : List (Event α)) (e : Event α) : Prop :=
  e ∈ evs ∧ ∀ e' ∈ evs, e'.pid = e.pid → e'.time ≤ e.time

/-- No two events of a pid have the same timestamp. -/
def Distinct (evs : List (Event α)) : Prop :=
  evs.Pairwise fun e e' => e.pid = e'.pid → e.time ≠ e'.time

/-- The newest event of the pid, or one that arrives after it, is a sched_process_free. -/
def Exits (evs : List (Event α)) (p : Int) : Prop :=
  ∃ front e back, evs = front ++ e :: back ∧ e.pid = p ∧ Latest evs e ∧
    ∃ f ∈ e :: back, f.pid = p ∧ f.exit = true

theorem Distinct.front (h : Distinct (evs ++ [x])) : Distinct evs :=
  (List.pairwise_append.mp h).1

theorem Distinct.last (h : Distinct (evs ++ [x])) (he : e ∈ evs) (hp : e.pid = x.pid) :
    e.time ≠ x.time :=
  (List.pairwise_append.mp h).2.2 e he x (List.mem_singleton.mpr rfl) hp

theorem Distinct.eq (h : Distinct evs) (he : e ∈ evs) (he' : e' ∈ evs) (hp : e.pid = e'.pid)
    (ht : e.time = e'.time) : e = e' := by
  by_contra hne
  have : Std.Symm fun a b : Event α => a.pid = b.pid → a.time ≠ b.time :=
    ⟨fun a b hab hp ht => hab hp.symm ht.symm⟩
  exact List.Pairwise.forall h he he' hne hp ht

theorem Latest.eq (h : Distinct evs) (he : Latest evs e) (he' : Latest evs e')
    (hp : e.pid = e'.pid) : e = e' :=
  h.eq he.1 he'.1 hp (Nat.le_antisymm (he'.2 e he.1 hp) (he.2 e' he'.1 hp.symm))

theorem exists_latest (h : ∃ e ∈ evs, e.pid = p) : ∃ e, Latest evs e ∧ e.pid = p := by
  induction evs with
  | nil =>
    obtain ⟨e, he, -⟩ := h
    cases he
  | cons y evs ih =>
    by_cases hrest : ∃ e ∈ evs, e.pid = p
    · obtain ⟨m, hm, hmp⟩ := ih hrest
      by_cases hy : y.pid = p ∧ m.time < y.time
      · refine ⟨y, ⟨List.mem_cons_self .., fun z hz hzp => ?_⟩, hy.1⟩
        rcases List.mem_cons.mp hz with rfl | hz
        · exact Nat.le_refl _
        · have := hm.2 z hz (by rw [hzp, hy.1, hmp])
          omega
      · refine ⟨m, ⟨List.mem_cons_of_mem _ hm.1, fun z hz hzp => ?_⟩, hmp⟩
        rcases List.mem_cons.mp hz with rfl | hz
        · rw [hmp] at hzp
          exact Nat.le_of_not_lt fun hlt => hy ⟨hzp, hlt⟩
        · exact hm.2 z hz hzp
    · obtain ⟨e, he, hep⟩ := h
      have hy : e = y := (List.mem_cons.mp he).resolve_right fun he => hrest ⟨e, he, hep⟩
      subst hy
      refine ⟨e, ⟨List.mem_cons_self .., fun z hz hzp => ?_⟩, hep⟩
      rcases List.mem_cons.mp hz with rfl | hz
      · exact Nat.le_refl _
      · exact absurd ⟨z, hz, hzp.trans hep⟩ hrest

theorem latest_other (hp : x.pid ≠ e.pid) : Latest (evs ++ [x]) e ↔ Latest evs e := by
  unfold Latest
  constructor
  · rintro ⟨he, hmax⟩
    refine ⟨?_, fun y hy => hmax y (List.mem_append_left _ hy)⟩
    refine (List.mem_append.mp he).resolve_right fun he => ?_
    exact hp (congrArg Event.pid (List.mem_singleton.mp he).symm)
  · rintro ⟨he, hmax⟩
    refine ⟨List.mem_append_left _ he, fun y hy hyp => ?_⟩
    rcases List.mem_append.mp hy with hy | hy
    · exact hmax y hy hyp
    · rw [List.mem_singleton.mp hy] at hyp
      exact absurd hyp hp

theorem latest_newer (h : ∀ y ∈ evs, y.pid = x.pid → y.time ≤ x.time) : Latest (evs ++ [x]) x := by
  refine ⟨by simp, fun y hy hyp => ?_⟩
  rcases List.mem_append.mp hy with hy | hy
  · exact h y hy hyp
  · rw [List.mem_singleton.mp hy]

theorem Latest.older (h : Latest evs e) (ht : x.time ≤ e.time) : Latest (evs ++ [x]) e := by
  refine ⟨List.mem_append_left _ h.1, fun y hy hyp => ?_⟩
  rcases List.mem_append.mp hy with hy | hy
  · exact h.2 y hy hyp
  · rw [List.mem_singleton.mp hy]
    exact ht

theorem snoc_split {front back : List (Event α)} (h : evs ++ [x] = front ++ e :: back)
    (hne : x ≠ e) : ∃ back', back = back' ++ [x] ∧ evs = front ++ e :: back' := by
  rcases List.eq_nil_or_concat back with rfl | ⟨back', y, rfl⟩
  · exact absurd (List.append_inj' h rfl).2 (by simpa using hne)
  · have hsplit : evs ++ [x] = (front ++ e :: back') ++ [y] := by simpa using h
    obtain ⟨hevs, hy⟩ := List.append_inj' hsplit rfl
    cases hy
    exact ⟨back', List.concat_eq_append, hevs⟩

theorem exits_other (hp : x.pid ≠ p) : Exits (evs ++ [x]) p ↔ Exits evs p := by
  constructor
  · rintro ⟨front, e, back, hsplit, hep, hl, f, hf, hfp, hexit⟩
    have hne : x.pid ≠ e.pid := fun h => hp (h.trans hep)
    obtain ⟨back', rfl, hevs⟩ := snoc_split hsplit fun h => hne (congrArg Event.pid h)
    refine ⟨front, e, back', hevs, hep, (latest_other hne).mp hl, f, ?_, hfp, hexit⟩
    rw [← List.cons_append] at hf
    refine (List.mem_append.mp hf).resolve_right fun hf => hp ?_
    rw [← List.mem_singleton.mp hf, hfp]
  · rintro ⟨front, e, back, rfl, hep, hl, f, hf, hfp, hexit⟩
    have hne : x.pid ≠ e.pid := fun h => hp (h.trans hep)
    refine ⟨front, e, back ++ [x], by simp, hep, (latest_other hne).mpr hl, f, ?_, hfp, hexit⟩
    rw [← List.cons_append]
    exact List.mem_append_left _ hf

theorem exits_newer (hp : x.pid = p) (h : ∀ y ∈ evs, y.pid = p → y.time < x.time) :
    Exits (evs ++ [x]) p ↔ x.exit = true := by
  constructor
  · rintro ⟨front, e, back, hsplit, hep, hl, f, hf, hfp, hexit⟩
    by_cases hne : x = e
    · subst hne
      have hback : back = [] := by
        rcases List.eq_nil_or_concat back with hnil | ⟨back', y, rfl⟩
        · exact hnil
        · have hsplit' : evs ++ [x] = (front ++ x :: back') ++ [y] := by simpa using hsplit
          have hmem : x ∈ evs := by
            rw [(List.append_inj' hsplit' rfl).1]
            simp
          exact absurd (h x hmem hep) (Nat.lt_irrefl _)
      rw [hback, List.mem_singleton] at hf
      rw [← hf]
      exact hexit
    · obtain ⟨back', -, hevs⟩ := snoc_split hsplit hne
      have hlt := h e (by rw [hevs]; simp) hep
      have hle := hl.2 x (by simp) (hp.trans hep.symm)
      omega
  · intro hexit
    refine ⟨evs, x, [], rfl, hp, ?_, x, List.mem_singleton.mpr rfl, hp, hexit⟩
    exact latest_newer fun y hy hyp => Nat.le_of_lt (h y hy (hyp.trans hp))

theorem exits_older (hp : x.pid = p) (h : ∃ y ∈ evs, y.pid = p ∧ x.time < y.time) :
    Exits (evs ++ [x]) p ↔ Exits evs p ∨ x.exit = true := by
  obtain ⟨y, hy, hyp, hlt⟩ := h
  have holder : ∀ e, Latest evs e → e.pid = p → x.time ≤ e.time := by
    intro e hl hep
    have := hl.2 y hy (hyp.trans hep.symm)
    omega
  constructor
  · rintro ⟨front, e, back, hsplit, hep, hl, f, hf, hfp, hexit⟩
    have hne : x ≠ e := by
      rintro rfl
      have := hl.2 y (List.mem_append_left _ hy) (hyp.trans hep.symm)
      omega
    obtain ⟨back', rfl, hevs⟩ := snoc_split hsplit hne
    rw [← List.cons_append] at hf
    rcases List.mem_append.mp hf with hf | hf
    · refine Or.inl ⟨front, e, back', hevs, hep, ⟨?_, fun z hz => ?_⟩, f, hf, hfp, hexit⟩
      · rw [hevs]
        simp
      · exact hl.2 z (List.mem_append_left _ hz)
    · rw [← List.mem_singleton.mp hf]
      exact Or.inr hexit
  · rintro (⟨front, e, back, hevs, hep, hl, f, hf, hfp, hexit⟩ | hexit)
    · refine ⟨front, e, back ++ [x], by simp [hevs], hep, hl.older (holder e hl hep), f, ?_, hfp,
        hexit⟩
      rw [← List.cons_append]
      exact List.mem_append_left _ hf
    · obtain ⟨e, hl, hep⟩ := exists_latest ⟨y, hy, hyp⟩
      obtain ⟨front, back, hevs⟩ := List.append_of_mem hl.1
      exact ⟨front, e, back ++ [x], by simp [hevs], hep, hl.older (holder e hl hep), x, by simp, hp,
        hexit⟩

end History

section Update
variable {α : Type} {c : CommCtx α} {evs : List (Event α)} {x : Event α} {p q : Int}
  {node : PidCommNode α}

/-- The exited nodes are in `pid_comm`, exactly those with a linked exit_node, in order. -/
structure Tree (c : CommCtx α) : Prop where
  linked : ∀ p, p ∈ c.exited ↔ ∃ node, c.pidComm p = some node ∧ node.exitNode = true
  sorted : Sorted c.exitKey c.exited

theorem exitKey_inj (h : c.exitKey p = c.exitKey q) : p = q := congrArg (fun k => (ofLex k).2) h

theorem mem_addNode_exited : q ∈ addNode c.exitKey p c.exited ↔ q ∈ c.exited ∨ q = p := by
  constructor
  · intro h
    exact (mem_of_mem_addNode h).symm
  · rintro (h | rfl)
    · exact mem_addNode_of_mem h
    · obtain ⟨b, hb, hkey⟩ := exists_mem_addNode c.exitKey q c.exited
      exact exitKey_inj hkey ▸ hb

theorem updateTime_of_some (h : c.pidComm p = some node) : c.updateTime p = node.updateTime := by
  rw [CommCtx.updateTime, h]

theorem updateTime_congr {c' : CommCtx α} (h : c'.pidComm p = c.pidComm p) :
    c'.updateTime p = c.updateTime p := by
  rw [CommCtx.updateTime, CommCtx.updateTime, h]

theorem exitKey_congr {c' : CommCtx α} (h : c'.updateTime p = c.updateTime p) :
    c'.exitKey p = c.exitKey p := by
  rw [CommCtx.exitKey, CommCtx.exitKey, h]

theorem Tree.findnew (h : Tree c) (p : Int) : Tree (c.findnew p).1 ∧
    (c.findnew p).1.pidComm p = some (c.findnew p).2 ∧
    (∀ q, q ≠ p → (c.findnew p).1.pidComm q = c.pidComm q) ∧
    (c.findnew p).1.exited = c.exited ∧
    (c.findnew p).2 = (c.pidComm p).getD pidCommNodeNew := by
  unfold CommCtx.findnew
  cases hp : c.pidComm p with
  | some node => exact ⟨h, hp, fun _ _ => rfl, rfl, rfl⟩
  | none =>
    have hother : ∀ q, q ≠ p → (c.setNode p pidCommNodeNew).pidComm q = c.pidComm q :=
      fun q hq => Function.update_of_ne hq ..
    have hself : (c.setNode p pidCommNodeNew).pidComm p = some pidCommNodeNew :=
      Function.update_self ..
    have htime : ∀ q, (c.setNode p pidCommNodeNew).updateTime q = c.updateTime q := by
      intro q
      by_cases hq : q = p
      · rw [hq, updateTime_of_some hself, CommCtx.updateTime, hp]
        rfl
      · exact updateTime_congr (hother q hq)
    refine ⟨⟨fun q => ?_, h.sorted.congr fun q _ => exitKey_congr (htime q)⟩, hself, hother, rfl,
      rfl⟩
    by_cases hq : q = p
    · rw [hq, hself]
      refine (h.linked p).trans ?_
      simp [hp, pidCommNodeNew]
    · rw [hother q hq]
      exact h.linked q

theorem Tree.setComm (h : Tree c) (hx : c.pidComm x.pid = some node) : Tree (c.setComm x node) ∧
    (c.setComm x node).pidComm x.pid = some ⟨x.time, some x.comm, false⟩ ∧
    (∀ q, q ≠ x.pid → (c.setComm x node).pidComm q = c.pidComm q) ∧
    ∀ q, q ∈ (c.setComm x node).exited ↔ q ∈ c.exited ∧ q ≠ x.pid := by
  -- the list without the pid, whether it was there or not
  have hexited : (c.setComm x node).exited = c.exited.erase x.pid := by
    unfold CommCtx.setComm
    dsimp only
    cases hexit : node.exitNode with
    | true => rfl
    | false =>
      have hnot : x.pid ∉ c.exited := by
        rw [h.linked, hx]
        simp [hexit]
      rw [List.erase_of_not_mem hnot]
      rfl
  have hself : (c.setComm x node).pidComm x.pid = some ⟨x.time, some x.comm, false⟩ := by
    unfold CommCtx.setComm
    exact Function.update_self ..
  have hother : ∀ q, q ≠ x.pid → (c.setComm x node).pidComm q = c.pidComm q := by
    intro q hq
    unfold CommCtx.setComm
    dsimp only
    refine (Function.update_of_ne hq ..).trans ?_
    split <;> rfl
  have hmem : ∀ q, q ∈ (c.setComm x node).exited ↔ q ∈ c.exited ∧ q ≠ x.pid := by
    intro q
    rw [hexited, h.sorted.nodup.mem_erase_iff, and_comm]
  refine ⟨⟨fun q => ?_, ?_⟩, hself, hother, hmem⟩
  · rw [hmem]
    by_cases hq : q = x.pid
    · simp [hq, hself]
    · rw [hother q hq, h.linked]
      simp [hq]
  · have hold : Sorted c.exitKey (c.exited.erase x.pid) :=
      List.Pairwise.sublist List.erase_sublist h.sorted
    rw [← hexited] at hold
    refine hold.congr fun q hq => ?_
    exact exitKey_congr (updateTime_congr (hother q ((hmem q).mp hq).2))

theorem Tree.exitAdd (h : Tree c) (hp : c.pidComm p = some node) : Tree (c.exitAdd p) ∧
    (c.exitAdd p).pidComm p = some { node with exitNode := true } ∧
    (∀ q, q ≠ p → (c.exitAdd p).pidComm q = c.pidComm q) ∧
    ∀ q, q ∈ (c.exitAdd p).exited ↔ q ∈ c.exited ∨ q = p := by
  have hself : (c.exitAdd p).pidComm p = some { node with exitNode := true } := by
    refine (Function.update_self ..).trans ?_
    rw [hp, Option.map_some]
  have hother : ∀ q, q ≠ p → (c.exitAdd p).pidComm q = c.pidComm q :=
    fun q hq => Function.update_of_ne hq ..
  have hmem : ∀ q, q ∈ (c.exitAdd p).exited ↔ q ∈ c.exited ∨ q = p :=
    fun q => mem_addNode_exited
  have htime : ∀ q, (c.exitAdd p).updateTime q = c.updateTime q := by
    intro q
    by_cases hq : q = p
    · rw [hq, updateTime_of_some hself, updateTime_of_some hp]
    · exact updateTime_congr (hother q hq)
  refine ⟨⟨fun q => ?_, ?_⟩, hself, hother, hmem⟩
  · rw [hmem]
    by_cases hq : q = p
    · simp [hq, hself]
    · rw [hother q hq, h.linked]
      simp [hq]
  · exact (h.sorted.addNode p).congr fun q _ => exitKey_congr (htime q)

/-- What `comm_update` does to the node of the pid, and that it touches no other. -/
theorem Tree.commUpdate (h : Tree c) (x : Event α) : Tree (c.commUpdate x) ∧
    (∀ q, q ≠ x.pid → (c.commUpdate x).pidComm q = c.pidComm q ∧
      (q ∈ (c.commUpdate x).exited ↔ q ∈ c.exited)) ∧
    ∃ node, (c.commUpdate x).pidComm x.pid = some node ∧
      (c.updateTime x.pid < x.time ∧ node.updateTime = x.time ∧ node.comm = some x.comm ∧
          (x.pid ∈ (c.commUpdate x).exited ↔ x.exit = true) ∨
        x.time ≤ c.updateTime x.pid ∧ node.updateTime = c.updateTime x.pid ∧
          node.comm = (c.pidComm x.pid).bind PidCommNode.comm ∧
          (x.pid ∈ (c.commUpdate x).exited ↔ x.pid ∈ c.exited ∨ x.exit = true)) := by
  obtain ⟨h₁, hnode, hother, hexited, hget⟩ := h.findnew x.pid
  have htime : (c.findnew x.pid).2.updateTime = c.updateTime x.pid := by
    rw [hget, CommCtx.updateTime]
    cases c.pidComm x.pid <;> rfl
  have hcomm : (c.findnew x.pid).2.comm = (c.pidComm x.pid).bind PidCommNode.comm := by
    rw [hget]
    cases c.pidComm x.pid <;> rfl
  unfold CommCtx.commUpdate
  generalize hc₁ : (c.findnew x.pid).1 = c₁ at *
  generalize hn : (c.findnew x.pid).2 = node at *
  have hpair : c.findnew x.pid = (c₁, node) := by rw [← hc₁, ← hn]
  rw [hpair]
  dsimp only
  -- the node after the timestamp test
  obtain ⟨c₂, hc₂⟩ : ∃ c₂, (if node.updateTime < x.time then c₁.setComm x node else c₁) = c₂ :=
    ⟨_, rfl⟩
  rw [hc₂]
  obtain ⟨h₂, hother₂, node₂, hnode₂, hcases⟩ : Tree c₂ ∧
      (∀ q, q ≠ x.pid → c₂.pidComm q = c.pidComm q ∧ (q ∈ c₂.exited ↔ q ∈ c.exited)) ∧
      ∃ node₂, c₂.pidComm x.pid = some node₂ ∧
        (c.updateTime x.pid < x.time ∧ node₂.updateTime = x.time ∧ node₂.comm = some x.comm ∧
            x.pid ∉ c₂.exited ∨
          x.time ≤ c.updateTime x.pid ∧ node₂.updateTime = c.updateTime x.pid ∧
            node₂.comm = (c.pidComm x.pid).bind PidCommNode.comm ∧
            (x.pid ∈ c₂.exited ↔ x.pid ∈ c.exited)) := by
    rw [← hc₂]
    by_cases hlt : node.updateTime < x.time
    · obtain ⟨h₂, hself, hkeep, hmem⟩ := h₁.setComm hnode
      rw [if_pos hlt]
      refine ⟨h₂, fun q hq => ⟨(hkeep q hq).trans (hother q hq), ?_⟩, _, hself,
        Or.inl ⟨htime ▸ hlt, rfl, rfl, fun hx => ((hmem _).mp hx).2 rfl⟩⟩
      rw [hmem, hexited]
      simp [hq]
    · rw [if_neg hlt]
      refine ⟨h₁, fun q hq => ⟨hother q hq, by rw [hexited]⟩, node, hnode,
        Or.inr ⟨htime ▸ Nat.le_of_not_lt hlt, htime, hcomm, by rw [hexited]⟩⟩
  cases hexit : x.exit with
  | false =>
    simp only [Bool.false_eq_true, if_false]
    refine ⟨h₂, hother₂, node₂, hnode₂, hcases.imp ?_ ?_⟩
    · rintro ⟨hlt, ht, hcm, hnot⟩
      exact ⟨hlt, ht, hcm, iff_of_false hnot id⟩
    · rintro ⟨hle, ht, hcm, hiff⟩
      exact ⟨hle, ht, hcm, by simpa using hiff⟩
  | true =>
    obtain ⟨h₃, hself, hkeep, hmem⟩ := h₂.exitAdd hnode₂
    simp only [if_true]
    refine ⟨h₃, fun q hq => ⟨(hkeep q hq).trans (hother₂ q hq).1, ?_⟩, _, hself, hcases.imp ?_ ?_⟩
    · rw [hmem, (hother₂ q hq).2]
      simp [hq]
    · rintro ⟨hlt, ht, hcm, -⟩
      exact ⟨hlt, ht, hcm, iff_of_true ((hmem _).mpr (Or.inr rfl)) trivial⟩
    · rintro ⟨hle, ht, hcm, -⟩
      exact ⟨hle, ht, hcm, iff_of_true ((hmem _).mpr (Or.inr rfl)) (Or.inr trivial)⟩

end Update

section Run
variable {α : Type} {c : CommCtx α} {evs : List (Event α)} {x e : Event α} {p : Int}

/-- What the cache knows once the events have arrived. -/
structure Known (evs : List (Event α)) (c : CommCtx α) : Prop where
  tree : Tree c
  seen : ∀ p, (∃ e ∈ evs, e.pid = p) ↔ ∃ node, c.pidComm p = some node
  newest : ∀ e ∈ evs, e.time ≤ c.updateTime e.pid
  comm : ∀ p node, c.pidComm p = some node →
    (0 < node.updateTime ∧ ∃ e ∈ evs, e.pid = p ∧ e.time = node.updateTime ∧
      node.comm = some e.comm) ∨ node.updateTime = 0 ∧ node.comm = none
  exits : ∀ p, p ∈ c.exited ↔ Exits evs p

theorem known_init : Known [] (commInit : CommCtx α) := by
  refine ⟨⟨fun p => ?_, List.Pairwise.nil⟩, fun p => ?_, nofun, nofun, fun p => ?_⟩
  · simp [commInit]
  · simp [commInit]
  · simp [commInit, Exits]

theorem Known.commUpdate (h : Known evs c) (hd : Distinct (evs ++ [x])) :
    Known (evs ++ [x]) (c.commUpdate x) := by
  obtain ⟨htree, hother, node, hnode, hcases⟩ := h.tree.commUpdate x
  have htime : (c.commUpdate x).updateTime x.pid = node.updateTime := updateTime_of_some hnode
  have hmax : c.updateTime x.pid ≤ node.updateTime ∧ x.time ≤ node.updateTime := by omega
  refine ⟨htree, fun p => ?_, fun e he => ?_, fun p m hm => ?_, fun p => ?_⟩
  · by_cases hp : p = x.pid
    · exact iff_of_true ⟨x, by simp, hp.symm⟩ ⟨node, hp ▸ hnode⟩
    · rw [(hother p hp).1, ← h.seen]
      simp only [List.mem_append, List.mem_singleton]
      constructor
      · rintro ⟨e, he | rfl, hep⟩
        · exact ⟨e, he, hep⟩
        · exact absurd hep.symm hp
      · rintro ⟨e, he, hep⟩
        exact ⟨e, Or.inl he, hep⟩
  · by_cases hp : e.pid = x.pid
    · rw [hp, htime]
      rcases List.mem_append.mp he with he | he
      · have := h.newest e he
        rw [hp] at this
        omega
      · rw [List.mem_singleton.mp he]
        exact hmax.2
    · rw [updateTime_congr (hother e.pid hp).1]
      refine h.newest e ((List.mem_append.mp he).resolve_right fun he => hp ?_)
      rw [List.mem_singleton.mp he]
  · have hkeep : (∃ e ∈ evs, e.pid = p ∧ e.time = m.updateTime ∧ m.comm = some e.comm) →
        ∃ e ∈ evs ++ [x], e.pid = p ∧ e.time = m.updateTime ∧ m.comm = some e.comm :=
      fun ⟨e, he, hrest⟩ => ⟨e, List.mem_append_left _ he, hrest⟩
    by_cases hp : p = x.pid
    · rw [hp, hnode] at hm
      cases hm
      rcases hcases with ⟨hlt, ht, hcm, -⟩ | ⟨hle, ht, hcm, -⟩
      · exact Or.inl ⟨by omega, x, by simp, hp.symm, ht.symm, hcm⟩
      · cases hold : c.pidComm x.pid with
        | none =>
          rw [hold] at hcm
          have hzero : c.updateTime x.pid = 0 := by rw [CommCtx.updateTime, hold]
          exact Or.inr ⟨ht.trans hzero, hcm⟩
        | some old =>
          rw [hold] at hcm
          rw [updateTime_of_some hold] at ht
          have hold' := h.comm x.pid old hold
          rw [hp] at hkeep ⊢
          have hsame : node.comm = old.comm := hcm
          rw [← ht, ← hsame] at hold'
          exact hold'.imp_left fun hpos => ⟨hpos.1, hkeep hpos.2⟩
    · rw [(hother p hp).1] at hm
      exact (h.comm p m hm).imp_left fun hpos => ⟨hpos.1, hkeep hpos.2⟩
  · by_cases hp : p = x.pid
    · subst hp
      rcases hcases with ⟨hlt, ht, -, hexited⟩ | ⟨hle, ht, -, hexited⟩
      · rw [hexited, exits_newer rfl]
        intro y hy hyp
        have := h.newest y hy
        rw [hyp] at this
        omega
      · rw [hexited, h.exits]
        by_cases hseen : ∃ y ∈ evs, y.pid = x.pid
        · -- the newest event so far stays the newest
          rw [exits_older rfl]
          obtain ⟨y, hl, hyp⟩ := exists_latest hseen
          obtain ⟨m, hm⟩ := (h.seen x.pid).mp hseen
          have hne := hd.last hl.1 hyp
          have hyt : c.updateTime x.pid ≤ y.time := by
            rw [updateTime_of_some hm]
            rcases h.comm x.pid m hm with ⟨-, z, hz, hzp, hzt, -⟩ | ⟨hzero, -⟩
            · rw [← hzt]
              exact hl.2 z hz (hzp.trans hyp.symm)
            · omega
          exact ⟨y, hl.1, hyp, by omega⟩
        · rw [exits_newer rfl fun y hy hyp => absurd ⟨y, hy, hyp⟩ hseen]
          refine or_iff_right fun hexits => hseen ?_
          obtain ⟨front, y, back, rfl, hyp, -⟩ := hexits
          exact ⟨y, by simp, hyp⟩
    · rw [(hother p hp).2, h.exits, exits_other (Ne.symm hp)]

theorem known_deliver (h : Distinct evs) : Known evs (CommCtx.deliver evs) := by
  induction evs using List.reverseRecOn with
  | nil => exact known_init
  | append_singleton evs x ih =>
    rw [CommCtx.deliver, List.foldl_concat]
    exact (ih h.front).commUpdate h

theorem Known.latest (h : Known evs c) (hl : Latest evs e) (hpos : 0 < e.time) :
    ∃ node, c.pidComm e.pid = some node ∧ node.updateTime = e.time := by
  obtain ⟨node, hnode⟩ := (h.seen e.pid).mp ⟨e, hl.1, rfl⟩
  have hle := h.newest e hl.1
  rw [updateTime_of_some hnode] at hle
  refine ⟨node, hnode, ?_⟩
  rcases h.comm e.pid node hnode with ⟨-, y, hy, hyp, hyt, -⟩ | ⟨hzero, -⟩
  · have := hl.2 y hy hyp
    omega
  · omega

end Run

section Gc
variable {α : Type} {t : Nat}

/-- `comm_gc` forgets, and notifies of, exited pids last updated before the time, no others. -/
theorem gcLoop_spec (l : List Int) (c : CommCtx α) :
    (∀ p, (CommCtx.gcLoop t l c).pidComm p ≠ c.pidComm p → p ∈ l ∧ c.updateTime p < t) ∧
    ∃ more, (CommCtx.gcLoop t l c).notified = c.notified ++ more ∧
      ∀ n ∈ more, n.1 ∈ l ∧ c.updateTime n.1 < t := by
  induction l generalizing c with
  | nil => exact ⟨fun p hp => absurd rfl hp, [], (List.append_nil _).symm, nofun⟩
  | cons pid rest ih =>
    unfold CommCtx.gcLoop
    split
    · exact ⟨fun p hp => absurd rfl hp, [], (List.append_nil _).symm, nofun⟩
    · rename_i hlt
      obtain ⟨hforget, more, hmore, hin⟩ := ih { c.exitDelete pid with
        pidComm := Function.update (c.exitDelete pid).pidComm pid none }
      have hother : ∀ p, p ≠ pid → CommCtx.updateTime { c.exitDelete pid with
          pidComm := Function.update (c.exitDelete pid).pidComm pid none } p =
            c.updateTime p :=
        fun p hp => updateTime_congr (Function.update_of_ne hp ..)
      refine ⟨fun p hp => ?_, (pid, c.updateTime pid) :: more, ?_, fun n hn => ?_⟩
      · by_cases he : p = pid
        · exact ⟨he ▸ List.mem_cons_self .., he ▸ Nat.lt_of_not_le hlt⟩
        · have hne : Function.update (c.exitDelete pid).pidComm pid none p = c.pidComm p :=
            Function.update_of_ne he ..
          obtain ⟨hmem, htime⟩ := hforget p fun heq => hp (heq.trans hne)
          exact ⟨List.mem_cons_of_mem _ hmem, hother p he ▸ htime⟩
      · rw [hmore, CommCtx.exitDelete, List.append_assoc]
        rfl
      · by_cases he : n.1 = pid
        · exact ⟨he ▸ List.mem_cons_self .., he ▸ Nat.lt_of_not_le hlt⟩
        · rcases List.mem_cons.mp hn with rfl | hn
          · exact absurd rfl he
          · obtain ⟨hmem, htime⟩ := hin n hn
            exact ⟨List.mem_cons_of_mem _ hmem, hother n.1 he ▸ htime⟩

end Gc

section Claim
variable {α : Type}

/-- The cache is as the newest events say: who has exited, every comm, that exited pids are linked
nodes of `pid_comm`, and that `comm_gc` forgets and notifies of pids freed before the time only. -/
structure CacheOk (evs : List (Event α)) (c : CommCtx α) : Prop where
  exited : ∀ p, p ∈ c.exited ↔ ∃ e, Latest evs e ∧ e.pid = p ∧ e.exit = true
  comm : ∀ e, Latest evs e → ∃ node, c.pidComm e.pid = some node ∧ node.comm = some e.comm
  linked : ∀ p ∈ c.exited, ∃ node, c.pidComm p = some node ∧ node.exitNode = true
  gc : ∀ t, (∀ p, (c.commGc t).pidComm p ≠ c.pidComm p →
      ∃ e, Latest evs e ∧ e.pid = p ∧ e.exit = true ∧ e.time < t) ∧
    ∃ more, (c.commGc t).notified = c.notified ++ more ∧
      ∀ n ∈ more, ∃ e, Latest evs e ∧ e.pid = n.1 ∧ e.exit = true ∧ e.time < t

/-- No timestamp of a newest event is 0, and after the newest event of a pid, unless it is itself
a sched_process_free, no sched_process_free of the pid is delivered. -/
def NoLateFree (evs : List (Event α)) : Prop :=
  ∀ e, Latest evs e → 0 < e.time ∧ (e.exit = false → ∀ front back, evs = front ++ e :: back →
    ∀ f ∈ back, f.pid = e.pid → f.exit = false)

theorem exits_of_latest {evs : List (Event α)} {e : Event α} (hl : Latest evs e)
    (hexit : e.exit = true) : Exits evs e.pid := by
  obtain ⟨front, back, hevs⟩ := List.append_of_mem hl.1
  exact ⟨front, e, back, hevs, rfl, hl, e, List.mem_cons_self .., rfl, hexit⟩

theorem latest_of_exits {evs : List (Event α)} {p : Int} (h : NoLateFree evs)
    (hexits : Exits evs p) : ∃ e, Latest evs e ∧ e.pid = p ∧ e.exit = true := by
  obtain ⟨front, e, back, hevs, hep, hl, f, hf, hfp, hexit⟩ := hexits
  refine ⟨e, hl, hep, ?_⟩
  cases he : e.exit with
  | true => rfl
  | false =>
    rcases List.mem_cons.mp hf with rfl | hf
    · rw [hexit] at he
      cases he
    · have hno := (h e hl).2 he front back hevs f hf (hfp.trans hep.symm)
      rw [hexit] at hno
      cases hno

/-- After any delivery of events with distinct timestamps for each pid, the cache is as the newest
events say exactly if no sched_process_free is late. -/
theorem cache_ok_iff (evs : List (Event α)) (h : Distinct evs) :
    CacheOk evs (CommCtx.deliver evs) ↔ NoLateFree evs := by
  have hknown := known_deliver h
  generalize CommCtx.deliver evs = c at *
  constructor
  · intro hok e hl
    have hpos : 0 < e.time := by
      obtain ⟨node, hnode, hcomm⟩ := hok.comm e hl
      rcases hknown.comm e.pid node hnode with ⟨hpos, y, hy, hyp, hyt, -⟩ | ⟨-, hnone⟩
      · have := hl.2 y hy hyp
        omega
      · rw [hnone] at hcomm
        cases hcomm
    refine ⟨hpos, fun hexit front back hevs f hf hfp => ?_⟩
    by_contra hfree
    have hexits : Exits evs e.pid := ⟨front, e, back, hevs, rfl, hl, f, List.mem_cons_of_mem _ hf,
      hfp, by simpa using hfree⟩
    obtain ⟨e', hl', hp, hexit'⟩ := (hok.exited e.pid).mp ((hknown.exits e.pid).mpr hexits)
    rw [hl'.eq h hl hp, hexit] at hexit'
    cases hexit'
  · intro hno
    have hexited : ∀ p, p ∈ c.exited ↔ ∃ e, Latest evs e ∧ e.pid = p ∧ e.exit = true := by
      intro p
      rw [hknown.exits]
      constructor
      · exact latest_of_exits hno
      · rintro ⟨e, hl, rfl, hexit⟩
        exact exits_of_latest hl hexit
    have htime : ∀ p ∈ c.exited, ∀ t, c.updateTime p < t →
        ∃ e, Latest evs e ∧ e.pid = p ∧ e.exit = true ∧ e.time < t := by
      intro p hp t ht
      obtain ⟨e, hl, rfl, hexit⟩ := (hexited p).mp hp
      obtain ⟨node, hnode, hnt⟩ := hknown.latest hl (hno e hl).1
      rw [updateTime_of_some hnode] at ht
      exact ⟨e, hl, rfl, hexit, by omega⟩
    refine ⟨hexited, fun e hl => ?_, fun p hp => (hknown.tree.linked p).mp hp, fun t => ?_⟩
    · obtain ⟨node, hnode, hnt⟩ := hknown.latest hl (hno e hl).1
      refine ⟨node, hnode, ?_⟩
      rcases hknown.comm e.pid node hnode with ⟨-, y, hy, hyp, hyt, hcomm⟩ | ⟨hzero, -⟩
      · rw [hcomm, h.eq hy hl.1 hyp (hyt.trans hnt)]
      · have := (hno e hl).1
        omega
    · obtain ⟨hforget, more, hmore, hin⟩ := gcLoop_spec (t := t) c.exited c
      refine ⟨fun p hp => ?_, more, hmore, fun n hn => ?_⟩
      · obtain ⟨hmem, ht⟩ := hforget p hp
        exact htime p hmem t ht
      · obtain ⟨hmem, ht⟩ := hin n hn
        exact htime n.1 hmem t ht

/-- Pid 7 exits and its pid is used again. -/
def reused : List (Event String) := [⟨10, true, 7, "old"⟩, ⟨20, false, 7, "new"⟩]

theorem cache_ok_iff_reused : CacheOk reused (CommCtx.deliver reused) ↔ NoLateFree reused :=
  cache_ok_iff reused (by
    unfold Distinct reused
    decide)

/-- Delivered in the other order, the new pid 7 stands among the exited, and `comm_gc` forgets
it. -/
theorem late_free_exits :
    ¬ CacheOk reused.reverse (CommCtx.deliver reused.reverse) ∧
    (CommCtx.deliver reused.reverse).exited = [7] ∧
    ((CommCtx.deliver reused.reverse).commGc 21).pidComm 7 = none ∧
    ((CommCtx.deliver reused.reverse).commGc 21).notified = [(7, 20)] := by
  refine ⟨fun hok => ?_, by decide, by decide, by decide⟩
  have hmem : (7 : Int) ∈ (CommCtx.deliver reused.reverse).exited := by decide
  obtain ⟨e, hl, -, hexit⟩ := (hok.exited 7).mp hmem
  have hnew := hl.2 ⟨20, false, 7, "new"⟩ (by decide)
  have he := hl.1
  simp only [reused, List.reverse_cons, List.reverse_nil, List.nil_append, List.cons_append,
    List.mem_cons, List.not_mem_nil, or_false] at he
  rcases he with rfl | rfl
  · cases hexit
  · exact absurd (hnew rfl) (by decide)

end Claim

end PerfProf.CommCache
