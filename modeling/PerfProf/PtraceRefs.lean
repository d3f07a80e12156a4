import PerfProf.Ptrace

/-! The reference counts of `pid_list`: a node is held once while its pid is traced, and once by
each node whose parent it is. -/
namespace PerfProf.Ptrace
open RefTable

section Books
variable {s s' s'' : State} {x y : Nat → Int} {p q : Nat} {n m : PidNode}

/-- One more reference to `p`. -/
def oneMore (x : Nat → Int) (p q : Nat) : Int := x q + if q = p then 1 else 0

def State.traced (s : State) (p : Nat) : Int := if s.proc p = .untraced then 0 else 1

/-- Every node has one reference for each node it is the parent of, and `x` others. -/
structure Books (x : Nat → Int) (s : State) : Prop where
  count : ∀ p n, s.node p = some n → n.refcount = s.refs p + x p
  pos : ∀ p n, s.node p = some n → 1 ≤ n.refcount
  points : ∀ p n q, s.node p = some n → n.parent = some q → ∃ m, s.node q = some m

theorem Books.congr (h : Books x s) (hxy : ∀ p n, s.node p = some n → x p = y p) : Books y s :=
  ⟨fun p n hn => hxy p n hn ▸ h.count p n hn, h.pos, h.points⟩

theorem Books.of_pidList (h : Books x s) (hs : s'.pidList = s.pidList) : Books x s' := by
  have hnode : s'.node = s.node := by
    unfold State.node
    rw [hs]
  have hrefs : s'.refs = s.refs := by
    unfold State.refs
    rw [hs]
  refine ⟨?_, ?_, ?_⟩
  · rw [hnode, hrefs]
    exact h.count
  · rw [hnode]
    exact h.pos
  · rw [hnode]
    exact h.points

/-- Only counts and messages have changed, and nodes have gone that no one but nodes held. -/
structure Shrinks (x : Nat → Int) (s s' : State) : Prop where
  proc : s'.proc = s.proc
  kept : ∀ q n', s'.node q = some n' → ∃ n, s.node q = some n ∧ n' = { n with refcount := n'.refcount }
  gone : ∀ q n, s.node q = some n → s'.node q = none → x q = 0
  calls : ∃ l, s'.calls = s.calls ++ l ∧ ∀ c ∈ l, c = .bug .childListNotEmpty

theorem Shrinks.refl (x : Nat → Int) (s : State) : Shrinks x s s := by
  refine ⟨rfl, fun _ n hn => ⟨n, hn, rfl⟩, fun _ _ hn hgone => ?_, [], (List.append_nil _).symm,
    nofun⟩
  rw [hn] at hgone
  cases hgone

theorem Shrinks.trans (h : Shrinks x s s') (h' : Shrinks x s' s'') : Shrinks x s s'' := by
  refine ⟨h'.proc.trans h.proc, fun q n'' hn'' => ?_, fun q n hn hgone => ?_, ?_⟩
  · obtain ⟨n', hn', he'⟩ := h'.kept q n'' hn''
    obtain ⟨n, hn, he⟩ := h.kept q n' hn'
    refine ⟨n, hn, ?_⟩
    rw [he', he]
  · cases hn' : s'.node q with
    | none => exact h.gone q n hn hn'
    | some n' => exact h'.gone q n' hn' hgone
  · obtain ⟨l, hl, hbug⟩ := h.calls
    obtain ⟨l', hl', hbug'⟩ := h'.calls
    refine ⟨l ++ l', by rw [hl', hl, List.append_assoc], fun c hc => ?_⟩
    exact (List.mem_append.mp hc).elim (hbug c) (hbug' c)

theorem node_setNode_self (s : State) (p : Nat) (n : PidNode) : (s.setNode p n).node p = some n :=
  Table.val_put_self ..

theorem node_setNode_of_ne (s : State) (n : PidNode) (h : q ≠ p) :
    (s.setNode p n).node q = s.node q :=
  Table.val_put_of_ne _ _ h

theorem parent_of_node (hp : s.node p = some n) :
    s.pidList.target PidNode.parent p = n.parent := by
  show (s.pidList.val p).bind PidNode.parent = n.parent
  rw [show s.pidList.val p = some n from hp]
  rfl

theorem refs_setNode (s : State) (p : Nat) (m : PidNode) (r : Nat) :
    (s.setNode p m).refs r + (if s.pidList.target PidNode.parent p = some r then 1 else 0) =
      s.refs r + if m.parent = some r then 1 else 0 := by
  have hput := @Table.refs_put _ PidNode.parent s.pidList p r m
  have hold := @Table.refs_eq _ PidNode.parent s.pidList p r
  show (s.pidList.put p m).refs PidNode.parent r + _ = s.pidList.refs PidNode.parent r + _
  omega

/-- A node is replaced by one with the same parent. -/
theorem refs_setNode_same (hp : s.node p = some n) (hm : m.parent = n.parent) (q : Nat) :
    (s.setNode p m).refs q = s.refs q := by
  have h := refs_setNode s p m q
  rw [parent_of_node hp, hm] at h
  omega

theorem node_removeNode_self (s : State) (p : Nat) : (s.removeNode p).node p = none :=
  Table.val_erase_self ..

theorem node_removeNode_of_ne (s : State) (h : q ≠ p) : (s.removeNode p).node q = s.node q :=
  Table.val_erase_of_ne _ h

theorem refs_removeNode (hp : s.node p = some n) (r : Nat) :
    s.refs r = (s.removeNode p).refs r + if n.parent = some r then 1 else 0 := by
  have hold := @Table.refs_eq _ PidNode.parent s.pidList p r
  rw [parent_of_node hp, ← Table.refs_erase] at hold
  exact hold

theorem refs_zero (h : s.refs p = 0) (hq : s.node q = some n) : n.parent ≠ some p := by
  intro hn
  have hpos : 0 < s.refs p := Table.refs_pos_iff.mpr ⟨q, n, hq, hn⟩
  omega

theorem Books.refs_eq_zero (h : Books x s) (hp : s.node p = none) : s.refs p = 0 := by
  by_contra hne
  obtain ⟨q, k, hk, hpar⟩ := Table.refs_pos_iff.mp (Nat.pos_of_ne_zero hne)
  obtain ⟨j, hj⟩ := h.points q k p hk hpar
  rw [hp] at hj
  cases hj

/-- A node is replaced by one with the same parent and another count. -/
theorem Books.setNode (h : Books x s) (hp : s.node p = some n) (hm : m.parent = n.parent)
    (hpos : 1 ≤ m.refcount) (hcount : m.refcount = s.refs p + y p)
    (hxy : ∀ q, q ≠ p → x q = y q) : Books y (s.setNode p m) := by
  refine ⟨fun q k hk => ?_, fun q k hk => ?_, fun q k r hk hr => ?_⟩
  · rw [refs_setNode_same hp hm]
    by_cases hq : q = p
    · rw [hq, node_setNode_self] at hk
      cases hk
      rw [hq]
      exact hcount
    · rw [node_setNode_of_ne s m hq] at hk
      rw [← hxy q hq]
      exact h.count q k hk
  · by_cases hq : q = p
    · rw [hq, node_setNode_self] at hk
      cases hk
      exact hpos
    · rw [node_setNode_of_ne s m hq] at hk
      exact h.pos q k hk
  · have hold : ∃ k', s.node q = some k' ∧ k'.parent = some r := by
      by_cases hq : q = p
      · rw [hq, node_setNode_self] at hk
        cases hk
        exact ⟨n, hq ▸ hp, hm ▸ hr⟩
      · rw [node_setNode_of_ne s m hq] at hk
        exact ⟨k, hk, hr⟩
    obtain ⟨k', hk', hr'⟩ := hold
    obtain ⟨k'', hk''⟩ := h.points q k' r hk' hr'
    by_cases hrp : r = p
    · exact ⟨m, hrp ▸ node_setNode_self s p m⟩
    · exact ⟨k'', (node_setNode_of_ne s m hrp).trans hk''⟩

theorem Books.setNode_same (h : Books x s) (hp : s.node p = some n) (hm : m.parent = n.parent)
    (hcount : m.refcount = n.refcount) : Books x (s.setNode p m) :=
  h.setNode hp hm (hcount ▸ h.pos p n hp) (hcount.trans (h.count p n hp)) fun _ _ => rfl

end Books

section Put
variable {s s' : State} {x : Nat → Int} {p q : Nat} {n m : PidNode}

/-- The node is taken off the list: nothing but the caller held it. -/
theorem Books.removeNode (h : Books (oneMore x p) s) (hx : ∀ q, 0 ≤ x q) (hp : s.node p = some n)
    (hone : n.refcount = 1) : x p = 0 ∧ n.parent ≠ some p ∧
    (∀ q, n.parent = some q → Books (oneMore x q) (s.removeNode p)) ∧
    (n.parent = none → Books x (s.removeNode p)) := by
  have hcount := h.count p n hp
  have hxp := hx p
  simp only [oneMore, if_true] at hcount
  have hrefs : s.refs p = 0 := by omega
  have hself : n.parent ≠ some p := refs_zero hrefs hp
  have hother : ∀ q k, (s.removeNode p).node q = some k → q ≠ p ∧ s.node q = some k := by
    intro q k hk
    have hq : q ≠ p := by
      rintro rfl
      rw [node_removeNode_self] at hk
      cases hk
    exact ⟨hq, (node_removeNode_of_ne s hq).symm.trans hk⟩
  have hbooks : Books (fun q => x q + if n.parent = some q then 1 else 0) (s.removeNode p) := by
    refine ⟨fun q k hk => ?_, fun q k hk => ?_, fun q k r hk hr => ?_⟩
    · obtain ⟨hq, hold⟩ := hother q k hk
      have hqc := h.count q k hold
      have herase := refs_removeNode hp q
      simp only [oneMore, if_neg hq, Int.add_zero] at hqc
      split at herase
      · rename_i hpar
        rw [if_pos hpar]
        omega
      · rename_i hpar
        rw [if_neg hpar]
        omega
    · exact h.pos q k (hother q k hk).2
    · have hold := (hother q k hk).2
      obtain ⟨m, hm⟩ := h.points q k r hold hr
      have hrp : r ≠ p := by
        rintro rfl
        exact refs_zero hrefs hold hr
      exact ⟨m, (node_removeNode_of_ne s hrp).trans hm⟩
  refine ⟨by omega, hself, fun q hq => hbooks.congr fun r _ _ => ?_, fun hnone =>
    hbooks.congr fun r _ _ => ?_⟩
  · simp [oneMore, hq, eq_comm]
  · simp [hnone]

theorem shrinks_removeNode (s : State) (hx : x p = 0) : Shrinks x s (s.removeNode p) := by
  refine ⟨rfl, fun q k hk => ?_, fun q k hk hgone => ?_, [], (List.append_nil _).symm, nofun⟩
  · by_cases hq : q = p
    · rw [hq, node_removeNode_self] at hk
      cases hk
    · exact ⟨k, (node_removeNode_of_ne s hq).symm.trans hk, rfl⟩
  · by_cases hq : q = p
    · rw [hq]
      exact hx
    · rw [node_removeNode_of_ne s hq, hk] at hgone
      cases hgone

theorem shrinks_setNode (hp : s.node p = some n) (k : Int) :
    Shrinks x s (s.setNode p { n with refcount := k }) := by
  refine ⟨rfl, fun q m hm => ?_, fun q m hm hgone => ?_, [], (List.append_nil _).symm, nofun⟩
  · by_cases hq : q = p
    · rw [hq, node_setNode_self] at hm
      cases hm
      exact ⟨n, hq ▸ hp, rfl⟩
    · exact ⟨m, (node_setNode_of_ne s _ hq).symm.trans hm, rfl⟩
  · by_cases hq : q = p
    · rw [hq, node_setNode_self] at hgone
      cases hgone
    · rw [node_setNode_of_ne s _ hq, hm] at hgone
      cases hgone

/-- The check of `__node_delete` prints at most. -/
theorem nodeDeleted_spec (h : Books x s') (h' : Shrinks x s s') (p : Nat) :
    Books x (s'.nodeDeleted p) ∧ Shrinks x s (s'.nodeDeleted p) := by
  unfold State.nodeDeleted
  split
  · exact ⟨h, h'⟩
  · obtain ⟨l, hl, hbug⟩ := h'.calls
    refine ⟨h.of_pidList rfl, h'.proc, h'.kept, h'.gone, l ++ [.bug .childListNotEmpty], ?_,
      fun c hc => ?_⟩
    · rw [State.bug, State.call, hl, List.append_assoc]
    · exact (List.mem_append.mp hc).elim (hbug c) List.mem_singleton.mp

/-- `put_pid` gives one reference back; a node that nobody holds any more goes, with the reference
to its parent. -/
theorem Books.putPidFuel (fuel : Nat) (h : Books (oneMore x p) s) (hx : ∀ q, 0 ≤ x q)
    (hp : s.node p = some n) (hfuel : s.pidList.keys.length ≤ fuel) :
    Books x (State.putPidFuel fuel p s) ∧ Shrinks x s (State.putPidFuel fuel p s) := by
  induction fuel generalizing s p n with
  | zero =>
    have hmem : p ∈ s.pidList.keys := Table.mem_of_val hp
    rw [List.length_eq_zero_iff.mp (Nat.le_zero.mp hfuel)] at hmem
    cases hmem
  | succ fuel ih =>
    unfold State.putPidFuel
    rw [hp]
    dsimp only
    split
    · rename_i hone
      obtain ⟨hxp, hself, hsome, hnone⟩ := h.removeNode hx hp hone
      have hshrink : Shrinks x s (s.removeNode p) := shrinks_removeNode s hxp
      split
      · rename_i q hpar
        obtain ⟨m, hm⟩ := h.points p n q hp hpar
        have hqp : q ≠ p := fun he => hself (he ▸ hpar)
        have hlen : (s.pidList.keys.erase p).length = s.pidList.keys.length - 1 :=
          List.length_erase_of_mem (Table.mem_of_val hp)
        obtain ⟨hbooks, hrest⟩ := ih (hsome q hpar) ((node_removeNode_of_ne s hqp).trans hm) (by
          show (s.pidList.keys.erase p).length ≤ fuel
          omega)
        exact nodeDeleted_spec hbooks (hshrink.trans hrest) p
      · rename_i hpar
        exact nodeDeleted_spec (hnone hpar) hshrink p
    · rename_i hone
      have hcount := h.count p n hp
      have hpos := h.pos p n hp
      simp only [oneMore, if_true] at hcount
      refine ⟨h.setNode hp rfl ?_ ?_ fun q hq => ?_, shrinks_setNode hp _⟩
      · show 1 ≤ n.refcount - 1
        omega
      · show n.refcount - 1 = _
        omega
      · simp [oneMore, hq]

theorem Books.putPid (h : Books (oneMore x p) s) (hx : ∀ q, 0 ≤ x q) (hp : s.node p = some n) :
    Books x (s.putPid p) ∧ Shrinks x s (s.putPid p) :=
  h.putPidFuel _ hx hp (Nat.le_refl _)

end Put

end PerfProf.Ptrace
