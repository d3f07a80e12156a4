import Mathlib.Algebra.BigOperators.Group.List.Lemmas
import PerfProf.FlameLines
import PerfProf.Forest

/-! What a flame graph prints between two resets. Every stack is counted on one line of its own, and
nothing else is, just if no callchain has markers alone, no two stacks look the same and none is added
so often that its number overflows. -/
namespace PerfProf.FlameGraph
open Rblist UniqueStr Callchain
open PerfProf.Top (CStr)

section Spec

/-- A frame stands in one of the sections. -/
def Call.HasFrame (c : Call) : Prop := c.chain.kernel.getD [] ++ c.chain.user.getD [] ≠ []

instance (c : Call) : Decidable c.HasFrame := inferInstanceAs (Decidable (_ ≠ _))

/-- Between a reset and the next: the key stays within its array, the stacks that are printed differ, their
numbers add up to that of the callchains with a frame, and one without a frame adds nothing. -/
def Folds (bal : Balance) (m : Memory) (fg : Graph) (earlier : List Input) (calls : List Call) : Prop :=
  ∃ st₀ st lines, run bal m.toMalloc fg initState (earlier ++ [.reset]) = some st₀ ∧
    run bal m.toMalloc fg st₀ (calls.map .add) = some st ∧ flameGraphOutput fg st = some lines ∧
    (lines.map Line.stack).Nodup ∧
    (lines.map fun line => line.n.toNat).sum = calls.countP (fun c => c.HasFrame) ∧
    ∀ pre c, pre ++ [c] <+: calls → ¬ c.HasFrame →
      ∃ s t, run bal m.toMalloc fg st₀ (pre.map .add) = some s ∧
        flameGraphAddCallchainAtTime bal m.toMalloc fg s c = some t ∧
        t.pairs.entries.toList = s.pairs.entries.toList

/-- The stacks of the callchains with a frame. -/
def framed (fg : Graph) (calls : List Call) : List Ident := (calls.filter fun c => c.HasFrame).map (Call.ident fg)

/-- A callchain without a frame has no marker either, stacks of the same text are the same, and none is added
2^32 times. -/
structure Foldable (fg : Graph) (calls : List Call) : Prop where
  bare : ∀ c ∈ calls, ¬ c.HasFrame → c.chain.ips = []
  told : ∀ i ∈ framed fg calls, ∀ j ∈ framed fg calls, fg.stackText i = fg.stackText j → i = j
  few : ∀ i ∈ framed fg calls, (framed fg calls).count i < 2 ^ 32

end Spec

section Pairs
variable {a : CStr → Nat} {is : List Ident} {kvs : List KeyValue} {i : Ident} {key : Key}

theorem orders_cmpIps (s t : List Nat) : Orders (cmpIps s t) s t := by
  induction s generalizing t with
  | nil =>
    cases t with
    | nil => exact orders_of_eq rfl
    | cons b t =>
      have hlt : cmpIps [] (b :: t) = .lt := compare_lt_iff_lt.mpr (Nat.succ_pos _)
      rw [hlt]
      exact orders_of_lt (List.nil_lt_cons b t)
  | cons x s ih =>
    cases t with
    | nil =>
      have hgt : cmpIps (x :: s) [] = .gt := compare_gt_iff_gt.mpr (Nat.succ_pos _)
      rw [hgt]
      exact orders_of_gt (List.nil_lt_cons x s)
    | cons y t =>
      rw [cmpIps]
      split_ifs with hgt hlt
      · exact orders_of_gt (List.cons_lt_cons_iff.mpr (.inl hgt))
      · exact orders_of_lt (List.cons_lt_cons_iff.mpr (.inl hlt))
      · exact (orders_of_eq (le_antisymm (not_lt.mp hgt) (not_lt.mp hlt))).cons (ih t)

def KeyValue.ips (kv : KeyValue) : List Nat := kv.key.ips

/-- One entry for each stack, with the number of its calls. -/
structure Tallied (a : CStr → Nat) (is : List Ident) (kvs : List KeyValue) : Prop where
  sorted : Sorted KeyValue.ips kvs
  entry : ∀ kv ∈ kvs, ∃ i ∈ is, kv.ips = i.words a ∧ kv.n.toNat = is.count i % 2 ^ 32
  all : ∀ i ∈ is, ∃ kv ∈ kvs, kv.ips = i.words a

/-- Stacks whose keys tell them apart. -/
def Distinct (a : CStr → Nat) (is : List Ident) : Prop := ∀ i ∈ is, ∀ j ∈ is, i.words a = j.words a → i = j

theorem count_toNat (kv : KeyValue) : kv.count.n.toNat = (kv.n.toNat + 1) % 2 ^ 32 := UInt32.toNat_add _ _

theorem Tallied.add (h : Tallied a is kvs) (hd : Distinct a (is ++ [i])) (hkey : key.ips = i.words a) :
    Tallied a (is ++ [i]) (upsert KeyValue.ips (keyValueNodeNew key) KeyValue.count kvs) := by
  have hcount : ∀ kv : KeyValue, kv.count.ips = kv.ips := fun _ => rfl
  have hi : i ∈ is ++ [i] := List.mem_append_right _ (List.mem_singleton.mpr rfl)
  refine ⟨Sorted.upsert (x := key) (f := fun _ => KeyValue.count) hcount h.sorted, ?_, ?_⟩
  · intro kv hkv
    have hcases := Sorted.mem_upsert_cases (x := key) (f := fun _ => KeyValue.count) hcount h.sorted hkv
    rcases hcases with ⟨hkv, hne⟩ | ⟨kv, rfl, ⟨hkv, heq⟩ | ⟨rfl, hnew⟩⟩
    · obtain ⟨j, hj, hwords, hn⟩ := h.entry kv hkv
      refine ⟨j, List.mem_append_left _ hj, hwords, ?_⟩
      have hij : i ≠ j := by
        rintro rfl
        exact hne (hwords.trans hkey.symm)
      rw [List.count_append, List.count_singleton, if_neg (by simpa using hij), Nat.add_zero]
      exact hn
    · obtain ⟨j, hj, hwords, hn⟩ := h.entry kv hkv
      have hij : j = i := hd j (List.mem_append_left _ hj) i hi (hwords.symm.trans (heq.trans hkey))
      subst hij
      refine ⟨j, hi, hwords, ?_⟩
      rw [count_toNat, hn, List.count_append, List.count_singleton_self, Nat.mod_add_mod]
    · refine ⟨i, hi, hkey, ?_⟩
      have hno : i ∉ is := by
        intro hmem
        obtain ⟨kv, hkv, hwords⟩ := h.all i hmem
        exact hnew kv hkv (hwords.trans hkey.symm)
      rw [count_toNat, List.count_append, List.count_singleton_self, List.count_eq_zero.mpr hno]
      rfl
  · intro j hj
    apply (Sorted.key_upsert (x := key) (f := fun _ => KeyValue.count) hcount h.sorted _).mpr
    rcases List.mem_append.mp hj with hj | hj
    · exact .inr (h.all j hj)
    · rw [List.mem_singleton.mp hj]
      exact .inl hkey

theorem Tallied.congr {b : CStr → Nat} (h : Tallied a is kvs) (hab : ∀ i ∈ is, i.words a = i.words b) :
    Tallied b is kvs := by
  refine ⟨h.sorted, fun kv hkv => ?_, fun i hi => ?_⟩
  · obtain ⟨i, hi, hwords, hn⟩ := h.entry kv hkv
    exact ⟨i, hi, hwords.trans (hab i hi), hn⟩
  · obtain ⟨kv, hkv, hwords⟩ := h.all i hi
    exact ⟨kv, hkv, hwords.trans (hab i hi)⟩

/-- The stack of each entry. -/
theorem Tallied.listed (h : Tallied a is kvs) (hd : Distinct a is) : ∃ f : KeyValue → Ident, (kvs.map f).Nodup ∧
    (∀ i, i ∈ kvs.map f ↔ i ∈ is) ∧ ∀ kv ∈ kvs, kv.ips = (f kv).words a ∧ kv.n.toNat = is.count (f kv) % 2 ^ 32 := by
  have hnonempty : Nonempty Ident := ⟨⟨0, none, 0, []⟩⟩
  choose! f hf using h.entry
  refine ⟨f, ?_, fun i => ⟨fun hi => ?_, fun hi => ?_⟩, fun kv hkv => (hf kv hkv).2⟩
  · refine List.Nodup.map_on (fun x hx y hy hxy => h.sorted.eq_of_key hx hy ?_) h.sorted.nodup
    rw [(hf x hx).2.1, hxy, (hf y hy).2.1]
  · obtain ⟨kv, hkv, rfl⟩ := List.mem_map.mp hi
    exact (hf kv hkv).1
  · obtain ⟨kv, hkv, hwords⟩ := h.all i hi
    obtain ⟨hmem, hwords', -⟩ := hf kv hkv
    exact List.mem_map.mpr ⟨kv, hkv, hd _ hmem i hi (hwords'.symm.trans hwords)⟩

/-- Numbers that overflow are too small. -/
theorem sum_mod_iff (l : List Nat) (n : Nat) (hn : 0 < n) :
    (l.map (· % n)).sum ≤ l.sum ∧ ((l.map (· % n)).sum = l.sum ↔ ∀ x ∈ l, x < n) := by
  induction l with
  | nil => exact ⟨Nat.le_refl _, iff_of_true rfl nofun⟩
  | cons x l ih =>
    obtain ⟨hle, hiff⟩ := ih
    have hx := Nat.mod_le x n
    have hlt : x % n = x ↔ x < n := ⟨fun h => h ▸ Nat.mod_lt x hn, Nat.mod_eq_of_lt⟩
    rw [List.map_cons, List.sum_cons, List.sum_cons, List.forall_mem_cons, ← hiff, ← hlt]
    exact ⟨Nat.add_le_add hx hle, by omega⟩

end Pairs

section Follow
variable {bal : Balance} {m : Memory} {fg : Graph} {st : State} {is : List Ident} {calls : List Call} {c : Call}

/-- The state has counted the stacks `is`. -/
def Follows (m : Memory) (is : List Ident) (st : State) : Prop :=
  ∃ ss, Stores m.toMalloc st.strings ss ∧ (∀ i ∈ is, i.Proper ∧ i.shown ⊆ ss) ∧
    Tallied (addrOf m.toMalloc ss) is st.pairs.entries.toList

/-- The stacks that a call counts. -/
def Call.counted (fg : Graph) (c : Call) : List Ident := if c.chain.ips = [] then [] else [c.ident fg]

theorem ident_proper (fg : Graph) (h : c.chain.ips ≠ []) : (c.ident fg).Proper := by
  refine ⟨fun hk => ?_, fun hm => ?_, c.time_plain⟩
  · have hk : c.chain.kernel = none := Option.map_eq_none_iff.mp hk
    unfold Sections.ips at h
    rw [hk] at h
    unfold Call.ident Call.marks
    cases huser : c.chain.user with
    | none =>
      rw [huser] at h
      exact absurd rfl h
    | some us => simp
  · unfold Call.ident Call.marks at hm
    dsimp only at hm
    obtain ⟨hsome, hadd⟩ := Nat.add_eq_zero_iff.mp hm
    have huser : c.userNames = [] := by
      unfold Call.userNames
      cases huser : c.chain.user with
      | none => rfl
      | some us =>
        rw [huser] at hsome
        cases hsome
    have hadded : c.added fg = [] := by
      by_contra hne
      rw [if_pos ⟨huser, hne⟩] at hadd
      cases hadd
    unfold Call.ident
    rw [huser, hadded]
    rfl

theorem ident_shown (fg : Graph) (h : c.chain.ips ≠ []) : (c.ident fg).shown = c.requests fg := by
  rw [Call.requests, if_neg h]
  rfl

theorem distinct_of {ss : List CStr} (h : ∀ i ∈ is, i.Proper ∧ i.shown ⊆ ss) : Distinct (addrOf m.toMalloc ss) is := by
  intro i hi j hj hwords
  have htells : Tells (addrOf m.toMalloc ss) i.shown := fun s hs t heq => addrOf_inj ((h i hi).2 hs) heq
  exact words_inj (h i hi).1 (h j hj).1 (fun s => m.plain _) htells hwords

theorem words_append {ss : List CStr} {i : Ident} (h : i.shown ⊆ ss) (ts : List CStr) :
    i.words (addrOf m.toMalloc ss) = i.words (addrOf m.toMalloc (ss ++ ts)) := by
  have hnames := map_addrOf_append (m := m.toMalloc) (List.Subset.trans (List.subset_append_right _ _) h) ts
  unfold Ident.words
  rw [hnames]
  cases hk : i.kernel with
  | none => rfl
  | some ks =>
    have hks : ks ⊆ ss := by
      rw [Ident.shown, hk] at h
      exact List.Subset.trans (List.subset_append_left _ _) h
    dsimp only [Option.elim_some]
    rw [map_addrOf_append hks]

/-- An entry that is counted is not the same as before. -/
theorem upsert_count_ne {kvs : List KeyValue} (hs : Sorted KeyValue.ips kvs) (key : Key) :
    upsert KeyValue.ips (keyValueNodeNew key) KeyValue.count kvs ≠ kvs := by
  intro heq
  have hentry := @entryAt_upsert _ _ _ _ KeyValue.ips keyValueNodeNew (fun _ => KeyValue.count) key _ (fun _ => rfl) hs
    (keyValueNodeNew key).ips
  rw [heq, if_pos rfl] at hentry
  cases hold : entryAt KeyValue.ips (keyValueNodeNew key).ips kvs with
  | none =>
    rw [hold] at hentry
    cases hentry
  | some kv =>
    rw [hold] at hentry
    have hn := congrArg (fun kv => kv.n.toNat) (Option.some.inj hentry)
    have hlt := kv.n.toNat_lt
    dsimp only [Option.getD_some] at hn
    rw [count_toNat] at hn
    omega

/-- A call never fails, and counts its stack. -/
theorem Follows.add (h : Follows m is st) (bal : Balance) (fg : Graph) (c : Call) :
    ∃ st', flameGraphAddCallchainAtTime bal m.toMalloc fg st c = some st' ∧ Follows m (is ++ c.counted fg) st' ∧
      (st'.pairs.entries.toList = st.pairs.entries.toList ↔ c.chain.ips = []) := by
  obtain ⟨ss, hs, hproper, htallied⟩ := h
  obtain ⟨strings, hstrings, hempty, hadd⟩ := add_spec hs bal fg c
  have hold := htallied.congr (b := addrOf m.toMalloc (ss ++ c.requests fg)) fun i hi => words_append (hproper i hi).2 _
  have hmore : ∀ i ∈ is, i.Proper ∧ i.shown ⊆ ss ++ c.requests fg := fun i hi =>
    ⟨(hproper i hi).1, List.Subset.trans (hproper i hi).2 (List.subset_append_left _ _)⟩
  by_cases hnil : c.chain.ips = []
  · refine ⟨⟨strings, st.pairs⟩, hempty hnil, ?_, iff_of_true rfl hnil⟩
    rw [Call.counted, if_pos hnil, List.append_nil]
    exact ⟨_, hstrings, hmore, hold⟩
  · obtain ⟨key, hkey, heq⟩ := hadd hnil
    have hall : ∀ i ∈ is ++ [c.ident fg], i.Proper ∧ i.shown ⊆ ss ++ c.requests fg := by
      intro i hi
      rcases List.mem_append.mp hi with hi | hi
      · exact hmore i hi
      · rw [List.mem_singleton.mp hi, ident_shown fg hnil]
        exact ⟨ident_proper fg hnil, List.subset_append_right _ _⟩
    have hagrees : Agrees KeyValue.ips (keyValueNodeCmp key) (keyValueNodeNew key).ips st.pairs.entries.toList :=
      fun kv _ => orders_cmpIps kv.key.ips key.ips
    have hlist := RbList.findnew_toList (f := KeyValue.count) bal.pairs htallied.sorted hagrees
    refine ⟨_, heq, ?_, iff_of_false ?_ hnil⟩
    · rw [Call.counted, if_neg hnil]
      refine ⟨_, hstrings, hall, ?_⟩
      unfold addKey
      rw [hlist]
      exact hold.add (distinct_of hall) hkey
    · unfold addKey
      rw [hlist]
      exact upsert_count_ne htallied.sorted key

theorem follows_init (m : Memory) : Follows m [] initState :=
  ⟨[], stores_init m.toMalloc, nofun, List.Pairwise.nil, nofun, nofun⟩

theorem Follows.reset (h : Follows m is st) (bal : Balance) : Follows m [] (flameGraphReset bal st) := by
  obtain ⟨ss, hs, -, -⟩ := h
  have hnil := (RbList.drainAll_eq bal.pairs (fun u _ => u) st.pairs ()).2.1
  refine ⟨ss, hs, nofun, ?_⟩
  unfold flameGraphReset
  rw [hnil]
  exact ⟨List.Pairwise.nil, nofun, nofun⟩

theorem run_concat (inputs : List Input) (x : Input) :
    run bal m.toMalloc fg st (inputs ++ [x]) =
      (run bal m.toMalloc fg st inputs).bind fun s => step bal m.toMalloc fg s x := by
  unfold run
  rw [List.foldlM_append]
  cases List.foldlM (step bal m.toMalloc fg) st inputs with
  | none => rfl
  | some s => exact Option.bind_fun_some _

/-- The key stays within its array, whatever comes. -/
theorem run_follows (bal : Balance) (m : Memory) (fg : Graph) (inputs : List Input) :
    ∃ st is, run bal m.toMalloc fg initState inputs = some st ∧ Follows m is st := by
  induction inputs using List.reverseRecOn with
  | nil => exact ⟨initState, [], rfl, follows_init m⟩
  | append_singleton inputs x ih =>
    obtain ⟨st, is, hrun, hfollows⟩ := ih
    rw [run_concat, hrun]
    cases x with
    | reset => exact ⟨_, _, rfl, hfollows.reset bal⟩
    | add c =>
      obtain ⟨st', hadd, hfollows', -⟩ := hfollows.add bal fg c
      exact ⟨st', _, hadd, hfollows'⟩

theorem run_reset (bal : Balance) (m : Memory) (fg : Graph) (earlier : List Input) :
    ∃ st₀, run bal m.toMalloc fg initState (earlier ++ [.reset]) = some st₀ ∧ Follows m [] st₀ := by
  obtain ⟨st, is, hrun, hfollows⟩ := run_follows bal m fg earlier
  refine ⟨flameGraphReset bal st, ?_, hfollows.reset bal⟩
  rw [run_concat, hrun]
  rfl

theorem Follows.run (h : Follows m [] st) (bal : Balance) (fg : Graph) (calls : List Call) :
    ∃ st', FlameGraph.run bal m.toMalloc fg st (calls.map .add) = some st' ∧
      Follows m (calls.flatMap (Call.counted fg)) st' := by
  induction calls using List.reverseRecOn with
  | nil => exact ⟨st, rfl, h⟩
  | append_singleton calls c ih =>
    obtain ⟨s, hrun, hfollows⟩ := ih
    obtain ⟨st', hadd, hfollows', -⟩ := hfollows.add bal fg c
    refine ⟨st', ?_, ?_⟩
    · rw [List.map_append, List.map_singleton, run_concat, hrun]
      exact hadd
    · rw [List.flatMap_append, List.flatMap_singleton]
      exact hfollows'

theorem framed_eq (h : ∀ c ∈ calls, ¬ c.HasFrame → c.chain.ips = []) :
    calls.flatMap (Call.counted fg) = framed fg calls := by
  induction calls with
  | nil => rfl
  | cons c calls ih =>
    obtain ⟨hc, hcalls⟩ := List.forall_mem_cons.mp h
    rw [List.flatMap_cons, ih hcalls]
    unfold framed Call.counted
    by_cases hframe : c.HasFrame
    · have hne : c.chain.ips ≠ [] := by
        intro hnil
        apply hframe
        unfold Sections.ips at hnil
        cases hk : c.chain.kernel <;> cases hu : c.chain.user <;> simp_all
      rw [if_neg hne, List.filter_cons_of_pos (by simpa using hframe), List.map_cons]
      rfl
    · rw [if_pos (hc hframe), List.filter_cons_of_neg (by simpa using hframe)]
      rfl

theorem framed_length (fg : Graph) (calls : List Call) :
    (framed fg calls).length = calls.countP fun c => c.HasFrame := by
  rw [framed, List.length_map, List.countP_eq_length_filter]

/-- The lines of the stacks. -/
theorem Follows.output (h : Follows m is st) (fg : Graph) : ∃ lines, flameGraphOutput fg st = some lines ∧
    ((lines.map Line.stack).Nodup ↔ ∀ i ∈ is, ∀ j ∈ is, fg.stackText i = fg.stackText j → i = j) ∧
    ((lines.map fun line => line.n.toNat).sum = is.length ↔ ∀ i ∈ is, is.count i < 2 ^ 32) := by
  obtain ⟨ss, hs, hproper, htallied⟩ := h
  obtain ⟨f, hnodup, hmem, hf⟩ := htallied.listed (distinct_of hproper)
  have hprint : ∀ kv ∈ st.pairs.entries.toList,
      ((printStack fg st.strings kv.key).map fun s => (⟨s, kv.n⟩ : Line)) = some ⟨fg.stackText (f kv), kv.n⟩ := by
    intro kv hkv
    have hi := hproper (f kv) ((hmem _).mp (List.mem_map_of_mem hkv))
    rw [printStack_eq hi.1 (fun s => m.plain _) (fun s hshown => hs.strAt (hi.2 hshown)) (hf kv hkv).1, Option.map_some]
  refine ⟨_, Forest.mapM_some hprint, ?_, ?_⟩
  · rw [List.map_map]
    have hstacks : st.pairs.entries.toList.map (Line.stack ∘ fun kv => ⟨fg.stackText (f kv), kv.n⟩) =
        (st.pairs.entries.toList.map f).map fg.stackText := by
      rw [List.map_map]
      rfl
    rw [hstacks, List.nodup_map_iff_inj_on hnodup]
    simp only [hmem]
  · have hperm : (st.pairs.entries.toList.map f).Perm is.dedup :=
      (List.perm_ext_iff_of_nodup hnodup is.nodup_dedup).mpr fun i => (hmem i).trans List.mem_dedup.symm
    have hsum := (hperm.map fun i => is.count i).sum_eq
    rw [List.sum_map_count_dedup_eq_length] at hsum
    have hmod := (sum_mod_iff ((st.pairs.entries.toList.map f).map fun i => is.count i) (2 ^ 32) (by decide)).2
    have hn : st.pairs.entries.toList.map ((fun line : Line => line.n.toNat) ∘ fun kv => ⟨fg.stackText (f kv), kv.n⟩) =
        (((st.pairs.entries.toList.map f).map fun i => is.count i).map (· % 2 ^ 32)) := by
      rw [List.map_map, List.map_map]
      exact List.map_congr_left fun kv hkv => (hf kv hkv).2
    rw [List.map_map, hn, ← hsum, hmod]
    simp only [List.forall_mem_map, ← hmem]

/-- The graph folds the callchains between two resets just if they can be folded. -/
theorem folds_iff (bal : Balance) (m : Memory) (fg : Graph) (earlier : List Input) (calls : List Call) :
    Folds bal m fg earlier calls ↔ Foldable fg calls := by
  obtain ⟨st₀, hrun₀, hfollows₀⟩ := run_reset bal m fg earlier
  obtain ⟨st, hrun, hfollows⟩ := hfollows₀.run bal fg calls
  have hbare : (∀ pre c, pre ++ [c] <+: calls → ¬ c.HasFrame →
      ∃ s t, FlameGraph.run bal m.toMalloc fg st₀ (pre.map .add) = some s ∧
        flameGraphAddCallchainAtTime bal m.toMalloc fg s c = some t ∧
        t.pairs.entries.toList = s.pairs.entries.toList) ↔ ∀ c ∈ calls, ¬ c.HasFrame → c.chain.ips = [] := by
    constructor
    · intro h c hc hno
      obtain ⟨pre, post, rfl⟩ := List.append_of_mem hc
      obtain ⟨s, t, hs, ht, heq⟩ := h pre c (by simp) hno
      obtain ⟨s', hs', hpre⟩ := hfollows₀.run bal fg pre
      cases hs.symm.trans hs'
      obtain ⟨t', ht', -, hiff⟩ := hpre.add bal fg c
      cases ht.symm.trans ht'
      exact hiff.mp heq
    · intro h pre c hpre hno
      have hc : c ∈ calls := hpre.subset (List.mem_append_right _ (List.mem_singleton.mpr rfl))
      obtain ⟨s, hs, hfollows⟩ := hfollows₀.run bal fg pre
      obtain ⟨t, ht, -, hiff⟩ := hfollows.add bal fg c
      exact ⟨s, t, hs, ht, hiff.mpr (h c hc hno)⟩
  obtain ⟨lines, hlines, hstacks, hsum⟩ := hfollows.output fg
  constructor
  · rintro ⟨s₀, s, lines', hs₀, hs, hlines', hnodup, hcount, hadds⟩
    cases hrun₀.symm.trans hs₀
    cases hrun.symm.trans hs
    cases hlines.symm.trans hlines'
    have hbare := hbare.mp hadds
    rw [framed_eq hbare] at hstacks hsum
    rw [framed_length] at hsum
    exact ⟨hbare, hstacks.mp hnodup, hsum.mp hcount⟩
  · intro ⟨hb, htold, hfew⟩
    rw [framed_eq hb] at hstacks hsum
    rw [framed_length] at hsum
    exact ⟨st₀, st, lines, hrun₀, hrun, hlines, hstacks.mpr htold, hsum.mpr hfew, hbare.mpr hb⟩

end Follow

section Inputs

/-- Odd addresses. -/
def oddMemory : Memory where
  addr := fun k => 2 * k + 1
  injective := fun a b h => by
    have h : 2 * a + 1 = 2 * b + 1 := h
    omega
  plain := fun k => by
    rw [← Bool.not_eq_true, isContext_iff]
    unfold contextKernel contextUser
    omega

def noBalance : Balance := ⟨.none, .none⟩

/-- The flame graph of kernel and user stacks in a file. -/
def fileGraph : Graph := ⟨true, false⟩

/-- A call of a process with the comm `a`. -/
def callOf (chain : Sections) (h : chain.ips.length ≤ maxStackDepth + maxContexts) : Call :=
  ⟨chain, h, 7, some [97], 0, rfl, none, fun _ => [102], fun _ => [103]⟩

/-- The kernel marker alone. -/
def markerCall : Call := callOf ⟨some [], none, nofun⟩ (by decide)

/-- One kernel frame, without and with a user marker behind it. -/
def alikeCalls : List Call :=
  [callOf ⟨some [5], none, by decide⟩ (by decide), callOf ⟨some [5], some [], by decide⟩ (by decide)]

/-- A callchain without a frame is counted, and two stacks look the same. -/
theorem marker_counted : ¬ Folds noBalance oddMemory fileGraph [] [markerCall] ∧
    ¬ Folds noBalance oddMemory fileGraph [] alikeCalls := by
  obtain ⟨st₀, hrun₀, hfollows₀⟩ := run_reset noBalance oddMemory fileGraph []
  constructor
  · rintro ⟨s₀, st, lines, hs₀, -, -, -, -, hadds⟩
    cases hrun₀.symm.trans hs₀
    obtain ⟨s, t, hs, ht, heq⟩ := hadds [] markerCall (List.prefix_refl _) (by decide)
    cases hs
    obtain ⟨t', ht', -, hiff⟩ := hfollows₀.add noBalance fileGraph markerCall
    cases ht.symm.trans ht'
    exact absurd (hiff.mp heq) (by decide)
  · rintro ⟨s₀, st, lines, hs₀, hst, hlines, hnodup, -, -⟩
    cases hrun₀.symm.trans hs₀
    obtain ⟨st', hst', hfollows⟩ := hfollows₀.run noBalance fileGraph alikeCalls
    cases hst.symm.trans hst'
    obtain ⟨lines', hlines', hstacks, -⟩ := hfollows.output fileGraph
    cases hlines.symm.trans hlines'
    have htold := hstacks.mp hnodup
    revert htold
    decide

end Inputs

end PerfProf.FlameGraph
