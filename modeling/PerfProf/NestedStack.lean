import PerfProf.Timeline

/-! nested-trace. `backup` is ordered by key and time, latest first, and is meant to be a call
stack for each key. It is one as long as no two activations of a key are entered at the
same time and every call takes time. -/
namespace PerfProf.MultiTrace
variable {ρ : Type*} {c : Config ρ} {s s' : Trace}

section Machine

/-- The open activations of each key, innermost first, and the calls of `class->two`. -/
structure CallStack where
  stack : Nat → List Node
  pairs : List (Node × Option Node)

/-- An event without `tp1` enters a function, an event with `tp1` returns from it. -/
def CallStack.step (callBased : Bool) (m : CallStack) (e : Node) : CallStack :=
  match e.tp1 with
  | none =>
    { stack := Function.update m.stack e.key (e :: m.stack e.key)
      pairs := if callBased then m.pairs ++ [match m.stack e.key with
        | caller :: _ => (caller, some e)
        | [] => (e, none)] else m.pairs }
  | some _ => match m.stack e.key with
    | [] => m
    | top :: rest =>
      { stack := Function.update m.stack e.key rest, pairs := m.pairs ++ [(top, some e)] }

def CallStack.run (callBased : Bool) (m : CallStack) (es : List Node) : CallStack :=
  es.foldl (CallStack.step callBased) m

def CallStack.init : CallStack := ⟨fun _ => [], []⟩

/-- A return ends the innermost open activation of its key; `later` relates the time of that
activation to the time of the event. -/
def CallStack.Fits (later : Nat → Nat → Prop) (m : CallStack) (e : Node) : Prop :=
  match e.tp1, m.stack e.key with
  | none, [] => True
  | none, top :: _ => later top.time e.time
  | some _, [] => False
  | some f, top :: _ => top.tp = f ∧ later top.time e.time

def WellNested (later : Nat → Nat → Prop) (callBased : Bool) : CallStack → List Node → Prop
  | _, [] => True
  | m, e :: es => m.Fits later e ∧ WellNested later callBased (m.step callBased e) es

/-- The arguments of the calls of `class->two`. -/
def pairsOf (calls : List ClassCall) : List (Node × Option Node) :=
  calls.filterMap fun
    | .two a ob _ _ => some (a, ob)
    | .remaining .. => none

end Machine

section Objects

/-- The tracepoint of a traced event and the last traced one before it in its list. -/
theorem findIn_traced {evsel k j : Nat} {tp1 tp1' : Option TpRef} {l : List (Tp ρ)} {ref : TpRef}
    {tp : Tp ρ} (h : findIn evsel k j tp1 l = some (ref, tp, tp1')) (hu : tp.untraced = false) :
    ∃ pre post, tracedFrom k j l = pre ++ ref :: post ∧
      tp1' = match pre.getLast? with
        | some t => some t
        | none => tp1 := by
  induction l generalizing j tp1 with
  | nil => cases h
  | cons x l ih =>
    unfold findIn at h
    unfold tracedFrom
    split at h
    · cases h
      exact ⟨[], tracedFrom k (j+1) l, by rw [hu]; rfl, rfl⟩
    · obtain ⟨pre, post, htr, htp1⟩ := ih h
      by_cases hx : x.untraced = true
      · rw [if_pos hx] at htp1 ⊢
        exact ⟨pre, post, htr, htp1⟩
      · rw [if_neg hx] at htp1 ⊢
        refine ⟨⟨k, j⟩ :: pre, post, by rw [htr]; rfl, ?_⟩
        cases pre with
        | nil => exact htp1
        | cons t pre =>
          rw [List.getLast?_cons_cons]
          cases hlast : (t :: pre).getLast? with
          | none => simp at hlast
          | some t' => rw [hlast] at htp1; exact htp1

theorem findTp_traced {evsel k : Nat} {lists : List (List (Tp ρ))} {ref : TpRef} {tp : Tp ρ}
    {tp1 : Option TpRef} (h : findTp evsel k lists = some (ref, tp, tp1))
    (hu : tp.untraced = false) :
    k ≤ ref.list ∧ ∃ pre post,
      tracedFrom ref.list 0 (lists.getD (ref.list - k) []) = pre ++ ref :: post ∧
        tp1 = pre.getLast? := by
  induction lists generalizing k with
  | nil => cases h
  | cons l lists ih =>
    unfold findTp at h
    split at h
    · rename_i found hfound
      cases h
      obtain ⟨hk, -, -⟩ := findIn_spec hfound
      obtain ⟨pre, post, htr, htp1⟩ := findIn_traced hfound hu
      refine ⟨by omega, pre, post, ?_, ?_⟩
      · rw [hk, Nat.sub_self]
        exact htr
      · rw [htp1]
        cases pre.getLast? <;> rfl
    · obtain ⟨h1, pre, post, h2, h3⟩ := ih h
      refine ⟨by omega, pre, post, ?_, h3⟩
      rw [show ref.list - k = (ref.list - (k+1)) + 1 by omega, List.getD_cons_succ]
      exact h2

/-- What `nested_trace_init` insists on: two traced tracepoints in each list. -/
def Config.Nested (c : Config ρ) : Prop :=
  c.nested = true ∧ ∀ k < c.nrList, (c.traced k).length = 2

/-- The first traced tracepoint of a list enters, the second one returns. -/
theorem nested_roles (hn : c.Nested) {evsel : Nat} {ref : TpRef} {tp : Tp ρ} {tp1 : Option TpRef}
    (h : findTp evsel 0 c.tpList = some (ref, tp, tp1)) (hu : tp.untraced = false) :
    ref.list < c.nrList ∧ (tp1 = none → ∃ t2, c.traced ref.list = [ref, t2]) ∧
      ∀ f, tp1 = some f → c.traced ref.list = [f, ref] := by
  have hlt := findTp_lt h
  obtain ⟨-, pre, post, htr, htp1⟩ := findTp_traced h hu
  have hlen := hn.2 ref.list hlt
  unfold Config.traced at hlen ⊢
  rw [Nat.sub_zero] at htr
  rw [htr] at hlen ⊢
  rw [List.length_append, List.length_cons] at hlen
  refine ⟨hlt, ?_⟩
  cases pre with
  | nil =>
    obtain ⟨t2, rfl⟩ := List.length_eq_one_iff.mp (show post.length = 1 by simpa using hlen)
    refine ⟨fun _ => ⟨t2, rfl⟩, fun f hf => ?_⟩
    rw [htp1] at hf
    cases hf
  | cons f pre =>
    rw [List.length_cons] at hlen
    have hpre : pre = [] := List.length_eq_zero_iff.mp (by omega)
    have hpost : post = [] := List.length_eq_zero_iff.mp (by omega)
    subst hpre hpost
    refine ⟨fun hnone => ?_, fun f' hf => ?_⟩
    · rw [htp1] at hnone
      cases hnone
    · rw [htp1] at hf
      cases hf
      rfl

/-- The object of a list, found for the call implementations without event2. -/
theorem nested_object (hn : c.Nested) {t1 t2 : TpRef} {k : Nat} (hk : k < c.nrList)
    (h : c.traced k = [t1, t2]) :
    c.objectFind t1 (some t2) = true ∧
      (c.implBasedOnCall = true → ∀ t, c.objectFind t1 t = true) := by
  have hmem : (t1, if c.implBasedOnCall then none else some t2) ∈ c.objects := by
    unfold Config.objects
    rw [if_pos hn.1, List.mem_filterMap]
    exact ⟨k, List.mem_range.mpr hk, by rw [h]⟩
  unfold Config.objectFind
  simp only [List.contains_iff_mem]
  refine ⟨hmem, fun hi t => ?_⟩
  rw [hi] at hmem ⊢
  exact hmem

end Objects

section Tree
variable {l : List Node} {b e : Node} {k : Nat}

theorem filter_key_remove (hs : (l.map Node.seq).Nodup) {rest : List Node}
    (hk : (l.filter fun n => n.key = b.key) = b :: rest) (k : Nat) :
    ((l.filter fun n => n.seq ≠ b.seq).filter fun n => n.key = k) =
      if k = b.key then rest else l.filter fun n => n.key = k := by
  have hb : b ∈ l := (List.mem_filter.mp (hk ▸ List.mem_cons_self ..)).1
  rw [List.filter_comm]
  split
  · rename_i he
    subst he
    have hnd : ((b :: rest).map Node.seq).Nodup := hk ▸ hs.sublist (List.filter_sublist.map _)
    rw [List.map_cons, List.nodup_cons] at hnd
    rw [hk, List.filter_cons_of_neg (by simp), List.filter_eq_self]
    intro n hn
    simp only [decide_eq_true_eq]
    exact fun h => hnd.1 (h ▸ List.mem_map_of_mem hn)
  · rename_i hne
    rw [List.filter_eq_self]
    intro n hn
    simp only [decide_eq_true_eq]
    intro h
    have hn' := List.mem_filter.mp hn
    simp only [decide_eq_true_eq] at hn'
    rw [List.inj_on_of_nodup_map hs hn'.1 hb h] at hn'
    exact hne hn'.2.symm

/-- The newest event of a key goes before the others of its key. -/
theorem filter_key_insert (hnew : ∀ n ∈ l, n.key = e.key → n.time ≤ e.time) (k : Nat) :
    ((insertBy c.backupBefore e l).filter fun n => n.key = k) =
      if k = e.key then e :: l.filter fun n => n.key = k else l.filter fun n => n.key = k := by
  induction l with
  | nil =>
    by_cases hk : k = e.key
    · simp [insertBy, hk]
    · simp [insertBy, hk, Ne.symm hk]
  | cons b l ih =>
    have ih := ih fun n hn => hnew n (List.mem_cons_of_mem _ hn)
    unfold insertBy
    split
    · rename_i hb
      have hne : b.key ≠ e.key := by
        intro h
        have := hnew b (List.mem_cons_self ..) h
        simp only [Config.backupBefore, Bool.or_eq_true, Bool.and_eq_true, decide_eq_true_eq] at hb
        omega
      rw [List.filter_cons, ih, List.filter_cons]
      by_cases hk : k = e.key
      · subst hk
        simp [hne]
      · simp [hk]
    · rw [List.filter_cons]
      by_cases hk : k = e.key
      · simp [hk]
      · simp [hk, Ne.symm hk]

theorem find_key (l : List Node) (k : Nat) (q : Node → Bool) :
    (l.find? fun n => n.key = k && q n) = (l.filter fun n => n.key = k).find? q := by
  rw [List.find?_filter]
  simp only [Bool.decide_and, Bool.decide_eq_true]

end Tree

section Handle
variable {m : CallStack} {rest : List Node} {e : Node}

/-- `backup` holds the stacks, and `rest` are the events still to be handled. -/
structure Stacked (c : Config ρ) (s : Trace) (m : CallStack) (rest : List Node) : Prop where
  byKey : ∀ k, (s.backup.filter fun b => b.key = k) = m.stack k
  strict : ∀ k, (m.stack k).Pairwise fun a b => b.time < a.time
  pairs : pairsOf s.calls = m.pairs
  seqs : ((s.backup ++ rest).map Node.seq).Nodup
  old : ∀ n ∈ s.backup ++ rest, n.seq < s.eventHandled
  entries : ∀ n ∈ s.backup, ∃ k < c.nrList, ∃ t2, c.traced k = [n.tp, t2]
  lossless : ∀ i, s.windowsOf c i = []

/-- A traced event of nested-trace, as `multi_trace_sample` makes it. -/
structure NestedEvent (c : Config ρ) (e : Node) : Prop where
  enters : e.tp1 = none → (∃ k < c.nrList, ∃ t2, c.traced k = [e.tp, t2]) ∧
    e.needFindPrev = c.implBasedOnCall ∧ e.needBackup = true ∧ e.needRemoveFromBackup = false
  returns : ∀ f, e.tp1 = some f → (∃ k < c.nrList, c.traced k = [f, e.tp]) ∧
    e.needFindPrev = true ∧ e.needBackup = false ∧ e.needRemoveFromBackup = true

theorem pairsOf_append_two (calls : List ClassCall) (a : Node) (ob : Option Node) (k t : Nat) :
    pairsOf (calls ++ [.two a ob k t]) = pairsOf calls ++ [(a, ob)] := by
  simp [pairsOf]

theorem Stacked.top (h : Stacked c s m rest) {k : Nat} {top : Node} {below : List Node}
    (hk : m.stack k = top :: below) : top ∈ s.backup ∧ top.key = k := by
  have hmem : top ∈ s.backup.filter fun b => b.key = k := by
    rw [h.byKey, hk]
    exact List.mem_cons_self ..
  simpa using List.mem_filter.mp hmem

/-- The innermost open activation is the latest one. -/
theorem Stacked.le_top (h : Stacked c s m rest) {n : Node} (hn : n ∈ s.backup) :
    ∃ top below, m.stack n.key = top :: below ∧ n.time ≤ top.time := by
  have hmem : n ∈ m.stack n.key := by
    rw [← h.byKey, List.mem_filter]
    exact ⟨hn, by simp⟩
  have hs := h.strict n.key
  cases hst : m.stack n.key with
  | nil => rw [hst] at hmem; cases hmem
  | cons top below =>
    rw [hst] at hmem hs
    refine ⟨top, below, rfl, ?_⟩
    cases List.mem_cons.mp hmem with
    | inl he => rw [he]
    | inr hb => exact Nat.le_of_lt ((List.pairwise_cons.mp hs).1 n hb)

theorem backupRemove_frame (c : Config ρ) (s : Trace) (b : Node) :
    (s.backupRemove c b).backup = (s.backup.filter fun n => n.seq ≠ b.seq) ∧
    (s.backupRemove c b).pendingList = s.pendingList := by
  unfold Trace.backupRemove Trace.backupNodeDelete
  split <;> exact ⟨rfl, rfl⟩

theorem backupInsert_pendingList (c : Config ρ) (s : Trace) (b : Node) :
    (s.backupInsert c b).pendingList = s.pendingList := by
  unfold Trace.backupInsert
  dsimp only
  split <;> rfl

/-- An activation is pushed: nothing in the tree compares equal to it. -/
theorem Stacked.push (h : Stacked c s m (e :: rest)) (he : NestedEvent c e) (h1 : e.tp1 = none)
    (hn : c.nested = true)
    (hlater : ∀ top below, m.stack e.key = top :: below → top.time < e.time) {pairs}
    (hp : pairsOf s.calls = pairs) (needFree : Bool) :
    Stacked c (s.tryBackup c e needFree).1
      ⟨Function.update m.stack e.key (e :: m.stack e.key), pairs⟩ rest ∧
      (s.tryBackup c e needFree).1.pendingList = s.pendingList := by
  obtain ⟨hentry, -, hb, -⟩ := he.enters h1
  have hnewer : ∀ n ∈ s.backup, n.key = e.key → n.time < e.time := by
    intro n hmem hk
    obtain ⟨top, below, htop, hle⟩ := h.le_top hmem
    exact Nat.lt_of_le_of_lt hle (hlater top below (hk ▸ htop))
  have hnone : (s.backup.find? fun b => c.backupSame b e) = none := by
    rw [List.find?_eq_none]
    intro n hmem
    by_cases hk : n.key = e.key
    · have := hnewer n hmem hk
      simp [Config.backupSame, Config.backupBefore, hn, hk, this]
    · simp only [Config.backupSame, Config.backupBefore, hn, Bool.true_and,
        beq_eq_false_iff_ne.mpr hk, beq_eq_false_iff_ne.mpr (Ne.symm hk), Bool.false_and,
        Bool.or_false, Bool.and_eq_true, Bool.not_eq_true', decide_eq_false_iff_not]
      omega
  unfold Trace.tryBackup Trace.backupRetry
  rw [if_pos hb, hnone]
  obtain ⟨hback, hkeep⟩ := backupInsert_spec c s e
  have hseq := h.seqs
  rw [List.map_append, List.map_cons, List.nodup_middle] at hseq
  refine ⟨⟨?_, ?_, ?_, ?_, ?_, ?_, ?_⟩, backupInsert_pendingList c s e⟩
  · intro k
    rw [hback, filter_key_insert fun n hmem hk => Nat.le_of_lt (hnewer n hmem hk), h.byKey]
    dsimp only
    by_cases hk : k = e.key
    · subst hk
      rw [if_pos rfl, Function.update_self]
    · rw [if_neg hk, Function.update_of_ne hk]
  · intro k
    by_cases hk : k = e.key
    · subst hk
      dsimp only
      rw [Function.update_self, List.pairwise_cons]
      refine ⟨?_, h.strict _⟩
      intro n hmem
      rw [← h.byKey, List.mem_filter] at hmem
      exact hnewer n hmem.1 (by simpa using hmem.2)
    · dsimp only
      rw [Function.update_of_ne hk]
      exact h.strict k
  · rw [hkeep.calls]
    exact hp
  · rw [hback, List.map_append]
    have hperm := ((insertBy_perm c.backupBefore e s.backup).map Node.seq).append_right
      (rest.map Node.seq)
    rw [hperm.nodup_iff]
    exact hseq
  · intro n hmem
    rw [hkeep.eventHandled]
    refine h.old n ?_
    rw [hback, List.mem_append, mem_insertBy, or_assoc] at hmem
    rw [List.mem_append, List.mem_cons]
    exact or_left_comm.mp hmem
  · intro n hmem
    rw [hback] at hmem
    rcases mem_insertBy.mp hmem with rfl | hmem
    · exact hentry
    · exact h.entries n hmem
  · intro i
    rw [hkeep.spares.windowsOf]
    exact h.lossless i

/-- The innermost activation is popped. -/
theorem Stacked.pop (h : Stacked c s m rest) {top : Node} {below : List Node} {k : Nat}
    (htop : m.stack k = top :: below) {pairs} (hp : pairsOf s.calls = pairs) :
    Stacked c (s.backupRemove c top) ⟨Function.update m.stack k below, pairs⟩ rest := by
  obtain ⟨hmem, hkey⟩ := h.top htop
  obtain ⟨hback, -⟩ := backupRemove_frame c s top
  have hkeep := keeps_backupRemove c s top
  have hseq := h.seqs
  rw [List.map_append] at hseq
  refine ⟨?_, ?_, ?_, ?_, ?_, ?_, ?_⟩
  · intro k'
    have hfilter := h.byKey k
    rw [htop, ← hkey] at hfilter
    rw [hback, filter_key_remove (List.nodup_append.mp hseq).1 hfilter, h.byKey]
    dsimp only
    by_cases hk : k' = k
    · subst hk
      rw [if_pos hkey.symm, Function.update_self]
    · rw [if_neg (by rw [hkey]; exact hk), Function.update_of_ne hk]
  · intro k'
    dsimp only
    by_cases hk : k' = k
    · subst hk
      have := h.strict k'
      rw [htop] at this
      rw [Function.update_self]
      exact (List.pairwise_cons.mp this).2
    · rw [Function.update_of_ne hk]
      exact h.strict k'
  · rw [hkeep.calls]
    exact hp
  · exact h.seqs.sublist ((hkeep.backup.append_right rest).map _)
  · intro n hn
    rw [hkeep.eventHandled]
    exact h.old n ((hkeep.backup.append_right rest).subset hn)
  · intro n hn
    exact h.entries n (hkeep.backup.subset hn)
  · intro i
    rw [hkeep.spares.windowsOf]
    exact h.lossless i

theorem Stacked.findPrev (h : Stacked c s m rest) (k : Nat) (f : Option TpRef)
    (hf : ∀ top below, m.stack k = top :: below → f.isNone || f = some top.tp) :
    s.findPrev k f = (m.stack k).head? := by
  unfold Trace.findPrev
  rw [find_key, h.byKey]
  cases hst : m.stack k with
  | nil => rfl
  | cons top below =>
    rw [List.find?_cons, List.head?_cons]
    simp only [hf top below hst]

theorem Stacked.withCalls (h : Stacked c s m rest) (calls : List ClassCall) :
    Stacked c { s with calls := calls } ⟨m.stack, pairsOf calls⟩ rest :=
  ⟨h.byKey, h.strict, rfl, h.seqs, h.old, h.entries, h.lossless⟩

variable (hn : c.Nested) (he : NestedEvent c e)
include hn he

/-- An entry: its caller is the innermost open activation. -/
theorem Stacked.enter (h : Stacked c s m (e :: rest)) (h1 : e.tp1 = none)
    (hlater : ∀ top below, m.stack e.key = top :: below → top.time < e.time) (needFree : Bool) :
    Stacked c ((s.tryCallTwo c e needFree).1.tryBackup c e (s.tryCallTwo c e needFree).2).1
        (m.step c.implBasedOnCall e) rest ∧
      ((s.tryCallTwo c e needFree).1.tryBackup c e (s.tryCallTwo c e needFree).2).1.pendingList =
        s.pendingList := by
  obtain ⟨⟨k, hk, t2, htr⟩, hfp, -, hrm⟩ := he.enters h1
  unfold CallStack.step Trace.tryCallTwo
  rw [hfp, h1]
  dsimp only
  cases hi : c.implBasedOnCall with
  | false =>
    simp only [Bool.false_eq_true, if_false]
    exact h.push he h1 hn.1 hlater h.pairs needFree
  | true =>
    have hfind := h.findPrev e.key none (fun _ _ _ => rfl)
    simp only [if_true, hfind]
    cases hst : m.stack e.key with
    | nil =>
      have hobj := (nested_object hn hk htr).2 hi none
      simp only [List.head?_nil, hobj, Bool.and_self, if_true]
      have h₁ := (h.withCalls (s.calls ++ [.two e none e.key 0])).push he h1 hn.1 hlater rfl needFree
      rw [pairsOf_append_two, h.pairs] at h₁
      simpa only [hst] using h₁
    | cons top below =>
      obtain ⟨hmem, -⟩ := h.top hst
      obtain ⟨k', hk', t2', htr'⟩ := h.entries top hmem
      have hobj := (nested_object hn hk' htr').2 hi (some e.tp)
      have hlt := hlater top below hst
      simp only [List.head?_cons, hobj, hlt, decide_true, Bool.and_self, if_true, hrm,
        Bool.false_eq_true, if_false]
      have h₁ := (h.withCalls (s.calls ++ [.two top (some e) e.key s.recentTime])).push he h1 hn.1
        hlater rfl needFree
      rw [pairsOf_append_two, h.pairs] at h₁
      simpa only [hst] using h₁

/-- A return: the innermost open activation is its own, and goes. -/
theorem Stacked.leave (h : Stacked c s m (e :: rest)) {f : TpRef} (h1 : e.tp1 = some f)
    {top : Node} {below : List Node} (htop : m.stack e.key = top :: below) (htp : top.tp = f)
    (hlt : top.time < e.time) (needFree : Bool) :
    Stacked c ((s.tryCallTwo c e needFree).1.tryBackup c e (s.tryCallTwo c e needFree).2).1
        (m.step c.implBasedOnCall e) rest ∧
      ((s.tryCallTwo c e needFree).1.tryBackup c e (s.tryCallTwo c e needFree).2).1.pendingList =
        s.pendingList := by
  obtain ⟨⟨k, hk, htr⟩, hfp, hnb, hrm⟩ := he.returns f h1
  have hfind : s.findPrev e.key (some f) = some top := by
    rw [h.findPrev, htop, List.head?_cons]
    intro top' below' htop'
    rw [htop] at htop'
    cases htop'
    simp [htp]
  have hobj : c.objectFind top.tp (some e.tp) = true := by
    rw [htp]
    exact (nested_object hn hk htr).1
  have hseqs : Stacked c s m rest := by
    have hsub := (List.sublist_cons_self e rest).append_left s.backup
    exact ⟨h.byKey, h.strict, h.pairs, h.seqs.sublist (hsub.map _), fun n hn =>
      h.old n (hsub.subset hn), h.entries, h.lossless⟩
  have h₁ := (hseqs.withCalls (s.calls ++ [.two top (some e) e.key s.recentTime])).pop htop rfl
  rw [pairsOf_append_two, h.pairs] at h₁
  unfold CallStack.step Trace.tryBackup Trace.tryCallTwo
  simp only [h1, htop, hfp, hnb, hrm, hfind, hobj, hlt, decide_true, Bool.and_self, if_true,
    Bool.false_eq_true, if_false]
  exact ⟨h₁, (backupRemove_frame c _ top).2⟩

/-- One event that fits the stack of its key. -/
theorem Stacked.handle (h : Stacked c s m (e :: rest)) {es : List Node}
    (hw : WellNested (· < ·) c.implBasedOnCall m (e :: es)) (needFree : Bool) :
    Stacked c (s.handle c e needFree).1 (m.step c.implBasedOnCall e) rest ∧
      (s.handle c e needFree).1.pendingList = s.pendingList := by
  have h₁ : Stacked c { s with handledTime := e.time } m (e :: rest) :=
    ⟨h.byKey, h.strict, h.pairs, h.seqs, h.old, h.entries, h.lossless⟩
  unfold Trace.handle
  rw [eventLost_none (h.lossless e.ins)]
  obtain ⟨hfits, -⟩ := hw
  unfold CallStack.Fits at hfits
  cases htp : e.tp1 with
  | none =>
    refine h₁.enter hn he htp ?_ needFree
    intro top below htop
    rw [htp, htop] at hfits
    exact hfits
  | some f =>
    cases htop : m.stack e.key with
    | nil =>
      rw [htp, htop] at hfits
      exact absurd hfits id
    | cons top below =>
      rw [htp, htop] at hfits
      exact h₁.leave hn he htp htop hfits.1 hfits.2 needFree

end Handle

section Run
variable {m : CallStack} {rest : List Node} {now : Nat}

/-- The traced events of a stream, as nodes; `seq` counts the events that have a tracepoint. -/
def Config.tracedNodes (c : Config ρ) : Nat → List (Event ρ) → List Node
  | _, [] => []
  | seq, ev :: evs => match findTp ev.evsel 0 c.tpList with
    | none => c.tracedNodes seq evs
    | some (ref, tp, tp1) =>
      if tp.untraced then c.tracedNodes (seq+1) evs
      else mkNode c ref tp tp1 ev seq :: c.tracedNodes (seq+1) evs

theorem nestedEvent_mkNode (hn : c.Nested) {ref : TpRef} {tp : Tp ρ} {tp1 : Option TpRef}
    {ev : Event ρ} (hfind : findTp ev.evsel 0 c.tpList = some (ref, tp, tp1))
    (hu : tp.untraced = false) (seq : Nat) : NestedEvent c (mkNode c ref tp tp1 ev seq) := by
  obtain ⟨hlt, henter, hreturn⟩ := nested_roles hn hfind hu
  have htp1 : (mkNode c ref tp tp1 ev seq).tp1 = tp1 := by simp [mkNode, hn.1]
  refine ⟨?_, ?_⟩
  · intro h
    rw [htp1] at h
    refine ⟨⟨ref.list, hlt, henter h⟩, ?_⟩
    simp [mkNode, hn.1, h]
  · intro f h
    rw [htp1] at h
    refine ⟨⟨ref.list, hlt, hreturn f h⟩, ?_⟩
    simp [mkNode, hn.1, h]

theorem Stacked.congr (h : Stacked c s m rest) (hb : s'.backup = s.backup) (hk : Spares s s')
    (hc : s'.calls = s.calls) : Stacked c s' m rest :=
  ⟨by rw [hb]; exact h.byKey, h.strict, by rw [hc]; exact h.pairs, by rw [hb]; exact h.seqs,
    by rw [hb, hk.eventHandled]; exact h.old, by rw [hb]; exact h.entries,
    fun i => by rw [hk.windowsOf]; exact h.lossless i⟩

/-- The loop over the pending events takes them in order, up to the deadline. -/
theorem Stacked.pendingLoop (hn : c.Nested) (tail : Node) (fuel : Nat) {future : List Node}
    (h : Stacked c s m rest) (hp : s.pendingList.map popped = rest)
    (hev : ∀ e ∈ rest, NestedEvent c e)
    (hw : WellNested (· < ·) c.implBasedOnCall m (rest ++ future)) (needFree : Bool) :
    ∃ handled left, rest = handled ++ left ∧
      Stacked c (Trace.pendingLoop c tail fuel s needFree).1 (m.run c.implBasedOnCall handled) left ∧
      (Trace.pendingLoop c tail fuel s needFree).1.pendingList.map popped = left ∧
      WellNested (· < ·) c.implBasedOnCall (m.run c.implBasedOnCall handled) (left ++ future) ∧
      (c.afterEvent2 = 0 → (∀ p ∈ s.pendingList, p.time < 2 ^ 64) → rest.length ≤ fuel →
        left = []) := by
  induction fuel generalizing s m rest needFree with
  | zero =>
    refine ⟨[], rest, rfl, h, hp, hw, fun _ _ hlen => ?_⟩
    exact List.length_eq_zero_iff.mp (Nat.le_zero.mp hlen)
  | succ fuel ih =>
    unfold Trace.pendingLoop
    cases hfirst : s.firstPending c (some tail) with
    | none =>
      refine ⟨[], rest, rfl, h, hp, hw, fun ha ht _ => ?_⟩
      cases hpl : s.pendingList with
      | nil => rw [← hp, hpl]; rfl
      | cons p ps =>
        exact absurd hfirst (firstPending_isSome ha hpl (ht p (hpl ▸ List.mem_cons_self ..)) tail)
    | some found =>
      obtain ⟨first, s₁⟩ := found
      obtain ⟨p, ps, hpl, hfp, hs₁⟩ := firstPending_cases hfirst
      have hfirst' : first = popped p := hfp
      have hback : s₁.backup = s.backup ∧ s₁.pendingList = ps := by
        rw [hs₁]
        split <;> exact ⟨rfl, rfl⟩
      rw [hpl, List.map_cons, ← hfirst'] at hp
      subst hp
      have hkeep := keeps_firstPending hfirst
      have h₁ := h.congr hback.1 hkeep.spares hkeep.calls
      obtain ⟨h₂, hpl₂⟩ := h₁.handle hn (hev first (List.mem_cons_self ..)) hw needFree
      dsimp only
      obtain ⟨handled, left, hsplit, h₃, hp₃, hw₃, hall⟩ :=
        ih h₂ (by rw [hpl₂, hback.2]) (fun e he => hev e (List.mem_cons_of_mem _ he)) hw.2
          (s₁.handle c first needFree).2
      refine ⟨first :: handled, left, by rw [hsplit]; rfl, h₃, hp₃, hw₃, fun ha ht hlen => ?_⟩
      refine hall ha ?_ (by simpa using hlen)
      intro q hq
      rw [hpl₂, hback.2] at hq
      exact ht q (hpl ▸ List.mem_cons_of_mem _ hq)

/-- The state after a prefix of a well nested stream: `rest` are its events still pending. -/
structure Unwound (c : Config ρ) (s : Trace) (m : CallStack) (rest : List Node) (now : Nat) :
    Prop where
  stacked : Stacked c s m rest
  pending : s.pendingList.map popped = rest
  events : ∀ e ∈ rest, NestedEvent c e
  line : c.needTimeline = true → Line s [] now
  soon : c.needTimeline = false ∨ c.afterEvent2 = 0 → rest = []

theorem WellNested.drop {later : Nat → Nat → Prop} {cb : Bool} {xs ys : List Node}
    (h : WellNested later cb m (xs ++ ys)) : WellNested later cb (m.run cb xs) ys := by
  induction xs generalizing m with
  | nil => exact h
  | cons x xs ih => exact ih h.2

/-- Nothing is open when the timeline is empty. -/
theorem Unwound.empty (h : Unwound c s m rest now) (hc : c.needTimeline = true)
    (he : s.timeline = []) : rest = [] ∧ ∀ k, m.stack k = [] := by
  have hl := h.line hc
  have hchain : s.chain [] = [] := by
    rw [List.eq_nil_iff_forall_not_mem]
    intro x hx
    obtain ⟨n, hn, -⟩ := hl.ok.onLine x hx
    rw [he] at hn
    cases hn
  simp only [Trace.chain, List.append_nil, List.append_eq_nil_iff] at hchain
  have hb : s.backup = [] := List.perm_nil.mp (hchain.1 ▸ hl.backup)
  refine ⟨?_, fun k => ?_⟩
  · rw [← h.pending, hchain.2]
    rfl
  · rw [← h.stacked.byKey, hb]
    rfl

/-- The new event at the end of the events to be handled. -/
theorem Stacked.arrive (h : Stacked c s m rest) {e : Node} (hs : e.seq = s.eventHandled)
    (time : Nat) : Stacked c (s.tick time) m (rest ++ [e]) := by
  refine ⟨h.byKey, h.strict, h.pairs, ?_, ?_, h.entries, h.lossless⟩
  · rw [← List.append_assoc, List.map_append, List.nodup_append]
    refine ⟨h.seqs, by simp, ?_⟩
    intro q hq q' hq' heq
    obtain ⟨n, hn, rfl⟩ := List.mem_map.mp hq
    have hqe : q' = e.seq := by simpa using hq'
    have := h.old n hn
    omega
  · intro n hn
    rw [← List.append_assoc, List.mem_append, List.mem_singleton] at hn
    show n.seq < s.eventHandled + 1
    cases hn with
    | inl hn => exact Nat.lt_succ_of_lt (h.old n hn)
    | inr hn => rw [hn, hs]; exact Nat.lt_succ_self _

/-- The timeline part of `multi_trace_sample`, once the node of the event has been added. -/
theorem Unwound.process (hn : c.Nested) (hc : c.needTimeline = true) {time : Nat} {tail : Node}
    (future : List Node) (hs : Stacked c s m rest) (hp : s.pendingList.map popped = rest)
    (hev : ∀ e ∈ rest, NestedEvent c e) (hl : Line s [] time) (ht : time < 2 ^ 64)
    (hw : WellNested (· < ·) c.implBasedOnCall m (rest ++ future)) (needFree : Bool) :
    ∃ handled left, rest = handled ++ left ∧
      Unwound c (match Trace.pendingLoop c tail s.pendingList.length s needFree with
        | (s, needFree) => if needFree then s.timelineFreeUnneeded c else s)
        (m.run c.implBasedOnCall handled) left time := by
  obtain ⟨handled, left, hsplit, h₁, hp₁, -, hall⟩ :=
    Stacked.pendingLoop hn tail s.pendingList.length hs hp hev hw needFree
  have hl₁ := hl.pendingLoop hc tail s.pendingList.length needFree
  refine ⟨handled, left, hsplit, ?_⟩
  have hev' : ∀ e ∈ left, NestedEvent c e := fun e he =>
    hev e (hsplit ▸ List.mem_append_right _ he)
  have hsoon : c.needTimeline = false ∨ c.afterEvent2 = 0 → left = [] := by
    intro hor
    cases hor with
    | inl hf => rw [hc] at hf; cases hf
    | inr ha =>
      refine hall ha (fun p hmem => Nat.lt_of_le_of_lt (hl.pending_time_le hmem) ht) ?_
      rw [← hp, List.length_map]
  dsimp only
  split
  · obtain ⟨hl₂, hf⟩ := hl₁.timelineFreeUnneeded (c := c)
    have hk := keeps_timelineFreeUnneeded c (Trace.pendingLoop c tail s.pendingList.length s needFree).1
    exact ⟨h₁.congr hf.backup hk.spares hk.calls, by rw [hf.pendingList]; exact hp₁, hev',
      fun _ => hl₂, hsoon⟩
  · exact ⟨h₁, hp₁, hev', fun _ => hl₁, hsoon⟩

theorem Stacked.added (h : Stacked c s m rest) {e : Node} {untraced : Bool}
    (hadd : s.timelineAdd e untraced = some s') : Stacked c s' m rest := by
  obtain ⟨hk, hb, -⟩ := timelineAdd_cases hadd
  have h₁ : Stacked c { s with pendingList := s'.pendingList } m rest :=
    ⟨h.byKey, h.strict, h.pairs, h.seqs, h.old, h.entries, h.lossless⟩
  exact h₁.congr hb hk.spares hk.calls

variable (hn : c.Nested) {ev : Event ρ} {ref : TpRef} {tp : Tp ρ} {tp1 : Option TpRef}
  {future : List Node}
include hn

/-- An untraced event is at most put on the timeline. -/
theorem Unwound.untraced (h : Unwound c s m rest now)
    (hfind : findTp ev.evsel 0 c.tpList = some (ref, tp, tp1)) (hu : tp.untraced = true)
    (ht : now ≤ ev.time) (ht64 : ev.time < 2 ^ 64)
    (hw : WellNested (· < ·) c.implBasedOnCall m (rest ++ future)) :
    ∃ handled left, rest = handled ++ left ∧
      Unwound c (s.sample c ev) (m.run c.implBasedOnCall handled) left ev.time := by
  have htick : Stacked c (s.tick ev.time) m rest :=
    ⟨h.stacked.byKey, h.stacked.strict, h.stacked.pairs, h.stacked.seqs,
      fun n hn => Nat.lt_succ_of_lt (h.stacked.old n hn), h.stacked.entries, h.stacked.lossless⟩
  rw [sample_found hfind]
  cases hc : c.needTimeline with
  | false =>
    rw [if_neg Bool.false_ne_true, Trace.samplePlain, if_pos hu]
    exact ⟨[], rest, rfl, htick, h.pending, h.events, (fun hc' => by cases hc.symm.trans hc'),
      h.soon⟩
  | true =>
    have hl := h.line hc
    rw [if_pos rfl]
    unfold Trace.sampleTimeline
    split
    · exact ⟨[], rest, rfl, htick, h.pending, h.events, fun _ => hl.tick ht, h.soon⟩
    · obtain ⟨s₁, hadd, hl₁⟩ := hl.addCurrent (c := c) ref tp tp1 ht
      obtain ⟨-, -, hpl⟩ := timelineAdd_cases hadd
      rw [if_pos hu] at hpl
      rw [hadd]
      exact Unwound.process hn hc _ (htick.added hadd) (by rw [hpl]; exact h.pending) h.events hl₁
        ht64 hw _

/-- A traced event joins the events to be handled. -/
theorem Unwound.traced (h : Unwound c s m rest now)
    (hfind : findTp ev.evsel 0 c.tpList = some (ref, tp, tp1)) (hu : tp.untraced = false)
    (ht : now ≤ ev.time) (ht64 : ev.time < 2 ^ 64)
    (hw : WellNested (· < ·) c.implBasedOnCall m
      (rest ++ mkNode c ref tp tp1 ev s.eventHandled :: future)) :
    ∃ handled left, rest ++ [mkNode c ref tp tp1 ev s.eventHandled] = handled ++ left ∧
      Unwound c (s.sample c ev) (m.run c.implBasedOnCall handled) left ev.time := by
  obtain ⟨e, he⟩ : ∃ e, mkNode c ref tp tp1 ev s.eventHandled = e := ⟨_, rfl⟩
  have hevent : NestedEvent c e := he ▸ nestedEvent_mkNode hn hfind hu s.eventHandled
  have hpop : popped { e with unneeded := false } = e := by
    rw [← he]
    simp [popped, mkNode, hu]
  have harrive := h.stacked.arrive (e := e) (by rw [← he]; rfl) ev.time
  have hevents : ∀ x ∈ rest ++ [e], NestedEvent c x := by
    intro x hx
    cases List.mem_append.mp hx with
    | inl hx => exact h.events x hx
    | inr hx => rw [List.mem_singleton.mp hx]; exact hevent
  rw [sample_found hfind]
  rw [he] at hw ⊢
  cases hc : c.needTimeline with
  | false =>
    have hrest := h.soon (Or.inl hc)
    subst hrest
    rw [if_neg Bool.false_ne_true, Trace.samplePlain, hu, if_neg Bool.false_ne_true]
    obtain ⟨h₁, hp₁⟩ := harrive.handle hn hevent hw false
    refine ⟨[e], [], rfl, h₁, ?_, by simp, fun hc' => absurd (hc.symm.trans hc') Bool.false_ne_true,
      fun _ => rfl⟩
    rw [hp₁]
    exact h.pending
  | true =>
    have hl := h.line hc
    rw [if_pos rfl]
    unfold Trace.sampleTimeline
    split
    · -- a return cannot find the timeline empty
      rename_i hskip
      simp only [Bool.and_eq_true, List.isEmpty_iff, decide_eq_true_eq] at hskip
      obtain ⟨hrest, hempty⟩ := h.empty hc hskip.1.1.1
      subst hrest
      have hfits := hw.1
      have hneed : e.needBackup = false := by
        have := congrArg Node.unneeded hpop
        rw [popped, hskip.1.1.2] at this
        simpa using this
      cases htp : e.tp1 with
      | none =>
        have := (hevent.enters htp).2.2.1
        rw [hneed] at this
        cases this
      | some f =>
        rw [CallStack.Fits, htp, hempty] at hfits
        exact absurd hfits id
    · obtain ⟨s₁, hadd, hl₁⟩ := hl.addCurrent (c := c) ref tp tp1 ht
      obtain ⟨-, -, hpl⟩ := timelineAdd_cases hadd
      rw [he] at hadd hpl
      rw [hu, if_neg Bool.false_ne_true] at hpl
      rw [hadd]
      refine Unwound.process hn hc future (harrive.added hadd) ?_ hevents hl₁ ht64 ?_ _
      · rw [hpl, List.map_append, List.map_cons, List.map_nil, hpop]
        exact congrArg (· ++ [e]) h.pending
      · rw [List.append_assoc]
        exact hw

theorem Unwound.run (h : Unwound c s m rest now) (evs : List (Event ρ))
    (ho : TimeOrdered now (evs.map Input.sample))
    (hw : WellNested (· < ·) c.implBasedOnCall m (rest ++ c.tracedNodes s.eventHandled evs)) :
    ∃ handled left now', rest ++ c.tracedNodes s.eventHandled evs = handled ++ left ∧
      Unwound c (s.run c (evs.map .sample)) (m.run c.implBasedOnCall handled) left now' := by
  induction evs generalizing s m rest now with
  | nil => exact ⟨[], rest, now, List.append_nil _, h⟩
  | cons ev evs ih =>
    obtain ⟨ht, ht64, ho⟩ := ho
    -- the step handles `mid`, the rest of the run handles the rest
    have hstep : ∀ mid left', rest ++ c.tracedNodes s.eventHandled (ev :: evs) =
        mid ++ (left' ++ c.tracedNodes (s.sample c ev).eventHandled evs) →
        Unwound c (s.sample c ev) (m.run c.implBasedOnCall mid) left' ev.time →
        ∃ handled left now', rest ++ c.tracedNodes s.eventHandled (ev :: evs) = handled ++ left ∧
          Unwound c (s.run c ((ev :: evs).map .sample)) (m.run c.implBasedOnCall handled) left
            now' := by
      intro mid left' hsplit h₁
      rw [hsplit] at hw
      obtain ⟨handled, left, now', hsp, h₂⟩ := ih h₁ ho hw.drop
      refine ⟨mid ++ handled, left, now', ?_, ?_⟩
      · rw [hsplit, hsp, List.append_assoc]
      · rw [CallStack.run, List.foldl_append]
        exact h₂
    cases hfind : findTp ev.evsel 0 c.tpList with
    | none =>
      refine hstep [] rest ?_ ?_
      · rw [sample_not_found hfind]
        simp only [Config.tracedNodes, hfind, List.nil_append]
      · rw [sample_not_found hfind]
        exact ⟨⟨h.stacked.byKey, h.stacked.strict, h.stacked.pairs, h.stacked.seqs, h.stacked.old,
          h.stacked.entries, h.stacked.lossless⟩, h.pending, h.events,
          fun hc => ((h.line hc).later ht).congr rfl rfl rfl rfl rfl rfl rfl, h.soon⟩
    | some found =>
      obtain ⟨ref, tp, tp1⟩ := found
      have hcount := (sample_clock (s := s) hfind).1
      cases hu : tp.untraced with
      | true =>
        have hnodes : c.tracedNodes s.eventHandled (ev :: evs) =
            c.tracedNodes (s.sample c ev).eventHandled evs := by
          rw [hcount]
          simp only [Config.tracedNodes, hfind, hu, if_true]
        obtain ⟨mid, left', hsp, h₁⟩ := h.untraced hn hfind hu ht ht64 hw
        refine hstep mid left' ?_ h₁
        rw [hnodes, hsp, List.append_assoc]
      | false =>
        have hnodes : c.tracedNodes s.eventHandled (ev :: evs) =
            mkNode c ref tp tp1 ev s.eventHandled ::
              c.tracedNodes (s.sample c ev).eventHandled evs := by
          rw [hcount]
          simp only [Config.tracedNodes, hfind, hu, Bool.false_eq_true, if_false]
        obtain ⟨mid, left', hsp, h₁⟩ := h.traced hn hfind hu ht ht64 (hnodes ▸ hw)
        refine hstep mid left' ?_ h₁
        rw [hnodes, ← List.append_assoc, ← hsp, List.append_assoc, List.singleton_append]

omit hn in
theorem Unwound.init (c : Config ρ) : Unwound c Trace.init CallStack.init [] 0 := by
  refine ⟨⟨fun _ => rfl, fun _ => List.Pairwise.nil, rfl, List.nodup_nil, nofun, nofun, ?_⟩, rfl,
    nofun, fun _ => Line.init, fun _ => rfl⟩
  intro i
  unfold Trace.windowsOf
  cases c.lostAffect <;> rfl

/-- nested-trace on a well nested stream in which each event of a key is later than the innermost
open activation of that key. The events that are handled are all but those that --detail
still keeps pending. -/
theorem nested_call_stack (evs : List (Event ρ)) (ho : TimeOrdered 0 (evs.map Input.sample))
    (hw : WellNested (· < ·) c.implBasedOnCall CallStack.init (c.tracedNodes 0 evs)) :
    let s := Trace.init.run c (evs.map .sample)
    ∃ handled pending, c.tracedNodes 0 evs = handled ++ pending ∧
      s.pendingList.map popped = pending ∧
      (c.needTimeline = false ∨ c.afterEvent2 = 0 → pending = []) ∧
      pairsOf s.calls = (CallStack.init.run c.implBasedOnCall handled).pairs ∧
      ∀ k, (s.backup.filter fun b => b.key = k) =
        (CallStack.init.run c.implBasedOnCall handled).stack k := by
  intro s
  obtain ⟨handled, left, now, hsplit, h⟩ := (Unwound.init c).run hn evs ho hw
  exact ⟨handled, left, hsplit, h.pending, h.soon, h.stacked.pairs, h.stacked.byKey⟩

end Run

/-- `nested-trace -e F,F_ret -e G,G_ret`, events 0 to 3. -/
def nestedCalls (implBasedOnCall : Bool) : Config Nat :=
  { twoLists (some id) false with
    tpList := [[⟨0, false, some id, none⟩, ⟨1, false, some id, none⟩],
      [⟨2, false, some id, none⟩, ⟨3, false, some id, none⟩]]
    nested := true
    implBasedOnCall := implBasedOnCall }

/-- F calls itself and then G; another key is busy with G meanwhile. -/
def recursiveCalls : List (Event Nat) :=
  [eventAt 0 10 0 1, eventAt 2 10 0 2, eventAt 0 11 0 1, eventAt 2 12 0 1, eventAt 3 13 0 1,
    eventAt 3 13 0 2, eventAt 1 14 0 1, eventAt 1 15 0 1]

theorem nestedCalls_nested (b : Bool) : (nestedCalls b).Nested := by
  cases b <;> exact ⟨rfl, by decide⟩

theorem nested_call_stack_recursive :
    (pairsOf (Trace.init.run (nestedCalls true) (recursiveCalls.map .sample)).calls).length = 8 ∧
    ∃ handled pending, (nestedCalls true).tracedNodes 0 recursiveCalls = handled ++ pending ∧
      pending = [] ∧
      pairsOf (Trace.init.run (nestedCalls true) (recursiveCalls.map .sample)).calls =
        (CallStack.init.run true handled).pairs := by
  refine ⟨by decide, ?_⟩
  obtain ⟨handled, pending, h1, -, h2, h3, -⟩ :=
    nested_call_stack (nestedCalls_nested true) recursiveCalls
      (by simp [recursiveCalls, TimeOrdered, eventAt])
      ⟨trivial, trivial, show 10 < 11 by decide, show 11 < 12 by decide,
        ⟨rfl, show 12 < 13 by decide⟩, ⟨rfl, show 10 < 13 by decide⟩,
        ⟨rfl, show 11 < 14 by decide⟩, ⟨rfl, show 10 < 15 by decide⟩, trivial⟩
  exact ⟨handled, pending, h1, h2 (Or.inl rfl), h3⟩

/-- F and G entered at the same time: G takes the place of F. -/
def sameTime : List (Event Nat) :=
  [eventAt 0 5 0 1, eventAt 2 5 0 1, eventAt 3 6 0 1, eventAt 1 7 0 1]

/-- A well nested stream on which the return of F finds no entry. -/
theorem nested_call_stack_same_time :
    TimeOrdered 0 (sameTime.map Input.sample) ∧
    WellNested (· ≤ ·) true CallStack.init ((nestedCalls true).tracedNodes 0 sameTime) ∧
    (CallStack.init.run true ((nestedCalls true).tracedNodes 0 sameTime)).pairs.length = 4 ∧
    pairsOf (Trace.init.run (nestedCalls true) (sameTime.map .sample)).calls ≠
      (CallStack.init.run true ((nestedCalls true).tracedNodes 0 sameTime)).pairs ∧
    (pairsOf (Trace.init.run (nestedCalls true) (sameTime.map .sample)).calls).length = 2 := by
  refine ⟨by simp [sameTime, TimeOrdered, eventAt], ?_, by decide, by decide, by decide⟩
  exact ⟨trivial, show 5 ≤ 5 by decide, ⟨rfl, show 5 ≤ 6 by decide⟩, ⟨rfl, show 5 ≤ 7 by decide⟩,
    trivial⟩

end PerfProf.MultiTrace
