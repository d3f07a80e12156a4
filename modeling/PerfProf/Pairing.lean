import Mathlib.Data.List.Nodup
import PerfProf.LostWindow

/-! What multi-trace is for: at most one open event a key, closed by the next event of that
key that may act as event2. Without --detail and without lost records the code is this
machine. -/
namespace PerfProf.MultiTrace
variable {ρ : Type*}

section Objects
variable {c : Config ρ}

def Config.isTraced (c : Config ρ) (t : TpRef) : Bool :=
  match (c.tpList.getD t.list [])[t.idx]? with
  | some tp => !tp.untraced
  | none => false

/-- The objects of `multi_trace_init`: a list pairs with the next one, under --cycle the last
with the first. -/
def Config.consecutive (c : Config ρ) (t1 t2 : TpRef) : Bool :=
  c.isTraced t1 && c.isTraced t2 && (t1.list + 1 < c.nrList || c.cycle) &&
    t2.list == (t1.list + 1) % c.nrList

theorem mem_tracedFrom {k j : Nat} {l : List (Tp ρ)} {t : TpRef} :
    t ∈ tracedFrom k j l ↔
      t.list = k ∧ j ≤ t.idx ∧ ∃ tp, l[t.idx - j]? = some tp ∧ tp.untraced = false := by
  induction l generalizing j with
  | nil => simp [tracedFrom]
  | cons tp l ih =>
    have hrest : t ∈ tracedFrom k (j+1) l ↔ t.list = k ∧ j + 1 ≤ t.idx ∧
        ∃ tp', (tp :: l)[t.idx - j]? = some tp' ∧ tp'.untraced = false := by
      rw [ih]
      refine and_congr_right fun _ => and_congr_right fun hj => ?_
      rw [show t.idx - j = (t.idx - (j+1)) + 1 by omega, List.getElem?_cons_succ]
    unfold tracedFrom
    by_cases hu : tp.untraced = true
    · rw [if_pos hu, hrest]
      refine and_congr_right fun _ => ⟨fun ⟨hj, h⟩ => ⟨by omega, h⟩, ?_⟩
      intro ⟨hj, tp', htp, htu⟩
      refine ⟨?_, tp', htp, htu⟩
      -- the tracepoint at `j` itself is untraced
      by_contra hlt
      rw [show t.idx - j = 0 by omega, List.getElem?_cons_zero] at htp
      cases htp
      rw [hu] at htu
      cases htu
    · rw [if_neg hu, List.mem_cons, hrest]
      constructor
      · rintro (rfl | ⟨h1, h2, h3⟩)
        · exact ⟨rfl, Nat.le_refl _, tp, by simp, Bool.eq_false_iff.mpr hu⟩
        · exact ⟨h1, by omega, h3⟩
      · intro ⟨h1, h2, tp', htp, htu⟩
        by_cases he : t.idx = j
        · left
          cases t
          simp only at h1 he
          rw [h1, he]
        · exact Or.inr ⟨h1, by omega, tp', htp, htu⟩

theorem mem_traced {k : Nat} {t : TpRef} :
    t ∈ c.traced k ↔ t.list = k ∧ c.isTraced t = true := by
  unfold Config.traced Config.isTraced
  rw [mem_tracedFrom]
  refine and_congr_right fun hk => ?_
  subst hk
  simp only [Nat.zero_le, true_and, Nat.sub_zero]
  cases (c.tpList.getD t.list [])[t.idx]? with
  | none => simp
  | some tp => simp

theorem isTraced_lt {t : TpRef} (h : c.isTraced t = true) : t.list < c.nrList := by
  by_contra hge
  unfold Config.isTraced at h
  rw [List.getD_eq_getElem?_getD, List.getElem?_eq_none (Nat.le_of_not_lt hge)] at h
  simp at h

/-- The lists whose events open a pair. -/
theorem lt_opening_iff {k : Nat} (hk : k < c.nrList) :
    k < c.nrList - (if c.cycle = true then 0 else 1) ↔ k + 1 < c.nrList ∨ c.cycle = true := by
  cases c.cycle with
  | true => simpa using hk
  | false =>
    simp only [Bool.false_eq_true, if_false, or_false]
    omega

variable (hn : c.nested = false) (hi : c.implBasedOnCall = false)
include hn hi

theorem objectFind_pair (t1 t2 : TpRef) :
    c.objectFind t1 (some t2) = c.consecutive t1 t2 := by
  rw [Bool.eq_iff_iff]
  simp only [Config.objectFind, hi, Bool.false_eq_true, if_false, List.contains_iff_mem,
    Config.objects, hn, List.mem_flatMap, List.mem_range, List.mem_cons, Prod.mk.injEq,
    reduceCtorEq, and_false, false_or, List.mem_map, Option.some.injEq, mem_traced,
    Config.consecutive, Bool.and_eq_true, Bool.or_eq_true, decide_eq_true_eq, beq_iff_eq]
  constructor
  · rintro ⟨k, hk, t, ⟨htk, ht⟩, t', ⟨htk', ht'⟩, rfl, rfl⟩
    subst htk
    exact ⟨⟨⟨ht, ht'⟩, (lt_opening_iff (isTraced_lt ht)).mp hk⟩, htk'⟩
  · rintro ⟨⟨⟨h1, h2⟩, hlast⟩, hnext⟩
    exact ⟨t1.list, (lt_opening_iff (isTraced_lt h1)).mpr hlast, t1, ⟨rfl, h1⟩, t2, ⟨hnext, h2⟩,
      rfl, rfl⟩

/-- The object for `class->remaining`. -/
theorem objectFind_single (t : TpRef) :
    c.objectFind t none = (c.isTraced t && (decide (t.list + 1 < c.nrList) || c.cycle)) := by
  rw [Bool.eq_iff_iff]
  simp only [Config.objectFind, hi, Bool.false_eq_true, if_false, List.contains_iff_mem,
    Config.objects, hn, List.mem_flatMap, List.mem_range, List.mem_cons, Prod.mk.injEq,
    reduceCtorEq, and_false, and_true, List.mem_map, exists_false, or_false, mem_traced,
    Bool.and_eq_true, Bool.or_eq_true, decide_eq_true_eq]
  constructor
  · rintro ⟨k, hk, t', ⟨htk, ht⟩, rfl⟩
    subst htk
    exact ⟨ht, (lt_opening_iff (isTraced_lt ht)).mp hk⟩
  · rintro ⟨h1, hlast⟩
    exact ⟨t.list, (lt_opening_iff (isTraced_lt h1)).mpr hlast, t, ⟨rfl, h1⟩, rfl⟩

end Objects

section Machine
variable {c : Config ρ}

structure Pairing where
  openEvent : Nat → Option Node
  pairs : List (Node × Node)
  seen : Nat

def Config.closes (c : Config ρ) (ref : TpRef) (tp : Tp ρ) (ev : Event ρ) : Bool :=
  (decide (ref.list ≠ 0) || c.cycle) && asEvent2 (roleOf tp ev)

/-- `need_backup` of an event that is not nested. -/
def Config.opens (c : Config ρ) (ref : TpRef) (tp : Tp ρ) (ev : Event ρ) : Bool :=
  (if ref.list + 1 = c.nrList then c.cycle else ev.isDev || !ev.wakeupUnnecessary) &&
    asEvent1 (roleOf tp ev)

/-- No unnecessary wakeup opens a pair, whatever its list. -/
def Config.opensNecessary (c : Config ρ) (ref : TpRef) (tp : Tp ρ) (ev : Event ρ) : Bool :=
  (decide (ref.list + 1 ≠ c.nrList) || c.cycle) && asEvent1 (roleOf tp ev) &&
    (ev.isDev || !ev.wakeupUnnecessary)

/-- Under --cycle the event is not an unnecessary wakeup of the last list. -/
def Config.Necessary (c : Config ρ) (ev : Event ρ) : Prop :=
  ∀ ref tp tp1, findTp ev.evsel 0 c.tpList = some (ref, tp, tp1) → ref.list + 1 = c.nrList →
    c.cycle = true → ev.isDev = true ∨ ev.wakeupUnnecessary = false

theorem opens_eq_opensNecessary {ref : TpRef} {tp : Tp ρ} {ev : Event ρ}
    (h : ref.list + 1 = c.nrList → c.cycle = true →
      ev.isDev = true ∨ ev.wakeupUnnecessary = false) :
    c.opens ref tp ev = c.opensNecessary ref tp ev := by
  unfold Config.opens Config.opensNecessary
  by_cases hlast : ref.list + 1 = c.nrList
  · cases hc : c.cycle with
    | false => simp [hlast]
    | true => rcases h hlast hc with hdev | hneed <;> simp [*]
  · simp [hlast, Bool.and_comm]

def Config.closeOpen (c : Config ρ) (p : Pairing) (cur : Node) : Pairing :=
  match p.openEvent cur.key with
  | none => p
  | some prev =>
    { p with openEvent := Function.update p.openEvent cur.key none
             pairs := if c.consecutive prev.tp cur.tp && decide (prev.time < cur.time) then
               p.pairs ++ [(prev, cur)] else p.pairs }

def Config.pairStep (c : Config ρ) (opens : TpRef → Tp ρ → Event ρ → Bool) (p : Pairing)
    (ev : Event ρ) : Pairing :=
  match findTp ev.evsel 0 c.tpList with
  | none => p
  | some (ref, tp, tp1) =>
    let cur := mkNode c ref tp tp1 ev p.seen
    let p := { p with seen := p.seen + 1 }
    if tp.untraced then p
    else
      let p := if c.closes ref tp ev then c.closeOpen p cur else p
      if opens ref tp ev then
        { p with openEvent := Function.update p.openEvent cur.key (some cur) }
      else p

theorem pairStep_opensNecessary (p : Pairing) {ev : Event ρ} (h : c.Necessary ev) :
    c.pairStep c.opens p ev = c.pairStep c.opensNecessary p ev := by
  unfold Config.pairStep
  cases hfind : findTp ev.evsel 0 c.tpList with
  | none => rfl
  | some found =>
    obtain ⟨ref, tp, tp1⟩ := found
    have hopens : c.opens ref tp ev = c.opensNecessary ref tp ev :=
      opens_eq_opensNecessary (h ref tp tp1 hfind)
    simp only [hopens]

def Config.pairRun (c : Config ρ) (opens : TpRef → Tp ρ → Event ρ → Bool)
    (evs : List (Event ρ)) : Pairing :=
  evs.foldl (c.pairStep opens) ⟨fun _ => none, [], 0⟩

theorem pairRun_opensNecessary {evs : List (Event ρ)} (h : ∀ ev ∈ evs, c.Necessary ev) :
    c.pairRun c.opens evs = c.pairRun c.opensNecessary evs :=
  List.foldl_ext _ _ _ fun p ev hev => pairStep_opensNecessary p (h ev hev)

/-- The call of `class->two` for a pair; in time order `recent_time` is the time of event2. -/
def twoCall (ab : Node × Node) : ClassCall := .two ab.1 (some ab.2) ab.2.key ab.2.time

theorem closeOpen_seen (c : Config ρ) (p : Pairing) (cur : Node) :
    (c.closeOpen p cur).seen = p.seen := by
  unfold Config.closeOpen
  split <;> rfl

theorem findTp_isTraced {evsel : Nat} {ref : TpRef} {tp : Tp ρ} {tp1 : Option TpRef}
    (h : findTp evsel 0 c.tpList = some (ref, tp, tp1)) : c.isTraced ref = !tp.untraced := by
  have := (findTp_spec h).2
  rw [Nat.sub_zero] at this
  simp only [Config.isTraced, this]

end Machine

section Tree
variable {c : Config ρ} {backup : List Node} {o : Nat → Option Node} {b e n : Node}

/-- `backup` as a finite map from keys. -/
structure Opens (backup : List Node) (o : Nat → Option Node) : Prop where
  sorted : backup.Pairwise fun a b => a.key < b.key
  mem : ∀ n, n ∈ backup ↔ o n.key = some n
  keyed : ∀ k n, o k = some n → n.key = k
  seqs : (backup.map Node.seq).Nodup

theorem Opens.find (h : Opens backup o) (k : Nat) : (backup.find? fun n => n.key = k) = o k := by
  cases hf : backup.find? fun n => n.key = k with
  | none =>
    cases ho : o k with
    | none => rfl
    | some n =>
      have hk := h.keyed k n ho
      have hn : n ∈ backup := (h.mem n).mpr (by rw [hk]; exact ho)
      exact absurd (List.find?_eq_none.mp hf n hn) (by simpa using hk)
  | some n =>
    have hk : n.key = k := by simpa using List.find?_some hf
    rw [← hk, ← (h.mem n).mp (List.mem_of_find?_eq_some hf)]

theorem Opens.remove (h : Opens backup o) (hb : b ∈ backup) :
    Opens (backup.filter fun n => n.seq ≠ b.seq) (Function.update o b.key none) := by
  refine ⟨h.sorted.sublist List.filter_sublist, ?_, ?_,
    h.seqs.sublist (List.filter_sublist.map _)⟩
  · intro n
    rw [List.mem_filter, decide_eq_true_eq]
    by_cases hk : n.key = b.key
    · rw [hk, Function.update_self]
      constructor
      · intro ⟨hn, hs⟩
        have := (h.mem n).mp hn
        rw [hk, (h.mem b).mp hb] at this
        exact absurd (congrArg Node.seq (Option.some.inj this)).symm hs
      · intro hno
        cases hno
    · rw [Function.update_of_ne hk, ← h.mem n]
      refine ⟨fun hn => hn.1, fun hn => ⟨hn, fun hs => hk ?_⟩⟩
      rw [List.inj_on_of_nodup_map h.seqs hn hb hs]
  · intro k n hk
    by_cases he : k = b.key
    · rw [he, Function.update_self] at hk
      cases hk
    · rw [Function.update_of_ne he] at hk
      exact h.keyed k n hk

theorem insertBy_sorted_key (hn : c.nested = false) (hs : backup.Pairwise fun a b => a.key < b.key)
    (he : ∀ n ∈ backup, n.key ≠ e.key) :
    (insertBy c.backupBefore e backup).Pairwise fun a b => a.key < b.key := by
  induction backup with
  | nil => exact List.pairwise_singleton _ _
  | cons b backup ih =>
    rw [List.pairwise_cons] at hs
    have hbefore : c.backupBefore b e = decide (b.key < e.key) := by simp [Config.backupBefore, hn]
    unfold insertBy
    split
    · rename_i hlt
      rw [hbefore, decide_eq_true_eq] at hlt
      rw [List.pairwise_cons]
      refine ⟨?_, ih hs.2 (fun n hn => he n (List.mem_cons_of_mem _ hn))⟩
      intro n hn
      cases mem_insertBy.mp hn with
      | inl h => rw [h]; exact hlt
      | inr h => exact hs.1 n h
    · rename_i hge
      rw [hbefore, decide_eq_true_eq] at hge
      have hlt : e.key < b.key := by
        have := he b (List.mem_cons_self ..)
        omega
      rw [List.pairwise_cons]
      refine ⟨?_, List.pairwise_cons.mpr hs⟩
      intro n hn
      cases List.mem_cons.mp hn with
      | inl h => rw [h]; exact hlt
      | inr h => exact Nat.lt_trans hlt (hs.1 n h)

theorem insertBy_nodup (before : Node → Node → Bool) (hs : (backup.map Node.seq).Nodup)
    (he : ∀ n ∈ backup, n.seq ≠ e.seq) : ((insertBy before e backup).map Node.seq).Nodup := by
  induction backup with
  | nil => simp [insertBy]
  | cons b backup ih =>
    rw [List.map_cons, List.nodup_cons] at hs
    unfold insertBy
    split
    · rw [List.map_cons, List.nodup_cons]
      refine ⟨?_, ih hs.2 (fun n hn => he n (List.mem_cons_of_mem _ hn))⟩
      intro hin
      obtain ⟨n, hn, hns⟩ := List.mem_map.mp hin
      cases mem_insertBy.mp hn with
      | inl h => exact he b (List.mem_cons_self ..) (by rw [← hns, h])
      | inr h => exact hs.1 (hns ▸ List.mem_map_of_mem h)
    · rw [List.map_cons, List.nodup_cons, List.map_cons, List.nodup_cons]
      refine ⟨?_, hs⟩
      intro hin
      obtain ⟨n, hn, hns⟩ := List.mem_map.mp (List.map_cons ▸ hin)
      exact he n hn hns

theorem Opens.insert (h : Opens backup o) (hn : c.nested = false) (ho : o e.key = none)
    (hseq : ∀ n ∈ backup, n.seq ≠ e.seq) :
    Opens (insertBy c.backupBefore e backup) (Function.update o e.key (some e)) := by
  have hkey : ∀ n ∈ backup, n.key ≠ e.key := by
    intro n hn hk
    have := (h.mem n).mp hn
    rw [hk, ho] at this
    cases this
  refine ⟨insertBy_sorted_key hn h.sorted hkey, ?_, ?_, insertBy_nodup _ h.seqs hseq⟩
  · intro n
    rw [mem_insertBy]
    by_cases hk : n.key = e.key
    · rw [hk, Function.update_self]
      constructor
      · rintro (rfl | hn)
        · rfl
        · exact absurd hk (hkey n hn)
      · intro he
        exact Or.inl (Option.some.inj he).symm
    · rw [Function.update_of_ne hk, ← h.mem n]
      refine or_iff_right ?_
      rintro rfl
      exact hk rfl
  · intro k n hk
    by_cases he : k = e.key
    · rw [he, Function.update_self] at hk
      rw [he, Option.some.inj hk]
    · rw [Function.update_of_ne he] at hk
      exact h.keyed k n hk

end Tree

section Plain
variable {c : Config ρ} {s : Trace} {p : Pairing} {now fresh : Nat} {tl : Node}

/-- The code and the machine agree; times go up to `now` and nodes are older than `fresh`. -/
structure Tracks (c : Config ρ) (s : Trace) (p : Pairing) (now fresh : Nat) : Prop where
  opens : Opens s.backup p.openEvent
  calls : s.calls = p.pairs.map twoCall
  seen : s.eventHandled = p.seen
  past : ∀ n ∈ s.backup, n.time ≤ now
  old : ∀ n ∈ s.backup, n.seq < fresh
  objects : ∀ n ∈ s.backup, c.objectFind n.tp none = true
  recent : s.recentTime = now
  allLost : s.timelineLost = []
  insLost : ∀ i, s.perinsLost i = []

theorem Tracks.windowsOf (h : Tracks c s p now fresh) (i : Nat) : s.windowsOf c i = [] := by
  unfold Trace.windowsOf
  cases c.lostAffect with
  | insEvent => exact h.insLost i
  | allEvent => exact h.allLost

theorem Tracks.remove (h : Tracks c s p now fresh) (ht : c.needTimeline = false) {b : Node}
    (hb : b ∈ s.backup) :
    Tracks c (s.backupRemove c b) { p with openEvent := Function.update p.openEvent b.key none }
      now fresh := by
  have hsub : ∀ x ∈ s.backup.filter (fun n => n.seq ≠ b.seq), x ∈ s.backup :=
    fun x hx => (List.mem_filter.mp hx).1
  simp only [Trace.backupRemove, Trace.backupNodeDelete, ht, Bool.false_eq_true, if_false]
  exact ⟨h.opens.remove hb, h.calls, h.seen, fun x hx => h.past x (hsub x hx),
    fun x hx => h.old x (hsub x hx), fun x hx => h.objects x (hsub x hx), h.recent, h.allLost,
    h.insLost⟩

theorem Tracks.insert (h : Tracks c s p tl.time tl.seq) (hn : c.nested = false)
    (ht : c.needTimeline = false) (hobj : c.objectFind tl.tp none = true)
    (ho : p.openEvent tl.key = none) :
    Tracks c (s.backupInsert c tl)
      { p with openEvent := Function.update p.openEvent tl.key (some tl) }
      tl.time (tl.seq + 1) := by
  simp only [Trace.backupInsert, ht, Bool.false_eq_true, if_false]
  refine ⟨h.opens.insert hn ho (fun n hn => Nat.ne_of_lt (h.old n hn)), h.calls, h.seen, ?_, ?_, ?_,
    h.recent, h.allLost, h.insLost⟩
  · intro n hmem
    rcases mem_insertBy.mp hmem with rfl | hmem
    · exact Nat.le_refl _
    · exact h.past n hmem
  · intro n hmem
    rcases mem_insertBy.mp hmem with rfl | hmem
    · exact Nat.lt_succ_self _
    · exact Nat.lt_succ_of_lt (h.old n hmem)
  · intro n hmem
    rcases mem_insertBy.mp hmem with rfl | hmem
    · exact hobj
    · exact h.objects n hmem

theorem Tracks.of_open (h : Tracks c s p now fresh) {k : Nat} {b : Node}
    (ho : p.openEvent k = some b) : b ∈ s.backup ∧ b.key = k := by
  have hk := h.opens.keyed _ _ ho
  exact ⟨(h.opens.mem b).mpr (by rw [hk]; exact ho), hk⟩

theorem backupSame_key (hn : c.nested = false) (b e : Node) :
    c.backupSame b e = decide (b.key = e.key) := by
  rw [Bool.eq_iff_iff]
  simp only [Config.backupSame, Config.backupBefore, hn, Bool.false_and, Bool.or_false,
    Bool.and_eq_true, Bool.not_eq_true', decide_eq_false_iff_not, decide_eq_true_eq]
  omega

section Config
variable (hn : c.nested = false) (hi : c.implBasedOnCall = false) (ht : c.needTimeline = false)
include hn ht

theorem Tracks.tryCallTwo (h : Tracks c s p tl.time fresh) (hi : c.implBasedOnCall = false)
    (hr : tl.needRemoveFromBackup = true) (h1 : tl.tp1 = none) (needFree : Bool) :
    Tracks c (s.tryCallTwo c tl needFree).1 (if tl.needFindPrev then c.closeOpen p tl else p)
      tl.time fresh := by
  unfold Trace.tryCallTwo
  by_cases hf : tl.needFindPrev = true
  · rw [if_pos hf, if_pos hf]
    have hfind : s.findPrev tl.key tl.tp1 = p.openEvent tl.key := by
      rw [← h.opens.find]
      simp [Trace.findPrev, h1]
    rw [hfind]
    unfold Config.closeOpen
    cases ho : p.openEvent tl.key with
    | none =>
      simp only [hi, Bool.false_and, Bool.false_eq_true, if_false]
      exact h
    | some prev =>
      obtain ⟨hmem, hk⟩ := h.of_open ho
      simp only [hr, if_true, objectFind_pair hn hi]
      rw [← hk]
      split
      · have h₁ : Tracks c
            { s with calls := s.calls ++ [.two prev (some tl) prev.key s.recentTime] }
            { p with pairs := p.pairs ++ [(prev, tl)] } tl.time fresh := by
          refine ⟨h.opens, ?_, h.seen, h.past, h.old, h.objects, h.recent, h.allLost, h.insLost⟩
          simp only [List.map_append, List.map_cons, List.map_nil, twoCall, h.calls, h.recent, hk]
        exact h₁.remove ht hmem
      · exact h.remove ht hmem
  · rw [if_neg hf, if_neg hf]
    exact h

/-- The replaced event goes in the first turn of the retry loop, the new one comes in the next. -/
theorem Tracks.tryBackup (h : Tracks c s p tl.time tl.seq)
    (hobj : tl.needBackup = true → c.objectFind tl.tp none = true) (needFree : Bool) :
    Tracks c (s.tryBackup c tl needFree).1
      (if tl.needBackup then
        { p with openEvent := Function.update p.openEvent tl.key (some tl) } else p)
      tl.time (tl.seq + 1) := by
  unfold Trace.tryBackup
  by_cases hb : tl.needBackup = true
  · rw [if_pos hb, if_pos hb]
    cases ho : p.openEvent tl.key with
    | none =>
      simp only [Trace.backupRetry, backupSame_key hn, h.opens.find, ho]
      exact h.insert hn ht (hobj hb) ho
    | some exist =>
      obtain ⟨hmem, hk⟩ := h.of_open ho
      have h₁ := h.remove ht hmem
      rw [hk] at h₁
      have hnone : Function.update p.openEvent tl.key none tl.key = none := Function.update_self ..
      have hfuel : s.backup.length = (s.backup.length - 1) + 1 := by
        have := List.length_pos_of_mem hmem
        omega
      rw [hfuel]
      simp only [Trace.backupRetry, backupSame_key hn, h.opens.find, ho,
        if_neg (Nat.not_lt.mpr (h.past exist hmem)), h₁.opens.find, hnone]
      have h₂ := h₁.insert hn ht (hobj hb) hnone
      simp only [Function.update_idem] at h₂
      exact h₂
  · rw [if_neg hb, if_neg hb]
    exact ⟨h.opens, h.calls, h.seen, h.past, fun n hn => Nat.lt_succ_of_lt (h.old n hn), h.objects,
      h.recent, h.allLost, h.insLost⟩

omit ht in
theorem mkNode_flags {ref : TpRef} {tp : Tp ρ} {tp1 : Option TpRef} {ev : Event ρ} {seq : Nat}
    (hlt : ref.list < c.nrList) :
    (mkNode c ref tp tp1 ev seq).needFindPrev = c.closes ref tp ev ∧
    (mkNode c ref tp tp1 ev seq).needBackup = c.opens ref tp ev ∧
    (mkNode c ref tp tp1 ev seq).needRemoveFromBackup = true ∧
    (mkNode c ref tp tp1 ev seq).tp1 = none := by
  simp only [mkNode, hn, Bool.false_eq_true, if_false, Config.closes, Config.opens]
  refine ⟨trivial, ?_, trivial, trivial⟩
  have hlast : ref.list ≠ c.nrList - 1 ↔ ¬ ref.list + 1 = c.nrList := by omega
  by_cases h : ref.list + 1 = c.nrList
  · rw [if_neg (by rw [hlast]; simpa using h), if_pos h]
  · rw [if_pos (hlast.mpr h), if_neg h]
    cases ev.isDev <;> simp

include hi

theorem Tracks.handle (h : Tracks c s p tl.time tl.seq) (hr : tl.needRemoveFromBackup = true)
    (h1 : tl.tp1 = none) (hobj : tl.needBackup = true → c.objectFind tl.tp none = true)
    (needFree : Bool) :
    Tracks c (s.handle c tl needFree).1
      (let p' := if tl.needFindPrev then c.closeOpen p tl else p
        if tl.needBackup then
          { p' with openEvent := Function.update p'.openEvent tl.key (some tl) } else p')
      tl.time (tl.seq + 1) := by
  have h₁ : Tracks c { s with handledTime := tl.time } p tl.time tl.seq :=
    ⟨h.opens, h.calls, h.seen, h.past, h.old, h.objects, h.recent, h.allLost, h.insLost⟩
  unfold Trace.handle
  rw [eventLost_none (h.windowsOf tl.ins)]
  exact (h₁.tryCallTwo hn ht hi hr h1 needFree).tryBackup hn ht hobj _

theorem Tracks.sample (h : Tracks c s p now p.seen) (ev : Event ρ) (hnow : now ≤ ev.time) :
    Tracks c (s.sample c ev) (c.pairStep c.opens p ev) ev.time (c.pairStep c.opens p ev).seen := by
  have hmax : max s.recentTime ev.time = ev.time := by
    rw [h.recent]
    exact Nat.max_eq_right hnow
  have hpast : ∀ n ∈ s.backup, n.time ≤ ev.time := fun n hn => Nat.le_trans (h.past n hn) hnow
  unfold Trace.sample Config.pairStep
  cases hfind : findTp ev.evsel 0 c.tpList with
  | none =>
    exact ⟨h.opens, h.calls, h.seen, hpast, h.old, h.objects, hmax, h.allLost, h.insLost⟩
  | some found =>
    obtain ⟨ref, tp, tp1⟩ := found
    have h₁ : Tracks c { { s with recentTime := max s.recentTime ev.time } with
        eventHandled := s.eventHandled + 1 } { p with seen := p.seen + 1 } ev.time p.seen :=
      ⟨h.opens, h.calls, congrArg (· + 1) h.seen, hpast, h.old, h.objects, hmax, h.allLost,
        h.insLost⟩
    simp only [ht, Bool.false_eq_true, if_false, h.seen] at h₁ ⊢
    unfold Trace.samplePlain
    by_cases hu : tp.untraced = true
    · rw [if_pos hu, if_pos hu]
      exact ⟨h₁.opens, h₁.calls, h₁.seen, h₁.past, fun n hn => Nat.lt_succ_of_lt (h₁.old n hn),
        h₁.objects, h₁.recent, h₁.allLost, h₁.insLost⟩
    · rw [if_neg hu, if_neg hu]
      have hlt := findTp_lt hfind
      obtain ⟨hfl, hbl, hrl, h1l⟩ := mkNode_flags
        hn hlt
      have hobj : c.opens ref tp ev = true → c.objectFind ref none = true := by
        intro hb
        rw [objectFind_single hn hi, findTp_isTraced hfind, Bool.eq_false_iff.mpr hu]
        simp only [Config.opens, Bool.and_eq_true] at hb
        simp only [Bool.not_false, Bool.true_and, Bool.or_eq_true, decide_eq_true_eq]
        by_cases hlast : ref.list + 1 = c.nrList
        · rw [if_pos hlast] at hb
          exact Or.inr hb.1
        · exact Or.inl (by omega)
      have h₂ := Tracks.handle hn hi ht h₁ hrl h1l
        (fun hb => hobj (hbl ▸ hb)) false
      simp only [hfl, hbl] at h₂
      refine ⟨h₂.opens, h₂.calls, h₂.seen, h₂.past, ?_, h₂.objects, h₂.recent, h₂.allLost, h₂.insLost⟩
      intro n hmem
      have hold : n.seq < p.seen + 1 := h₂.old n hmem
      split <;> split <;> simpa only [closeOpen_seen] using hold

theorem Tracks.run (h : Tracks c s p now p.seen) (evs : List (Event ρ))
    (ho : evs.Pairwise fun a b => a.time ≤ b.time) (hnow : ∀ ev ∈ evs, now ≤ ev.time) :
    ∃ now', Tracks c (s.run c (evs.map .sample)) (evs.foldl (c.pairStep c.opens) p) now'
      (evs.foldl (c.pairStep c.opens) p).seen := by
  induction evs generalizing s p now with
  | nil => exact ⟨now, h⟩
  | cons ev evs ih =>
    rw [List.pairwise_cons] at ho
    exact ih (h.sample hn hi ht ev (hnow ev (List.mem_cons_self ..))) ho.2 ho.1

end Config

/-- The calls of `class->remaining` for some of the events that are left. -/
def leftCalls (recentTime : Nat) (rr : Reason) (left : List Node) : List ClassCall :=
  left.map fun n => .remaining n n.key recentTime rr

/-- The events are given to `class->remaining` one by one until it returns `REMAINING_BREAK`. -/
theorem handleRemaining_calls (s : Trace) (rr : Reason) (left : List Node)
    (hobj : ∀ n ∈ left, c.objectFind n.tp none = true) :
    ∃ given rest, left = given ++ rest ∧
      s.handleRemaining c rr left = { s with calls := s.calls ++ leftCalls s.recentTime rr given } ∧
      (rest ≠ [] → ∃ before last, given = before ++ [last] ∧
        c.remaining (s.calls ++ leftCalls s.recentTime rr before) s.recentTime last rr
          c.needTimeline = true) := by
  induction left generalizing s with
  | nil => exact ⟨[], [], rfl, by simp [Trace.handleRemaining, leftCalls], fun h => absurd rfl h⟩
  | cons n left ih =>
    unfold Trace.handleRemaining Trace.callRemaining
    rw [if_pos (hobj n (List.mem_cons_self ..))]
    cases hstop : c.remaining s.calls s.recentTime n rr c.needTimeline with
    | true =>
      refine ⟨[n], left, rfl, rfl, fun _ => ⟨[], n, rfl, ?_⟩⟩
      simpa [leftCalls] using hstop
    | false =>
      obtain ⟨given, rest, rfl, hcalls, hlast⟩ :=
        ih { s with calls := s.calls ++ [.remaining n n.key s.recentTime rr] }
          (fun x hx => hobj x (List.mem_cons_of_mem _ hx))
      refine ⟨n :: given, rest, rfl, ?_, ?_⟩
      · simp only [hcalls, leftCalls, List.map_cons, List.append_assoc, List.singleton_append]
      · intro hne
        obtain ⟨before, last, rfl, hrem⟩ := hlast hne
        refine ⟨n :: before, last, rfl, ?_⟩
        simpa only [leftCalls, List.map_cons, List.append_assoc, List.singleton_append] using hrem

theorem Tracks.flush (h : Tracks c s p now fresh) (ht : c.needTimeline = false) :
    ∃ given rest, s.backup = given ++ rest ∧
      (s.flush c).calls = s.calls ++ leftCalls s.recentTime .exit given ∧
      (rest ≠ [] → ∃ before last, given = before ++ [last] ∧
        c.remaining (s.calls ++ leftCalls s.recentTime .exit before) s.recentTime last .exit
          false = true) := by
  obtain ⟨given, rest, hleft, hcalls, hlast⟩ := handleRemaining_calls s .exit s.backup h.objects
  rw [ht] at hlast
  refine ⟨given, rest, hleft, ?_, hlast⟩
  rw [(keeps_flush c s).calls, hcalls]

theorem Tracks.init (c : Config ρ) : Tracks c Trace.init ⟨fun _ => none, [], 0⟩ 0 0 := by
  refine ⟨⟨List.Pairwise.nil, ?_, ?_, List.nodup_nil⟩, rfl, rfl, ?_, ?_, ?_, rfl, rfl, fun _ => rfl⟩
  · intro n
    constructor <;> intro h <;> cases h
  · intro k n h
    cases h
  all_goals
    intro n hn
    cases hn

/-- multi-trace without --detail on a lossless stream, with the wakeups that open a pair under
--cycle as the code has them. -/
theorem pairing_of_opens (c : Config ρ) (hn : c.nested = false) (hi : c.implBasedOnCall = false)
    (ht : c.needTimeline = false) (evs : List (Event ρ))
    (ho : evs.Pairwise fun a b => a.time ≤ b.time) :
    let s := Trace.init.run c (evs.map .sample)
    let p := c.pairRun c.opens evs
    s.calls = p.pairs.map twoCall ∧
    ∃ left given rest, left.Pairwise (fun a b => a.key < b.key) ∧
      (∀ n, n ∈ left ↔ ∃ k, p.openEvent k = some n) ∧ left = given ++ rest ∧
      (s.flush c).calls = s.calls ++ leftCalls s.recentTime .exit given ∧
      (rest ≠ [] → ∃ before last, given = before ++ [last] ∧
        c.remaining (s.calls ++ leftCalls s.recentTime .exit before) s.recentTime last .exit
          false = true) := by
  intro s p
  obtain ⟨now, h⟩ := (Tracks.init c).run hn hi ht evs ho (fun _ _ => Nat.zero_le _)
  obtain ⟨given, rest, hleft, hcalls, hlast⟩ := h.flush ht
  refine ⟨h.calls, s.backup, given, rest, h.opens.sorted, ?_, hleft, hcalls, hlast⟩
  intro n
  rw [h.opens.mem n]
  constructor
  · intro hk
    exact ⟨n.key, hk⟩
  · intro ⟨k, hk⟩
    rw [h.opens.keyed k n hk]
    exact hk

/-- multi-trace without --detail on a lossless stream. The events left open go to
`class->remaining` in the order of their keys, until it returns `REMAINING_BREAK`. -/
theorem plain_pairing (c : Config ρ) (hn : c.nested = false) (hi : c.implBasedOnCall = false)
    (ht : c.needTimeline = false) (evs : List (Event ρ))
    (ho : evs.Pairwise fun a b => a.time ≤ b.time) (hneed : ∀ ev ∈ evs, c.Necessary ev) :
    let s := Trace.init.run c (evs.map .sample)
    let p := c.pairRun c.opensNecessary evs
    s.calls = p.pairs.map twoCall ∧
    ∃ left given rest, left.Pairwise (fun a b => a.key < b.key) ∧
      (∀ n, n ∈ left ↔ ∃ k, p.openEvent k = some n) ∧ left = given ++ rest ∧
      (s.flush c).calls = s.calls ++ leftCalls s.recentTime .exit given ∧
      (rest ≠ [] → ∃ before last, given = before ++ [last] ∧
        c.remaining (s.calls ++ leftCalls s.recentTime .exit before) s.recentTime last .exit
          false = true) := by
  intro s p
  have h := pairing_of_opens c hn hi ht evs ho
  rw [pairRun_opensNecessary hneed] at h
  exact h

/-- Two keys, the first one closed and opened again. -/
def twoKeys : List (Event Nat) :=
  [eventAt 0 10 0 1, eventAt 0 15 0 2, eventAt 1 20 0 1, eventAt 0 25 0 1]

theorem plain_pairing_two_keys :
    ((twoLists (some id) false).pairRun (twoLists (some id) false).opensNecessary
      twoKeys).pairs.length = 1 ∧
    (Trace.init.run (twoLists (some id) false) (twoKeys.map .sample)).calls =
      ((twoLists (some id) false).pairRun (twoLists (some id) false).opensNecessary
        twoKeys).pairs.map twoCall :=
  ⟨by decide, (plain_pairing (twoLists (some id) false) rfl rfl rfl twoKeys (by decide)
    fun _ _ _ _ _ _ _ hc => by cases hc).1⟩

/-- At exit the delay class is given one of two open events. -/
theorem plain_pairing_not_as_stated :
    let c := twoLists (some id) false
    let p := c.pairRun c.opensNecessary twoKeys
    let s := Trace.init.run c (twoKeys.map .sample)
    (p.openEvent 1).isSome ∧ (p.openEvent 2).isSome ∧
      (s.flush c).calls.length = s.calls.length + 1 := by
  decide

end Plain

end PerfProf.MultiTrace
