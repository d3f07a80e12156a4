import PerfProf.Kvmmmu
import Mathlib.Data.List.TakeWhile
import Mathlib.Data.Nat.ModEq

/-! What the dump prints of the entries of a page: their runs, unless two runs touch. -/
namespace PerfProf.Kvmmmu

section Spec

/-- Entries with equal flags, from one that is set on, and none of these flags on either side. -/
structure MaximalRun (set : List UInt8) (run : Run) : Prop where
  lt : run.first < run.stop
  inside : run.stop ≤ set.length
  isSet : run.flags ≠ 0
  same : ∀ j, run.first ≤ j → j < run.stop → set[j]? = some run.flags
  left : run.first = 0 ∨ set[run.first - 1]? ≠ some run.flags
  right : set[run.stop]? ≠ some run.flags

/-- Of two entries next to each other one is not set, or both have the same flags. -/
def Apart (set : List UInt8) : Prop := set.IsChain fun a b => a = 0 ∨ b = 0 ∨ a = b

def Page.flags (b : Page) : List UInt8 := (b.spteSet.map Vector.toList).getD []

/-- The first gfn of the first entry of a run and the last gfn of its last entry. -/
def Page.runLine (b : Page) (run : Run) : SpteLine where
  start := (b.gfn + run.first * b.role.entryGfn) % 2 ^ 64
  stop := (b.gfn + (run.stop - 1) * b.role.entryGfn + (b.role.entryGfn - 1)) % 2 ^ 64
  mmio := run.flags &&& SPTE_MMIO != 0

/-- The lines are those of the maximal runs, in ascending order. -/
def Page.DumpsRuns (b : Page) : Prop :=
  ∃ runs : List Run, b.dumpSpte = runs.map b.runLine ∧
    (runs.Pairwise fun run run' => run.stop ≤ run'.first) ∧ ∀ run, run ∈ runs ↔ MaximalRun b.flags run

end Spec

section Runs
variable {set l : List UInt8} {i j e fuel : Nat} {x : UInt8} {run : Run}

theorem takeWhile_same (l : List UInt8) (x : UInt8) :
    (∀ j < (l.takeWhile (· == x)).length, l[j]? = some x) ∧
      l[(l.takeWhile (· == x)).length]? ≠ some x ∧
      l.drop (l.takeWhile (· == x)).length = l.dropWhile (· == x) := by
  induction l with
  | nil => exact ⟨nofun, nofun, rfl⟩
  | cons y l ih =>
    obtain ⟨hsame, hends, hdrop⟩ := ih
    by_cases hy : y = x
    · have hyx : (y == x) = true := beq_iff_eq.mpr hy
      have htake : (y :: l).takeWhile (· == x) = y :: l.takeWhile (· == x) :=
        List.takeWhile_cons_of_pos hyx
      have hskip : (y :: l).dropWhile (· == x) = l.dropWhile (· == x) := List.dropWhile_cons_of_pos hyx
      rw [htake, hskip, List.length_cons]
      refine ⟨fun j hj => ?_, ?_, ?_⟩
      · cases j with
        | zero => rw [List.getElem?_cons_zero, hy]
        | succ j =>
          rw [List.getElem?_cons_succ]
          exact hsame j (Nat.lt_of_succ_lt_succ hj)
      · rw [List.getElem?_cons_succ]
        exact hends
      · rw [List.drop_succ_cons, hdrop]
    · have hyx : ¬ (y == x) = true := by simpa using hy
      have htake : (y :: l).takeWhile (· == x) = [] := List.takeWhile_cons_of_neg hyx
      have hskip : (y :: l).dropWhile (· == x) = y :: l := List.dropWhile_cons_of_neg hyx
      rw [htake, hskip]
      refine ⟨nofun, ?_, rfl⟩
      simpa using hy

/-- The entries from `i` on have the flags `x` up to `e`. -/
structure RunTo (set : List UInt8) (i : Nat) (x : UInt8) (e : Nat) : Prop where
  lt : i < e
  inside : e ≤ set.length
  same : ∀ j, i ≤ j → j < e → set[j]? = some x
  ends : set[e]? ≠ some x

theorem getElem?_of_drop (h : set.drop i = l) (j : Nat) : set[i + j]? = l[j]? := by
  rw [← h, List.getElem?_drop]

theorem runTo (h : set.drop i = x :: l) :
    RunTo set i x (i + 1 + (l.takeWhile (· == x)).length) ∧
      set.drop (i + 1 + (l.takeWhile (· == x)).length) = l.dropWhile (· == x) := by
  obtain ⟨hsame, hends, hdrop⟩ := takeWhile_same l x
  have hrest : set.drop (i + 1) = l := by
    rw [← List.drop_drop, h, List.drop_succ_cons, List.drop_zero]
  have hx : set[i]? = some x := getElem?_of_drop h 0
  refine ⟨⟨by omega, ?_, fun j hij hje => ?_, ?_⟩, ?_⟩
  · have hlen := congrArg List.length h
    have hle : (l.takeWhile (· == x)).length ≤ l.length := (List.takeWhile_prefix _).length_le
    rw [List.length_drop, List.length_cons] at hlen
    omega
  · rcases Nat.eq_or_lt_of_le hij with rfl | hlt
    · exact hx
    · obtain ⟨k, rfl⟩ : ∃ k, j = i + 1 + k := ⟨j - (i + 1), by omega⟩
      rw [getElem?_of_drop hrest]
      exact hsame k (by omega)
  · rw [getElem?_of_drop hrest]
    exact hends
  · rw [← List.drop_drop, hrest, hdrop]

/-- The run from an entry whose predecessor has other flags. -/
theorem RunTo.maximal (h : RunTo set i x e) (hx : x ≠ 0) (hleft : i = 0 ∨ set[i - 1]? ≠ some x) :
    MaximalRun set ⟨i, e, x⟩ := ⟨h.lt, h.inside, hx, h.same, hleft, h.ends⟩

theorem RunTo.unique (h : RunTo set i x e) (hrun : MaximalRun set run) (hfirst : run.first = i) :
    run = ⟨i, e, x⟩ := by
  obtain ⟨first, stop, flags⟩ := run
  dsimp only at hfirst
  subst hfirst
  have hflags : some x = some flags :=
    (h.same first (Nat.le_refl _) h.lt).symm.trans (hrun.same first (Nat.le_refl _) hrun.lt)
  cases hflags
  have hstop : stop = e := by
    rcases Nat.lt_trichotomy stop e with hlt | heq | hgt
    · exact absurd (h.same stop (Nat.le_of_lt hrun.lt) hlt) hrun.right
    · exact heq
    · exact absurd (hrun.same e (Nat.le_of_lt h.lt) hgt) h.ends
  rw [hstop]

/-- No other run starts within a run. -/
theorem RunTo.behind (h : RunTo set i x e) (hrun : MaximalRun set run) (hfirst : i < run.first) :
    e ≤ run.first := by
  by_contra hlt
  have hflags : some x = some run.flags :=
    (h.same run.first (Nat.le_of_lt hfirst) (by omega)).symm.trans
      (hrun.same run.first (Nat.le_refl _) hrun.lt)
  rcases hrun.left with hzero | hleft
  · omega
  · exact hleft ((h.same (run.first - 1) (by omega) (by omega)).trans hflags)

theorem Apart.next (h : Apart set) {a b : UInt8} (ha : set[j]? = some a) (hb : set[j + 1]? = some b) :
    a = 0 ∨ b = 0 ∨ a = b := by
  obtain ⟨hj, rfl⟩ := List.getElem?_eq_some_iff.mp ha
  obtain ⟨hj', rfl⟩ := List.getElem?_eq_some_iff.mp hb
  exact List.isChain_iff_getElem.mp h j hj'

/-- The loop starts behind an entry that is not set. -/
def Fresh (set : List UInt8) (i : Nat) : Prop := i = 0 ∨ ∀ x, set[i - 1]? = some x → x = 0

theorem spteLoop_first (fuel i : Nat) (l : List UInt8) : ∀ run ∈ spteLoop fuel i l, i ≤ run.first := by
  induction fuel generalizing i l with
  | zero => nofun
  | succ fuel ih =>
    cases l with
    | nil => nofun
    | cons x l =>
      intro run hrun
      rw [spteLoop] at hrun
      split at hrun
      · rcases List.mem_cons.mp hrun with rfl | hrun
        · exact Nat.le_refl _
        · exact Nat.le_trans (by omega) (ih _ _ run hrun)
      · exact Nat.le_trans (Nat.le_succ i) (ih _ _ run hrun)

theorem MaximalRun.lt_length (h : MaximalRun set run) : run.first < set.length :=
  Nat.lt_of_lt_of_le h.lt h.inside

theorem MaximalRun.first_flags (h : MaximalRun set run) : set[run.first]? = some run.flags :=
  h.same run.first (Nat.le_refl _) h.lt

theorem not_maximal_of_drop (h : set.drop i = []) (hrun : MaximalRun set run) : ¬ i ≤ run.first := by
  have hlen := List.drop_eq_nil_iff.mp h
  have hlt := hrun.lt_length
  omega

/-- What the loop goes on with behind a run. -/
theorem drop_behind_run (h : set.drop i = x :: l) :
    set.drop (i + 1 + (l.takeWhile (· == x)).length + 1) = (l.dropWhile (· == x)).drop 1 := by
  rw [← List.drop_drop, (runTo h).2]

theorem length_behind_run (hlen : (x :: l).length ≤ fuel + 1) :
    ((l.dropWhile (· == x)).drop 1).length ≤ fuel := by
  have hle : (l.dropWhile (· == x)).length ≤ l.length := (List.dropWhile_suffix _).length_le
  rw [List.length_cons] at hlen
  rw [List.length_drop]
  omega

/-- Where no runs touch, the loop has all of them. -/
theorem spteLoop_apart (hset : Apart set) (hlen : l.length ≤ fuel) (h : set.drop i = l)
    (hfresh : Fresh set i) :
    ((spteLoop fuel i l).Pairwise fun run run' => run.stop ≤ run'.first) ∧
      ∀ run, run ∈ spteLoop fuel i l ↔ MaximalRun set run ∧ i ≤ run.first := by
  induction fuel generalizing i l with
  | zero =>
    have hnil : l = [] := List.eq_nil_of_length_eq_zero (Nat.le_zero.mp hlen)
    subst hnil
    exact ⟨List.Pairwise.nil, fun run => iff_of_false nofun fun hrun => not_maximal_of_drop h hrun.1 hrun.2⟩
  | succ fuel ih =>
    cases l with
    | nil =>
      exact ⟨List.Pairwise.nil, fun run => iff_of_false nofun fun hrun => not_maximal_of_drop h hrun.1 hrun.2⟩
    | cons x l =>
      have hx : set[i]? = some x := getElem?_of_drop h 0
      rw [spteLoop]
      by_cases hzero : x = 0
      · rw [if_neg (not_not.mpr hzero)]
        have hrest : set.drop (i + 1) = l := by
          rw [← List.drop_drop, h, List.drop_succ_cons, List.drop_zero]
        have hfresh' : Fresh set (i + 1) := by
          refine .inr fun y hy => ?_
          rw [Nat.add_sub_cancel, hx] at hy
          cases hy
          exact hzero
        obtain ⟨hsorted, hmem⟩ := ih (Nat.le_of_succ_le_succ hlen) hrest hfresh'
        refine ⟨hsorted, fun run => (hmem run).trans ?_⟩
        refine and_congr_right fun hrun => ⟨fun hlt => Nat.le_of_succ_le hlt, fun hle => ?_⟩
        rcases Nat.eq_or_lt_of_le hle with rfl | hlt
        · have hflags := hx.symm.trans hrun.first_flags
          cases hflags
          exact absurd hzero hrun.isSet
        · exact hlt
      · rw [if_pos hzero]
        obtain ⟨hto, -⟩ := runTo h
        have hrest := drop_behind_run h
        dsimp only
        generalize i + 1 + (l.takeWhile (· == x)).length = e at hto hrest ⊢
        have hgap : ∀ y, set[e]? = some y → y = 0 := by
          intro y hy
          have hlast : set[e - 1]? = some x := hto.same (e - 1) (Nat.le_sub_one_of_lt hto.lt)
            (Nat.sub_one_lt_of_lt hto.lt)
          have he : e - 1 + 1 = e := Nat.succ_pred_eq_of_pos (Nat.zero_lt_of_lt hto.lt)
          rcases hset.next hlast (he.symm ▸ hy) with h0 | h0 | heq
          · exact absurd h0 hzero
          · exact h0
          · exact absurd (heq ▸ hy) hto.ends
        have hfresh' : Fresh set (e + 1) := .inr hgap
        have hleft : i = 0 ∨ set[i - 1]? ≠ some x := hfresh.imp_right fun hf hy => hzero (hf x hy)
        obtain ⟨hsorted, hmem⟩ := ih (length_behind_run hlen) hrest hfresh'
        refine ⟨List.pairwise_cons.mpr ⟨fun run hrun => ?_, hsorted⟩, fun run => ?_⟩
        · exact Nat.le_trans (Nat.le_succ e) (spteLoop_first _ _ _ run hrun)
        · rw [List.mem_cons, hmem run]
          constructor
          · intro hrun
            rcases hrun with rfl | ⟨hrun, hle⟩
            · exact ⟨hto.maximal hzero hleft, Nat.le_refl _⟩
            · exact ⟨hrun, Nat.le_trans (Nat.le_of_lt hto.lt) (Nat.le_trans (Nat.le_succ e) hle)⟩
          · intro ⟨hrun, hle⟩
            rcases Nat.eq_or_lt_of_le hle with heq | hlt
            · exact .inl (hto.unique hrun heq.symm)
            · refine .inr ⟨hrun, Nat.lt_of_le_of_ne (hto.behind hrun hlt) fun he => ?_⟩
              exact hrun.isSet (hgap _ (he ▸ hrun.first_flags))

/-- Of two runs that touch, the loop misses the second. -/
theorem spteLoop_misses {a b : UInt8} (hlen : l.length ≤ fuel) (h : set.drop i = l) (hij : i ≤ j)
    (ha : set[j]? = some a) (hb : set[j + 1]? = some b) (ha0 : a ≠ 0) (hb0 : b ≠ 0) (hab : a ≠ b) :
    ∃ run, MaximalRun set run ∧ i < run.first ∧ ∀ run' ∈ spteLoop fuel i l, run'.first ≠ run.first := by
  have hin : i < set.length := Nat.lt_of_le_of_lt hij (List.getElem?_eq_some_iff.mp ha).1
  induction fuel generalizing i l with
  | zero =>
    have hnil : l = [] := List.eq_nil_of_length_eq_zero (Nat.le_zero.mp hlen)
    rw [hnil, List.drop_eq_nil_iff] at h
    omega
  | succ fuel ih =>
    cases l with
    | nil =>
      rw [List.drop_eq_nil_iff] at h
      omega
    | cons x l =>
      have hx : set[i]? = some x := getElem?_of_drop h 0
      have hj : j + 1 < set.length := (List.getElem?_eq_some_iff.mp hb).1
      rw [spteLoop]
      by_cases hzero : x = 0
      · rw [if_neg (not_not.mpr hzero)]
        have hrest : set.drop (i + 1) = l := by
          rw [← List.drop_drop, h, List.drop_succ_cons, List.drop_zero]
        have hne : i ≠ j := by
          rintro rfl
          rw [hx] at ha
          cases ha
          exact ha0 hzero
        obtain ⟨run, hrun, hlt, hmiss⟩ := ih (Nat.le_of_succ_le_succ hlen) hrest (by omega) (by omega)
        exact ⟨run, hrun, Nat.lt_of_succ_lt hlt, hmiss⟩
      · rw [if_pos hzero]
        obtain ⟨hto, -⟩ := runTo h
        have hrest := drop_behind_run h
        dsimp only
        generalize i + 1 + (l.takeWhile (· == x)).length = e at hto hrest ⊢
        by_cases htouch : ∃ y, set[e]? = some y ∧ y ≠ 0
        · -- the run that starts at `e`
          obtain ⟨y, hy, hy0⟩ := htouch
          have hlast : set[e - 1]? = some x := hto.same (e - 1) (Nat.le_sub_one_of_lt hto.lt)
            (Nat.sub_one_lt_of_lt hto.lt)
          have hleft : set[e - 1]? ≠ some y := by
            intro heq
            rw [hlast] at heq
            cases heq
            exact hto.ends hy
          have hat : set.drop e = y :: set.drop (e + 1) := by
            obtain ⟨he, rfl⟩ := List.getElem?_eq_some_iff.mp hy
            exact List.drop_eq_getElem_cons he
          refine ⟨_, (runTo hat).1.maximal hy0 (.inr hleft), hto.lt, fun run' hrun' => ?_⟩
          rcases List.mem_cons.mp hrun' with rfl | hrun'
          · exact Nat.ne_of_lt hto.lt
          · exact Nat.ne_of_gt (spteLoop_first _ _ _ run' hrun')
        · have hje : e + 1 ≤ j := by
            by_contra hlt
            rcases Nat.lt_trichotomy (j + 1) e with hb' | hb' | hb'
            · have hsame := (hto.same j hij (by omega)).symm.trans ha
              have hsame' := (hto.same (j + 1) (by omega) hb').symm.trans hb
              cases hsame
              cases hsame'
              exact hab rfl
            · exact htouch ⟨b, hb' ▸ hb, hb0⟩
            · have he : j = e := by omega
              exact htouch ⟨a, he ▸ ha, ha0⟩
          obtain ⟨run, hrun, hlt, hmiss⟩ := ih (length_behind_run hlen) hrest hje (by omega)
          have hfirst : i < run.first := Nat.lt_trans hto.lt (Nat.lt_of_succ_lt hlt)
          refine ⟨run, hrun, hfirst, fun run' hrun' => ?_⟩
          rcases List.mem_cons.mp hrun' with rfl | hrun'
          · exact Nat.ne_of_lt hfirst
          · exact hmiss run' hrun'

end Runs

section Lines
variable {b : Page} {run : Run}

theorem Role.entryGfn_pos (role : Role) : 0 < role.entryGfn := Nat.two_pow_pos _

theorem Role.entryGfn_le (role : Role) : role.entryGfn ≤ 2 ^ 36 := by
  have h := role.level_le
  have hle : (role.level - 1) * 9 ≤ 36 := by
    rw [Role.level]
    omega
  exact Nat.pow_le_pow_right (by decide) hle

/-- The line of a run ends before the entry behind it, which is at the last gfn of the run. -/
theorem spteLine_eq (b : Page) (hlt : run.first < run.stop) : b.spteLine run = b.runLine run := by
  obtain ⟨k, hk⟩ : ∃ k, run.stop = k + 1 := ⟨run.stop - 1, by omega⟩
  have hpos := b.role.entryGfn_pos
  have hsum : b.gfn + (k + 1) * b.role.entryGfn + (2 ^ 64 - 1) =
      b.gfn + k * b.role.entryGfn + (b.role.entryGfn - 1) + 2 ^ 64 := by
    rw [Nat.add_mul, Nat.one_mul]
    omega
  rw [Page.spteLine, Page.runLine, hk, hsum, Nat.add_mod_right, Nat.add_sub_cancel]

/-- Entries of a page start at different places. -/
theorem start_inj {i j : Nat} (hi : i < 512) (hj : j < 512)
    (h : (b.gfn + i * b.role.entryGfn) % 2 ^ 64 = (b.gfn + j * b.role.entryGfn) % 2 ^ 64) : i = j := by
  have hle := b.role.entryGfn_le
  have hcancel : Nat.ModEq (2 ^ 64) (i * b.role.entryGfn) (j * b.role.entryGfn) :=
    Nat.ModEq.add_left_cancel' b.gfn h
  have hi' : i * b.role.entryGfn < 2 ^ 64 :=
    Nat.lt_of_le_of_lt (Nat.mul_le_mul (Nat.le_of_lt hi) hle) (by decide)
  have hj' : j * b.role.entryGfn < 2 ^ 64 :=
    Nat.lt_of_le_of_lt (Nat.mul_le_mul (Nat.le_of_lt hj) hle) (by decide)
  exact Nat.eq_of_mul_eq_mul_right b.role.entryGfn_pos (hcancel.eq_of_lt_of_lt hi' hj')

theorem spteLoop_lt (fuel i : Nat) (l : List UInt8) :
    ∀ run ∈ spteLoop fuel i l, run.first < i + l.length := by
  induction fuel generalizing i l with
  | zero => nofun
  | succ fuel ih =>
    cases l with
    | nil => nofun
    | cons x l =>
      intro run hrun
      have hlen := (l.takeWhile_append_dropWhile (p := (· == x)))
      have hsum := congrArg List.length hlen
      rw [List.length_append] at hsum
      rw [spteLoop] at hrun
      split at hrun
      · rcases List.mem_cons.mp hrun with rfl | hrun
        · simp
        · have hlt := ih _ _ run hrun
          rw [List.length_drop] at hlt
          rw [List.length_cons]
          have hfirst := spteLoop_first _ _ _ run hrun
          omega
      · have hlt := ih _ _ run hrun
        rw [List.length_cons]
        omega

/-- The dump has the maximal runs of the entries exactly when no two runs touch. -/
theorem dumpsRuns_iff (b : Page) : b.DumpsRuns ↔ Apart b.flags := by
  cases hset : b.spteSet with
  | none =>
    have hflags : b.flags = [] := by rw [Page.flags, hset]; rfl
    have hdump : b.dumpSpte = [] := by rw [Page.dumpSpte, hset]
    rw [hflags]
    refine iff_of_true ⟨[], hdump, List.Pairwise.nil, fun run => iff_of_false nofun fun hrun => ?_⟩ .nil
    rw [hflags] at hrun
    exact Nat.not_lt_zero _ hrun.lt_length
  | some set =>
    have hflags : b.flags = set.toList := by rw [Page.flags, hset]; rfl
    have hdump : b.dumpSpte = (spteLoop 512 0 set.toList).map b.spteLine := by rw [Page.dumpSpte, hset]
    have hlen : set.toList.length = 512 := Vector.length_toList
    have hfuel : set.toList.length ≤ 512 := Nat.le_of_eq hlen
    rw [Page.DumpsRuns, hflags, hdump]
    constructor
    · rintro ⟨runs, hlines, -, hmem⟩
      by_contra hnot
      obtain ⟨j, a, c, ha, hc, ha0, hc0, hac⟩ : ∃ j a c, set.toList[j]? = some a ∧
          set.toList[j + 1]? = some c ∧ a ≠ 0 ∧ c ≠ 0 ∧ a ≠ c := by
        rw [Apart, List.isChain_iff_getElem] at hnot
        simp only [not_forall, not_or] at hnot
        obtain ⟨j, hj, h⟩ := hnot
        exact ⟨j, _, _, List.getElem?_eq_getElem (Nat.lt_of_succ_lt hj), List.getElem?_eq_getElem hj, h⟩
      obtain ⟨run, hrun, -, hmiss⟩ := spteLoop_misses hfuel rfl (Nat.zero_le j) ha hc ha0 hc0 hac
      have hline : b.runLine run ∈ (spteLoop 512 0 set.toList).map b.spteLine := by
        rw [hlines]
        exact List.mem_map_of_mem ((hmem run).mpr hrun)
      obtain ⟨run', hrun', heq⟩ := List.mem_map.mp hline
      have hlt := hrun.lt_length
      have hlt' := spteLoop_lt _ _ _ run' hrun'
      rw [Nat.zero_add] at hlt'
      exact hmiss run' hrun' (start_inj (by omega) (by omega) (congrArg SpteLine.start heq))
    · intro hapart
      obtain ⟨hsorted, hmem⟩ := spteLoop_apart hapart hfuel rfl (.inl rfl)
      have hmem' : ∀ run, run ∈ spteLoop 512 0 set.toList ↔ MaximalRun set.toList run :=
        fun run => (hmem run).trans (and_iff_left (Nat.zero_le _))
      refine ⟨_, List.map_congr_left fun run hrun => ?_, hsorted, hmem'⟩
      exact spteLine_eq b ((hmem' run).mp hrun).lt

/-- An mmio entry next to a normal one. -/
def mmioPage : Page where
  gfn := 0
  role := lastLevel
  rootCount := 0
  refcount := 1
  spteSet := some (((Vector.replicate 512 0).set 0 1).set 1 3)

/-- The mmio entry is not printed. -/
theorem mmio_missed : ¬ mmioPage.DumpsRuns ∧ mmioPage.dumpSpte = [⟨0, 0, false⟩] := by
  have hdump : mmioPage.dumpSpte = [⟨0, 0, false⟩] := by decide +kernel
  refine ⟨?_, hdump⟩
  rintro ⟨runs, hlines, -, hmem⟩
  have hflags : mmioPage.flags[1]? = some 3 := by decide +kernel
  have hrun : MaximalRun mmioPage.flags ⟨1, 2, 3⟩ := by
    refine ⟨by decide, by decide +kernel, by decide, fun j hj hj' => ?_, by decide +kernel, by decide +kernel⟩
    have hone : j = 1 := Nat.le_antisymm (Nat.le_of_lt_succ hj') hj
    rw [hone, hflags]
  have hline := List.mem_map_of_mem (f := mmioPage.runLine) ((hmem _).mpr hrun)
  rw [← hlines, hdump] at hline
  exact absurd hline (by decide)

end Lines

end PerfProf.Kvmmmu
