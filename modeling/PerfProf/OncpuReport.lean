import Mathlib.Algebra.Order.BigOperators.Group.List
import Mathlib.Algebra.Order.Group.Nat
import PerfProf.Oncpu

/-! oncpu.c: whether the report has every entry with its time. By cpu and comm two entries of one cpu with
the same time are equal for the second rblist; with the siblings of the cpus a time of zero is divided by. -/
namespace PerfProf.Oncpu
open Blocks Rblist
open PerfProf.Top (CStr)

section Spec

/-- What the samples account for since the last report, with the times of the last switches. -/
def account (env : Env) (acc : (Int → UInt64) × List (RuntimeEntry × UInt64)) :
    Input → (Int → UInt64) × List (RuntimeEntry × UInt64)
  | .sample s => ((sampleEntry env acc.1 s).1, acc.2 ++ (sampleEntry env acc.1 s).2.toList)
  | .lost ins => (if env.usingOrder || env.tidToCpumap then acc.1 else Function.update acc.1 ins 0, acc.2)
  | .interval => (acc.1, [])

def accountAll (env : Env) (inputs : List Input) : (Int → UInt64) × List (RuntimeEntry × UInt64) :=
  inputs.foldl (account env) (fun _ => 0, [])

/-- The samples since the last report, each with its entry and the time that it has run. -/
def accounts (env : Env) (inputs : List Input) : List (RuntimeEntry × UInt64) := (accountAll env inputs).2

/-- The time of an entry. -/
def timeOf (env : Env) (xs : List (RuntimeEntry × UInt64)) (k : Int ×ₗ Int ×ₗ CStr) : Nat :=
  total (fun x => entryKey env x.1) (fun x => x.2.toNat) k xs

/-- The time of an instance. -/
def timeIn (xs : List (RuntimeEntry × UInt64)) (ins : Int) : Nat :=
  total (fun x => x.1.ins) (fun x => x.2.toNat) ins xs

/-- The entries that are printed. -/
def printed (lines : List Line) : List Runtime := lines.flatMap Line.runs

/-- Each entry is printed once, with the sum and the maximum of its samples; the sum of an instance is that of
its entries. -/
structure Complete (env : Env) (xs : List (RuntimeEntry × UInt64)) (lines : List Line) : Prop where
  once : ((printed lines).map (runKey env)).Nodup
  entries : ∀ k, k ∈ (printed lines).map (runKey env) ↔ k ∈ xs.map fun x => entryKey env x.1
  runtime : ∀ run ∈ printed lines, run.runtime.toNat = timeOf env xs (runKey env run)
  max : ∀ run ∈ printed lines, (∃ x ∈ xs, entryKey env x.1 = runKey env run ∧ x.2 = run.max) ∧
    ∀ x ∈ xs, entryKey env x.1 = runKey env run → x.2 ≤ run.max
  instances : (lines.map Line.ins).Nodup
  sum : ∀ line ∈ lines, line.sum.toNat =
    (((printed lines).filter fun run => run.ins = line.ins).map fun run => run.runtime.toNat).sum

/-- The report after a run: it is complete, and nothing remains. -/
def Reports (bal : Rebalance Runtime) (env : Env) (inputs : List Input) : Prop :=
  ∃ ctx ctx' lines, run bal env inputs = some ctx ∧ oncpuInterval bal env ctx = some (ctx', lines) ∧
    Complete env (accounts env inputs) lines ∧ ctx'.runtimes.entries.toList = []

/-- The times of an instance do not overflow; by cpu and comm those of a cpu are different; with the siblings
of the cpus those of an instance are not all zero. -/
structure Countable (env : Env) (xs : List (RuntimeEntry × UInt64)) : Prop where
  bounded : ∀ ins, timeIn xs ins < 2 ^ 64
  untied : env.byComm = true → ∀ x ∈ xs, ∀ y ∈ xs, x.1.ins = y.1.ins →
    timeOf env xs (entryKey env x.1) = timeOf env xs (entryKey env y.1) → entryKey env x.1 = entryKey env y.1
  nonzero : env.tidToCpumap = true → env.percpuThreadSiblings.isSome = true → ∀ x ∈ xs, timeIn xs x.1.ins ≠ 0

end Spec

section Gathered
variable {env : Env} {xs : List (RuntimeEntry × UInt64)} {x : RuntimeEntry × UInt64} {run : Runtime}

/-- The entry that the samples have made. -/
structure Sums (run : Runtime) (xs : List (RuntimeEntry × UInt64)) : Prop where
  entry : ∃ x ∈ xs, x.1.another = run.another
  runtime : run.runtime.toNat = (xs.map fun x => x.2.toNat).sum % 2 ^ 64
  maxMem : ∃ x ∈ xs, x.2 = run.max
  leMax : ∀ x ∈ xs, x.2 ≤ run.max

theorem add_runtime (time : UInt64) (run : Runtime) :
    (run.add time).runtime.toNat = (run.runtime.toNat + time.toNat) % 2 ^ 64 := UInt64.toNat_add _ _

theorem le_add_max (time : UInt64) (run : Runtime) : time ≤ (run.add time).max ∧ run.max ≤ (run.add time).max := by
  unfold Runtime.add
  dsimp only
  split_ifs with hgt
  · exact ⟨UInt64.le_refl _, UInt64.le_of_lt hgt⟩
  · exact ⟨UInt64.not_lt.mp hgt, UInt64.le_refl _⟩

theorem sums_new (x : RuntimeEntry × UInt64) : Sums ((runtimeNodeNew x.1).add x.2) [x] := by
  have hmax : ((runtimeNodeNew x.1).add x.2).max = x.2 :=
    UInt64.le_antisymm (by
      unfold Runtime.add runtimeNodeNew
      dsimp only
      split_ifs with hgt
      · exact UInt64.le_refl _
      · exact UInt64.zero_le) (le_add_max x.2 (runtimeNodeNew x.1)).1
  refine ⟨⟨x, List.mem_cons_self, rfl⟩, ?_, ⟨x, List.mem_cons_self, hmax.symm⟩, fun y hy => ?_⟩
  · rw [add_runtime]
    exact congrArg (· % 2 ^ 64) (Nat.add_comm 0 x.2.toNat)
  · rw [List.mem_singleton.mp hy, hmax]
    exact UInt64.le_refl _

theorem Sums.add (h : Sums run xs) (x : RuntimeEntry × UInt64) : Sums (run.add x.2) (xs ++ [x]) := by
  obtain ⟨hx, hrun⟩ := le_add_max x.2 run
  refine ⟨?_, ?_, ?_, fun y hy => ?_⟩
  · obtain ⟨y, hy, hanother⟩ := h.entry
    exact ⟨y, List.mem_append_left _ hy, hanother⟩
  · rw [add_runtime, h.runtime, Nat.mod_add_mod, List.map_append, List.sum_append]
    rfl
  · obtain ⟨y, hy, hmax⟩ := h.maxMem
    have hor : (run.add x.2).max = x.2 ∨ (run.add x.2).max = run.max := by
      unfold Runtime.add
      dsimp only
      split_ifs
      · exact Or.inl rfl
      · exact Or.inr rfl
    rcases hor with heq | heq
    · exact ⟨x, List.mem_append_right _ List.mem_cons_self, heq.symm⟩
    · exact ⟨y, List.mem_append_left _ hy, hmax.trans heq.symm⟩
  · rcases List.mem_append.mp hy with hy | hy
    · exact UInt64.le_trans (h.leMax y hy) hrun
    · rw [List.mem_singleton.mp hy]
      exact hx

theorem sums_entry (h : entryOf (fun x => runtimeNodeNew x.1) (fun x => Runtime.add x.2) xs = some run) :
    Sums run xs := by
  induction xs using List.reverseRecOn generalizing run with
  | nil => cases h
  | append_singleton xs x ih =>
    rw [entryOf_concat] at h
    cases h
    cases hxs : entryOf (fun x : RuntimeEntry × UInt64 => runtimeNodeNew x.1) (fun x => Runtime.add x.2) xs with
    | none =>
      have hnil : xs = [] := by
        cases xs with
        | nil => rfl
        | cons y ys => cases hxs
      subst hnil
      exact sums_new x
    | some run => exact (ih hxs).add x

/-- The entries of the samples. -/
def gathered (env : Env) (xs : List (RuntimeEntry × UInt64)) : List Runtime :=
  gather (runKey env) (fun x => runtimeNodeNew x.1) (fun x => Runtime.add x.2) xs

theorem gathered_sorted (env : Env) (xs : List (RuntimeEntry × UInt64)) : Sorted (runKey env) (gathered env xs) :=
  (@gather_spec _ _ _ _ (runKey env) (fun x : RuntimeEntry × UInt64 => runtimeNodeNew x.1)
    (fun x => Runtime.add x.2) (fun _ _ => rfl) xs).1

theorem gathered_entry (env : Env) (xs : List (RuntimeEntry × UInt64)) (k : Int ×ₗ Int ×ₗ CStr) :
    entryAt (runKey env) k (gathered env xs) = entryOf (fun x => runtimeNodeNew x.1) (fun x => Runtime.add x.2)
      (xs.filter fun x => entryKey env x.1 = k) := by
  have hentry := (@gather_spec _ _ _ _ (runKey env) (fun x : RuntimeEntry × UInt64 => runtimeNodeNew x.1)
    (fun x => Runtime.add x.2) (fun _ _ => rfl) xs).2 k
  exact hentry.trans (congrArg _ (List.filter_congr fun _ _ => decide_eq_decide.mpr Iff.rfl))

theorem gathered_sums (hrun : run ∈ gathered env xs) :
    Sums run (xs.filter fun x => entryKey env x.1 = runKey env run) :=
  sums_entry ((gathered_entry env xs (runKey env run)).symm.trans
    ((gathered_sorted env xs).entryAt_eq.mpr ⟨hrun, rfl⟩))

theorem gathered_keys (env : Env) (xs : List (RuntimeEntry × UInt64)) (k : Int ×ₗ Int ×ₗ CStr) :
    k ∈ (gathered env xs).map (runKey env) ↔ k ∈ xs.map fun x => entryKey env x.1 := by
  constructor
  · intro hk
    obtain ⟨run, hrun, rfl⟩ := List.mem_map.mp hk
    obtain ⟨x, hx, -⟩ := (gathered_sums hrun).maxMem
    obtain ⟨hx, hkey⟩ := List.mem_filter.mp hx
    exact List.mem_map.mpr ⟨x, hx, of_decide_eq_true hkey⟩
  · intro hk
    obtain ⟨x, hx, rfl⟩ := List.mem_map.mp hk
    have hat := gathered_entry env xs (entryKey env x.1)
    cases hfilter : xs.filter fun y => entryKey env y.1 = entryKey env x.1 with
    | nil => exact absurd (decide_eq_true rfl) (List.filter_eq_nil_iff.mp hfilter x hx)
    | cons y ys =>
      rw [hfilter] at hat
      obtain ⟨hrun, hkey⟩ := (gathered_sorted env xs).entryAt_eq.mp hat
      exact List.mem_map.mpr ⟨_, hrun, hkey⟩

end Gathered

section Times
variable {env : Env} {xs : List (RuntimeEntry × UInt64)} {l : List Runtime}

theorem pair_ins {ins ins' another another' : Int} {comm comm' : CStr}
    (h : pair env ins another comm = pair env ins' another' comm') : ins = ins' :=
  congrArg Prod.fst (toLex_inj.mp h)

theorem sumOf_toNat (runs : List Runtime) :
    (sumOf runs).toNat = (runs.map fun run => run.runtime.toNat).sum % 2 ^ 64 := by
  unfold sumOf
  induction runs using List.reverseRecOn with
  | nil => rfl
  | append_singleton runs run ih =>
    rw [List.foldl_concat, UInt64.toNat_add, ih, Nat.mod_add_mod, List.map_append, List.sum_append]
    rfl

/-- The times of the entries of an instance add up to its time. -/
theorem sum_timeOf (hnodup : (l.map (runKey env)).Nodup)
    (hall : ∀ x ∈ xs, entryKey env x.1 ∈ l.map (runKey env)) (ins : Int) :
    ((l.filter fun run => run.ins = ins).map fun run => timeOf env xs (runKey env run)).sum = timeIn xs ins := by
  have hks : ((l.filter fun run => run.ins = ins).map (runKey env)).Nodup :=
    hnodup.sublist (List.filter_sublist.map _)
  have hcover : ∀ x ∈ xs.filter (fun x => x.1.ins = ins),
      entryKey env x.1 ∈ (l.filter fun run => run.ins = ins).map (runKey env) := by
    intro x hx
    obtain ⟨hx, hins⟩ := List.mem_filter.mp hx
    obtain ⟨run, hrun, hkey⟩ := List.mem_map.mp (hall x hx)
    have hsame : run.ins = x.1.ins := pair_ins hkey
    have hins : run.ins = ins := hsame.trans (of_decide_eq_true hins)
    exact List.mem_map.mpr ⟨run, List.mem_filter.mpr ⟨hrun, decide_eq_true hins⟩, hkey⟩
  have hsum := @sum_total _ _ _ (fun x : RuntimeEntry × UInt64 => entryKey env x.1) (fun x => x.2.toNat) _ _ hks hcover
  rw [List.map_map] at hsum
  refine Eq.trans ?_ hsum
  congr 1
  refine List.map_congr_left fun run hrun => ?_
  have hins : run.ins = ins := of_decide_eq_true (List.mem_filter.mp hrun).2
  unfold timeOf total
  dsimp only [Function.comp_apply]
  rw [List.filter_filter]
  congr 2
  refine List.filter_congr fun x _ => ?_
  rw [Bool.eq_iff_iff, Bool.and_eq_true, decide_eq_true_eq, decide_eq_true_eq]
  exact (and_iff_left_of_imp fun hkey => (pair_ins hkey).trans hins).symm

/-- The time of an entry is no more than that of its instance. -/
theorem timeOf_le (hnodup : (l.map (runKey env)).Nodup) (hall : ∀ x ∈ xs, entryKey env x.1 ∈ l.map (runKey env))
    {run : Runtime} (hrun : run ∈ l) : timeOf env xs (runKey env run) ≤ timeIn xs run.ins := by
  rw [← sum_timeOf hnodup hall run.ins]
  refine List.single_le_sum (fun _ _ => Nat.zero_le _) _ (List.mem_map.mpr ⟨run, ?_, rfl⟩)
  exact List.mem_filter.mpr ⟨hrun, decide_eq_true rfl⟩

end Times

section Lines
variable {env : Env} {xs : List (RuntimeEntry × UInt64)} {l : List Runtime} {lines : List Line}

/-- The lines are those of the blocks. -/
def LinesOf (l : List Runtime) (lines : List Line) : Prop :=
  lines.map (fun line => (line.ins, line.runs, line.sum)) =
    (blocks Runtime.ins l).map fun b => (b.1.ins, b.1 :: b.2, sumOf (b.1 :: b.2))

theorem LinesOf.printed (h : LinesOf l lines) : printed lines = l := by
  have hruns := congrArg (List.flatMap fun p : Int × List Runtime × UInt64 => p.2.1) h
  rw [List.flatMap_map, List.flatMap_map] at hruns
  exact hruns.trans (flatten_blocks Runtime.ins l)

theorem LinesOf.block (h : LinesOf l lines) {line : Line} (hline : line ∈ lines) :
    ∃ b ∈ blocks Runtime.ins l, line.ins = b.1.ins ∧ line.sum = sumOf (b.1 :: b.2) := by
  have hmem : (line.ins, line.runs, line.sum) ∈ lines.map fun line => (line.ins, line.runs, line.sum) :=
    List.mem_map.mpr ⟨line, hline, rfl⟩
  rw [h] at hmem
  obtain ⟨b, hb, heq⟩ := List.mem_map.mp hmem
  obtain ⟨hins, -, hsum⟩ := Prod.mk.inj heq |>.imp_right Prod.mk.inj
  exact ⟨b, hb, hins.symm, hsum.symm⟩

/-- A line has the entries of its instance. -/
theorem LinesOf.sum (h : LinesOf l lines) (hsorted : l.Pairwise fun a b => a.ins ≤ b.ins) {line : Line}
    (hline : line ∈ lines) : line.sum = sumOf (l.filter fun run => run.ins = line.ins) := by
  obtain ⟨b, hb, hins, hsum⟩ := h.block hline
  rw [hsum, block_eq hsorted b hb, hins]

theorem LinesOf.instances (h : LinesOf l lines) (hsorted : l.Pairwise fun a b => a.ins ≤ b.ins) :
    (lines.map Line.ins).Nodup := by
  have hins := congrArg (List.map Prod.fst) h
  rw [List.map_map, List.map_map] at hins
  have hlines : lines.map Line.ins = (blocks Runtime.ins l).map fun b => b.1.ins := hins
  rw [hlines]
  exact List.Pairwise.map _ (fun _ _ => ne_of_lt) (blocks_keys hsorted)

theorem LinesOf.exists_line (h : LinesOf l lines) {run : Runtime} (hrun : run ∈ l)
    (hsorted : l.Pairwise fun a b => a.ins ≤ b.ins) : ∃ line ∈ lines, line.ins = run.ins := by
  rw [← flatten_blocks Runtime.ins l] at hrun
  obtain ⟨b, hb, hmem⟩ := List.mem_flatMap.mp hrun
  rw [block_eq hsorted b hb] at hmem
  have hins : run.ins = b.1.ins := of_decide_eq_true (List.mem_filter.mp hmem).2
  have hline : (b.1.ins, b.1 :: b.2, sumOf (b.1 :: b.2)) ∈ lines.map fun line => (line.ins, line.runs, line.sum) := by
    rw [h]
    exact List.mem_map.mpr ⟨b, hb, rfl⟩
  obtain ⟨line, hline, heq⟩ := List.mem_map.mp hline
  exact ⟨line, hline, (congrArg Prod.fst heq).trans hins.symm⟩

/-- Lines of some of the entries are complete just if all keys are there and no time overflows. -/
theorem complete_iff (h : LinesOf l lines) (hsorted : l.Pairwise fun a b => a.ins ≤ b.ins)
    (hnodup : (l.map (runKey env)).Nodup) (hsub : l ⊆ gathered env xs) :
    Complete env xs lines ↔ (∀ x ∈ xs, entryKey env x.1 ∈ l.map (runKey env)) ∧ ∀ ins, timeIn xs ins < 2 ^ 64 := by
  have hprinted := h.printed
  constructor
  · intro hcomplete
    have hentries := hcomplete.entries
    have hruntime := hcomplete.runtime
    have hsum := hcomplete.sum
    rw [hprinted] at hentries hruntime hsum
    have hall : ∀ x ∈ xs, entryKey env x.1 ∈ l.map (runKey env) :=
      fun x hx => (hentries _).mpr (List.mem_map.mpr ⟨x, hx, rfl⟩)
    refine ⟨hall, fun ins => ?_⟩
    -- the sum that is printed for the instance is a number of 64 bits
    by_cases hsome : ∃ x ∈ xs, x.1.ins = ins
    · obtain ⟨x, hx, rfl⟩ := hsome
      obtain ⟨run, hrun, hkey⟩ := List.mem_map.mp (hall x hx)
      have hins : run.ins = x.1.ins := pair_ins hkey
      obtain ⟨line, hline, hlins⟩ := h.exists_line hrun hsorted
      have htimes : ((l.filter fun run => run.ins = line.ins).map fun run => run.runtime.toNat) =
          (l.filter fun run => run.ins = line.ins).map fun run => timeOf env xs (runKey env run) :=
        List.map_congr_left fun run hrun => hruntime run (List.mem_of_mem_filter hrun)
      have hline := hsum line hline
      rw [htimes, sum_timeOf hnodup hall, hlins, hins] at hline
      rw [← hline]
      exact UInt64.toNat_lt _
    · have hnil : xs.filter (fun x => x.1.ins = ins) = [] :=
        List.filter_eq_nil_iff.mpr fun x hx hins => hsome ⟨x, hx, of_decide_eq_true hins⟩
      unfold timeIn total
      rw [hnil]
      decide
  · intro ⟨hall, hbounded⟩
    have hruntime : ∀ run ∈ l, run.runtime.toNat = timeOf env xs (runKey env run) := by
      intro run hrun
      have hle := timeOf_le hnodup hall hrun
      exact (gathered_sums (hsub hrun)).runtime.trans (Nat.mod_eq_of_lt (Nat.lt_of_le_of_lt hle (hbounded run.ins)))
    refine ⟨?_, fun k => ?_, ?_, ?_, h.instances hsorted, ?_⟩
    · rw [hprinted]
      exact hnodup
    · rw [hprinted]
      constructor
      · intro hk
        obtain ⟨run, hrun, rfl⟩ := List.mem_map.mp hk
        exact (gathered_keys env xs _).mp (List.mem_map_of_mem (hsub hrun))
      · intro hk
        obtain ⟨x, hx, rfl⟩ := List.mem_map.mp hk
        exact hall x hx
    · rw [hprinted]
      exact hruntime
    · rw [hprinted]
      intro run hrun
      obtain ⟨-, -, ⟨x, hx, hmax⟩, hle⟩ := gathered_sums (hsub hrun)
      obtain ⟨hx, hkey⟩ := List.mem_filter.mp hx
      exact ⟨⟨x, hx, of_decide_eq_true hkey, hmax⟩,
        fun y hy hkey => hle y (List.mem_filter.mpr ⟨hy, decide_eq_true hkey⟩)⟩
    · rw [hprinted]
      intro line hline
      have htimes : ((l.filter fun run => run.ins = line.ins).map fun run => run.runtime.toNat) =
          (l.filter fun run => run.ins = line.ins).map fun run => timeOf env xs (runKey env run) :=
        List.map_congr_left fun run hrun => hruntime run (List.mem_of_mem_filter hrun)
      rw [h.sum hsorted hline, sumOf_toNat, htimes, sum_timeOf hnodup hall, Nat.mod_eq_of_lt (hbounded line.ins)]

end Lines

section Interval
variable {env : Env} {xs : List (RuntimeEntry × UInt64)} {ctx ctx' : OncpuCtx} {l : List Runtime} {lines : List Line}
  {a b : Runtime}

theorem mapM_isSome {β γ : Type} (f : β → Option γ) (bs : List β) :
    (bs.mapM f).isSome = true ↔ ∀ b ∈ bs, (f b).isSome = true := by
  induction bs with
  | nil => exact iff_of_true rfl nofun
  | cons b bs ih =>
    rw [List.mapM_cons, List.forall_mem_cons, ← ih]
    cases f b with
    | none => exact iff_of_false Bool.false_ne_true fun h => Bool.false_ne_true h.1
    | some c =>
      cases bs.mapM f with
      | none => exact iff_of_false Bool.false_ne_true fun h => Bool.false_ne_true h.2
      | some cs => exact iff_of_true rfl ⟨rfl, rfl⟩

theorem mapM_map {β γ δ : Type} {f : β → Option γ} {g : γ → δ} {h : β → δ} (hf : ∀ b c, f b = some c → g c = h b)
    {bs : List β} {cs : List γ} (hmap : bs.mapM f = some cs) : cs.map g = bs.map h := by
  induction bs generalizing cs with
  | nil =>
    cases hmap
    rfl
  | cons b bs ih =>
    rw [List.mapM_cons] at hmap
    obtain ⟨c, hc, hrest⟩ := Option.bind_eq_some_iff.mp hmap
    obtain ⟨cs', hcs, heq⟩ := Option.bind_eq_some_iff.mp hrest
    cases heq
    rw [List.map_cons, List.map_cons, hf b c hc, ih hcs]

theorem printCpumap_isSome (env : Env) (ctx : OncpuCtx) (first : Runtime) (runs : List Runtime) :
    (printCpumap env ctx first runs).isSome = true ↔ (env.percpuThreadSiblings.isSome = true → sumOf runs ≠ 0) := by
  unfold printCpumap
  cases env.percpuThreadSiblings with
  | none => exact iff_of_true rfl nofun
  | some siblings =>
    dsimp only
    split_ifs with hzero
    · exact iff_of_false nofun fun h => h rfl hzero
    · exact iff_of_true rfl fun _ => hzero

theorem printCpumap_line {first : Runtime} {runs : List Runtime} {line : Line}
    (h : printCpumap env ctx first runs = some line) :
    (line.ins, line.runs, line.sum) = (first.ins, runs, sumOf runs) := by
  unfold printCpumap at h
  cases hsib : env.percpuThreadSiblings with
  | none =>
    rw [hsib] at h
    cases h
    rfl
  | some siblings =>
    rw [hsib] at h
    dsimp only at h
    split_ifs at h
    cases h
    rfl

theorem blocks_nil : blocks Runtime.ins ([] : List Runtime) = [] := by
  rw [blocks]

/-- The report by thread, unless it divides by zero. -/
theorem interval_map (bal : Rebalance Runtime) (hmap : env.tidToCpumap = true) :
    ((oncpuInterval bal env ctx).isSome = true ↔ (env.percpuThreadSiblings.isSome = true →
        ∀ b ∈ blocks Runtime.ins ctx.runtimes.entries.toList, sumOf (b.1 :: b.2) ≠ 0)) ∧
      (oncpuInterval bal env ctx = some (ctx', lines) → LinesOf ctx.runtimes.entries.toList lines ∧
        ctx'.runtimes.entries.toList = [] ∧ ctx'.lastTime = ctx.lastTime) := by
  unfold oncpuInterval
  by_cases hempty : ctx.runtimes.isEmpty = true
  · have hnil : ctx.runtimes.entries.toList = [] := List.isEmpty_iff.mp hempty
    rw [if_pos hempty, hnil, blocks_nil]
    refine ⟨iff_of_true rfl fun _ => nofun, fun h => ?_⟩
    cases h
    refine ⟨?_, hnil, rfl⟩
    unfold LinesOf
    rw [blocks_nil]
    rfl
  · rw [if_neg hempty, if_pos hmap]
    dsimp only
    constructor
    · rw [Option.isSome_map, mapM_isSome]
      simp only [printCpumap_isSome]
      exact ⟨fun h hsib b hb => h b hb hsib, fun h b hb hsib => h hsib b hb⟩
    · intro h
      obtain ⟨lines', hlines, heq⟩ := Option.map_eq_some_iff.mp h
      cases heq
      refine ⟨?_, (RbList.drainAll_eq bal (fun u _ => u) ctx.runtimes ()).2.1, rfl⟩
      unfold LinesOf
      exact mapM_map (fun b line hline => printCpumap_line hline) hlines

/-- The entries in the order of the second rblist, without those that are equal to another. -/
def sortedRuns (l : List Runtime) : List Runtime := gather sortKey id (fun _ => id) l

/-- The report by cpu. -/
theorem interval_cpu (bal : Rebalance Runtime) (hmap : env.tidToCpumap = false) (ctx : OncpuCtx) :
    ∃ ctx' lines, oncpuInterval bal env ctx = some (ctx', lines) ∧
      LinesOf (sortedRuns ctx.runtimes.entries.toList) lines ∧ ctx'.runtimes.entries.toList = [] ∧
        ctx'.lastTime = ctx.lastTime := by
  unfold oncpuInterval
  by_cases hempty : ctx.runtimes.isEmpty = true
  · have hnil : ctx.runtimes.entries.toList = [] := List.isEmpty_iff.mp hempty
    rw [if_pos hempty, hnil]
    refine ⟨ctx, [], rfl, ?_, hnil, rfl⟩
    unfold LinesOf
    have hsorted : sortedRuns [] = [] := rfl
    rw [hsorted, blocks_nil]
    rfl
  · rw [if_neg hempty, hmap, if_neg Bool.false_ne_true]
    obtain ⟨hmoved, hnil, -, -⟩ := RbList.drainAll_eq bal (moveSorted bal)
      { ctx.runtimes with frees := false } (.init Runtime)
    have hlist := RbList.addNode_foldl bal runtimeSortedNodeCmp (fun a b => orders_sortedNodeCmp a b)
      ctx.runtimes.entries.toList
    dsimp only at hmoved hnil ⊢
    have hstep : (fun s e => RbList.addNode bal (runtimeSortedNodeCmp e) e s) = moveSorted bal := rfl
    rw [hstep, ← hmoved] at hlist
    refine ⟨_, _, rfl, ?_, hnil, rfl⟩
    unfold LinesOf
    rw [hlist, List.map_map]
    rfl

end Interval

section Sorting
variable {env : Env} {xs : List (RuntimeEntry × UInt64)} {l : List Runtime} {a b : Runtime}

theorem sortedRuns_subset (l : List Runtime) : sortedRuns l ⊆ l := by
  induction l using List.reverseRecOn with
  | nil => exact List.Subset.refl _
  | append_singleton l a ih =>
    intro b hb
    unfold sortedRuns gather at hb
    rw [List.foldl_concat] at hb
    rcases @mem_upsert _ _ _ _ sortKey id (fun _ => id) a _ _ hb with hb | rfl | ⟨c, hc, rfl⟩
    · exact List.mem_append_left _ (ih hb)
    · exact List.mem_append_right _ List.mem_cons_self
    · exact List.mem_append_left _ (ih hc)

theorem sortedRuns_sorted (l : List Runtime) : Sorted sortKey (sortedRuns l) :=
  (@gather_spec _ _ _ _ sortKey id (fun _ => id) (fun _ _ => rfl) l).1

/-- Where an entry is missing there is one that is equal to it. -/
theorem sortedRuns_key (ha : a ∈ l) : ∃ b ∈ sortedRuns l, sortKey b = sortKey a := by
  have hat := (@gather_spec _ _ _ _ sortKey id (fun _ => id) (fun _ _ => rfl) l).2 (sortKey a)
  cases hfilter : inputsOf sortKey id (sortKey a) l with
  | nil => exact absurd (decide_eq_true rfl) (List.filter_eq_nil_iff.mp hfilter a ha)
  | cons c cs =>
    rw [hfilter] at hat
    obtain ⟨hb, hkey⟩ := (sortedRuns_sorted l).entryAt_eq.mp hat
    exact ⟨_, hb, hkey⟩

theorem ins_le_of_lex {γ : Type} [LT γ] {i j : Int} {x y : γ} (h : toLex (i, x) < toLex (j, y)) : i ≤ j := by
  rcases Prod.Lex.toLex_lt_toLex.mp h with hlt | ⟨heq, -⟩
  · exact le_of_lt hlt
  · exact le_of_eq heq

theorem gathered_ins (env : Env) (xs : List (RuntimeEntry × UInt64)) :
    (gathered env xs).Pairwise fun a b => a.ins ≤ b.ins :=
  (gathered_sorted env xs).imp ins_le_of_lex

theorem sortedRuns_ins (l : List Runtime) : (sortedRuns l).Pairwise fun a b => a.ins ≤ b.ins :=
  (sortedRuns_sorted l).imp ins_le_of_lex

theorem runKey_inj (ha : a ∈ gathered env xs) (hb : b ∈ gathered env xs) (h : runKey env a = runKey env b) : a = b := by
  have hat := (gathered_sorted env xs).entryAt_eq.mpr ⟨ha, h⟩
  exact Option.some.inj (hat.symm.trans ((gathered_sorted env xs).entryAt_eq.mpr ⟨hb, rfl⟩))

theorem sortedRuns_nodup (env : Env) (xs : List (RuntimeEntry × UInt64)) :
    ((sortedRuns (gathered env xs)).map (runKey env)).Nodup := by
  have hsub := sortedRuns_subset (gathered env xs)
  refine List.Nodup.map_on (fun a ha b hb => runKey_inj (hsub ha) (hsub hb)) ?_
  exact (sortedRuns_sorted _).nodup

theorem sortKey_iff : sortKey a = sortKey b ↔ a.ins = b.ins ∧ a.runtime = b.runtime ∧ a.another = b.another := by
  unfold sortKey
  rw [toLex_inj, Prod.mk.injEq, toLex_inj, Prod.mk.injEq, OrderDual.toDual_inj, UInt64.toNat_inj]

theorem gathered_nodup (env : Env) (xs : List (RuntimeEntry × UInt64)) : ((gathered env xs).map (runKey env)).Nodup :=
  List.Nodup.map_on (fun _ ha _ hb => runKey_inj ha hb) (gathered_sorted env xs).nodup

theorem gathered_all (env : Env) (xs : List (RuntimeEntry × UInt64)) :
    ∀ x ∈ xs, entryKey env x.1 ∈ (gathered env xs).map (runKey env) :=
  fun x hx => (gathered_keys env xs _).mpr (List.mem_map.mpr ⟨x, hx, rfl⟩)

/-- All keys are there just if all entries are. -/
theorem sortedRuns_all : (∀ x ∈ xs, entryKey env x.1 ∈ (sortedRuns (gathered env xs)).map (runKey env)) ↔
    ∀ a ∈ gathered env xs, a ∈ sortedRuns (gathered env xs) := by
  constructor
  · intro h a ha
    obtain ⟨x, hx, hkey⟩ := List.mem_map.mp ((gathered_keys env xs _).mp (List.mem_map_of_mem ha))
    obtain ⟨b, hb, hbkey⟩ := List.mem_map.mp (h x hx)
    have hsame : runKey env b = runKey env a := hbkey.trans hkey
    exact runKey_inj (sortedRuns_subset _ hb) ha hsame ▸ hb
  · intro h x hx
    obtain ⟨a, ha, hkey⟩ := List.mem_map.mp (gathered_all env xs x hx)
    exact List.mem_map.mpr ⟨a, h a ha, hkey⟩

theorem timeOf_runtime (hbounded : ∀ ins, timeIn xs ins < 2 ^ 64) (ha : a ∈ gathered env xs) :
    a.runtime.toNat = timeOf env xs (runKey env a) := by
  have hle := timeOf_le (gathered_nodup env xs) (gathered_all env xs) ha
  exact (gathered_sums ha).runtime.trans (Nat.mod_eq_of_lt (Nat.lt_of_le_of_lt hle (hbounded a.ins)))

/-- By cpu and comm all entries are there just if no two of a cpu have the same time. -/
theorem sortedRuns_comm (hcomm : env.byComm = true) (hproper : ∀ x ∈ xs, Proper env x.1)
    (hbounded : ∀ ins, timeIn xs ins < 2 ^ 64) :
    (∀ a ∈ gathered env xs, a ∈ sortedRuns (gathered env xs)) ↔
      ∀ x ∈ xs, ∀ y ∈ xs, x.1.ins = y.1.ins →
        timeOf env xs (entryKey env x.1) = timeOf env xs (entryKey env y.1) → entryKey env x.1 = entryKey env y.1 := by
  obtain ⟨hmap, honly⟩ : env.tidToCpumap = false ∧ env.onlyComm = true := by
    simpa [Env.byComm] using hcomm
  have hzero : ∀ a ∈ gathered env xs, a.another = 0 := by
    intro a ha
    obtain ⟨x, hx, hanother⟩ := (gathered_sums ha).entry
    rw [← hanother]
    exact (hproper x (List.mem_of_mem_filter hx) hmap).mpr honly
  have hentry (x : RuntimeEntry × UInt64) (hx : x ∈ xs) : ∃ a ∈ gathered env xs, runKey env a = entryKey env x.1 :=
    List.mem_map.mp (gathered_all env xs x hx)
  constructor
  · intro hall x hx y hy hins htime
    obtain ⟨a, ha, hakey⟩ := hentry x hx
    obtain ⟨b, hb, hbkey⟩ := hentry y hy
    have hruntime : a.runtime = b.runtime := by
      rw [← UInt64.toNat_inj, timeOf_runtime hbounded ha, timeOf_runtime hbounded hb, hakey, hbkey]
      exact htime
    have hains : a.ins = x.1.ins := pair_ins hakey
    have hbins : b.ins = y.1.ins := pair_ins hbkey
    have hsort : sortKey a = sortKey b :=
      sortKey_iff.mpr ⟨hains.trans (hins.trans hbins.symm), hruntime, (hzero a ha).trans (hzero b hb).symm⟩
    -- entries that are equal for the second rblist are the same
    have hat := (sortedRuns_sorted _).entryAt_eq.mpr ⟨hall a ha, hsort⟩
    have hab : a = b := Option.some.inj (hat.symm.trans ((sortedRuns_sorted _).entryAt_eq.mpr ⟨hall b hb, rfl⟩))
    rw [← hakey, ← hbkey, hab]
  · intro huntied a ha
    obtain ⟨b, hb, hsort⟩ := sortedRuns_key ha
    have hb' := sortedRuns_subset _ hb
    obtain ⟨hins, hruntime, -⟩ := sortKey_iff.mp hsort
    obtain ⟨x, hx, hxkey⟩ := List.mem_map.mp ((gathered_keys env xs _).mp (List.mem_map_of_mem ha))
    obtain ⟨y, hy, hykey⟩ := List.mem_map.mp ((gathered_keys env xs _).mp (List.mem_map_of_mem hb'))
    have hxkey : entryKey env x.1 = runKey env a := hxkey
    have hykey : entryKey env y.1 = runKey env b := hykey
    have hxins : x.1.ins = a.ins := pair_ins hxkey
    have hyins : y.1.ins = b.ins := pair_ins hykey
    have hsame := huntied y hy x hx (hyins.trans (hins.trans hxins.symm)) (by
      rw [hxkey, hykey, ← timeOf_runtime hbounded ha, ← timeOf_runtime hbounded hb', hruntime])
    have hab : b = a := runKey_inj hb' ha (hykey.symm.trans (hsame.trans hxkey))
    exact hab ▸ hb

/-- By cpu and thread they are all there. -/
theorem sortedRuns_tid (hcomm : env.byComm = false) : ∀ a ∈ gathered env xs, a ∈ sortedRuns (gathered env xs) := by
  intro a ha
  obtain ⟨b, hb, hsort⟩ := sortedRuns_key ha
  obtain ⟨hins, -, hanother⟩ := sortKey_iff.mp hsort
  have hkey : runKey env b = runKey env a := by
    unfold runKey pair
    rw [hcomm, hins, hanother]
    rfl
  exact runKey_inj (sortedRuns_subset _ hb) ha hkey ▸ hb

end Sorting

section Runs
variable {env : Env} {xs : List (RuntimeEntry × UInt64)} {ctx : OncpuCtx} {inputs pre : List Input}
  {bal : Rebalance Runtime}

/-- The sum of a block is the time of its instance. -/
theorem sumOf_block (hbounded : ∀ ins, timeIn xs ins < 2 ^ 64) {b : Runtime × List Runtime}
    (hb : b ∈ blocks Runtime.ins (gathered env xs)) : (sumOf (b.1 :: b.2)).toNat = timeIn xs b.1.ins := by
  have htimes : (((gathered env xs).filter fun run => run.ins = b.1.ins).map fun run => run.runtime.toNat) =
      ((gathered env xs).filter fun run => run.ins = b.1.ins).map fun run => timeOf env xs (runKey env run) :=
    List.map_congr_left fun run hrun => timeOf_runtime hbounded (List.mem_of_mem_filter hrun)
  rw [block_eq (gathered_ins env xs) b hb, sumOf_toNat, htimes,
    sum_timeOf (gathered_nodup env xs) (gathered_all env xs), Nat.mod_eq_of_lt (hbounded b.1.ins)]

/-- No sum is zero just if no time is. -/
theorem blocks_nonzero (env : Env) (hbounded : ∀ ins, timeIn xs ins < 2 ^ 64) :
    (∀ b ∈ blocks Runtime.ins (gathered env xs), sumOf (b.1 :: b.2) ≠ 0) ↔ ∀ x ∈ xs, timeIn xs x.1.ins ≠ 0 := by
  have hzero (b : Runtime × List Runtime) (hb : b ∈ blocks Runtime.ins (gathered env xs)) :
      sumOf (b.1 :: b.2) = 0 ↔ timeIn xs b.1.ins = 0 := by
    rw [← sumOf_block hbounded hb, ← UInt64.toNat_inj]
    rfl
  constructor
  · intro h x hx
    obtain ⟨run, hrun, hkey⟩ := List.mem_map.mp (gathered_all env xs x hx)
    have hins : run.ins = x.1.ins := pair_ins hkey
    rw [← flatten_blocks Runtime.ins (gathered env xs)] at hrun
    obtain ⟨b, hb, hmem⟩ := List.mem_flatMap.mp hrun
    rw [block_eq (gathered_ins env xs) b hb] at hmem
    have hbins : run.ins = b.1.ins := of_decide_eq_true (List.mem_filter.mp hmem).2
    rw [← hins, hbins]
    exact fun hz => h b hb ((hzero b hb).mpr hz)
  · intro h b hb hz
    have hmem : b.1 ∈ gathered env xs := by
      rw [← flatten_blocks Runtime.ins (gathered env xs)]
      exact List.mem_flatMap.mpr ⟨b, hb, List.mem_cons_self⟩
    obtain ⟨x, hx, hkey⟩ := List.mem_map.mp ((gathered_keys env xs _).mp (List.mem_map_of_mem hmem))
    have hkey : entryKey env x.1 = runKey env b.1 := hkey
    have hins : x.1.ins = b.1.ins := pair_ins hkey
    exact h x hx (hins ▸ (hzero b hb).mp hz)

/-- A report is complete just if the times can be counted. -/
theorem interval_iff (bal : Rebalance Runtime) (hlist : ctx.runtimes.entries.toList = gathered env xs)
    (hproper : ∀ x ∈ xs, Proper env x.1) : (∃ ctx' lines, oncpuInterval bal env ctx = some (ctx', lines) ∧
      Complete env xs lines ∧ ctx'.runtimes.entries.toList = []) ↔ Countable env xs := by
  cases hmap : env.tidToCpumap with
  | true =>
    have hcomm : env.byComm = false := by rw [Env.byComm, hmap]; rfl
    have hlines {ctx' : OncpuCtx} {lines : List Line} (h : oncpuInterval bal env ctx = some (ctx', lines)) :
        (Complete env xs lines ↔ ∀ ins, timeIn xs ins < 2 ^ 64) ∧ ctx'.runtimes.entries.toList = [] := by
      obtain ⟨hlines, hnil, -⟩ := (interval_map bal hmap).2 h
      rw [hlist] at hlines
      refine ⟨(complete_iff hlines (gathered_ins env xs) (gathered_nodup env xs) (List.Subset.refl _)).trans ?_, hnil⟩
      exact and_iff_right (gathered_all env xs)
    have hsome := (@interval_map env ctx ctx [] bal hmap).1
    rw [hlist] at hsome
    constructor
    · rintro ⟨ctx', lines, h, hcomplete, -⟩
      have hbounded := (hlines h).1.mp hcomplete
      refine ⟨hbounded, fun htrue => ?_, fun _ hsib => ?_⟩
      · rw [hcomm] at htrue
        cases htrue
      · exact (blocks_nonzero env hbounded).mp (hsome.mp (by rw [h]; rfl) hsib)
    · intro ⟨hbounded, _, hnonzero⟩
      have hisSome := hsome.mpr fun hsib => (blocks_nonzero env hbounded).mpr (hnonzero hmap hsib)
      obtain ⟨⟨ctx', lines⟩, h⟩ := Option.isSome_iff_exists.mp hisSome
      exact ⟨ctx', lines, h, (hlines h).1.mpr hbounded, (hlines h).2⟩
  | false =>
    obtain ⟨ctx', lines, h, hlines, hnil, -⟩ := interval_cpu bal hmap ctx
    rw [hlist] at hlines
    have hcomplete := complete_iff hlines (sortedRuns_ins _) (sortedRuns_nodup env xs) (sortedRuns_subset _)
    rw [sortedRuns_all] at hcomplete
    constructor
    · rintro ⟨ctx'', lines'', h'', hcomplete'', -⟩
      rw [h] at h''
      cases h''
      obtain ⟨hall, hbounded⟩ := hcomplete.mp hcomplete''
      refine ⟨hbounded, fun hcomm => (sortedRuns_comm hcomm hproper hbounded).mp hall, fun htrue => ?_⟩
      rw [hmap] at htrue
      cases htrue
    · intro ⟨hbounded, huntied, _⟩
      refine ⟨ctx', lines, h, hcomplete.mpr ⟨?_, hbounded⟩, hnil⟩
      cases hcomm : env.byComm with
      | true => exact (sortedRuns_comm hcomm hproper hbounded).mpr (huntied hcomm)
      | false => exact sortedRuns_tid hcomm

theorem sampleEntry_proper {lastTime : Int → UInt64} {s : Sample} {x : RuntimeEntry × UInt64}
    (h : (sampleEntry env lastTime s).2 = some x) : Proper env x.1 := by
  intro hmap
  unfold sampleEntry at h
  rw [hmap, if_neg Bool.false_ne_true] at h
  dsimp only at h
  split_ifs at h with htime hpid honly
  · cases h
    exact iff_of_true rfl honly
  · cases h
    exact iff_of_false hpid honly

theorem accountAll_concat (env : Env) (pre : List Input) (x : Input) :
    accountAll env (pre ++ [x]) = account env (accountAll env pre) x := List.foldl_concat _ _ _ _

theorem accounts_proper (env : Env) (inputs : List Input) : ∀ x ∈ accounts env inputs, Proper env x.1 := by
  induction inputs using List.reverseRecOn with
  | nil => exact nofun
  | append_singleton pre y ih =>
    intro x hx
    unfold accounts at hx
    rw [accountAll_concat] at hx
    cases y with
    | sample s =>
      rcases List.mem_append.mp hx with hx | hx
      · exact ih x hx
      · exact sampleEntry_proper (Option.mem_toList.mp hx)
    | lost ins => exact ih x hx
    | interval => cases hx

/-- The state behind a run. -/
structure Follows (env : Env) (inputs : List Input) (ctx : OncpuCtx) : Prop where
  lastTime : ctx.lastTime = (accountAll env inputs).1
  entries : ctx.runtimes.entries.toList = gathered env (accounts env inputs)

theorem Follows.sample (h : Follows env pre ctx) (bal : Rebalance Runtime) (s : Sample) :
    Follows env (pre ++ [.sample s]) (oncpuSample bal env s ctx) := by
  have hconcat := accountAll_concat env pre (.sample s)
  have haccounts : accounts env (pre ++ [.sample s]) =
      accounts env pre ++ (sampleEntry env ctx.lastTime s).2.toList := by
    unfold accounts
    rw [hconcat, h.lastTime]
    rfl
  have htime : (accountAll env (pre ++ [.sample s])).1 = (sampleEntry env ctx.lastTime s).1 := by
    rw [hconcat, h.lastTime]
    rfl
  unfold oncpuSample
  cases hentry : sampleEntry env ctx.lastTime s with
  | mk lastTime entry =>
    rw [hentry] at haccounts htime
    cases entry with
    | none =>
      refine ⟨htime.symm, ?_⟩
      rw [haccounts, Option.toList_none, List.append_nil]
      exact h.entries
    | some x =>
      refine ⟨htime.symm, ?_⟩
      have hproper : Proper env x.1 := sampleEntry_proper (congrArg Prod.snd hentry)
      have hsorted : Sorted (runKey env) ctx.runtimes.entries.toList := by
        rw [h.entries]
        exact gathered_sorted env _
      have hagrees : Agrees (runKey env) (nodeCmp env x.1) (runKey env (runtimeNodeNew x.1))
          ctx.runtimes.entries.toList := fun run _ => orders_nodeCmp hproper run
      have hnew := RbList.findnew_toList (f := Runtime.add x.2) bal hsorted hagrees
      dsimp only
      rw [hnew, h.entries, haccounts, Option.toList_some, gathered, gathered, gather, gather, List.foldl_concat]

theorem Follows.interval (h : Follows env pre ctx) {ctx' : OncpuCtx} {lines : List Line}
    (hinterval : oncpuInterval bal env ctx = some (ctx', lines)) : Follows env (pre ++ [.interval]) ctx' := by
  have hconcat := accountAll_concat env pre .interval
  have hboth : ctx'.runtimes.entries.toList = [] ∧ ctx'.lastTime = ctx.lastTime := by
    cases hmap : env.tidToCpumap with
    | true => exact ((interval_map bal hmap).2 hinterval).2
    | false =>
      obtain ⟨ctx'', lines', heq, -, hnil, htime⟩ := interval_cpu bal hmap ctx
      rw [hinterval] at heq
      cases heq
      exact ⟨hnil, htime⟩
  refine ⟨?_, ?_⟩
  · rw [hboth.2, h.lastTime, hconcat]
    rfl
  · unfold accounts
    rw [hboth.1, hconcat]
    rfl

theorem Follows.lost (h : Follows env pre ctx) (ins : Int) :
    Follows env (pre ++ [.lost ins]) (oncpuLost env ins ctx) := by
  have hconcat := accountAll_concat env pre (.lost ins)
  have haccounts : accounts env (pre ++ [.lost ins]) = accounts env pre := by
    unfold accounts
    rw [hconcat]
    rfl
  have htime : (accountAll env (pre ++ [.lost ins])).1 =
      if env.usingOrder || env.tidToCpumap then ctx.lastTime else Function.update ctx.lastTime ins 0 := by
    rw [hconcat, h.lastTime]
    rfl
  unfold oncpuLost
  cases horder : env.usingOrder with
  | true =>
    rw [horder] at htime
    exact ⟨htime.symm, haccounts ▸ h.entries⟩
  | false =>
    rw [horder] at htime
    cases hmap : env.tidToCpumap with
    | true =>
      rw [hmap] at htime
      exact ⟨htime.symm, haccounts ▸ h.entries⟩
    | false =>
      rw [hmap] at htime
      exact ⟨htime.symm, haccounts ▸ h.entries⟩

theorem run_concat (bal : Rebalance Runtime) (env : Env) (pre : List Input) (x : Input) :
    run bal env (pre ++ [x]) = (run bal env pre).bind fun ctx => step bal env ctx x := by
  unfold run
  rw [List.foldlM_append]
  cases List.foldlM (step bal env) oncpuInit pre with
  | none => rfl
  | some ctx => exact Option.bind_fun_some _

theorem run_follows (h : run bal env inputs = some ctx) : Follows env inputs ctx := by
  induction inputs using List.reverseRecOn generalizing ctx with
  | nil =>
    cases h
    exact ⟨rfl, rfl⟩
  | append_singleton pre x ih =>
    rw [run_concat] at h
    obtain ⟨ctx₀, hpre, hstep⟩ := Option.bind_eq_some_iff.mp h
    have hfollows := ih hpre
    cases x with
    | sample s =>
      cases hstep
      exact hfollows.sample bal s
    | lost ins =>
      cases hstep
      exact hfollows.lost ins
    | interval =>
      obtain ⟨⟨ctx', lines⟩, hinterval, rfl⟩ := Option.map_eq_some_iff.mp hstep
      exact hfollows.interval hinterval

/-- The reports of a run are complete just if the times between them can be counted. -/
theorem reports_iff (bal : Rebalance Runtime) (env : Env) (inputs : List Input) :
    (∀ pre, pre ++ [.interval] <+: inputs → Reports bal env pre) ↔
      ∀ pre, pre ++ [.interval] <+: inputs → Countable env (accounts env pre) := by
  have hreports {pre : List Input} {ctx : OncpuCtx} (hrun : run bal env pre = some ctx) :=
    interval_iff bal (run_follows hrun).entries (accounts_proper env pre)
  constructor
  · intro h pre hpre
    obtain ⟨ctx, ctx', lines, hrun, hinterval⟩ := h pre hpre
    exact (hreports hrun).mp ⟨ctx', lines, hinterval⟩
  · intro h
    have hruns (pre : List Input) (hpre : pre <+: inputs) : ∃ ctx, run bal env pre = some ctx := by
      induction pre using List.reverseRecOn with
      | nil => exact ⟨oncpuInit, rfl⟩
      | append_singleton pre x ih =>
        obtain ⟨ctx, hrun⟩ := ih ((List.prefix_append pre [x]).trans hpre)
        rw [run_concat, hrun, Option.bind_some]
        cases x with
        | sample s => exact ⟨_, rfl⟩
        | lost ins => exact ⟨_, rfl⟩
        | interval =>
          obtain ⟨ctx', lines, hinterval, -⟩ := (hreports hrun).mpr (h pre hpre)
          exact ⟨ctx', by rw [step, hinterval]; rfl⟩
    intro pre hpre
    obtain ⟨ctx, hrun⟩ := hruns pre ((List.prefix_append pre _).trans hpre)
    obtain ⟨ctx', lines, hinterval⟩ := (hreports hrun).mpr (h pre hpre)
    exact ⟨ctx, ctx', lines, hrun, hinterval⟩

end Runs

section Inputs

/-- The report by cpu and comm. -/
def commEnv : Env := ⟨false, true, false, id, none, fun _ => -1⟩

/-- The report by thread, with the sibling of each cpu. -/
def siblingEnv : Env := ⟨true, false, false, id, some (1 - ·), fun _ => -1⟩

def switch (time : UInt64) (pid : Int) (comm : CStr) : Input := .sample ⟨0, pid, time, 0, comm, pid, 0⟩

/-- Two comms that run on a cpu for the same time. -/
def tied : List Input := [switch 10 1 [97], switch 15 2 [98], switch 20 3 [99], .interval]

/-- A thread that has run for no time. -/
def idle : List Input := [.sample ⟨0, 7, 10, 0, [97], 7, 0⟩, .interval]

/-- One of the two comms is missing, and the report of the thread divides by zero. -/
theorem tied_lost : ¬ (∀ pre, pre ++ [.interval] <+: tied → Reports .none commEnv pre) ∧
    ¬ ∀ pre, pre ++ [.interval] <+: idle → Reports .none siblingEnv pre := by
  constructor
  · intro h
    obtain ⟨ctx, ctx', lines, hrun, hinterval, hcomplete, -⟩ := h [switch 10 1 [97], switch 15 2 [98], switch 20 3 [99]]
      (List.prefix_refl _)
    obtain ⟨ctx₁, lines₁, heq, hlines, -⟩ := @interval_cpu commEnv .none rfl ctx
    rw [hinterval] at heq
    cases heq
    have hall := hcomplete.entries (entryKey commEnv ⟨0, 0, [99]⟩)
    rw [hlines.printed, (run_follows hrun).entries] at hall
    revert hall
    decide
  · intro h
    obtain ⟨ctx, ctx', lines, hrun, hinterval, -⟩ := h [.sample ⟨0, 7, 10, 0, [97], 7, 0⟩] (List.prefix_refl _)
    have hsome := ((@interval_map siblingEnv ctx ctx [] .none rfl).1).mp (by rw [hinterval]; rfl) rfl
    rw [(run_follows hrun).entries] at hsome
    have hblocks : blocks Runtime.ins (gathered siblingEnv (accounts siblingEnv [.sample ⟨0, 7, 10, 0, [97], 7, 0⟩])) =
        [(⟨0, 0, 0, 1, 0, [97]⟩, [])] := by
      have hgathered : gathered siblingEnv (accounts siblingEnv [.sample ⟨0, 7, 10, 0, [97], 7, 0⟩]) =
          [⟨0, 0, 0, 1, 0, [97]⟩] := by decide
      rw [hgathered, blocks_cons, List.takeWhile_nil, List.dropWhile_nil, blocks_nil]
    rw [hblocks] at hsome
    exact hsome _ List.mem_cons_self rfl

end Inputs

end PerfProf.Oncpu
