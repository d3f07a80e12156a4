import Mathlib.Tactic.SplitIfs
import PerfProf.Hrcount

/-! The arithmetic of `monitor_ctx_init` in hrcount.c, for the interval and the period that the
user gives to hrcount or to stat. -/
namespace PerfProf.Hrcount

section Model

inductive Role where
  | hrcount
  | stat
deriving DecidableEq

structure Env where
  interval : Int32
  samplePeriod : Nat
deriving DecidableEq

/-- `env->interval * 1000000UL`. -/
def intervalNs (interval : Int32) : Nat := (interval.toInt * 1000000 % 2 ^ 64).toNat

/-- Where the interval or the period is not given. -/
def Env.defaults (env : Env) : Env :=
  let interval := if env.interval = 0 then 1000 else env.interval
  ⟨interval, if env.samplePeriod = 0 then intervalNs interval else env.samplePeriod⟩

/-- For stat the period is the interval to read at. -/
def Env.exchange (role : Role) (env : Env) : Env :=
  if role = .stat ∧ env.samplePeriod < intervalNs env.interval then
    ⟨Int32.ofNat (env.samplePeriod / 1000000), intervalNs env.interval⟩
  else env

/-- `ctx->hist_size`; none for a division by zero. -/
def Env.histSize (env : Env) : Option Int32 :=
  if env.samplePeriod < intervalNs env.interval then
    if env.samplePeriod = 0 then none
    else some (Int32.ofNat (intervalNs env.interval / env.samplePeriod))
  else if intervalNs env.interval = 0 then none
  else some (Int32.ofNat (env.samplePeriod / intervalNs env.interval))

/-- A product of two ints; none where it is undefined. -/
def intMul (a b : Int32) : Option Int32 :=
  if -2 ^ 31 ≤ a.toInt * b.toInt ∧ a.toInt * b.toInt < 2 ^ 31 then some (a * b) else none

/-- `ctx->pertp_max_len[i]`. -/
def pertpMaxLen (histSize : Int32) (tp : Tp) : Option Int32 :=
  if tp.isDev then some 0
  else (intMul histSize (2 + 1)).map fun len => if tp.title < len - 1 then len - 1 else tp.title

/-- `monitor_ctx_init`, with memory and with events; none where it divides by zero or the value of
an int is undefined. The display is packed if the terminal has room for it. -/
def monitorCtxInit (role : Role) (env : Env) (perins room : Bool) (nrIns : Nat)
    (tpList : List Tp) : Option (Env × HrcountCtx) := do
  let env := env.defaults.exchange role
  let histSize ← env.histSize
  let slots : Int32 := 2
  let distSize ← intMul histSize slots
  let pertpMaxLen ← tpList.mapM (pertpMaxLen histSize)
  return (env, {
    tpList := tpList
    counters := fun _ _ => 0
    perinsPos := List.replicate nrIns 0
    countDist := .new perins true false distSize
    histSize := histSize
    period := env.samplePeriod
    packedDisplay := room && decide (histSize ≤ 5)
    rounds := 0
    slots := slots.toInt.toNat
    roundNr := 0
    needReset := false
    pertpMaxLen := pertpMaxLen })

/-- The width of a column in `packed_print`, where the largest counter has `len` digits; none for a
division by zero. -/
def packedColumn (ctx : HrcountCtx) (node : CountNode) (len : Int32) : Option Int32 :=
  let maxLen := ctx.histSize * (len + 1) - 1
  let pertp := ctx.pertpMaxLen.getD node.id 0
  let pertp := if pertp < maxLen then maxLen else pertp
  if ctx.histSize = 0 then none else some ((pertp + 1) / ctx.histSize - 1)

end Model

section Spec

/-- The interval in ns and the period that the user asks for. -/
def Env.asked (env : Env) : Int × Int :=
  (env.defaults.interval.toInt * 1000000, env.defaults.samplePeriod)

/-- The larger over the smaller. -/
def floorRatio (p : Int × Int) : Int := (max p.1 p.2).fdiv (min p.1 p.2)

/-- What the sizes of `ctx` are good for, whatever has been counted and printed. -/
structure Sized (asked : Int × Int) (ctx : HrcountCtx) : Prop where
  pos : 1 ≤ ctx.histSize.toInt
  ratio : ctx.histSize.toInt = floorRatio asked
  inserted : ∀ d : CountDist, d.histSize = ctx.countDist.histSize → ∀ i, ∃ h, d.cell i = some h ∧
    (h : Int) < ctx.histSize.toInt * ctx.slots
  printed : ∀ rounds, ∀ h ∈ HrcountCtx.printCells { ctx with rounds := rounds },
    (h : Int) < ctx.histSize.toInt * ctx.slots
  packed : ∀ node len, (packedColumn ctx node len).isSome

/-- The initialisation divides by nothing that is zero and leaves sizes that are right. -/
def Configured (role : Role) (env : Env) (perins room : Bool) (nrIns : Nat) (tpList : List Tp) :
    Prop :=
  ∃ env' ctx, monitorCtxInit role env perins room nrIns tpList = some (env', ctx) ∧
    Sized env.asked ctx

/-- The period of stat is below its interval and is taken for one of whole milliseconds. -/
def Env.Exchanged (role : Role) (env : Env) : Prop := role = .stat ∧ env.asked.2 < env.asked.1

/-- What the initialisation needs. -/
structure Fits (role : Role) (env : Env) (tpList : List Tp) : Prop where
  interval : 0 < env.asked.1
  size : floorRatio env.asked * (if tpList.all Tp.isDev then 2 else 3) < 2 ^ 31
  millisecond : env.Exchanged role → 1000000 ≤ env.asked.2
  whole : env.Exchanged role →
    env.asked.1 / (env.asked.2 / 1000000 * 1000000) = env.asked.1 / env.asked.2

end Spec

section Sizes
variable {role : Role} {env env' : Env} {perins room : Bool} {nrIns : Nat} {tpList : List Tp}
  {histSize : Int32} {ctx : HrcountCtx} {i : Int32}

theorem intervalNs_pos (h : 0 ≤ i.toInt) : (intervalNs i : Int) = i.toInt * 1000000 := by
  have hlt := i.toInt_lt
  rw [intervalNs, Int.emod_eq_of_lt (by omega) (by omega), Int.toNat_of_nonneg (by omega)]

theorem intervalNs_ne (h : i ≠ 0) : intervalNs i ≠ 0 := by
  have hne : i.toInt ≠ 0 := fun hz => h (Int32.toInt_inj.mp hz)
  have habs : |i.toInt * 1000000| < 2 ^ 64 := by
    have hlt := i.toInt_lt
    have hle := i.le_toInt
    exact abs_lt.mpr ⟨by omega, by omega⟩
  intro hz
  have hmod : i.toInt * 1000000 % 2 ^ 64 = 0 :=
    le_antisymm (Int.toNat_eq_zero.mp hz) (Int.emod_nonneg _ (by decide))
  have hzero := Int.eq_zero_of_abs_lt_dvd (Int.dvd_of_emod_eq_zero hmod) habs
  exact hne ((Int.mul_eq_zero.mp hzero).resolve_right (by decide))

theorem defaults_interval (env : Env) : env.defaults.interval ≠ 0 := by
  rw [Env.defaults]
  dsimp only
  split_ifs with h
  · decide
  · exact h

theorem defaults_period (env : Env) : env.defaults.samplePeriod ≠ 0 := by
  have hinterval := defaults_interval env
  rw [Env.defaults] at hinterval ⊢
  dsimp only at hinterval ⊢
  by_cases h : env.samplePeriod = 0
  · rw [if_pos h]
    exact intervalNs_ne hinterval
  · rw [if_neg h]
    exact h

theorem intMul_eq_some {a b c : Int32} (h : intMul a b = some c) : c.toInt = a.toInt * b.toInt := by
  rw [intMul] at h
  split_ifs at h with hab
  cases h
  rw [Int32.toInt_mul, Int.bmod_eq_of_le (by omega) (by omega)]

theorem intMul_isSome {a b : Int32} (ha : 0 ≤ a.toInt) (hb : 0 ≤ b.toInt) :
    (∃ c, intMul a b = some c) ↔ a.toInt * b.toInt < 2 ^ 31 := by
  have hmul : 0 ≤ a.toInt * b.toInt := Int.mul_nonneg ha hb
  rw [intMul]
  constructor
  · rintro ⟨c, hc⟩
    split_ifs at hc with hab
    exact hab.2
  · intro h
    exact ⟨_, if_pos ⟨by omega, h⟩⟩

theorem mapM_isSome {α β : Type} {f : α → Option β} {l : List α} :
    (∃ l', l.mapM f = some l') ↔ ∀ a ∈ l, ∃ b, f a = some b := by
  induction l with
  | nil => simp
  | cons a l ih =>
    rw [List.mapM_cons, List.forall_mem_cons, ← ih]
    cases f a with
    | none => simp
    | some b =>
      cases List.mapM f l with
      | none => simp
      | some l' => simp

/-- The widths are ints. -/
theorem pertpMaxLen_isSome (h : 0 ≤ histSize.toInt) :
    (∃ lens, tpList.mapM (pertpMaxLen histSize) = some lens) ↔
      (tpList.all Tp.isDev = true ∨ histSize.toInt * 3 < 2 ^ 31) := by
  have hthree : (∃ c, intMul histSize (2 + 1) = some c) ↔ histSize.toInt * 3 < 2 ^ 31 :=
    intMul_isSome h (by decide)
  rw [mapM_isSome, List.all_eq_true, ← hthree]
  constructor
  · intro hall
    by_cases hdev : ∀ tp ∈ tpList, tp.isDev = true
    · exact .inl hdev
    · simp only [not_forall] at hdev
      obtain ⟨tp, htp, hreal⟩ := hdev
      obtain ⟨b, hb⟩ := hall tp htp
      rw [pertpMaxLen, if_neg hreal] at hb
      obtain ⟨c, hc, _⟩ := Option.map_eq_some_iff.mp hb
      exact .inr ⟨c, hc⟩
  · intro hor tp htp
    rw [pertpMaxLen]
    by_cases hdev : tp.isDev = true
    · exact ⟨0, if_pos hdev⟩
    · rcases hor with hall | ⟨c, hc⟩
      · exact absurd (hall tp htp) hdev
      · rw [if_neg hdev, hc]
        exact ⟨_, rfl⟩

theorem sized_of (asked : Int × Int) (hpos : 1 ≤ ctx.histSize.toInt)
    (hratio : ctx.histSize.toInt = floorRatio asked) (hslots : ctx.slots = 2)
    (hdist : ctx.countDist.histSize.toInt = ctx.histSize.toInt * 2) : Sized asked ctx := by
  refine ⟨hpos, hratio, fun d hd i => ?_, fun rounds h hh => ?_, fun node len => ?_⟩
  · have hlt := d.histSize.toInt_lt
    rw [← hd] at hdist
    have hne : d.histSize ≠ 0 := by
      intro hz
      rw [hz, Int32.toInt_zero] at hdist
      omega
    refine ⟨_, if_neg hne, ?_⟩
    have hsize : (d.histSize.toInt % 2 ^ 64).toNat = d.histSize.toInt.toNat := by
      rw [Int.emod_eq_of_lt (by omega) (by omega)]
    have hmod := Nat.mod_lt i (show 0 < d.histSize.toInt.toNat by omega)
    rw [hsize, hslots]
    clear hsize
    omega
  · obtain ⟨k, hk, rfl⟩ := List.mem_range'.mp hh
    have hround : rounds % 2 * ctx.histSize.toInt.toNat ≤ 1 * ctx.histSize.toInt.toNat :=
      Nat.mul_le_mul_right _ (by omega)
    rw [HrcountCtx.slot, hslots]
    dsimp only at hk ⊢
    omega
  · have hne : ctx.histSize ≠ 0 := by
      intro hz
      rw [hz, Int32.toInt_zero] at hpos
      omega
    rw [packedColumn, if_neg hne]
    rfl

/-- With a history size that has been computed, the rest is whether it is right and small enough. -/
theorem configured_of_histSize (h : (env.defaults.exchange role).histSize = some histSize) :
    Configured role env perins room nrIns tpList ↔
      1 ≤ histSize.toInt ∧ histSize.toInt = floorRatio env.asked ∧
        histSize.toInt * (if tpList.all Tp.isDev then 2 else 3) < 2 ^ 31 := by
  constructor
  · rintro ⟨env', ctx, hinit, hsized⟩
    rw [monitorCtxInit, h] at hinit
    dsimp only [Option.bind_eq_bind, Option.bind_some] at hinit
    obtain ⟨distSize, hdist, hinit⟩ := Option.bind_eq_some_iff.mp hinit
    obtain ⟨lens, hlens, hinit⟩ := Option.bind_eq_some_iff.mp hinit
    cases hinit
    have hpos : 1 ≤ histSize.toInt := hsized.pos
    have htwo : histSize.toInt * 2 < 2 ^ 31 :=
      (intMul_isSome (by omega) (by decide)).mp ⟨distSize, hdist⟩
    refine ⟨hpos, hsized.ratio, ?_⟩
    split_ifs with hdev
    · exact htwo
    · exact ((pertpMaxLen_isSome (by omega)).mp ⟨lens, hlens⟩).resolve_left hdev
  · rintro ⟨hpos, hratio, hsmall⟩
    have htwo : histSize.toInt * 2 < 2 ^ 31 := by
      split_ifs at hsmall
      · exact hsmall
      · omega
    obtain ⟨distSize, hdist⟩ : ∃ c, intMul histSize 2 = some c :=
      (intMul_isSome (by omega) (by decide)).mpr htwo
    obtain ⟨lens, hlens⟩ : ∃ lens, tpList.mapM (pertpMaxLen histSize) = some lens := by
      refine (pertpMaxLen_isSome (by omega)).mpr ?_
      split_ifs at hsmall with hdev
      · exact .inl hdev
      · exact .inr hsmall
    have hinit : ∃ env' ctx, monitorCtxInit role env perins room nrIns tpList = some (env', ctx) ∧
        ctx.histSize = histSize ∧ ctx.slots = 2 ∧ ctx.countDist.histSize = distSize := by
      rw [monitorCtxInit, h]
      dsimp only [Option.bind_eq_bind, Option.bind_some]
      rw [hdist]
      dsimp only [Option.bind_some]
      rw [hlens]
      exact ⟨_, _, rfl, rfl, rfl, rfl⟩
    obtain ⟨env', ctx, hinit, rfl, hslots, rfl⟩ := hinit
    exact ⟨env', ctx, hinit, sized_of _ hpos hratio hslots (intMul_eq_some hdist)⟩

theorem not_configured_of_histSize (h : (env.defaults.exchange role).histSize = none) :
    ¬ Configured role env perins room nrIns tpList := by
  rintro ⟨env', ctx, hinit, _⟩
  rw [monitorCtxInit, h] at hinit
  cases hinit

end Sizes

section Ratio
variable {role : Role} {env : Env} {perins room : Bool} {nrIns : Nat} {tpList : List Tp} {n m : Nat}

theorem floorRatio_le (h : n ≤ m) : floorRatio ((n : Int), (m : Int)) = (m / n : Nat) := by
  rw [floorRatio]
  dsimp only
  rw [max_eq_right (by exact_mod_cast h), min_eq_left (by exact_mod_cast h),
    Int.natCast_div, Int.fdiv_eq_ediv_of_nonneg _ (Int.natCast_nonneg n)]

theorem floorRatio_ge (h : m ≤ n) : floorRatio ((n : Int), (m : Int)) = (n / m : Nat) := by
  rw [floorRatio]
  dsimp only
  rw [max_eq_left (by exact_mod_cast h), min_eq_right (by exact_mod_cast h),
    Int.natCast_div, Int.fdiv_eq_ediv_of_nonneg _ (Int.natCast_nonneg m)]

/-- A negative interval has no ratio. -/
theorem floorRatio_neg {i : Int} (h : i ≤ 0) : floorRatio (i, (m : Int)) ≤ 0 := by
  rw [floorRatio, max_eq_right (by omega), min_eq_left (by omega)]
  exact Int.fdiv_nonpos_of_nonneg_of_nonpos (by omega) h

/-- What is left to ask of a ratio that has been put into an int. -/
theorem ofNat_ratio {b : Bool} (h : 1 ≤ n) : (1 ≤ (Int32.ofNat n).toInt ∧ (Int32.ofNat n).toInt = n ∧
    (Int32.ofNat n).toInt * (if b then 2 else 3) < 2 ^ 31) ↔ (n : Int) * (if b then 2 else 3) < 2 ^ 31 := by
  constructor
  · rintro ⟨_, heq, hlt⟩
    rwa [heq] at hlt
  · intro hlt
    have hint : (Int32.ofNat n).toInt = n := by
      refine Int32.toInt_ofNat_of_lt ?_
      split_ifs at hlt
      · omega
      · omega
    rw [hint]
    exact ⟨by omega, rfl, hlt⟩

theorem asked_pos (h : 0 < env.asked.1) :
    env.asked = ((intervalNs env.defaults.interval : Int), (env.defaults.samplePeriod : Int)) ∧
      0 < intervalNs env.defaults.interval := by
  have hpos : 0 < env.defaults.interval.toInt * 1000000 := h
  have hns := intervalNs_pos (i := env.defaults.interval) (by omega)
  refine ⟨?_, by omega⟩
  rw [hns]
  rfl

theorem intervalNs_lt (h : 0 < env.asked.1) :
    intervalNs env.defaults.interval < 1000000 * 2 ^ 31 := by
  have hint := env.defaults.interval.toInt_lt
  have hpos : 0 < env.defaults.interval.toInt * 1000000 := h
  have hns := intervalNs_pos (i := env.defaults.interval) (by omega)
  omega

/-- Interval and period stay as they are. -/
theorem configured_kept (h : 0 < env.asked.1) (hkept : ¬ env.Exchanged role) :
    Configured role env perins room nrIns tpList ↔
      floorRatio env.asked * (if tpList.all Tp.isDev then 2 else 3) < 2 ^ 31 := by
  obtain ⟨hasked, hI⟩ := asked_pos h
  have hP := defaults_period env
  have hsame : env.defaults.exchange role = env.defaults := by
    rw [Env.exchange, if_neg]
    rintro ⟨hrole, hlt⟩
    refine hkept ⟨hrole, ?_⟩
    rw [hasked]
    exact Int.ofNat_lt.mpr hlt
  rw [hasked]
  by_cases hlt : env.defaults.samplePeriod < intervalNs env.defaults.interval
  · rw [floorRatio_ge (Nat.le_of_lt hlt), ← ofNat_ratio (Nat.div_pos (Nat.le_of_lt hlt) (by omega)),
      ← floorRatio_ge (Nat.le_of_lt hlt), ← hasked]
    refine configured_of_histSize ?_
    rw [hsame, Env.histSize, if_pos hlt, if_neg hP]
  · rw [floorRatio_le (Nat.le_of_not_lt hlt), ← ofNat_ratio (Nat.div_pos (Nat.le_of_not_lt hlt) hI),
      ← floorRatio_le (Nat.le_of_not_lt hlt), ← hasked]
    refine configured_of_histSize ?_
    rw [hsame, Env.histSize, if_neg hlt, if_neg (by omega)]

theorem wholeMs_eq_zero : n / 1000000 * 1000000 = 0 ↔ n < 1000000 := by
  rw [Nat.mul_eq_zero, Nat.div_eq_zero_iff]
  simp

/-- The period is taken for the interval, in whole milliseconds. -/
theorem histSize_exchanged (h : 0 < env.asked.1) (hex : env.Exchanged role) :
    (env.defaults.exchange role).histSize =
      if env.defaults.samplePeriod < 1000000 then none
      else some (Int32.ofNat (intervalNs env.defaults.interval /
        (env.defaults.samplePeriod / 1000000 * 1000000))) := by
  obtain ⟨hasked, hI⟩ := asked_pos h
  obtain ⟨hrole, hlt⟩ := hex
  rw [hasked] at hlt
  have hPI : env.defaults.samplePeriod < intervalNs env.defaults.interval := Int.ofNat_lt.mp hlt
  have hbound := intervalNs_lt h
  have hq : (Int32.ofNat (env.defaults.samplePeriod / 1000000)).toInt =
      (env.defaults.samplePeriod / 1000000 : Nat) := Int32.toInt_ofNat_of_lt (by omega)
  have hns : intervalNs (Int32.ofNat (env.defaults.samplePeriod / 1000000)) =
      env.defaults.samplePeriod / 1000000 * 1000000 := by
    have hpos := intervalNs_pos (i := Int32.ofNat (env.defaults.samplePeriod / 1000000)) (by omega)
    omega
  rw [Env.exchange, if_pos ⟨hrole, hPI⟩, Env.histSize]
  dsimp only
  rw [hns, if_neg (Nat.not_lt.mpr (Nat.le_trans (Nat.div_mul_le_self ..) (Nat.le_of_lt hPI))),
    if_congr wholeMs_eq_zero rfl rfl]

theorem configured_exchanged (h : 0 < env.asked.1) (hex : env.Exchanged role) :
    Configured role env perins room nrIns tpList ↔
      floorRatio env.asked * (if tpList.all Tp.isDev then 2 else 3) < 2 ^ 31 ∧
        1000000 ≤ env.asked.2 ∧
        env.asked.1 / (env.asked.2 / 1000000 * 1000000) = env.asked.1 / env.asked.2 := by
  have hhist := histSize_exchanged h hex
  obtain ⟨hasked, hI⟩ := asked_pos h
  obtain ⟨hrole, hlt⟩ := hex
  rw [hasked] at hlt ⊢
  have hPI : env.defaults.samplePeriod < intervalNs env.defaults.interval := Int.ofNat_lt.mp hlt
  dsimp only
  by_cases hms : env.defaults.samplePeriod < 1000000
  · rw [if_pos hms] at hhist
    exact iff_of_false (not_configured_of_histSize hhist) fun hfits => by omega
  · rw [if_neg hms] at hhist
    have hdiv : 1000000 ≤ env.defaults.samplePeriod / 1000000 * 1000000 :=
      Nat.le_mul_of_pos_left _ (Nat.div_pos (Nat.le_of_not_lt hms) (by decide))
    have hone : 1 ≤ intervalNs env.defaults.interval /
        (env.defaults.samplePeriod / 1000000 * 1000000) :=
      Nat.div_pos (Nat.le_trans (Nat.div_mul_le_self ..) (Nat.le_of_lt hPI))
        (Nat.lt_of_lt_of_le (by decide) hdiv)
    have hint : (Int32.ofNat (intervalNs env.defaults.interval /
        (env.defaults.samplePeriod / 1000000 * 1000000))).toInt =
          (intervalNs env.defaults.interval /
            (env.defaults.samplePeriod / 1000000 * 1000000) : Nat) :=
      Int32.toInt_ofNat_of_lt (Nat.div_lt_of_lt_mul
        (Nat.lt_of_lt_of_le (intervalNs_lt h) (Nat.mul_le_mul_right _ hdiv)))
    have hcast : (intervalNs env.defaults.interval : Int) /
        ((env.defaults.samplePeriod : Int) / 1000000 * 1000000) =
          (intervalNs env.defaults.interval /
            (env.defaults.samplePeriod / 1000000 * 1000000) : Nat) := rfl
    rw [configured_of_histSize hhist, hasked, floorRatio_ge (Nat.le_of_lt hPI), hint, hcast]
    constructor
    · rintro ⟨_, heq, hsmall⟩
      rw [heq] at hsmall
      exact ⟨hsmall, by omega, heq⟩
    · rintro ⟨hsmall, _, heq⟩
      have heq' : ((intervalNs env.defaults.interval /
          (env.defaults.samplePeriod / 1000000 * 1000000) : Nat) : Int) =
            (intervalNs env.defaults.interval / env.defaults.samplePeriod : Nat) := heq
      refine ⟨by exact_mod_cast hone, heq', ?_⟩
      rw [heq']
      exact hsmall

/-- The initialisation does what it should if and only if the interval is positive, the sizes are
ints, and an interval and a period that are exchanged lose nothing in whole milliseconds. -/
theorem configured_iff (role : Role) (env : Env) (perins room : Bool) (nrIns : Nat)
    (tpList : List Tp) :
    Configured role env perins room nrIns tpList ↔ Fits role env tpList := by
  by_cases h : 0 < env.asked.1
  · by_cases hex : env.Exchanged role
    · rw [configured_exchanged h hex]
      exact ⟨fun ⟨hsmall, hms, hwhole⟩ => ⟨h, hsmall, fun _ => hms, fun _ => hwhole⟩,
        fun hfits => ⟨hfits.size, hfits.millisecond hex, hfits.whole hex⟩⟩
    · rw [configured_kept h hex]
      exact ⟨fun hsmall => ⟨h, hsmall, fun he => absurd he hex, fun he => absurd he hex⟩,
        fun hfits => hfits.size⟩
  · refine iff_of_false ?_ fun hfits => h hfits.interval
    rintro ⟨env', ctx, _, hsized⟩
    have hle : floorRatio env.asked ≤ 0 := floorRatio_neg (not_lt.mp h)
    have hpos := hsized.pos
    rw [hsized.ratio] at hpos
    omega

/-- `stat -i 1000 --period 500us` divides by zero, and with `--period 1500us` there are 1000 periods
where an interval has 666. -/
theorem periods_of_stat :
    monitorCtxInit .stat ⟨1000, 500000⟩ true true 1 [⟨false, 12⟩] = none ∧
      ¬ Configured .stat ⟨1000, 500000⟩ true true 1 [⟨false, 12⟩] ∧
      ¬ Configured .stat ⟨1000, 1500000⟩ true true 1 [⟨false, 12⟩] := by
  have hnone : ((⟨1000, 500000⟩ : Env).defaults.exchange .stat).histSize = none := by decide +kernel
  have hsize : ((⟨1000, 1500000⟩ : Env).defaults.exchange .stat).histSize = some 1000 := by
    decide +kernel
  refine ⟨?_, not_configured_of_histSize hnone, fun hc => ?_⟩
  · rw [monitorCtxInit, hnone]
    rfl
  · have hratio := ((configured_of_histSize hsize).mp hc).2.1
    exact absurd hratio (by decide +kernel)

end Ratio

end PerfProf.Hrcount
