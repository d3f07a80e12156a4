import PerfProf.FixedPoint

/-! convert.c: perfclock, TSC and kvmclock. All clocks are u64 and wrap; a conversion is a
chain of fixed-point stages, each of them undone by the opposite conversion. -/
namespace PerfProf.Convert
open PerfProf.FixedPoint

def add64 (a b : Nat) : Nat := (a + b) % 2 ^ 64

def sub64 (a b : Nat) : Nat := (a + 2 ^ 64 - b) % 2 ^ 64

def shl64 (a shift : Nat) : Nat := a * 2 ^ shift % 2 ^ 64

structure PerfTscConversion where
  timeShift : Nat
  timeMult : Nat
  timeZero : Nat
  deriving DecidableEq

structure PvclockVcpuTimeInfo where
  tscTimestamp : Nat
  systemTime : Nat
  tscToSystemMul : Nat
  tscShift : Int
  deriving DecidableEq

structure VcpuData where
  pvti : PvclockVcpuTimeInfo
  tscOffset : Nat
  tscScalingRatio : Nat
  deriving DecidableEq

/- What `tsc_scaling_setup` found: no scaling, VMX or SVM. -/
inductive TscScaling where
  | unsupported
  | vmx
  | svm
  deriving DecidableEq

def TscScaling.ratioFracBits : TscScaling → Nat
  | .unsupported => 0
  | .vmx => 48
  | .svm => 32

def TscScaling.defaultRatio : TscScaling → Nat
  | .unsupported => 0
  | s => shl64 1 s.ratioFracBits

inductive NeedConv where
  | none
  | toTsc
  | toKvmclock
  | addOffset
  deriving DecidableEq

/- What the conversions read of a device. -/
structure ProfDev where
  needConv : NeedConv
  tscConv : PerfTscConversion
  vcpu0 : VcpuData
  scaling : TscScaling
  clockOffset : Nat
  deriving DecidableEq

section Math64

def mulU64U32Shr (a b shift : Nat) : Nat := a * b / 2 ^ shift % 2 ^ 64

def mulU64U64Shr (a mul shift : Nat) : Nat := a * mul / 2 ^ shift % 2 ^ 64

/- `divq` faults when the quotient needs more than 64 bits. -/
def mulU64U64Div64 (a b c : Nat) : Nat := a * b / c % 2 ^ 64

def pvclockScaleDelta (delta mulFrac : Nat) (shift : Int) : Nat :=
  let delta := if shift < 0 then delta / 2 ^ shift.natAbs else shl64 delta shift.natAbs
  delta * mulFrac / 2 ^ 32 % 2 ^ 64

def pvclockReadCycles (src : PvclockVcpuTimeInfo) (tsc : Nat) : Nat :=
  let delta := sub64 tsc src.tscTimestamp
  let offset := pvclockScaleDelta delta src.tscToSystemMul src.tscShift
  add64 src.systemTime offset

end Math64

section Clocks

def perfclockToTsc (tc : PerfTscConversion) (ns : Nat) : Nat :=
  let t := sub64 ns tc.timeZero
  let quot := t / tc.timeMult
  let rem := t % tc.timeMult
  add64 (shl64 quot tc.timeShift) (shl64 rem tc.timeShift / tc.timeMult)

def tscToPerfclock (tc : PerfTscConversion) (tsc : Nat) : Nat :=
  let ns := mulU64U32Shr tsc tc.timeMult tc.timeShift
  add64 ns tc.timeZero

variable (v : ProfDev)

def kvmScaleTsc (tsc : Nat) : Nat :=
  let ratio := v.vcpu0.tscScalingRatio
  if ratio ≠ v.scaling.defaultRatio then mulU64U64Shr tsc ratio v.scaling.ratioFracBits else tsc

def kvmReadL1Tsc (hostTsc : Nat) : Nat := add64 v.vcpu0.tscOffset (kvmScaleTsc v hostTsc)

def hostTscToKvmclock (hostTsc : Nat) : Nat :=
  pvclockReadCycles v.vcpu0.pvti (kvmReadL1Tsc v hostTsc)

def perfclockToKvmclock (time : Nat) : Nat :=
  hostTscToKvmclock v (perfclockToTsc v.tscConv time)

def kvmclockToPerfclock (time : Nat) : Nat :=
  let pvti := v.vcpu0.pvti
  let tscShift := (pvti.tscShift - 32).natAbs
  let offset := sub64 time pvti.systemTime
  let delta := mulU64U64Div64 offset (shl64 1 tscShift) pvti.tscToSystemMul
  let guestTsc := add64 delta pvti.tscTimestamp
  -- the scaled value replaces the one the offset was taken from
  let hostTsc :=
    if v.vcpu0.tscScalingRatio ≠ v.scaling.defaultRatio then
      mulU64U64Div64 guestTsc v.scaling.defaultRatio v.vcpu0.tscScalingRatio
    else
      sub64 guestTsc v.vcpu0.tscOffset
  tscToPerfclock v.tscConv hostTsc

def perfclockToEvclock (time : Nat) : Nat :=
  match v.needConv with
  | .none => time
  | .toTsc => add64 (perfclockToTsc v.tscConv time) v.clockOffset
  | .toKvmclock => add64 (perfclockToKvmclock v time) v.clockOffset
  | .addOffset => add64 time v.clockOffset

def evclockToPerfclock (time : Nat) : Nat :=
  match v.needConv with
  | .none => time
  | .toTsc => tscToPerfclock v.tscConv (sub64 time v.clockOffset)
  | .toKvmclock => kvmclockToPerfclock v (sub64 time v.clockOffset)
  | .addOffset => sub64 time v.clockOffset

end Clocks

section Words

theorem sub64_lt (a b : Nat) : sub64 a b < 2 ^ 64 := Nat.mod_lt _ (by decide)

theorem add64_lt (a b : Nat) : add64 a b < 2 ^ 64 := Nat.mod_lt _ (by decide)

theorem add64_comm (a b : Nat) : add64 a b = add64 b a := by
  rw [add64, add64, Nat.add_comm]

theorem shl64_of_lt {a s : Nat} (h : a * 2 ^ s < 2 ^ 64) : shl64 a s = a * 2 ^ s :=
  Nat.mod_eq_of_lt h

theorem sub64_add64 {a b : Nat} (ha : a < 2 ^ 64) (hb : b < 2 ^ 64) :
    add64 (sub64 a b) b = a :=
  sub_add_mod ha hb

theorem add64_sub64 {a b : Nat} (ha : a < 2 ^ 64) (hb : b < 2 ^ 64) :
    sub64 (add64 a b) b = a := by
  unfold sub64 add64
  omega

theorem sub64_of_le {a b : Nat} (ha : a < 2 ^ 64) (h : b ≤ a) : sub64 a b = a - b := by
  unfold sub64
  omega

theorem sub64_eq {a b : Nat} (hb : b < 2 ^ 64) : sub64 a b = (a + (2 ^ 64 - b)) % 2 ^ 64 := by
  rw [sub64, Nat.add_sub_assoc (le_of_lt hb)]

end Words

section Stages

/- The two halves of `perfclock_to_tsc` add up to one floored product. -/
theorem perfclockToTsc_eq {tc : PerfTscConversion} {ns : Nat} (hm : 0 < tc.timeMult)
    (hrem : sub64 ns tc.timeZero % tc.timeMult * 2 ^ tc.timeShift < 2 ^ 64)
    (htsc : sub64 ns tc.timeZero * 2 ^ tc.timeShift / tc.timeMult < 2 ^ 64) :
    perfclockToTsc tc ns = sub64 ns tc.timeZero * 2 ^ tc.timeShift / tc.timeMult := by
  generalize hd : sub64 ns tc.timeZero = d at hrem htsc ⊢
  have hsplit : d * 2 ^ tc.timeShift / tc.timeMult =
      d / tc.timeMult * 2 ^ tc.timeShift + d % tc.timeMult * 2 ^ tc.timeShift / tc.timeMult := by
    have hd' : d * 2 ^ tc.timeShift = d % tc.timeMult * 2 ^ tc.timeShift +
        tc.timeMult * (d / tc.timeMult * 2 ^ tc.timeShift) := by
      calc d * 2 ^ tc.timeShift
          = (d % tc.timeMult + tc.timeMult * (d / tc.timeMult)) * 2 ^ tc.timeShift := by
            rw [Nat.mod_add_div]
        _ = _ := by ring
    rw [hd', Nat.add_mul_div_left _ _ hm, Nat.add_comm]
  have hquot : d / tc.timeMult * 2 ^ tc.timeShift < 2 ^ 64 :=
    lt_of_le_of_lt (by rw [hsplit]; exact Nat.le_add_right _ _) htsc
  simp only [perfclockToTsc, hd]
  rw [shl64_of_lt hquot, shl64_of_lt hrem, add64, ← hsplit, Nat.mod_eq_of_lt htsc]

theorem tscToPerfclock_below_iff {tc : PerfTscConversion} {t tsc : Nat} {e : ℚ}
    (hm : 0 < tc.timeMult) (ht : t < 2 ^ 64) (hz : tc.timeZero < 2 ^ 64)
    (hrem : sub64 t tc.timeZero % tc.timeMult * 2 ^ tc.timeShift < 2 ^ 64)
    (htsc : sub64 t tc.timeZero * 2 ^ tc.timeShift / tc.timeMult < 2 ^ 64)
    (h : Below e tsc (perfclockToTsc tc t)) :
    Below (1 + tc.timeMult / 2 ^ tc.timeShift * (1 + e)) (tscToPerfclock tc tsc) t ↔
      sub64 t tc.timeZero - tsc * tc.timeMult / 2 ^ tc.timeShift ≤ t := by
  rw [perfclockToTsc_eq hm hrem htsc] at h
  have hns := h.stage hm (Nat.two_pow_pos tc.timeShift)
  rw [Nat.cast_pow, Nat.cast_ofNat] at hns
  have hlt := sub64_lt t tc.timeZero
  have hfits : tsc * tc.timeMult / 2 ^ tc.timeShift < 2 ^ 64 := lt_of_le_of_lt hns.le hlt
  have hback := sub64_add64 ht hz
  rw [add64] at hback
  have hadd := hns.add_iff hlt (le_of_lt hz)
  rw [hback] at hadd
  rw [tscToPerfclock, mulU64U32Shr, Nat.mod_eq_of_lt hfits, add64]
  exact hadd

theorem defaultRatio_of_supported {s : TscScaling} (h : s ≠ .unsupported) :
    s.defaultRatio = 2 ^ s.ratioFracBits := by
  cases s with
  | unsupported => exact absurd rfl h
  | vmx => rfl
  | svm => rfl

end Stages

section RoundTrip

/- The shift between guest TSC ticks and nanoseconds, `tsc_to_system_mul` apart. -/
def PvclockVcpuTimeInfo.fracShift (pvti : PvclockVcpuTimeInfo) : Nat := (pvti.tscShift - 32).natAbs

/- What the domain of the conversion asks: the ranges of the fields, products that fit in
64 bits, a guest TSC not before `tsc_timestamp` and exact cycles. -/
structure InRange (v : ProfDev) (t : Nat) : Prop where
  now : t < 2 ^ 64
  timeZero : v.tscConv.timeZero < 2 ^ 64
  timeMult : 0 < v.tscConv.timeMult
  remFits : sub64 t v.tscConv.timeZero % v.tscConv.timeMult * 2 ^ v.tscConv.timeShift < 2 ^ 64
  tscFits : sub64 t v.tscConv.timeZero * 2 ^ v.tscConv.timeShift / v.tscConv.timeMult < 2 ^ 64
  tscOffset : v.vcpu0.tscOffset < 2 ^ 64
  scalingRatio : 0 < v.vcpu0.tscScalingRatio
  ratioFits : v.vcpu0.tscScalingRatio < 2 ^ 64
  scaledFits : perfclockToTsc v.tscConv t * v.vcpu0.tscScalingRatio / 2 ^ v.scaling.ratioFracBits
    < 2 ^ 64
  notBefore : v.vcpu0.pvti.tscTimestamp ≤ kvmReadL1Tsc v (perfclockToTsc v.tscConv t)
  systemTime : v.vcpu0.pvti.systemTime < 2 ^ 64
  systemMul : 0 < v.vcpu0.pvti.tscToSystemMul
  shiftFits : v.vcpu0.pvti.fracShift < 64
  exactCycles : pvclockScaleDelta
      (kvmReadL1Tsc v (perfclockToTsc v.tscConv t) - v.vcpu0.pvti.tscTimestamp)
      v.vcpu0.pvti.tscToSystemMul v.vcpu0.pvti.tscShift =
    (kvmReadL1Tsc v (perfclockToTsc v.tscConv t) - v.vcpu0.pvti.tscTimestamp) *
      v.vcpu0.pvti.tscToSystemMul / 2 ^ v.vcpu0.pvti.fracShift

/-- What the guest stage rounds off, in guest TSC ticks. -/
def guestRounding (v : ProfDev) : ℚ :=
  1 + 2 ^ v.vcpu0.pvti.fracShift / v.vcpu0.pvti.tscToSystemMul

def hostRounding (v : ProfDev) : ℚ :=
  if v.vcpu0.tscScalingRatio ≠ v.scaling.defaultRatio then
    1 + 2 ^ v.scaling.ratioFracBits / v.vcpu0.tscScalingRatio * (1 + guestRounding v)
  else
    guestRounding v

def rounding (v : ProfDev) : ℚ :=
  1 + v.tscConv.timeMult / 2 ^ v.tscConv.timeShift * (1 + hostRounding v)

/- The guest TSC `kvmclock_to_perfclock` arrives at. -/
def guestTscBack (v : ProfDev) (time : Nat) : Nat :=
  add64 (mulU64U64Div64 (sub64 time v.vcpu0.pvti.systemTime) (shl64 1 v.vcpu0.pvti.fracShift)
    v.vcpu0.pvti.tscToSystemMul) v.vcpu0.pvti.tscTimestamp

def hostTscBack (v : ProfDev) (guestTsc : Nat) : Nat :=
  if v.vcpu0.tscScalingRatio ≠ v.scaling.defaultRatio then
    mulU64U64Div64 guestTsc v.scaling.defaultRatio v.vcpu0.tscScalingRatio
  else
    sub64 guestTsc v.vcpu0.tscOffset

theorem kvmclockToPerfclock_eq (v : ProfDev) (time : Nat) :
    kvmclockToPerfclock v time =
      tscToPerfclock v.tscConv (hostTscBack v (guestTscBack v time)) := rfl

/- What the guest stage does round off for `t`. -/
def guestLoss (v : ProfDev) (t : Nat) : Nat :=
  let delta := kvmReadL1Tsc v (perfclockToTsc v.tscConv t) - v.vcpu0.pvti.tscTimestamp
  delta - delta * v.vcpu0.pvti.tscToSystemMul / 2 ^ v.vcpu0.pvti.fracShift *
    2 ^ v.vcpu0.pvti.fracShift / v.vcpu0.pvti.tscToSystemMul

/- What is rounded off up to the host TSC, if the offset is taken back or was none. -/
def hostLoss (v : ProfDev) (t : Nat) : Nat :=
  let host := perfclockToTsc v.tscConv t
  if v.vcpu0.tscScalingRatio ≠ v.scaling.defaultRatio then
    host - (host * v.vcpu0.tscScalingRatio / 2 ^ v.scaling.ratioFracBits - guestLoss v t) *
      2 ^ v.scaling.ratioFracBits / v.vcpu0.tscScalingRatio
  else
    guestLoss v t

def loss (v : ProfDev) (t : Nat) : Nat :=
  sub64 t v.tscConv.timeZero -
    (perfclockToTsc v.tscConv t - hostLoss v t) * v.tscConv.timeMult / 2 ^ v.tscConv.timeShift

theorem guestTscBack_below {v : ProfDev} {t : Nat} (h : InRange v t) :
    Below (guestRounding v) (guestTscBack v (perfclockToKvmclock v t))
      (kvmReadL1Tsc v (perfclockToTsc v.tscConv t)) ∧
    kvmReadL1Tsc v (perfclockToTsc v.tscConv t) -
      guestTscBack v (perfclockToKvmclock v t) = guestLoss v t := by
  have hguest : kvmReadL1Tsc v (perfclockToTsc v.tscConv t) < 2 ^ 64 := add64_lt _ _
  have hbefore := h.notBefore
  have hexact := h.exactCycles
  have hmul := h.systemMul
  have hshift : shl64 1 v.vcpu0.pvti.fracShift = 2 ^ v.vcpu0.pvti.fracShift := by
    rw [shl64_of_lt, Nat.one_mul]
    rw [Nat.one_mul]
    exact Nat.pow_lt_pow_right (by decide) h.shiftFits
  rw [perfclockToKvmclock, hostTscToKvmclock, pvclockReadCycles, guestLoss]
  generalize hg : kvmReadL1Tsc v (perfclockToTsc v.tscConv t) = guest at *
  rw [sub64_of_le hguest hbefore, hexact, guestTscBack, hshift]
  have hcycles : (guest - v.vcpu0.pvti.tscTimestamp) * v.vcpu0.pvti.tscToSystemMul /
      2 ^ v.vcpu0.pvti.fracShift < 2 ^ 64 := by
    rw [← hexact]
    exact Nat.mod_lt _ (by decide)
  rw [add64_comm v.vcpu0.pvti.systemTime, add64_sub64 hcycles h.systemTime]
  have hdelta := (Below.refl ((guest - v.vcpu0.pvti.tscTimestamp) * v.vcpu0.pvti.tscToSystemMul /
    2 ^ v.vcpu0.pvti.fracShift)).stage (Nat.two_pow_pos _) hmul
  have hle := hdelta.le
  rw [mulU64U64Div64, Nat.mod_eq_of_lt (by omega), add64, Nat.mod_eq_of_lt (by omega)]
  rw [Nat.cast_pow, Nat.cast_ofNat, add_zero, mul_one] at hdelta
  refine ⟨⟨by omega, ?_⟩, by omega⟩
  have hnear := hdelta.near
  rw [Nat.cast_sub hbefore] at hnear
  rw [guestRounding, Nat.cast_add]
  linarith

/- Taking the offset back keeps the rounding unless it passes below zero. -/
theorem hostTscBack_unscaled {v : ProfDev} {t guestTsc : Nat} (h : InRange v t)
    (hratio : v.vcpu0.tscScalingRatio = v.scaling.defaultRatio)
    (hb : Below (guestRounding v) guestTsc (kvmReadL1Tsc v (perfclockToTsc v.tscConv t)))
    (hloss : kvmReadL1Tsc v (perfclockToTsc v.tscConv t) - guestTsc = guestLoss v t) :
    (Below (hostRounding v) (hostTscBack v guestTsc) (perfclockToTsc v.tscConv t) ↔
      guestLoss v t ≤ perfclockToTsc v.tscConv t) ∧
    (guestLoss v t ≤ perfclockToTsc v.tscConv t →
      hostTscBack v guestTsc = perfclockToTsc v.tscConv t - hostLoss v t) := by
  have hround : hostRounding v = guestRounding v := by rw [hostRounding, if_neg (not_not.mpr hratio)]
  have hoff := h.tscOffset
  have hguest : kvmReadL1Tsc v (perfclockToTsc v.tscConv t) < 2 ^ 64 := add64_lt _ _
  have hback : sub64 (kvmReadL1Tsc v (perfclockToTsc v.tscConv t)) v.vcpu0.tscOffset =
      perfclockToTsc v.tscConv t := by
    rw [kvmReadL1Tsc, kvmScaleTsc, if_neg (not_not.mpr hratio), add64_comm]
    exact add64_sub64 (add64_lt _ _) hoff
  have hadd := hb.add_iff hguest (Nat.sub_le (2 ^ 64) v.vcpu0.tscOffset)
  have hle := hb.le
  rw [hostLoss, if_neg (not_not.mpr hratio), hround, hostTscBack, if_neg (not_not.mpr hratio)]
  rw [sub64_eq hoff] at hback ⊢
  rw [hback, hloss] at hadd
  refine ⟨hadd, fun hroom => ?_⟩
  rw [← hback] at hroom ⊢
  omega

theorem hostTscBack_scaled {v : ProfDev} {t guestTsc : Nat} (h : InRange v t)
    (hratio : v.vcpu0.tscScalingRatio ≠ v.scaling.defaultRatio)
    (hoff : v.vcpu0.tscOffset = 0) (hset : v.scaling ≠ .unsupported)
    (hb : Below (guestRounding v) guestTsc (kvmReadL1Tsc v (perfclockToTsc v.tscConv t)))
    (hloss : kvmReadL1Tsc v (perfclockToTsc v.tscConv t) - guestTsc = guestLoss v t) :
    Below (hostRounding v) (hostTscBack v guestTsc) (perfclockToTsc v.tscConv t) ∧
      hostTscBack v guestTsc = perfclockToTsc v.tscConv t - hostLoss v t := by
  have hscale : kvmReadL1Tsc v (perfclockToTsc v.tscConv t) =
      perfclockToTsc v.tscConv t * v.vcpu0.tscScalingRatio / 2 ^ v.scaling.ratioFracBits := by
    rw [kvmReadL1Tsc, kvmScaleTsc, if_pos hratio, hoff, mulU64U64Shr,
      Nat.mod_eq_of_lt h.scaledFits, add64, Nat.zero_add, Nat.mod_eq_of_lt h.scaledFits]
  rw [hscale] at hb hloss
  have hhost := hb.stage (Nat.two_pow_pos _) h.scalingRatio
  have hlt : perfclockToTsc v.tscConv t < 2 ^ 64 := add64_lt _ _
  have hguest : perfclockToTsc v.tscConv t * v.vcpu0.tscScalingRatio /
      2 ^ v.scaling.ratioFracBits - guestLoss v t = guestTsc := by
    rw [← hloss]
    exact Nat.sub_sub_self hb.le
  rw [hostRounding, if_pos hratio, hostLoss, if_pos hratio, hguest, hostTscBack, if_pos hratio,
    mulU64U64Div64, defaultRatio_of_supported hset, Nat.mod_eq_of_lt (lt_of_le_of_lt hhost.le hlt)]
  have hle := hhost.le
  rw [Nat.cast_pow, Nat.cast_ofNat] at hhost
  exact ⟨hhost, (Nat.sub_sub_self hle).symm⟩

/- What `kvmclock_to_perfclock` makes of a guest TSC, the product taken exactly. -/
def hostTscExact (v : ProfDev) (guestTsc : Nat) : Nat :=
  if v.vcpu0.tscScalingRatio ≠ v.scaling.defaultRatio then
    guestTsc * v.scaling.defaultRatio / v.vcpu0.tscScalingRatio
  else
    sub64 guestTsc v.vcpu0.tscOffset

/- What its comment says: `((guest_tsc - tsc_offset) << kvm_tsc_scaling_ratio_frac_bits) /
tsc_scaling_ratio`, the inverse of `tsc_offset + (host_tsc * tsc_scaling_ratio) >> ..frac_bits`. -/
def hostTscFormula (v : ProfDev) (guestTsc : Nat) : Nat :=
  if v.vcpu0.tscScalingRatio ≠ v.scaling.defaultRatio then
    sub64 guestTsc v.vcpu0.tscOffset * 2 ^ v.scaling.ratioFracBits / v.vcpu0.tscScalingRatio
  else
    sub64 guestTsc v.vcpu0.tscOffset

/- The branch that scales undoes only what had no offset. -/
def Undone (v : ProfDev) : Prop :=
  v.vcpu0.tscScalingRatio = v.scaling.defaultRatio ∨
  v.vcpu0.tscOffset = 0 ∧ v.scaling ≠ .unsupported

/- The code's own value, where the product fits in 64 bits. -/
theorem hostTscBack_exact {v : ProfDev} {guestTsc : Nat} (h : hostTscExact v guestTsc < 2 ^ 64) :
    hostTscBack v guestTsc = hostTscExact v guestTsc := by
  unfold hostTscExact at h ⊢
  unfold hostTscBack mulU64U64Div64
  split_ifs at h ⊢ with hratio
  · exact Nat.mod_eq_of_lt h
  · rfl

/- A guest TSC just above the offset, or the first one that scales to a tick, shows the offset. -/
theorem exact_eq_formula_iff {v : ProfDev} (hpos : 0 < v.vcpu0.tscScalingRatio)
    (hfits : v.vcpu0.tscScalingRatio < 2 ^ 64) (hoff : v.vcpu0.tscOffset < 2 ^ 64) :
    (∀ guestTsc, guestTsc < 2 ^ 64 → hostTscExact v guestTsc = hostTscFormula v guestTsc) ↔
      Undone v := by
  unfold hostTscExact hostTscFormula Undone
  by_cases hratio : v.vcpu0.tscScalingRatio = v.scaling.defaultRatio
  · simp [hratio]
  · simp only [ne_eq, hratio, not_false_eq_true, if_true, false_or]
    generalize v.vcpu0.tscScalingRatio = r at hpos hfits hratio ⊢
    generalize v.vcpu0.tscOffset = o at hoff ⊢
    have hself : sub64 o o = 0 := by
      rw [sub64_of_le hoff le_rfl, Nat.sub_self]
    by_cases hset : v.scaling = .unsupported
    · -- without a default ratio the code always comes to 0
      simp only [hset, TscScaling.defaultRatio, TscScaling.ratioFracBits, Nat.mul_zero,
        Nat.zero_div, pow_zero, Nat.mul_one, not_true_eq_false, and_false, iff_false]
      intro hall
      have hlast := hall (add64 (r - 1 + 1) o) (add64_lt _ _)
      rw [add64_sub64 (by omega) hoff, Nat.sub_add_cancel hpos, Nat.div_self hpos] at hlast
      exact absurd hlast (by decide)
    · rw [defaultRatio_of_supported hset]
      simp only [hset, not_false_eq_true, and_true]
      generalize hd : 2 ^ v.scaling.ratioFracBits = d
      have hdpos : 0 < d := hd ▸ Nat.two_pow_pos _
      constructor
      · intro hall
        by_contra ho
        by_cases hbig : r ≤ o * d
        · have hat := hall o hoff
          rw [hself, Nat.zero_mul, Nat.zero_div] at hat
          have := Nat.div_pos hbig hpos
          omega
        · -- the first guest TSC of tick 1, which the offset brings back to tick 0
          have hfirst : r ≤ ((r - 1) / d + 1) * d := by
            have := Nat.div_add_mod (r - 1) d
            have := Nat.mod_lt (r - 1) hdpos
            rw [Nat.add_mul, Nat.one_mul, Nat.mul_comm]
            omega
          have hle : (r - 1) / d ≤ r - 1 := Nat.div_le_self _ _
          have hobelow : o ≤ (r - 1) / d := by
            rw [Nat.le_div_iff_mul_le hdpos]
            omega
          have hat := hall ((r - 1) / d + 1) (by omega)
          rw [sub64_of_le (by omega) (by omega)] at hat
          have hone := Nat.div_pos hfirst hpos
          have hzero : ((r - 1) / d + 1 - o) * d / r = 0 := by
            apply Nat.div_eq_of_lt
            have hmul : ((r - 1) / d + 1 - o) * d ≤ (r - 1) / d * d :=
              Nat.mul_le_mul_right d (by omega)
            have := Nat.div_mul_le_self (r - 1) d
            omega
          omega
      · rintro rfl guestTsc hguest
        rw [sub64_of_le hguest (Nat.zero_le _), Nat.sub_zero]

/- The two conversions undo each other: the way back is that of the formulas, and each stage loses
at most what it rounds off. -/
structure RoundTrip (v : ProfDev) (t : Nat) : Prop where
  inverse : ∀ guestTsc, guestTsc < 2 ^ 64 → hostTscExact v guestTsc = hostTscFormula v guestTsc
  host : Below (hostRounding v) (hostTscBack v (guestTscBack v (perfclockToKvmclock v t)))
    (perfclockToTsc v.tscConv t)
  time : Below (rounding v) (kvmclockToPerfclock v (perfclockToKvmclock v t)) t

/- A host of 2 GHz; the guest TSC was started later, so its offset is negative. -/
def startedGuest : ProfDev where
  needConv := .toKvmclock
  tscConv := ⟨10, 512, 1000⟩
  vcpu0 := ⟨⟨400, 70, 2 ^ 31, 0⟩, 2 ^ 64 - 5000, 2 ^ 48⟩
  scaling := .vmx
  clockOffset := 0

theorem startedGuest_inRange : InRange startedGuest 5001 := by
  constructor <;> decide +kernel

/- A guest at half the speed of its host whose TSC was set ahead by 1000. -/
def slowGuest : ProfDev where
  needConv := .toKvmclock
  tscConv := ⟨0, 1, 0⟩
  vcpu0 := ⟨⟨0, 0, 2 ^ 31, 1⟩, 1000, 2 ^ 47⟩
  scaling := .vmx
  clockOffset := 0

end RoundTrip

end PerfProf.Convert
