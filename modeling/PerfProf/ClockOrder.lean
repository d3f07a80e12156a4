import PerfProf.Convert

/-! convert.c: what a clock conversion does to the order of two times. A conversion is a floored
product between sums of u64, and only the sums can turn the order round. -/
namespace PerfProf.Convert
open PerfProf.FixedPoint

section Tsc

/- The domain of `perfclock_to_tsc`: the widths of the fields, a time from `time_zero` on, and a
result that fits in 64 bits. -/
structure TscFits (tc : PerfTscConversion) (ns : Nat) : Prop where
  now : ns < 2 ^ 64
  multPos : 0 < tc.timeMult
  mult : tc.timeMult < 2 ^ 32
  shift : tc.timeShift ≤ 31
  zero : tc.timeZero ≤ ns
  fits : (ns - tc.timeZero) * 2 ^ tc.timeShift / tc.timeMult < 2 ^ 64

variable {tc : PerfTscConversion} {s t : Nat}

theorem TscFits.rem_fits (h : TscFits tc t) (d : Nat) :
    d % tc.timeMult * 2 ^ tc.timeShift < 2 ^ 64 := by
  have hrem : d % tc.timeMult < 2 ^ 32 := lt_trans (Nat.mod_lt _ h.multPos) h.mult
  have hpow : 2 ^ tc.timeShift ≤ 2 ^ 31 := Nat.pow_le_pow_right (by decide) h.shift
  calc d % tc.timeMult * 2 ^ tc.timeShift
      ≤ 2 ^ 32 * 2 ^ 31 := Nat.mul_le_mul (le_of_lt hrem) hpow
    _ < 2 ^ 64 := by decide

theorem TscFits.exact (h : TscFits tc t) :
    perfclockToTsc tc t = (t - tc.timeZero) * 2 ^ tc.timeShift / tc.timeMult := by
  have hfits := h.fits
  rw [← sub64_of_le h.now h.zero] at hfits ⊢
  exact perfclockToTsc_eq h.multPos (h.rem_fits _) hfits

theorem tsc_mono (hs : TscFits tc s) (ht : TscFits tc t) (hle : s ≤ t) :
    perfclockToTsc tc s ≤ perfclockToTsc tc t := by
  rw [hs.exact, ht.exact]
  have hsub : s - tc.timeZero ≤ t - tc.timeZero := Nat.sub_le_sub_right hle _
  exact Nat.div_le_div_right (Nat.mul_le_mul_right _ hsub)

/- There and back loses less than one tick of the TSC. -/
theorem TscFits.back (h : TscFits tc t) :
    tscToPerfclock tc (perfclockToTsc tc t) ≤ t ∧
      t ≤ tscToPerfclock tc (perfclockToTsc tc t) +
        (tc.timeMult + 2 ^ tc.timeShift - 1) / 2 ^ tc.timeShift := by
  have hnow := h.now
  have hzero := h.zero
  have hpow : 0 < 2 ^ tc.timeShift := Nat.two_pow_pos _
  have hmult := h.multPos
  rw [h.exact, tscToPerfclock, mulU64U32Shr]
  generalize hd : t - tc.timeZero = d
  generalize hp : 2 ^ tc.timeShift = p at hpow ⊢
  generalize hm : tc.timeMult = m at hmult ⊢
  have hlo : d * p / m * m ≤ d * p := Nat.div_mul_le_self _ _
  have hhi : d * p < d * p / m * m + m := Nat.lt_div_mul_add hmult
  have hle : d * p / m * m / p ≤ d := Nat.div_le_of_le_mul (by rw [Nat.mul_comm p d]; exact hlo)
  have hceil : m ≤ (m + p - 1) / p * p := by
    have hlt : m + p - 1 < (m + p - 1) / p * p + p := Nat.lt_div_mul_add hpow
    omega
  have hnear : d ≤ d * p / m * m / p + (m + p - 1) / p := by
    have hfloor : d * p / m * m < d * p / m * m / p * p + p := Nat.lt_div_mul_add hpow
    have hmul : d * p < (d * p / m * m / p + (m + p - 1) / p + 1) * p := by
      calc d * p < d * p / m * m + m := hhi
        _ ≤ d * p / m * m / p * p + p + (m + p - 1) / p * p :=
            Nat.add_le_add (le_of_lt hfloor) hceil
        _ = (d * p / m * m / p + (m + p - 1) / p + 1) * p := by ring
    exact Nat.lt_succ_iff.mp (Nat.lt_of_mul_lt_mul_right hmul)
  rw [add64, Nat.mod_eq_of_lt (by omega : d * p / m * m / p < 2 ^ 64),
    Nat.mod_eq_of_lt (by omega)]
  omega

end Tsc

section Evclock
variable (v : ProfDev) (s t : Nat)

def guestTsc : Nat := kvmReadL1Tsc v (perfclockToTsc v.tscConv t)

/- The guest ticks since `tsc_timestamp`, as the u64 that `__pvclock_read_cycles` takes. -/
def guestTicks : Nat := sub64 (guestTsc v t) v.vcpu0.pvti.tscTimestamp

/- The nanoseconds of these ticks. -/
def guestNs : Nat :=
  guestTicks v t * v.vcpu0.pvti.tscToSystemMul / 2 ^ v.vcpu0.pvti.fracShift

/- `__pvclock_read_cycles` computes the exact floored product. -/
def ExactCycles : Prop :=
  pvclockScaleDelta (guestTicks v t) v.vcpu0.pvti.tscToSystemMul v.vcpu0.pvti.tscShift = guestNs v t

/- The u64 that is added to the converted time. -/
def evclockOffset : Nat :=
  if v.needConv = .toKvmclock then add64 v.vcpu0.pvti.systemTime v.clockOffset else v.clockOffset

/- The sum of the later time with the offset wraps only when the sum of the earlier one does. -/
def WrapsTogether (o x y : Nat) : Prop := x + o < 2 ^ 64 → y + o < 2 ^ 64

/- When two times keep their order. For kvmclock the guest ticks must not wrap between them, which
they do when only the first guest TSC is before `tsc_timestamp`; if they do, the nanoseconds have
to be the same, or the sum with `system_time` has to wrap as well. -/
def KeepsOrder : Prop :=
  match v.needConv with
  | .none => True
  | .toTsc => WrapsTogether (evclockOffset v)
      ((s - v.tscConv.timeZero) * 2 ^ v.tscConv.timeShift / v.tscConv.timeMult)
      ((t - v.tscConv.timeZero) * 2 ^ v.tscConv.timeShift / v.tscConv.timeMult)
  | .addOffset => WrapsTogether (evclockOffset v) s t
  | .toKvmclock =>
    if guestTicks v s ≤ guestTicks v t then
      WrapsTogether (evclockOffset v) (guestNs v s) (guestNs v t)
    else guestNs v s = guestNs v t ∨
      guestNs v t + evclockOffset v < 2 ^ 64 ∧ 2 ^ 64 ≤ guestNs v s + evclockOffset v

variable {v s t}

theorem perfclockToKvmclock_exact (h : ExactCycles v t) :
    perfclockToKvmclock v t = add64 v.vcpu0.pvti.systemTime (guestNs v t) := by
  rw [← h]
  rfl

theorem guestNs_lt (h : ExactCycles v t) : guestNs v t < 2 ^ 64 := by
  rw [← h]
  exact Nat.mod_lt _ (by decide)

theorem guestNs_mono (h : guestTicks v s ≤ guestTicks v t) : guestNs v s ≤ guestNs v t :=
  Nat.div_le_div_right (Nat.mul_le_mul_right _ h)

theorem add64_add64 (a b c : Nat) : add64 (add64 a b) c = add64 b (add64 a c) := by
  simp only [add64, Nat.mod_add_mod, Nat.add_mod_mod]
  congr 1
  omega

theorem add64_le_iff {x y o : Nat} (hy : y < 2 ^ 64) (ho : o < 2 ^ 64) (hle : x ≤ y) :
    add64 x o ≤ add64 y o ↔ WrapsTogether o x y := by
  unfold add64 WrapsTogether
  omega

theorem add64_le_iff_of_lt {x y o : Nat} (hx : x < 2 ^ 64) (ho : o < 2 ^ 64) (hlt : y ≤ x) :
    add64 x o ≤ add64 y o ↔ x = y ∨ y + o < 2 ^ 64 ∧ 2 ^ 64 ≤ x + o := by
  unfold add64
  omega

theorem evclock_order_iff (hs : TscFits v.tscConv s) (ht : TscFits v.tscConv t) (hle : s ≤ t)
    (hoff : v.clockOffset < 2 ^ 64)
    (hexact : v.needConv = .toKvmclock → ExactCycles v s ∧ ExactCycles v t) :
    perfclockToEvclock v s ≤ perfclockToEvclock v t ↔ KeepsOrder v s t := by
  unfold perfclockToEvclock KeepsOrder evclockOffset
  cases hconv : v.needConv with
  | none => exact iff_of_true hle trivial
  | toTsc =>
    have hmono := tsc_mono hs ht hle
    have hlt : perfclockToTsc v.tscConv t < 2 ^ 64 := add64_lt _ _
    rw [← hs.exact, ← ht.exact]
    exact add64_le_iff hlt hoff hmono
  | addOffset => exact add64_le_iff ht.now hoff hle
  | toKvmclock =>
    obtain ⟨hxs, hxt⟩ := hexact hconv
    have hsum : add64 v.vcpu0.pvti.systemTime v.clockOffset < 2 ^ 64 := add64_lt _ _
    simp only [perfclockToKvmclock_exact hxs, perfclockToKvmclock_exact hxt, add64_add64, if_true]
    split
    · rename_i hticks
      exact add64_le_iff (guestNs_lt hxt) hsum (guestNs_mono hticks)
    · rename_i hticks
      exact add64_le_iff_of_lt (guestNs_lt hxs) hsum
        (guestNs_mono (le_of_lt (Nat.lt_of_not_le hticks)))

/- The conversion of two times is exact, loses less than a tick on the way back, and keeps their
order, also as event clocks. -/
structure ConvertsInOrder (v : ProfDev) (s t : Nat) : Prop where
  exact : perfclockToTsc v.tscConv t =
    (t - v.tscConv.timeZero) * 2 ^ v.tscConv.timeShift / v.tscConv.timeMult
  mono : perfclockToTsc v.tscConv s ≤ perfclockToTsc v.tscConv t
  backLe : tscToPerfclock v.tscConv (perfclockToTsc v.tscConv t) ≤ t
  backNear : t ≤ tscToPerfclock v.tscConv (perfclockToTsc v.tscConv t) +
    (v.tscConv.timeMult + 2 ^ v.tscConv.timeShift - 1) / 2 ^ v.tscConv.timeShift
  evclock : perfclockToEvclock v s ≤ perfclockToEvclock v t

theorem converts_in_order_iff (v : ProfDev) (s t : Nat) (hs : TscFits v.tscConv s)
    (ht : TscFits v.tscConv t) (hle : s ≤ t) (hoff : v.clockOffset < 2 ^ 64)
    (hexact : v.needConv = .toKvmclock → ExactCycles v s ∧ ExactCycles v t) :
    ConvertsInOrder v s t ↔ KeepsOrder v s t := by
  have hiff := evclock_order_iff hs ht hle hoff hexact
  constructor
  · intro h
    exact hiff.mp h.evclock
  · intro h
    obtain ⟨hback, hnear⟩ := ht.back
    exact ⟨ht.exact, tsc_mono hs ht hle, hback, hnear, hiff.mpr h⟩

/- A host and a guest TSC of 2 GHz; the pvclock was updated at guest TSC 4000. -/
def updatedGuest : ProfDev where
  needConv := .toKvmclock
  tscConv := ⟨10, 512, 0⟩
  vcpu0 := ⟨⟨4000, 70, 2 ^ 31, 0⟩, 0, 2 ^ 48⟩
  scaling := .vmx
  clockOffset := 0

theorem updatedGuest_fits {ns : Nat} (h : ns ≤ 4000) : TscFits updatedGuest.tscConv ns where
  now := by omega
  multPos := by decide
  mult := by decide
  shift := by decide
  zero := Nat.zero_le _
  fits := by
    have hshift : updatedGuest.tscConv.timeShift = 10 := rfl
    have hmult : updatedGuest.tscConv.timeMult = 512 := rfl
    rw [hshift, hmult]
    omega

theorem converts_in_order_iff_updated :
    ConvertsInOrder updatedGuest 2001 2003 ↔ KeepsOrder updatedGuest 2001 2003 :=
  converts_in_order_iff updatedGuest 2001 2003 (updatedGuest_fits (by decide))
    (updatedGuest_fits (by decide)) (by decide) (by decide)
    (fun _ => ⟨by unfold ExactCycles; decide +kernel, by unfold ExactCycles; decide +kernel⟩)

/- The guest TSC of 1999 is 3998, before the update. -/
theorem before_update_goes_back :
    TscFits updatedGuest.tscConv 1999 ∧ TscFits updatedGuest.tscConv 2001 ∧
      ExactCycles updatedGuest 1999 ∧ ExactCycles updatedGuest 2001 ∧
      perfclockToEvclock updatedGuest 2001 < perfclockToEvclock updatedGuest 1999 := by
  refine ⟨updatedGuest_fits (by decide), updatedGuest_fits (by decide), ?_, ?_, ?_⟩
  · unfold ExactCycles; decide +kernel
  · unfold ExactCycles; decide +kernel
  · decide +kernel

end Evclock

end PerfProf.Convert
