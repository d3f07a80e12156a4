import Mathlib.Algebra.Order.Field.Rat
import Mathlib.Data.Nat.Cast.Order.Field
import Mathlib.Tactic.Linarith
import Mathlib.Tactic.FieldSimp
import Mathlib.Tactic.Ring
import Mathlib.Tactic.Positivity

/-! Fixed-point clocks. A clock is read in the units of another by a floored product;
going there and back loses one tick of every stage and never gains anything. -/
namespace PerfProf.FixedPoint

/- `y` is `x` rounded down by at most `e`. -/
structure Below (e : ℚ) (y x : Nat) : Prop where
  le : y ≤ x
  near : (x : ℚ) - y ≤ e

theorem Below.refl (x : Nat) : Below 0 x x :=
  ⟨le_rfl, by rw [sub_self]⟩

theorem lt_floor_add_one (n : Nat) {d : Nat} (hd : 0 < d) :
    (n : ℚ) / d < ((n / d : Nat) : ℚ) + 1 := by
  have hpos : (0 : ℚ) < d := Nat.cast_pos.mpr hd
  rw [div_lt_iff₀ hpos]
  exact_mod_cast Nat.lt_mul_of_div_lt (Nat.lt_succ_self (n / d)) hd

/- One stage: `x` was carried over as `x * b / a`, what came back of that is `y`, and `y`
is carried back as `y * a / b`. -/
theorem Below.stage {e : ℚ} {a b x y : Nat} (ha : 0 < a) (hb : 0 < b)
    (h : Below e y (x * b / a)) : Below (1 + a / b * (1 + e)) (y * a / b) x := by
  have hqa : (0 : ℚ) < a := Nat.cast_pos.mpr ha
  have hqb : (0 : ℚ) < b := Nat.cast_pos.mpr hb
  constructor
  · have hmul : y * a ≤ x * b :=
      le_trans (Nat.mul_le_mul_right a h.le) (Nat.div_mul_le_self (x * b) a)
    exact Nat.div_le_of_le_mul (by rw [Nat.mul_comm b x]; exact hmul)
  · have hforth := lt_floor_add_one (x * b) ha
    have hback := lt_floor_add_one (y * a) hb
    have hnear := h.near
    push_cast at hforth hback
    have hy : (x : ℚ) * b / a - 1 - e ≤ y := by linarith
    have hya : ((x : ℚ) * b / a - 1 - e) * (a / b) ≤ y * (a / b) :=
      mul_le_mul_of_nonneg_right hy (le_of_lt (div_pos hqa hqb))
    have hx : ((x : ℚ) * b / a - 1 - e) * (a / b) = x - a / b * (1 + e) := by
      field_simp
      ring
    have hassoc : (y : ℚ) * (a / b) = y * a / b := by ring
    rw [hx, hassoc] at hya
    linarith

section Word
variable {w : Nat}

/- Adding a word to both keeps the order unless it makes only the larger one carry. -/
theorem add_mod_le_iff {o y x : Nat} (hle : y ≤ x) (hx : x < w) (ho : o ≤ w) :
    (y + o) % w ≤ (x + o) % w ↔ x - y ≤ (x + o) % w := by
  have hcarry : ∀ z, z < w → w ≤ z + o → (z + o) % w = z + o - w := by
    intro z hz hc
    rw [Nat.mod_eq_sub_mod hc, Nat.mod_eq_of_lt (by omega)]
  by_cases hxo : x + o < w
  · rw [Nat.mod_eq_of_lt hxo, Nat.mod_eq_of_lt (by omega)]
    omega
  · rw [hcarry x hx (by omega)]
    by_cases hyo : y + o < w
    · rw [Nat.mod_eq_of_lt hyo]
      omega
    · rw [hcarry y (by omega) (by omega)]
      omega

/- Adding the same word to both keeps the rounding exactly when what is rounded off is still there
in the sum. -/
theorem Below.add_iff {e : ℚ} {o y x : Nat} (h : Below e y x) (hx : x < w) (ho : o ≤ w) :
    Below e ((y + o) % w) ((x + o) % w) ↔ x - y ≤ (x + o) % w := by
  have hle := h.le
  rw [← add_mod_le_iff hle hx ho]
  refine ⟨Below.le, fun hmod => ⟨hmod, ?_⟩⟩
  have hsum : (x + o) % w + y = (y + o) % w + x := by
    have hroom := (add_mod_le_iff hle hx ho).mp hmod
    by_cases hxo : x + o < w
    · rw [Nat.mod_eq_of_lt hxo, Nat.mod_eq_of_lt (by omega)]
      omega
    · rw [Nat.mod_eq_sub_mod (by omega), Nat.mod_eq_of_lt (by omega)] at hroom
      rw [Nat.mod_eq_sub_mod (by omega : w ≤ x + o), Nat.mod_eq_of_lt (by omega),
        Nat.mod_eq_sub_mod (by omega : w ≤ y + o), Nat.mod_eq_of_lt (by omega)]
      omega
  have hcast := congrArg (Nat.cast : Nat → ℚ) hsum
  push_cast at hcast
  linarith [h.near]

theorem sub_add_mod {a b : Nat} (ha : a < w) (hb : b < w) : ((a + w - b) % w + b) % w = a := by
  rw [Nat.mod_add_mod, show a + w - b + b = a + w by omega, Nat.add_mod_right, Nat.mod_eq_of_lt ha]

end Word

end PerfProf.FixedPoint
