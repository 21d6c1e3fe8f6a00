import Mathlib.Algebra.Order.Field.Power
import Mathlib.Data.Rat.Cast.Order
import Mathlib.Tactic.FieldSimp
import Mathlib.Tactic.Linarith
import Mathlib.Tactic.Positivity
import Mathlib.Tactic.NormNum
import Mathlib.Tactic.Ring
import ApiClient.Proofs.Decimal.Integers

/-!
# Rounding to a double

The rationals that round to a double other than zero lie between the middles between it and its
neighbours; the middles themselves go to the even significand. Whether a decimal reads back as a
double is a comparison with these middles, and rounding a fraction between them gives the double.
-/

namespace ApiClient

namespace Binary64

/-- The significand has 53 binary digits, or fewer at the least exponent. -/
structure IsDouble (x : Binary64) : Prop where
  significand_lt : x.significand < 2 ^ 53
  minExponent_le : minExponent ≤ x.exponent
  exponent_le : x.exponent ≤ maxExponent
  full_or_least : 2 ^ 52 ≤ x.significand ∨ x.exponent = minExponent

/-- A value in units of the last place. -/
def units (x : Binary64) (v : ℚ) : ℚ := v * 2 ^ (-x.exponent)

/-- How far the middle below a double is away, in quarters of the last place. The doubles below a
power of two lie twice as close together. -/
def gap (x : Binary64) : Nat :=
  if x.significand = 2 ^ 52 ∧ minExponent < x.exponent then 1 else 2

/-- A value that lies between the middles on either side. -/
structure Rounds (x : Binary64) (v : ℚ) : Prop where
  low : 4 * x.significand - x.gap ≤ 4 * x.units v
  high : 4 * x.units v ≤ 4 * x.significand + 2
  low_even : 4 * x.significand - x.gap = 4 * x.units v → x.significand % 2 = 0
  high_even : 4 * x.units v = 4 * x.significand + 2 → x.significand % 2 = 0

/-! ## Fractions -/

theorem scale_pos (n : Nat) {d : Nat} (hd : 0 < d) (e : Int) : 0 < (scale n d e).2 := by
  unfold scale
  split
  · exact hd
  · exact Nat.mul_pos hd (Nat.pow_pos (by decide))

theorem scale_value (n d : Nat) (e : Int) :
    ((scale n d e).1 : ℚ) / (scale n d e).2 = n / d * 2 ^ (-e) := by
  obtain ⟨k, rfl | rfl⟩ := e.eq_nat_or_neg
  · rw [scale_natCast, zpow_neg, zpow_natCast]
    push_cast
    rw [div_mul_eq_div_div, div_eq_mul_inv (_ / _)]
  · rw [scale_neg, neg_neg, zpow_natCast]
    push_cast
    rw [mul_div_right_comm]

end Binary64

namespace Decimal

theorem power_pos (c : Nat) (e : Int) : 0 < (power c e).2 := by
  unfold power
  split
  · exact Nat.pow_pos (by decide)
  · exact Nat.one_pos

theorem power_value (c : Nat) (e : Int) :
    ((power c e).1 : ℚ) / (power c e).2 = c * 10 ^ e := by
  obtain ⟨k, rfl | rfl⟩ := e.eq_nat_or_neg
  · rw [power_natCast, zpow_natCast]
    push_cast
    rw [div_one]
  · cases k with
    | zero => simp [power]
    | succ k =>
      have hneg : -((k + 1 : Nat) : Int) < 0 := by omega
      have hpow : Nat.pow 10 (- -((k + 1 : Nat) : Int)).toNat = 10 ^ (k + 1) := by
        rw [Int.neg_neg, Int.toNat_natCast, Nat.pow_eq]
      rw [power, if_pos hneg, hpow, zpow_neg, zpow_natCast]
      push_cast
      rw [div_eq_mul_inv]

variable {a b c d : Nat}

theorem ratioLt_iff (hb : 0 < b) (hd : 0 < d) : ratioLt a b c d ↔ (a : ℚ) / b < c / d := by
  have hb' : (0 : ℚ) < b := Nat.cast_pos.2 hb
  have hd' : (0 : ℚ) < d := Nat.cast_pos.2 hd
  rw [ratioLt, decide_eq_true_iff, div_lt_div_iff₀ hb' hd']
  norm_cast

theorem ratioLe_iff (hb : 0 < b) (hd : 0 < d) : ratioLe a b c d ↔ (a : ℚ) / b ≤ c / d := by
  have hb' : (0 : ℚ) < b := Nat.cast_pos.2 hb
  have hd' : (0 : ℚ) < d := Nat.cast_pos.2 hd
  rw [ratioLe, decide_eq_true_iff, div_le_div_iff₀ hb' hd']
  norm_cast

end Decimal

/-! ## The middles between doubles -/

namespace Binary64

/-- The middle between a double and its neighbour below. -/
def low (x : Binary64) : Nat × Nat :=
  scale (4 * x.significand - x.gap) 1 (2 - x.exponent)

/-- The middle between a double and its neighbour above. -/
def high (x : Binary64) : Nat × Nat :=
  scale (4 * x.significand + 2) 1 (2 - x.exponent)

variable {x : Binary64}

theorem gap_le (hx : 0 < x.significand) : x.gap ≤ 4 * x.significand := by
  unfold gap
  split <;> omega

/-- The value of `k` quarters of the last place. -/
theorem quarters_value (x : Binary64) (k : Nat) :
    ((scale k 1 (2 - x.exponent)).1 : ℚ) / (scale k 1 (2 - x.exponent)).2 =
      k / (4 * 2 ^ (-x.exponent)) := by
  have hexponent : -(2 - x.exponent) = -(2 + -x.exponent) := by ring
  have hsplit : (2 : ℚ) ^ (-(2 - x.exponent)) = (4 * 2 ^ (-x.exponent))⁻¹ := by
    rw [hexponent, zpow_neg, zpow_add₀ two_ne_zero]
    norm_num
  rw [scale_value, hsplit, Nat.cast_one, div_one, div_eq_mul_inv]

theorem low_value (hx : 0 < x.significand) :
    (x.low.1 : ℚ) / x.low.2 = (4 * x.significand - x.gap) / (4 * 2 ^ (-x.exponent)) := by
  rw [low, quarters_value, Nat.cast_sub (gap_le hx)]
  push_cast
  rfl

theorem high_value (x : Binary64) :
    (x.high.1 : ℚ) / x.high.2 = (4 * x.significand + 2) / (4 * 2 ^ (-x.exponent)) := by
  rw [high, quarters_value]
  push_cast
  rfl

theorem four_mul_units (x : Binary64) (v : ℚ) : 4 * x.units v = v * (4 * 2 ^ (-x.exponent)) := by
  rw [units, mul_left_comm]

end Binary64

namespace Decimal

open Binary64 (scale_pos low_value high_value four_mul_units)

variable {x : Binary64}

theorem readsBack_eq (x : Binary64) (c : Nat) (e : Int) : readsBack x c e =
    if x.significand % 2 = 0 then
      ratioLe x.low.1 x.low.2 (power c e).1 (power c e).2 &&
        ratioLe (power c e).1 (power c e).2 x.high.1 x.high.2
    else
      ratioLt x.low.1 x.low.2 (power c e).1 (power c e).2 &&
        ratioLt (power c e).1 (power c e).2 x.high.1 x.high.2 :=
  rfl

theorem readsBack_iff_rounds (hx : 0 < x.significand) (c : Nat) (e : Int) :
    readsBack x c e ↔ x.Rounds (c * 10 ^ e) := by
  have hunit : (0 : ℚ) < 4 * 2 ^ (-x.exponent) := by positivity
  have hpower := power_pos c e
  have hlow : 0 < x.low.2 := scale_pos _ Nat.one_pos _
  have hhigh : 0 < x.high.2 := scale_pos _ Nat.one_pos _
  rw [readsBack_eq]
  split
  next heven =>
    rw [Bool.and_eq_true, ratioLe_iff hlow hpower, ratioLe_iff hpower hhigh, low_value hx,
      high_value, power_value, div_le_iff₀ hunit, le_div_iff₀ hunit, ← four_mul_units]
    exact ⟨fun ⟨h, h'⟩ ↦ ⟨h, h', fun _ ↦ heven, fun _ ↦ heven⟩, fun h ↦ ⟨h.low, h.high⟩⟩
  next hodd =>
    rw [Bool.and_eq_true, ratioLt_iff hlow hpower, ratioLt_iff hpower hhigh, low_value hx,
      high_value, power_value, div_lt_iff₀ hunit, lt_div_iff₀ hunit, ← four_mul_units]
    constructor
    · rintro ⟨h, h'⟩
      exact ⟨h.le, h'.le, fun heq ↦ absurd heq h.ne, fun heq ↦ absurd heq h'.ne⟩
    · intro h
      exact ⟨h.low.lt_of_ne fun heq ↦ hodd (h.low_even heq),
        h.high.lt_of_ne fun heq ↦ hodd (h.high_even heq)⟩

end Decimal

/-! ## Rounding between the middles -/

namespace Binary64

variable {n d m : Nat}

theorem divNearest_eq (hd : 0 < d) (hlow : 2 * (m * d) ≤ 2 * n + d)
    (hhigh : 2 * n ≤ 2 * (m * d) + d) (hlow_even : 2 * (m * d) = 2 * n + d → m % 2 = 0)
    (hhigh_even : 2 * n = 2 * (m * d) + d → m % 2 = 0) : divNearest n d = m := by
  have hsplit : n / d * d + n % d = n := Nat.div_add_mod' n d
  have hmod := Nat.mod_lt n hd
  -- Only the quotient and the number above it are near enough; the remainder says which it is.
  unfold divNearest
  generalize n / d = q at hsplit ⊢
  generalize n % d = r at hsplit hmod ⊢
  have hle : q ≤ m := by
    by_contra hlt
    have hmul : (m + 1) * d ≤ q * d := Nat.mul_le_mul_right d (Nat.lt_of_not_le hlt)
    rw [Nat.add_one_mul m d] at hmul
    omega
  have hge : m ≤ q + 1 := by
    by_contra hlt
    have hmul : (q + 2) * d ≤ m * d := Nat.mul_le_mul_right d (Nat.lt_of_not_le hlt)
    rw [Nat.add_mul] at hmul
    omega
  obtain rfl | rfl : m = q ∨ m = q + 1 := by omega
  · have hdown : ¬(2 * r > d ∨ 2 * r = d ∧ m % 2 = 1) := by omega
    rw [if_neg hdown]
  · rw [Nat.add_one_mul q d] at hlow hhigh hlow_even
    have hup : 2 * r > d ∨ 2 * r = d ∧ q % 2 = 1 := by omega
    rw [if_pos hup]

theorem divNearest_of_near (hd : 0 < d) (hlow : (2 * m : ℚ) ≤ 2 * (n / d) + 1)
    (hhigh : (2 * (n / d) : ℚ) ≤ 2 * m + 1) (hlow_even : (2 * m : ℚ) = 2 * (n / d) + 1 → m % 2 = 0)
    (hhigh_even : (2 * (n / d) : ℚ) = 2 * m + 1 → m % 2 = 0) : divNearest n d = m := by
  have hd' : (0 : ℚ) < d := Nat.cast_pos.2 hd
  have hvalue : (n : ℚ) = n / d * d := (div_mul_cancel₀ _ hd'.ne').symm
  generalize (n : ℚ) / d = w at hlow hhigh hlow_even hhigh_even hvalue
  refine divNearest_eq hd ?_ ?_ (fun heq ↦ hlow_even ?_) (fun heq ↦ hhigh_even ?_)
  · rw [← Nat.cast_le (α := ℚ)]
    push_cast
    rw [hvalue]
    linarith [mul_le_mul_of_nonneg_right hlow hd'.le]
  · rw [← Nat.cast_le (α := ℚ)]
    push_cast
    rw [hvalue]
    linarith [mul_le_mul_of_nonneg_right hhigh hd'.le]
  · rw [← Nat.cast_inj (R := ℚ)] at heq
    push_cast at heq
    rw [hvalue] at heq
    refine mul_right_cancel₀ hd'.ne' ?_
    linarith
  · rw [← Nat.cast_inj (R := ℚ)] at heq
    push_cast at heq
    rw [hvalue] at heq
    refine mul_right_cancel₀ hd'.ne' ?_
    linarith

theorem zpow_log2_le {n : Nat} (hn : 0 < n) : (2 : ℚ) ^ (n.log2 : Int) ≤ n := by
  rw [zpow_natCast]
  exact_mod_cast Nat.log2_self_le (Nat.ne_of_gt hn)

theorem lt_zpow_log2 (n : Nat) : (n : ℚ) < 2 ^ (n.log2 + 1 : Int) := by
  have h : n < 2 ^ (n.log2 + 1) := Nat.lt_log2_self
  exact_mod_cast h

/-- The binary logarithms of a fraction give its value up to a factor of two. -/
theorem fraction_bounds (hn : 0 < n) (hd : 0 < d) :
    (2 : ℚ) ^ ((n.log2 : Int) - d.log2 - 1) < n / d ∧
      (n : ℚ) / d < 2 ^ ((n.log2 : Int) - d.log2 + 1) := by
  have hd' : (0 : ℚ) < d := Nat.cast_pos.2 hd
  rw [lt_div_iff₀ hd', div_lt_iff₀ hd']
  constructor
  · calc (2 : ℚ) ^ ((n.log2 : Int) - d.log2 - 1) * d
        < 2 ^ ((n.log2 : Int) - d.log2 - 1) * 2 ^ (d.log2 + 1 : Int) := by
          gcongr
          exact lt_zpow_log2 d
      _ = 2 ^ (n.log2 : Int) := by
          rw [← zpow_add₀ two_ne_zero]
          congr 1
          ring
      _ ≤ n := zpow_log2_le hn
  · calc (n : ℚ) < 2 ^ (n.log2 + 1 : Int) := lt_zpow_log2 n
      _ = 2 ^ ((n.log2 : Int) - d.log2 + 1) * 2 ^ (d.log2 : Int) := by
          rw [← zpow_add₀ two_ne_zero]
          congr 1
          ring
      _ ≤ 2 ^ ((n.log2 : Int) - d.log2 + 1) * d := by
          gcongr
          exact zpow_log2_le hd

/-- The exponent is the one at which a value has 53 binary digits before the point, unless that is
too small. -/
theorem exponentOf_spec (hn : 0 < n) (hd : 0 < d) :
    ∃ k, exponentOf n d = max minExponent k ∧
      2 ^ (k + 52) ≤ (n : ℚ) / d ∧ (n : ℚ) / d < 2 ^ (k + 53) := by
  obtain ⟨hlow, hhigh⟩ := fraction_bounds hn hd
  -- The logarithms leave two exponents, which the comparison in the definition tells apart.
  obtain ⟨e, he⟩ : ∃ e, e = (n.log2 : Int) - d.log2 - 52 := ⟨_, rfl⟩
  have hlow' : (2 : ℚ) ^ (e + 51) < n / d := by
    rw [he]
    convert hlow using 2
    ring
  have hhigh' : (n : ℚ) / d < 2 ^ (e + 53) := by
    rw [he]
    convert hhigh using 2
    ring
  have hpos : (0 : ℚ) < (scale n d e).2 := Nat.cast_pos.2 (scale_pos n hd e)
  have htest : (scale n d e).1 < (scale n d e).2 * Nat.pow 2 52 ↔ (n : ℚ) / d < 2 ^ (e + 52) := by
    have hvalue := scale_value n d e
    rw [div_eq_iff hpos.ne'] at hvalue
    rw [← Nat.cast_lt (α := ℚ), hvalue, Nat.cast_mul, mul_comm, mul_lt_mul_iff_right₀ hpos,
      Nat.pow_eq, zpow_neg, ← div_eq_mul_inv, div_lt_iff₀ (by positivity), zpow_add₀ two_ne_zero,
      mul_comm]
    norm_num
  unfold exponentOf
  rw [← he]
  by_cases h : (n : ℚ) / d < 2 ^ (e + 52)
  · refine ⟨e - 1, ?_, ?_, ?_⟩
    · simp only [if_pos (htest.2 h)]
    · rw [show e - 1 + 52 = e + 51 by ring]
      exact hlow'.le
    · rw [show e - 1 + 53 = e + 52 by ring]
      exact h
  · refine ⟨e, ?_, not_lt.1 h, hhigh'⟩
    simp only [if_neg (mt htest.1 h)]

variable {x : Binary64} {v : ℚ}

theorem units_lt_iff (x : Binary64) (v : ℚ) (k : Int) :
    x.units v < 2 ^ k ↔ v < 2 ^ (x.exponent + k) := by
  have hpos : (0 : ℚ) < 2 ^ x.exponent := by positivity
  rw [units, zpow_neg, ← div_eq_mul_inv, div_lt_iff₀ hpos, ← zpow_add₀ two_ne_zero, add_comm k]

theorem le_units_iff (x : Binary64) (v : ℚ) (k : Int) :
    2 ^ k ≤ x.units v ↔ 2 ^ (x.exponent + k) ≤ v := by
  rw [← not_lt, units_lt_iff, not_lt]

theorem Rounds.units_lt (hx : x.IsDouble) (h : x.Rounds v) : x.units v < 2 ^ (53 : Int) := by
  have hbound : (x.significand : ℚ) + 1 ≤ 2 ^ 53 := by exact_mod_cast hx.significand_lt
  have hhigh := h.high
  norm_num at hbound ⊢
  linarith

theorem Rounds.le_units (h : x.Rounds v) (hfull : 2 ^ 52 ≤ x.significand)
    (hexponent : minExponent < x.exponent) :
    2 ^ (52 : Int) ≤ x.units v ∨ x.significand = 2 ^ 52 ∧ 2 ^ (51 : Int) ≤ x.units v := by
  have hlow := h.low
  by_cases hmin : x.significand = 2 ^ 52
  · rw [gap, if_pos ⟨hmin, hexponent⟩, hmin] at hlow
    refine .inr ⟨hmin, ?_⟩
    norm_num at hlow ⊢
    linarith
  · have hbound : (2 : ℚ) ^ 52 + 1 ≤ x.significand := by
      exact_mod_cast hfull.lt_of_ne (Ne.symm hmin)
    rw [gap, if_neg fun hboth ↦ hmin hboth.1] at hlow
    refine .inl ?_
    norm_num at hlow ⊢
    linarith

/-- A value that rounds to a double has the exponent of that double, but for the values just below
the power of two at the beginning of an exponent. -/
theorem Rounds.exponent (hx : x.IsDouble) (h : x.Rounds v) {k : Int} (hlow : 2 ^ (k + 52) ≤ v)
    (hhigh : v < 2 ^ (k + 53)) : max minExponent k = x.exponent ∨
      max minExponent k = x.exponent - 1 ∧ x.significand = 2 ^ 52 ∧ x.units v < 2 ^ (52 : Int) := by
  have hle : k ≤ x.exponent := by
    have hlt := hlow.trans_lt ((units_lt_iff x v 53).1 (h.units_lt hx))
    rw [zpow_lt_zpow_iff_right₀ one_lt_two] at hlt
    omega
  have hmin := hx.minExponent_le
  rcases hmin.eq_or_lt with heq | hexponent
  · exact .inl (by omega)
  have hfull : 2 ^ 52 ≤ x.significand := hx.full_or_least.resolve_right hexponent.ne'
  -- From here on the value is at least `2 ^ 52` units, or just below that at a power of two.
  have hge {j : Int} (hj : 2 ^ j ≤ x.units v) : x.exponent + j < k + 53 := by
    have hlt := ((le_units_iff x v j).1 hj).trans_lt hhigh
    rwa [zpow_lt_zpow_iff_right₀ one_lt_two] at hlt
  rcases h.le_units hfull hexponent with hunits | ⟨hpower, hunits⟩
  · have := hge hunits
    exact .inl (by omega)
  · have := hge hunits
    rcases hle.eq_or_lt with rfl | hlt
    · exact .inl (by omega)
    · refine .inr ⟨by omega, hpower, (units_lt_iff x v 52).2 ?_⟩
      rwa [show x.exponent + 52 = k + 53 by omega]

theorem gap_le_two (x : Binary64) : (x.gap : ℚ) ≤ 2 := by
  unfold gap
  split <;> norm_num

theorem Rounds.divNearest_scale {n d : Nat} (hd : 0 < d) (h : x.Rounds (n / d)) :
    divNearest (scale n d x.exponent).1 (scale n d x.exponent).2 = x.significand := by
  have hgap := gap_le_two x
  have hlow := h.low
  have hhigh := h.high
  have hvalue : ((scale n d x.exponent).1 : ℚ) / (scale n d x.exponent).2 = x.units (n / d) :=
    scale_value n d x.exponent
  refine divNearest_of_near (scale_pos n hd _) ?_ ?_ (fun heq ↦ h.low_even ?_)
    (fun heq ↦ h.high_even ?_)
  · rw [hvalue]
    linarith
  · rw [hvalue]
    linarith
  · rw [hvalue] at heq
    linarith
  · rw [hvalue] at heq
    linarith

/-- A value just below a power of two is rounded up to it at the exponent that the value has. -/
theorem Rounds.divNearest_scale_pred {n d : Nat} (hd : 0 < d) (h : x.Rounds (n / d))
    (hpower : x.significand = 2 ^ 52) (hexponent : minExponent < x.exponent)
    (hbelow : x.units (n / d) < 2 ^ (52 : Int)) :
    divNearest (scale n d (x.exponent - 1)).1 (scale n d (x.exponent - 1)).2 = 2 ^ 53 := by
  have hlow := h.low
  have hvalue : ((scale n d (x.exponent - 1)).1 : ℚ) / (scale n d (x.exponent - 1)).2 =
      2 * x.units (n / d) := by
    rw [scale_value, units, neg_sub, sub_eq_add_neg, zpow_add₀ two_ne_zero, zpow_one,
      mul_left_comm]
  rw [gap, if_pos ⟨hpower, hexponent⟩, hpower] at hlow
  norm_num at hlow hbelow
  refine divNearest_of_near (scale_pos n hd _) ?_ ?_ (fun _ ↦ rfl) (fun _ ↦ rfl)
  · rw [hvalue]
    norm_num
    linarith
  · rw [hvalue]
    norm_num
    linarith

/-- A value between the middles around a double is rounded to that double. -/
theorem nearest_eq (hx : x.IsDouble) {n d : Nat} (hn : 0 < n) (hd : 0 < d)
    (h : x.Rounds (n / d)) : nearest x.negative n d = some x := by
  obtain ⟨k, hk, hlow, hhigh⟩ := exponentOf_spec hn hd
  unfold nearest
  rw [if_neg hn.ne', hk]
  have hrange : ¬x.exponent > maxExponent := not_lt.2 hx.exponent_le
  rcases h.exponent hx hlow hhigh with hexponent | ⟨hexponent, hpower, hbelow⟩
  · have hround := h.divNearest_scale hd
    have hsmall : ¬x.significand = Nat.pow 2 53 := hx.significand_lt.ne
    rw [hexponent]
    simp only [hround, if_neg hsmall, if_neg hrange]
  · have hround := h.divNearest_scale_pred hd hpower (by omega) hbelow
    have hfull : x.exponent - 1 + 1 = x.exponent := by omega
    have hcarry : 2 ^ 53 = Nat.pow 2 53 := rfl
    rw [hexponent]
    simp only [hround, if_pos hcarry, hfull, if_neg hrange]
    rw [Nat.pow_eq, ← hpower]

/-! ## Rounding a decimal -/

theorem Rounds.value_lt (hx : x.IsDouble) (h : x.Rounds v) : v < 10 ^ (310 : Int) := by
  have hdecimal : 2 ^ 1024 < 10 ^ 310 := by decide +kernel
  have hexponent : x.exponent + 53 ≤ 1024 := by
    have := hx.exponent_le
    rw [maxExponent] at this
    omega
  calc v < 2 ^ (x.exponent + 53) := (units_lt_iff x v 53).1 (h.units_lt hx)
    _ ≤ 2 ^ (1024 : Int) := zpow_le_zpow_right₀ one_le_two hexponent
    _ < 10 ^ (310 : Int) := by exact_mod_cast hdecimal

theorem Rounds.lt_value (hx : x.IsDouble) (hpos : 0 < x.significand) (h : x.Rounds v) :
    10 ^ (-330 : Int) < v := by
  have hdecimal : 2 ^ 1075 < 10 ^ 330 := by decide +kernel
  have hexponent : -1075 ≤ x.exponent + -1 := by
    have := hx.minExponent_le
    rw [minExponent] at this
    omega
  have hunits : 2 ^ (-1 : Int) ≤ x.units v := by
    have hone : (1 : ℚ) ≤ x.significand := by exact_mod_cast hpos
    have hlow := h.low
    have hgap := gap_le_two x
    norm_num
    linarith
  calc (10 : ℚ) ^ (-330 : Int) < 2 ^ (-1075 : Int) := by
        rw [zpow_neg, zpow_neg]
        refine (inv_lt_inv₀ (by positivity) (by positivity)).2 ?_
        exact_mod_cast hdecimal
    _ ≤ 2 ^ (x.exponent + -1) := zpow_le_zpow_right₀ one_le_two hexponent
    _ ≤ v := (le_units_iff x v (-1)).1 hunits

open Decimal (power power_pos power_value)

theorem pow_length_toDigits {digits : Nat} (hdigits : 0 < digits) :
    ∃ k, (Nat.toDigits 10 digits).length = k + 1 ∧ 10 ^ k ≤ digits ∧ digits < 10 ^ (k + 1) := by
  have hlength := Nat.length_toDigits_pos (n := digits) (b := 10)
  obtain ⟨k, hk⟩ := Nat.exists_eq_succ_of_ne_zero hlength.ne'
  refine ⟨k, hk, ?_, (Nat.length_toDigits_le_iff (by decide) k.succ_pos).1 hk.le⟩
  rcases k.eq_zero_or_pos with rfl | hpos
  · exact hdigits
  · by_contra hlt
    have hle := (Nat.length_toDigits_le_iff (by decide) hpos).2 (not_le.1 hlt)
    omega

/-- The exponent of a decimal and the number of its digits give its size. -/
theorem decimal_bounds {digits : Nat} (hdigits : 0 < digits) (e : Int) :
    (10 : ℚ) ^ (e + (Nat.toDigits 10 digits).length - 1) ≤ digits * 10 ^ e ∧
      (digits * 10 ^ e : ℚ) < 10 ^ (e + (Nat.toDigits 10 digits).length) := by
  obtain ⟨k, hk, hlow, hhigh⟩ := pow_length_toDigits hdigits
  have hlow' : (10 : ℚ) ^ (k : Int) ≤ digits := by exact_mod_cast hlow
  have hhigh' : (digits : ℚ) < 10 ^ ((k + 1 : Nat) : Int) := by exact_mod_cast hhigh
  have hunit : (0 : ℚ) < 10 ^ e := by positivity
  constructor
  · have hexponent : e + (Nat.toDigits 10 digits).length - 1 = k + e := by omega
    rw [hexponent, zpow_add₀ (by norm_num)]
    exact mul_le_mul_of_nonneg_right hlow' hunit.le
  · rw [hk, add_comm, zpow_add₀ (by norm_num)]
    exact mul_lt_mul_of_pos_right hhigh' hunit

theorem Rounds.digits_pos (hx : x.IsDouble) (hpos : 0 < x.significand) {digits : Nat} {e : Int}
    (h : x.Rounds (digits * 10 ^ e)) : 0 < digits := by
  have hvalue := h.lt_value hx hpos
  by_contra hzero
  rw [Nat.eq_zero_of_not_pos hzero, Nat.cast_zero, zero_mul] at hvalue
  exact absurd hvalue (not_lt.2 (by positivity))

/-- A decimal between the middles around a double is read as that double. -/
theorem ofDecimal_eq (hx : x.IsDouble) (hpos : 0 < x.significand) {digits : Nat} {e : Int}
    (h : x.Rounds (digits * 10 ^ e)) : ofDecimal x.negative digits e = some x := by
  have hlow := h.lt_value hx hpos
  have hhigh := h.value_lt hx
  have hdigits := h.digits_pos hx hpos
  obtain ⟨hleast, hgreatest⟩ := decimal_bounds hdigits e
  have hsmall := (zpow_lt_zpow_iff_right₀ (by norm_num)).1 (hlow.trans hgreatest)
  have hlarge := (zpow_lt_zpow_iff_right₀ (by norm_num)).1 (hleast.trans_lt hhigh)
  have hbelow : ¬e + (Nat.toDigits 10 digits).length > 310 := by omega
  have habove : ¬e + (Nat.toDigits 10 digits).length < -330 := by omega
  have hpower : (if e < 0 then nearest x.negative digits (Nat.pow 10 (-e).toNat)
      else nearest x.negative (digits * Nat.pow 10 e.toNat) 1) =
        nearest x.negative (power digits e).1 (power digits e).2 := by
    unfold power
    split <;> rfl
  unfold ofDecimal
  rw [if_neg hdigits.ne']
  simp only [if_neg hbelow, if_neg habove]
  rw [hpower]
  refine nearest_eq hx ?_ (power_pos digits e) (by rwa [power_value])
  unfold power
  split
  · exact hdigits
  · exact Nat.mul_pos hdigits (Nat.pow_pos (by decide))

end Binary64

end ApiClient
