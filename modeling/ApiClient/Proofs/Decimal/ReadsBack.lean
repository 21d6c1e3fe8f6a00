import Mathlib.Data.List.TakeWhile
import Mathlib.Data.Nat.Cast.Order.Field
import ApiClient.Proofs.Decimal.Rounding

/-!
# The shortest decimal rounds to its double

The search begins at the magnitude of a double. On the last of its grids the unit is less than half
of the last place of the double, so the neighbour above it rounds to it. Hence the search always
ends at a decimal that reads back.
-/

namespace ApiClient

namespace Decimal

open Binary64 (units)

/-- The decimal logarithm of a power of two is off by one at most when it is taken for the whole
part of `0.30103` times the binary one. -/
theorem estimate_table : ∀ k < 1100, 10 ^ (k * 30103 / 100000) ≤ 10 * 2 ^ k ∧
    2 ^ k ≤ 10 ^ (k * 30103 / 100000 + 1) := by
  decide +kernel

theorem zpow_estimate_le {j : Int} (hlow : -1100 < j) (hhigh : j < 1100) :
    (10 : ℚ) ^ (j * 30103 / 100000 - 1) ≤ 2 ^ j := by
  obtain ⟨k, rfl | rfl⟩ := j.eq_nat_or_neg
  · have htable := (estimate_table k (by omega)).1
    have hexponent : (k : Int) * 30103 / 100000 = ((k * 30103 / 100000 : Nat) : Int) := by omega
    have hcast : (10 : ℚ) ^ (k * 30103 / 100000) ≤ 10 * 2 ^ k := by exact_mod_cast htable
    rw [hexponent, zpow_sub₀ (by norm_num), zpow_natCast, zpow_natCast, zpow_one]
    linarith
  · have htable := (estimate_table k (by omega)).2
    have hcast : (2 : ℚ) ^ k ≤ 10 ^ (k * 30103 / 100000 + 1) := by exact_mod_cast htable
    calc (10 : ℚ) ^ (-(k : Int) * 30103 / 100000 - 1)
        ≤ 10 ^ (-((k * 30103 / 100000 + 1 : Nat) : Int)) :=
          zpow_le_zpow_right₀ (by norm_num) (by omega)
      _ ≤ 2 ^ (-(k : Int)) := by
          rw [zpow_neg, zpow_neg, zpow_natCast, zpow_natCast]
          exact inv_anti₀ (by positivity) hcast

/-- The magnitude of a fraction within the range of doubles is not too great. -/
theorem zpow_magnitude_le {n d : Nat} (hn : 0 < n) (hd : 0 < d)
    (hlow : 2 ^ (-1074 : Int) ≤ (n : ℚ) / d) (hhigh : (n : ℚ) / d < 2 ^ (1024 : Int)) :
    (10 : ℚ) ^ (magnitude n d - 1) ≤ n / d := by
  have hbelow (p : Int) : ratioLt n d (power 1 p).1 (power 1 p).2 ↔ (n : ℚ) / d < 10 ^ p := by
    rw [ratioLt_iff hd (power_pos 1 p), power_value, Nat.cast_one, one_mul]
  obtain ⟨hmore, hless⟩ := Binary64.fraction_bounds hn hd
  have hleast := (zpow_lt_zpow_iff_right₀ one_lt_two).1 (hlow.trans_lt hless)
  have hgreatest := (zpow_lt_zpow_iff_right₀ one_lt_two).1 (hmore.trans hhigh)
  have hestimate := zpow_estimate_le (j := (n.log2 : Int) - d.log2 - 1) (by omega) (by omega)
  unfold magnitude
  dsimp only
  -- Where the search goes on, the last power of ten that was tried is not too great.
  generalize ((n.log2 : Int) - d.log2 - 1) * 30103 / 100000 = guess at hestimate ⊢
  have hnext {p : Int} (h : ¬ratioLt n d (power 1 p).1 (power 1 p).2) :
      (10 : ℚ) ^ (p + 1 - 1) ≤ n / d := by
    rw [add_sub_cancel_right]
    exact not_lt.1 (mt (hbelow p).2 h)
  split
  next => exact hestimate.trans hmore.le
  next h =>
    split
    next => exact hnext h
    next h =>
      have htwo : guess + 2 = guess + 1 + 1 := by ring
      have hthree : guess + 3 = guess + 2 + 1 := by ring
      split
      next => exact htwo ▸ hnext h
      next h => exact hthree ▸ hnext h

/-! ## The search -/

variable {x : Binary64}

theorem fraction_value (x : Binary64) :
    (x.fraction.1 : ℚ) / x.fraction.2 = x.significand * 2 ^ x.exponent := by
  rw [Binary64.fraction, Binary64.scale_value, neg_neg, Nat.cast_one, div_one]

/-- The value of a double in units of `10 ^ e`. -/
def onScale (x : Binary64) (e : Int) : Nat × Nat :=
  if e < 0 then (x.fraction.1 * Nat.pow 10 (-e).toNat, x.fraction.2)
  else (x.fraction.1, x.fraction.2 * Nat.pow 10 e.toNat)

theorem onGrid_eq (x : Binary64) (e : Int) : onGrid x e =
    let (a, b) := onScale x e
    match readsBack x (a / b) e, readsBack x (a / b + 1) e with
    | false, false => none
    | true, false => some (a / b)
    | false, true => some (a / b + 1)
    | true, true =>
      some (if 2 * (a % b) < b ∨ (2 * (a % b) = b ∧ a / b % 2 = 0) then a / b else a / b + 1) :=
  rfl

theorem fraction_pos (x : Binary64) : 0 < x.fraction.2 :=
  Binary64.scale_pos _ Nat.one_pos _

theorem onScale_pos (x : Binary64) (e : Int) : 0 < (onScale x e).2 := by
  unfold onScale
  split
  · exact fraction_pos x
  · exact Nat.mul_pos (fraction_pos x) (Nat.pow_pos (by decide))

theorem onScale_value (x : Binary64) (e : Int) :
    ((onScale x e).1 : ℚ) / (onScale x e).2 = x.significand * 2 ^ x.exponent / 10 ^ e := by
  have hpos : (0 : ℚ) < x.fraction.2 := Nat.cast_pos.2 (fraction_pos x)
  rw [← fraction_value, onScale]
  obtain ⟨k, rfl | rfl⟩ := e.eq_nat_or_neg
  · have hneg : ¬(k : Int) < 0 := by omega
    rw [if_neg hneg, Int.toNat_natCast, zpow_natCast, Nat.pow_eq]
    push_cast
    rw [div_mul_eq_div_div]
  · rw [zpow_neg, zpow_natCast, div_inv_eq_mul]
    cases k with
    | zero => simp
    | succ k =>
      have hneg : -((k + 1 : Nat) : Int) < 0 := by omega
      rw [if_pos hneg, neg_neg, Int.toNat_natCast, Nat.pow_eq]
      push_cast
      rw [mul_div_right_comm]

theorem readsBack_of_onGrid {e : Int} {c : Nat} (h : onGrid x e = some c) : readsBack x c e := by
  rw [onGrid_eq] at h
  obtain ⟨a, b⟩ := onScale x e
  dsimp only at h
  split at h
  next => cases h
  next hfirst _ => exact Option.some_inj.1 h ▸ hfirst
  next hsecond => exact Option.some_inj.1 h ▸ hsecond
  next hfirst hsecond =>
    rw [← Option.some_inj.1 h]
    split
    · exact hfirst
    · exact hsecond

theorem onGrid_isSome_of_readsBack {e : Int}
    (h : readsBack x ((onScale x e).1 / (onScale x e).2 + 1) e) : (onGrid x e).isSome := by
  rw [onGrid_eq]
  dsimp only
  rw [h]
  split
  next hnone => cases hnone
  next hnone => cases hnone
  all_goals rfl

/-- The search gives a decimal that reads back if there is one on the last grid. -/
theorem readsBack_search {count : Nat} {e : Int} (h : (onGrid x (e - count)).isSome) :
    readsBack x (search x count e).digits (search x count e).exponent := by
  induction count generalizing e with
  | zero =>
    obtain ⟨c, hc⟩ := Option.isSome_iff_exists.1 h
    rw [Nat.cast_zero, sub_zero] at hc
    rw [search, hc]
    exact readsBack_of_onGrid hc
  | succ count ih =>
    rw [search]
    split
    next c hc => exact readsBack_of_onGrid hc
    next =>
      refine ih ?_
      have hlast : e - 1 - count = e - (count + 1 : Nat) := by
        push_cast
        ring
      rwa [hlast]

theorem rounds_of_above {v : ℚ} (hlow : x.significand * 2 ^ x.exponent < v)
    (hhigh : 2 * v < (2 * x.significand + 1) * 2 ^ x.exponent) : x.Rounds v := by
  have hplace : (0 : ℚ) < 2 ^ x.exponent := by positivity
  have hunits : x.units v * 2 ^ x.exponent = v := by
    rw [units, mul_assoc, ← zpow_add₀ two_ne_zero, neg_add_cancel, zpow_zero, mul_one]
  rw [← hunits] at hlow hhigh
  rw [← mul_assoc] at hhigh
  have hmore := lt_of_mul_lt_mul_right hlow hplace.le
  have hless := lt_of_mul_lt_mul_right hhigh hplace.le
  have hgap : (0 : ℚ) ≤ x.gap := Nat.cast_nonneg _
  refine ⟨?_, ?_, fun heq ↦ ?_, fun heq ↦ ?_⟩ <;> linarith

/-- On a grid finer than half of the last place the neighbour above a double reads back. -/
theorem onGrid_isSome (hx : 0 < x.significand) {e : Int}
    (hfine : 2 * (10 : ℚ) ^ e < 2 ^ x.exponent) : (onGrid x e).isSome := by
  refine onGrid_isSome_of_readsBack ((readsBack_iff_rounds hx _ e).2 ?_)
  have hunit : (0 : ℚ) < 10 ^ e := by positivity
  have hpos : (0 : ℚ) < (onScale x e).2 := Nat.cast_pos.2 (onScale_pos x e)
  have hvalue := onScale_value x e
  have hfloor : ((onScale x e).1 : ℚ) / (onScale x e).2 <
      ((onScale x e).1 / (onScale x e).2 + 1 : Nat) := by
    rw [div_lt_iff₀ hpos]
    norm_cast
    rw [Nat.add_one_mul]
    exact Nat.lt_div_mul_add (onScale_pos x e)
  have hceil := Nat.cast_div_le (α := ℚ) (m := (onScale x e).1) (n := (onScale x e).2)
  generalize (onScale x e).1 / (onScale x e).2 = c at hfloor hceil ⊢
  rw [hvalue, div_lt_iff₀ hunit] at hfloor
  rw [hvalue, le_div_iff₀ hunit] at hceil
  refine rounds_of_above hfloor ?_
  push_cast
  linarith

theorem value_bounds (hx : x.IsDouble) (hpos : 0 < x.significand) :
    (2 : ℚ) ^ (-1074 : Int) ≤ x.significand * 2 ^ x.exponent ∧
      (x.significand * 2 ^ x.exponent : ℚ) < 2 ^ (1024 : Int) := by
  have hplace : (0 : ℚ) < 2 ^ x.exponent := by positivity
  have hone : (1 : ℚ) ≤ x.significand := by exact_mod_cast hpos
  have hbound : (x.significand : ℚ) < 2 ^ (53 : Int) := by exact_mod_cast hx.significand_lt
  have hleast := hx.minExponent_le
  have hgreatest := hx.exponent_le
  rw [Binary64.minExponent] at hleast
  rw [Binary64.maxExponent] at hgreatest
  constructor
  · calc (2 : ℚ) ^ (-1074 : Int) ≤ 2 ^ x.exponent := zpow_le_zpow_right₀ one_le_two hleast
      _ ≤ x.significand * 2 ^ x.exponent := le_mul_of_one_le_left hplace.le hone
  · calc (x.significand : ℚ) * 2 ^ x.exponent < 2 ^ (53 : Int) * 2 ^ x.exponent :=
          mul_lt_mul_of_pos_right hbound hplace
      _ = 2 ^ (53 + x.exponent) := (zpow_add₀ two_ne_zero _ _).symm
      _ ≤ 2 ^ (1024 : Int) := zpow_le_zpow_right₀ one_le_two (by omega)

theorem shortest_eq (x : Binary64) :
    shortest x = search x 17 (magnitude x.fraction.1 x.fraction.2 - 1) :=
  rfl

/-- The shortest decimal of a double rounds to it: if no grid with fewer digits has a decimal that
does, the one with seventeen or eighteen digits has. -/
theorem rounds_shortest (hx : x.IsDouble) (hpos : 0 < x.significand) :
    x.Rounds ((shortest x).digits * 10 ^ (shortest x).exponent) := by
  obtain ⟨hlow, hhigh⟩ := value_bounds hx hpos
  have hplace : (0 : ℚ) < 2 ^ x.exponent := by positivity
  have hbound : (x.significand : ℚ) < 2 ^ 53 := by exact_mod_cast hx.significand_lt
  rw [← fraction_value] at hlow hhigh
  have hnumerator : 0 < x.fraction.1 := by
    by_contra hzero
    rw [Nat.eq_zero_of_not_pos hzero, Nat.cast_zero, zero_div] at hlow
    exact absurd hlow (not_le.2 (by positivity))
  have hmagnitude := zpow_magnitude_le hnumerator (fraction_pos x) hlow hhigh
  rw [shortest_eq]
  generalize magnitude x.fraction.1 x.fraction.2 - 1 = e at hmagnitude ⊢
  -- The value is less than `2 ^ 53` units of its last place, and `2 ^ 54` is less than `10 ^ 17`.
  refine (readsBack_iff_rounds hpos _ _).1 (readsBack_search (onGrid_isSome hpos ?_))
  calc 2 * (10 : ℚ) ^ (e - (17 : Nat)) = 2 / 10 ^ 17 * 10 ^ e := by
        rw [zpow_sub₀ (by norm_num), zpow_natCast]
        ring
    _ ≤ 2 / 10 ^ 17 * (x.significand * 2 ^ x.exponent) := by
        rw [← fraction_value]
        gcongr
    _ < 2 / 10 ^ 17 * (2 ^ 53 * 2 ^ x.exponent) := by gcongr
    _ ≤ 2 ^ x.exponent := by
        norm_num
        linarith

end Decimal

end ApiClient
