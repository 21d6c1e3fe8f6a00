import Mathlib.Algebra.Group.Nat.Defs
import ApiClient.Decimal.Shortest
import ApiClient.Proofs.Text.Numbers

/-!
# Integers as doubles

An integer below `2 ^ 53` is a double. The decimals that read back as this double and have no places
are the integer itself and nothing else, because its neighbours are at most one apart from it. So
the shortest decimal is the integer without the zeros at its end.
-/

namespace ApiClient

namespace Binary64

/-- How many binary digits an integer lacks to a significand. -/
def shift (n : Nat) : Nat := 52 - n.log2

def ofInteger (negative : Bool) (n : Nat) : Binary64 where
  negative
  significand := n * 2 ^ shift n
  exponent := -(shift n : Int)

theorem scale_neg (n d k : Nat) : scale n d (-(k : Int)) = (n * 2 ^ k, d) := by
  cases k with
  | zero => simp [scale]
  | succ k =>
    have hneg : -((k + 1 : Nat) : Int) < 0 := by omega
    rw [scale, if_pos hneg]
    simp

theorem scale_natCast (n d k : Nat) : scale n d (k : Int) = (n, d * 2 ^ k) := by
  have hneg : ¬(k : Int) < 0 := by omega
  rw [scale, if_neg hneg]
  simp

variable {n : Nat}

theorem significand_bounds (hn : 0 < n) (hsmall : n < 2 ^ 53) :
    n.log2 ≤ 52 ∧ 2 ^ 52 ≤ n * 2 ^ shift n ∧ n * 2 ^ shift n < 2 ^ 53 := by
  have hlog : n.log2 ≤ 52 := Nat.le_of_lt_succ ((Nat.log2_lt (Nat.ne_of_gt hn)).2 hsmall)
  have hpow (m : Nat) : 2 ^ (n.log2 + m) * 2 ^ shift n = 2 ^ (52 + m) := by
    rw [← Nat.pow_add, shift]
    congr 1
    omega
  have hlow := Nat.mul_le_mul_right (2 ^ shift n) (Nat.log2_self_le (Nat.ne_of_gt hn))
  have hhigh := Nat.mul_lt_mul_of_pos_right (Nat.lt_log2_self (n := n)) (Nat.two_pow_pos (shift n))
  exact ⟨hlog, hpow 0 ▸ hlow, hpow 1 ▸ hhigh⟩

theorem exponentOf_integer (hn : 0 < n) (hsmall : n < 2 ^ 53) :
    exponentOf n 1 = -(shift n : Int) := by
  obtain ⟨hlog, hlow, -⟩ := significand_bounds hn hsmall
  have hguess : (n.log2 : Int) - (1 : Nat).log2 - 52 = -(shift n : Int) := by
    have hone : (1 : Nat).log2 = 0 := rfl
    rw [hone, shift]
    omega
  have hmin : max minExponent (-(shift n : Int)) = -(shift n : Int) := by
    rw [minExponent, shift]
    omega
  have hnormal : ¬n * 2 ^ shift n < 1 * Nat.pow 2 52 := by
    rw [Nat.one_mul]
    exact Nat.not_lt.2 hlow
  simp only [exponentOf, hguess, scale_neg, if_neg hnormal, hmin]

theorem nearest_integer (negative : Bool) (hn : 0 < n) (hsmall : n < 2 ^ 53) :
    nearest negative n 1 = some (ofInteger negative n) := by
  obtain ⟨-, -, hhigh⟩ := significand_bounds hn hsmall
  have hround : divNearest (n * 2 ^ shift n) 1 = n * 2 ^ shift n := by
    simp [divNearest, Nat.mod_one]
  have hfull : n * 2 ^ shift n ≠ Nat.pow 2 53 := Nat.ne_of_lt hhigh
  have hrange : ¬-(shift n : Int) > maxExponent := by
    rw [maxExponent]
    omega
  unfold nearest
  rw [if_neg (Nat.ne_of_gt hn), exponentOf_integer hn hsmall]
  simp only [scale_neg, hround]
  rw [if_neg hfull]
  simp only [if_neg hrange]
  rw [ofInteger]

theorem fraction_ofInteger (negative : Bool) (n : Nat) :
    (ofInteger negative n).fraction = (n * 2 ^ shift n, 2 ^ shift n) := by
  rw [fraction, ofInteger, Int.neg_neg, scale_natCast, Nat.one_mul]

end Binary64

namespace Decimal

open Binary64 (ofInteger shift significand_bounds fraction_ofInteger scale_natCast)

variable {n : Nat}

theorem power_natCast (c e : Nat) : power c (e : Int) = (c * 10 ^ e, 1) := by
  have hneg : ¬(e : Int) < 0 := by omega
  rw [power, if_neg hneg]
  simp

/-- Multiples of `w` that are less than `w` apart are the same. -/
theorem eq_of_near {v n w : Nat} (hlow : n * w < v * w + w) (hhigh : v * w < n * w + w) :
    v = n := by
  have hlt : n < v + 1 := Nat.lt_of_mul_lt_mul_right (by rwa [Nat.succ_mul])
  have hgt : v < n + 1 := Nat.lt_of_mul_lt_mul_right (by rwa [Nat.succ_mul])
  omega

/-- A decimal without places reads back as the double of an integer if and only if it is the
integer. -/
theorem readsBack_iff (negative : Bool) (hn : 0 < n) (c e : Nat) :
    readsBack (ofInteger negative n) c e ↔ c * 10 ^ e = n := by
  have hexponent : 2 - (ofInteger negative n).exponent = ((shift n + 2 : Nat) : Int) := by
    simp only [ofInteger]
    omega
  have hwidth : 2 ^ (shift n + 2) = 4 * 2 ^ shift n := by
    rw [Nat.pow_add, Nat.mul_comm]
  have hfour : 4 ≤ 2 ^ (shift n + 2) := by
    have hpos := Nat.two_pow_pos (shift n)
    omega
  have hspread : 4 * (ofInteger negative n).significand = n * 2 ^ (shift n + 2) := by
    rw [hwidth, ofInteger, Nat.mul_left_comm]
  have hpos : 2 ^ (shift n + 2) ≤ n * 2 ^ (shift n + 2) := Nat.le_mul_of_pos_left _ hn
  simp only [readsBack, hexponent, scale_natCast, power_natCast, ratioLe, ratioLt, hspread,
    Nat.mul_one, Nat.one_mul]
  generalize 2 ^ (shift n + 2) = w at hfour hpos ⊢
  generalize c * 10 ^ e = v
  constructor
  · intro h
    refine @eq_of_near v n w ?_ ?_ <;> grind
  · rintro rfl
    grind

/-- On a grid of whole numbers a decimal is found if and only if the integer lies on it. -/
theorem onGrid_integer (negative : Bool) (hn : 0 < n) (e : Nat) :
    onGrid (ofInteger negative n) e = if 10 ^ e ∣ n then some (n / 10 ^ e) else none := by
  have hneg : ¬(e : Int) < 0 := by omega
  have hpow : Nat.pow 10 (e : Int).toNat = 10 ^ e := rfl
  have hdiv : n * 2 ^ shift n / (2 ^ shift n * 10 ^ e) = n / 10 ^ e := by
    rw [Nat.mul_comm, Nat.mul_div_mul_left _ _ (Nat.two_pow_pos _)]
  have hfirst : readsBack (ofInteger negative n) (n / 10 ^ e) e = decide (10 ^ e ∣ n) := by
    rw [Bool.eq_iff_iff, readsBack_iff negative hn, decide_eq_true_iff, Nat.dvd_iff_div_mul_eq]
  have hsecond : readsBack (ofInteger negative n) (n / 10 ^ e + 1) e = false := by
    rw [Bool.eq_false_iff, ne_eq, readsBack_iff negative hn, Nat.succ_mul]
    exact Nat.ne_of_gt (Nat.lt_div_mul_add (Nat.pow_pos (by decide)))
  unfold onGrid
  rw [fraction_ofInteger]
  simp only [if_neg hneg, hpow, hdiv, hfirst, hsecond]
  by_cases hdvd : 10 ^ e ∣ n <;> simp [hdvd]

/-- The search ends at the coarsest grid that the integer lies on. -/
theorem search_integer (negative : Bool) (hn : 0 < n) {count j : Nat} (hcount : j ≤ count)
    (hj : ¬10 ^ (j + 1) ∣ n) : ∃ t : Nat, 10 ^ t ∣ n ∧ ¬10 ^ (t + 1) ∣ n ∧
      search (ofInteger negative n) count j = ⟨n / 10 ^ t, t⟩ := by
  induction j generalizing count with
  | zero =>
    have hdvd : 10 ^ 0 ∣ n := Nat.one_dvd n
    have hgrid := onGrid_integer negative hn 0
    rw [if_pos hdvd] at hgrid
    refine ⟨0, hdvd, hj, ?_⟩
    cases count with
    | zero => rw [search, hgrid]; rfl
    | succ count => rw [search, hgrid]
  | succ j ih =>
    obtain ⟨count, rfl⟩ : ∃ c, count = c + 1 := ⟨count - 1, by omega⟩
    have hgrid := onGrid_integer negative hn (j + 1)
    rw [search]
    by_cases hdvd : 10 ^ (j + 1) ∣ n
    · rw [if_pos hdvd] at hgrid
      exact ⟨j + 1, hdvd, hj, by rw [hgrid]⟩
    · rw [if_neg hdvd] at hgrid
      obtain ⟨t, ht, htop, hsearch⟩ := ih (Nat.le_of_succ_le_succ hcount) hdvd
      have hprev : ((j + 1 : Nat) : Int) - 1 = j := by omega
      exact ⟨t, ht, htop, by rw [hgrid]; dsimp only; rw [hprev, hsearch]⟩

theorem lt_pow_of_ratioLt (hn : 0 < n) {k : Nat} {p : Int}
    (h : ratioLt (n * 2 ^ k) (2 ^ k) (power 1 p).1 (power 1 p).2) :
    ∃ j : Nat, p = ((j + 1 : Nat) : Int) ∧ n < 10 ^ (j + 1) := by
  have hpos := Nat.two_pow_pos k
  have hself : 2 ^ k ≤ n * 2 ^ k := Nat.le_mul_of_pos_left _ hn
  cases p with
  | ofNat m =>
    have hpower : power 1 (Int.ofNat m) = (1 * 10 ^ m, 1) := power_natCast 1 m
    rw [hpower, ratioLt, decide_eq_true_iff, Nat.mul_one, Nat.one_mul] at h
    have hlt : n < 10 ^ m := Nat.lt_of_mul_lt_mul_right h
    cases m with
    | zero =>
      rw [Nat.pow_zero] at hlt
      omega
    | succ j => exact ⟨j, rfl, hlt⟩
  | negSucc m =>
    have hpower : power 1 (Int.negSucc m) = (1, 10 ^ (m + 1)) := by
      rw [power, if_pos (Int.negSucc_lt_zero m)]
      rfl
    have hten : 0 < 10 ^ (m + 1) := Nat.pow_pos (by decide)
    rw [hpower, ratioLt, decide_eq_true_iff] at h
    dsimp only at h
    have hlarge : n * 2 ^ k ≤ n * 2 ^ k * 10 ^ (m + 1) := Nat.le_mul_of_pos_right _ hten
    omega

/-- The first estimate of the magnitude, for an integer that lacks `k` binary digits. -/
def estimate (k : Nat) : Int :=
  ((52 : Nat) - (k : Int) - 1) * 30103 / 100000

/-- The estimate is low, but by three at most. -/
theorem estimate_bounds : ∀ k < 53, -1 ≤ estimate k ∧ estimate k ≤ 15 ∧
    2 ^ (53 - k) ≤ 10 ^ (estimate k + 3).toNat := by
  decide +kernel

/-- The search begins above the integer, and low enough to come down to the unit. -/
theorem magnitude_integer (hn : 0 < n) (hsmall : n < 2 ^ 53) :
    ∃ j ≤ 17, magnitude (n * 2 ^ shift n) (2 ^ shift n) = ((j + 1 : Nat) : Int) ∧
      n < 10 ^ (j + 1) := by
  obtain ⟨hlog, hlow, hhigh⟩ := significand_bounds hn hsmall
  have hpos : n * 2 ^ shift n ≠ 0 := Nat.ne_of_gt (Nat.mul_pos hn (Nat.two_pow_pos _))
  have hdigits : (n * 2 ^ shift n).log2 = 52 := (Nat.log2_eq_iff hpos).2 ⟨hlow, hhigh⟩
  have hshift : n.log2 + 1 = 53 - shift n := by
    rw [shift]
    omega
  obtain ⟨hmin, hmax, hpow⟩ := estimate_bounds (shift n) (by omega)
  have hlt : n < 10 ^ (estimate (shift n) + 3).toNat :=
    Nat.lt_of_lt_of_le (hshift ▸ Nat.lt_log2_self) hpow
  have hestimate : ((52 : Nat) - (shift n : Int) - 1) * 30103 / 100000 = estimate (shift n) := rfl
  unfold magnitude
  rw [hdigits, Nat.log2_two_pow]
  dsimp only
  rw [hestimate]
  generalize estimate (shift n) = guess at hmin hmax hlt ⊢
  have hbelow {p : Int} (hp : p ≤ 17)
      (h : ratioLt (n * 2 ^ shift n) (2 ^ shift n) (power 1 p).1 (power 1 p).2) :
      ∃ j ≤ 17, p = ((j + 1 : Nat) : Int) ∧ n < 10 ^ (j + 1) := by
    obtain ⟨j, rfl, hj⟩ := lt_pow_of_ratioLt hn h
    exact ⟨j, by omega, rfl, hj⟩
  have hone : guess + 1 ≤ 17 := by omega
  have htwo : guess + 2 ≤ 17 := by omega
  split
  next h => exact hbelow (by omega) h
  split
  next h => exact hbelow hone h
  split
  next h => exact hbelow htwo h
  have hlast : guess + 3 = (((guess + 2).toNat + 1 : Nat) : Int) := by omega
  have hexponent : (guess + 3).toNat = (guess + 2).toNat + 1 := by omega
  exact ⟨(guess + 2).toNat, by omega, hlast, hexponent ▸ hlt⟩

/-- The shortest decimal of an integer is the integer without the zeros at its end. -/
theorem shortest_integer (negative : Bool) (hn : 0 < n) (hsmall : n < 2 ^ 53) :
    ∃ t : Nat, 10 ^ t ∣ n ∧ ¬10 ^ (t + 1) ∣ n ∧
      shortest (ofInteger negative n) = ⟨n / 10 ^ t, t⟩ := by
  obtain ⟨j, hj, hmagnitude, hlt⟩ := magnitude_integer hn hsmall
  have hprev : ((j + 1 : Nat) : Int) - 1 = j := by omega
  rw [shortest, fraction_ofInteger]
  dsimp only
  rw [hmagnitude, hprev]
  exact search_integer negative hn hj fun hdvd ↦ Nat.not_le_of_lt hlt (Nat.le_of_dvd hn hdvd)

/-! ## The text of an integer -/

theorem toDigits_mul_pow {q : Nat} (hq : 0 < q) (t : Nat) :
    Nat.toDigits 10 (q * 10 ^ t) = Nat.toDigits 10 q ++ List.replicate t '0' := by
  induction t with
  | zero => simp
  | succ t ih =>
    have hpos : 0 < q * 10 ^ t := Nat.mul_pos hq (Nat.pow_pos (by decide))
    have hlast : q * 10 ^ (t + 1) = 10 * (q * 10 ^ t) + 0 := by
      rw [Nat.pow_succ, ← Nat.mul_assoc, Nat.mul_comm, Nat.add_zero]
    rw [hlast, ← Nat.toDigits_append_toDigits (by decide) hpos (by decide), ih,
      List.replicate_succ', List.append_assoc]
    rfl

theorem stripZeros_concat {ds : List Char} {c : Char} (hc : c ≠ '0') :
    stripZeros (ds ++ [c]) = ds ++ [c] := by
  have hstop : (c == '0') = false := beq_false_of_ne hc
  rw [stripZeros, List.reverse_concat, List.dropWhile_cons, hstop]
  simp

theorem stripZeros_toDigits {q : Nat} (hq : ¬10 ∣ q) :
    stripZeros (Nat.toDigits 10 q) = Nat.toDigits 10 q := by
  have hdigit {d : Nat} (hd : d < 10) (hne : d ≠ 0) : d.digitChar ≠ '0' := fun h ↦
    hne (digitChar_injective hd (by decide) h)
  have hmod : q % 10 ≠ 0 := fun h ↦ hq (Nat.dvd_of_mod_eq_zero h)
  rw [Nat.toDigits_eq_if (by decide)]
  split
  next h =>
    rw [Nat.mod_eq_of_lt h] at hmod
    exact @stripZeros_concat [] _ (hdigit h hmod)
  next => exact stripZeros_concat (hdigit (Nat.mod_lt q (by decide)) hmod)

/-- Digits with zeros behind them that stand for places before the point. -/
theorem Layout.set_whole {layout : Layout} (hleast : layout.least ≤ 0)
    (hpoint : layout.point = false) {digits : List Char} (hne : digits ≠ []) {t : Nat}
    (hgreatest : (t : Int) + digits.length - 1 ≤ layout.greatest) :
    layout.set digits (t + digits.length - 1) = digits ++ List.replicate t '0' := by
  have hlength : 0 < digits.length := List.length_pos_iff.2 hne
  have hlead : ((t : Int) + digits.length - 1).toNat + 1 = t + digits.length := by omega
  have hpositive : ¬(t : Int) + digits.length - 1 < 0 := by omega
  have hrange : layout.least ≤ (t : Int) + digits.length - 1 ∧
      (t : Int) + digits.length - 1 ≤ layout.greatest := ⟨by omega, hgreatest⟩
  unfold set
  rw [if_pos hrange, if_neg hpositive, hlead, List.take_of_length_le (by omega),
    List.drop_eq_nil_of_le (by omega), hpoint]
  simp

/-- Integers are written out if numbers without places have no point. -/
theorem Layout.text_ofInteger {layout : Layout} (hleast : layout.least ≤ 0)
    (hgreatest : 15 ≤ layout.greatest) (hpoint : layout.point = false) (negative : Bool)
    (hn : 0 < n) (hsmall : n < 2 ^ 53) : layout.text (ofInteger negative n) =
      (if negative then ['-'] else []) ++ Nat.toDigits 10 n := by
  obtain ⟨t, hdvd, htop, hshortest⟩ := shortest_integer negative hn hsmall
  have hpos : 0 < 10 ^ t := Nat.pow_pos (by decide)
  have hsplit : n / 10 ^ t * 10 ^ t = n := Nat.div_mul_cancel hdvd
  have hquotient : 0 < n / 10 ^ t := Nat.div_pos (Nat.le_of_dvd hn hdvd) hpos
  have hend : ¬10 ∣ n / 10 ^ t := fun h ↦ htop <| by
    rw [← hsplit, Nat.pow_succ, Nat.mul_comm (10 ^ t)]
    exact Nat.mul_dvd_mul_right h _
  have hdigits := toDigits_mul_pow hquotient t
  rw [hsplit] at hdigits
  have hlength : (Nat.toDigits 10 n).length ≤ 16 :=
    (Nat.length_toDigits_le_iff (by decide) (by decide)).2 (Nat.lt_trans hsmall (by decide))
  rw [hdigits, List.length_append, List.length_replicate] at hlength
  have hne : Nat.toDigits 10 (n / 10 ^ t) ≠ [] := by
    rw [Nat.toDigits_eq_if (by decide)]
    split <;> simp
  have hsignificand : (ofInteger negative n).significand ≠ 0 :=
    Nat.ne_of_gt (Nat.mul_pos hn (Nat.two_pow_pos _))
  unfold text
  rw [if_neg hsignificand, hshortest, hdigits]
  dsimp only
  rw [stripZeros_toDigits hend, set_whole hleast hpoint hne (by omega)]
  rfl

end Decimal

end ApiClient
