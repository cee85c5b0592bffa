/-
  Reading a decimal gives the number of the format that is nearest to it.

  Magnitudes are counted in units of `2 ^ -1074`, the smallest one above zero (`units`). Between two
  powers of two they form a grid: `units (j * 2 ^ 52 + q) = q * 2 ^ j` (`units_grid`), so the units grow
  with the magnitude and the infinite one is worth `2 ^ 1024`, the next number that the grid would hold.
  Rounding finds the grid of a quotient and on it the quotient rounded down, so that the quotient lies
  between two magnitudes that follow each other; of these it takes the nearer one, the even one in the
  middle (`closest_nearest`). The same holds of decimals with a sign (`isNearest_ofDecimal`). The nearest
  number grows with the value it is nearest to (`IsNearest.mono`), and only one value is nearest
  (`IsNearest.unique`): so numbers compare as the values do that they were read from, unless two of these
  come to the same number (`IsNearest.compare_eq_iff`).
-/
import Mathlib.Algebra.Order.Field.Rat
import Mathlib.Algebra.Order.Field.Power
import Mathlib.Data.Nat.Cast.Order.Field
import Mathlib.Order.Monotone.Basic
import Mathlib.Tactic.FieldSimp
import Mathlib.Tactic.Linarith
import Mathlib.Tactic.NormNum
import Mathlib.Tactic.Positivity
import Mathlib.Tactic.Ring
import MemberOrder.Number.Binary64

namespace MemberOrder.Binary64

/-! ## Magnitudes in units -/

/-- A magnitude in units of `2 ^ -1074`. -/
def units (m : Nat) : Nat :=
  if m / 2 ^ 52 = 0 then m else (2 ^ 52 + m % 2 ^ 52) * 2 ^ (m / 2 ^ 52 - 1)

/-- On the grid of one exponent the units grow in equal steps. -/
theorem units_grid {j q : Nat} (hq : q ≤ 2 ^ 53) (hj : j = 0 ∨ 2 ^ 52 ≤ q) :
    units (j * 2 ^ 52 + q) = q * 2 ^ j := by
  rcases Nat.lt_or_ge q (2 ^ 52) with hlow | hlow
  · obtain rfl : j = 0 := by omega
    rw [units, if_pos (by omega)]
    omega
  · rcases Nat.eq_or_lt_of_le hq with rfl | hq
    · -- the last step of a grid is the first one of the next
      have hdiv : (j * 2 ^ 52 + 2 ^ 53) / 2 ^ 52 = j + 2 := by omega
      have hmod : (j * 2 ^ 52 + 2 ^ 53) % 2 ^ 52 = 0 := by omega
      rw [units, hdiv, hmod, if_neg (by omega), Nat.add_zero, show j + 2 - 1 = j + 1 from rfl]
      ring
    · have hdiv : (j * 2 ^ 52 + q) / 2 ^ 52 = j + 1 := by omega
      have hmod : 2 ^ 52 + (j * 2 ^ 52 + q) % 2 ^ 52 = q := by omega
      rw [units, hdiv, hmod, if_neg (by omega), Nat.add_sub_cancel]

/-- Every magnitude lies on a grid that also has the next one. -/
theorem exists_grid (m : Nat) : ∃ j q, m = j * 2 ^ 52 + q ∧ q < 2 ^ 53 ∧ (j = 0 ∨ 2 ^ 52 ≤ q) := by
  rcases Nat.eq_zero_or_pos (m / 2 ^ 52) with hzero | hpos
  · exact ⟨0, m, by omega, by omega, .inl rfl⟩
  · exact ⟨m / 2 ^ 52 - 1, 2 ^ 52 + m % 2 ^ 52, by omega, by omega, .inr (by omega)⟩

theorem units_strictMono : StrictMono units := by
  refine strictMono_nat_of_lt_succ fun m => ?_
  obtain ⟨j, q, rfl, hq, hj⟩ := exists_grid m
  rw [Nat.add_assoc, units_grid (by omega) hj, units_grid (by omega) (by omega), Nat.add_mul]
  have := Nat.two_pow_pos j
  omega

theorem units_cast_strictMono : StrictMono fun m => (units m : ℚ) :=
  fun _ _ h => Nat.cast_lt.mpr (units_strictMono h)

theorem units_zero : units 0 = 0 := rfl

/-- The number of units in one. -/
def scale : ℚ := 2 ^ 1074

theorem scale_pos : 0 < scale := pow_pos two_pos 1074

theorem units_infinite : units infinite = 2 ^ 52 * 2 ^ 2046 := by
  have hgrid : infinite = 2046 * 2 ^ 52 + 2 ^ 52 := by decide
  rw [hgrid]
  exact units_grid (by omega) (.inr (Nat.le_refl _))

/-! ## The nearest magnitude -/

section Nearest

variable {f : Nat → ℚ} {x : ℚ} {m n r : Nat}

/-- A number of a growing sequence is nearest to a value: none is nearer, and one that is as near as
another has an even index. -/
structure Closest (f : Nat → ℚ) (bound : Nat) (x : ℚ) (r : Nat) : Prop where
  le : r ≤ bound
  closest : ∀ n ≤ bound, |f r - x| ≤ |f n - x|
  even : ∀ n ≤ bound, n ≠ r → |f n - x| = |f r - x| → r % 2 = 0

/-- Of two numbers that follow each other around a value the nearer one is nearest, in the middle the
even one. -/
theorem closest_of_between (hf : StrictMono f) (hlow : f m ≤ x) (hhigh : x ≤ f (m + 1))
    (hr : r = m ∨ r = m + 1) (hm : |f r - x| ≤ |f m - x|) (hm' : |f r - x| ≤ |f (m + 1) - x|)
    (heven : |f m - x| = |f (m + 1) - x| → r % 2 = 0) {bound : Nat} (hbound : r ≤ bound) :
    Closest f bound x r := by
  have hbelow {n : Nat} (hn : n ≤ m) : |f m - x| ≤ |f n - x| ∧ (|f n - x| = |f m - x| → n = m) := by
    have hle := hf.monotone hn
    rw [abs_of_nonpos (by linarith), abs_of_nonpos (by linarith)]
    exact ⟨by linarith, fun h => hf.injective (by linarith)⟩
  have habove {n : Nat} (hn : m + 1 ≤ n) :
      |f (m + 1) - x| ≤ |f n - x| ∧ (|f n - x| = |f (m + 1) - x| → n = m + 1) := by
    have hle := hf.monotone hn
    rw [abs_of_nonneg (by linarith), abs_of_nonneg (by linarith)]
    exact ⟨by linarith, fun h => hf.injective (by linarith)⟩
  refine ⟨hbound, fun n _ => ?_, fun n _ hne htie => ?_⟩
  · rcases Nat.lt_or_ge m n with hn | hn
    · exact hm'.trans (habove hn).1
    · exact hm.trans (hbelow hn).1
  · -- what is as near is the other one of the two
    rcases Nat.lt_or_ge m n with hn | hn
    · obtain rfl := (habove hn).2 (le_antisymm (htie.le.trans hm') (habove hn).1)
      obtain rfl := hr.resolve_right hne.symm
      exact heven htie.symm
    · obtain rfl := (hbelow hn).2 (le_antisymm (htie.le.trans hm) (hbelow hn).1)
      obtain rfl := hr.resolve_left hne.symm
      exact heven htie

/-- The last number is nearest to a value that is not below it. -/
theorem closest_of_above (hf : StrictMono f) {bound : Nat} (h : f bound ≤ x) : Closest f bound x bound := by
  have hdist {n : Nat} (hn : n ≤ bound) :
      |f bound - x| ≤ |f n - x| ∧ (|f n - x| = |f bound - x| → n = bound) := by
    have hle := hf.monotone hn
    rw [abs_of_nonpos (by linarith), abs_of_nonpos (by linarith)]
    exact ⟨by linarith, fun h => hf.injective (by linarith)⟩
  exact ⟨Nat.le_refl _, fun n hn => (hdist hn).1, fun n hn hne htie => absurd ((hdist hn).2 htie) hne⟩

end Nearest

/-! ## Rounding -/

section Rounding

variable {num den : Nat} (hden : 0 < den)
include hden

theorem div_lt_iff_cast {k : Nat} : num / den < k ↔ (num : ℚ) / den < k := by
  rw [Nat.div_lt_iff_lt_mul hden, div_lt_iff₀ (by exact_mod_cast hden)]
  exact_mod_cast Iff.rfl

/-- A quotient rounded is one of its two neighbours, the nearer one, and in the middle the even one. -/
theorem roundDiv_spec (num : Nat) :
    (roundDiv num den = num / den ∨ roundDiv num den = num / den + 1) ∧
    |(roundDiv num den : ℚ) - num / den| ≤ |((num / den : Nat) : ℚ) - num / den| ∧
    |(roundDiv num den : ℚ) - num / den| ≤ |((num / den + 1 : Nat) : ℚ) - num / den| ∧
    (|((num / den : Nat) : ℚ) - num / den| = |((num / den + 1 : Nat) : ℚ) - num / den| →
      roundDiv num den % 2 = 0) := by
  have hpos : (0 : ℚ) < den := by exact_mod_cast hden
  obtain ⟨t, ht⟩ : ∃ t : ℚ, t = (num % den : Nat) / den := ⟨_, rfl⟩
  have hvalue : (num : ℚ) / den = (num / den : Nat) + t := by
    rw [ht, div_eq_iff hpos.ne', add_mul, div_mul_cancel₀ _ hpos.ne', mul_comm]
    exact_mod_cast (Nat.div_add_mod num den).symm
  have hone : t < 1 := by
    rw [ht, div_lt_one hpos]
    exact_mod_cast Nat.mod_lt num hden
  have hzero : 0 ≤ t := by
    rw [ht]
    positivity
  have hless : 2 * (num % den) < den ↔ 2 * t < 1 := by
    rw [ht, ← mul_div_assoc, div_lt_one hpos]
    exact_mod_cast Iff.rfl
  have hmore : den < 2 * (num % den) ↔ 1 < 2 * t := by
    rw [ht, ← mul_div_assoc, one_lt_div hpos]
    exact_mod_cast Iff.rfl
  have hbelow : |((num / den : Nat) : ℚ) - num / den| = t := by
    rw [hvalue, sub_add_cancel_left, abs_neg, abs_of_nonneg hzero]
  have habove : |((num / den + 1 : Nat) : ℚ) - num / den| = 1 - t := by
    rw [hvalue, Nat.cast_add, Nat.cast_one, add_sub_add_left_eq_sub, abs_of_nonneg (by linarith)]
  rw [hbelow, habove]
  simp only [roundDiv, hless, hmore]
  split
  · rw [hbelow]
    exact ⟨.inl rfl, le_rfl, by linarith, fun htie => by linarith⟩
  · split
    · rw [habove]
      exact ⟨.inr rfl, by linarith, le_rfl, fun htie => by linarith⟩
    · -- in the middle
      have hhalf : t = 1 - t := by linarith
      rcases Nat.mod_two_eq_zero_or_one (num / den) with heven | hodd
      · rw [heven, Nat.add_zero, hbelow]
        exact ⟨.inl rfl, le_rfl, hhalf.le, fun _ => heven⟩
      · rw [hodd, habove]
        exact ⟨.inr rfl, hhalf.ge, le_rfl, fun _ => by omega⟩

theorem scaled_spec (num : Nat) (e : Int) : 0 < (scaled num den e).2 ∧
    ((scaled num den e).1 : ℚ) / (scaled num den e).2 = num / den / 2 ^ e := by
  unfold scaled
  split
  · rename_i he
    obtain ⟨k, rfl⟩ : ∃ k : Nat, e = -(k : Int) := ⟨(-e).toNat, by omega⟩
    refine ⟨hden, ?_⟩
    simp only [neg_neg, Int.toNat_natCast, Nat.pow_eq, zpow_neg, zpow_natCast, div_inv_eq_mul]
    push_cast
    ring
  · rename_i he
    obtain ⟨k, rfl⟩ : ∃ k : Nat, e = (k : Int) := ⟨e.toNat, by omega⟩
    simp only [Int.toNat_natCast, Nat.pow_eq, zpow_natCast]
    refine ⟨Nat.mul_pos hden (Nat.two_pow_pos k), ?_⟩
    push_cast
    rw [div_div]

/-- A quotient lies between powers of two that its logarithms tell. -/
theorem ratio_bounds (hnum : num ≠ 0) :
    (2 : ℚ) ^ ((num.log2 : Int) - den.log2 - 1) < num / den ∧
      (num : ℚ) / den < 2 ^ ((num.log2 : Int) - den.log2 + 1) := by
  have hpos : (0 : ℚ) < den := by exact_mod_cast hden
  have hnumLow : (2 : ℚ) ^ (num.log2 : Int) ≤ num := by
    rw [zpow_natCast]
    exact_mod_cast Nat.log2_self_le hnum
  have hnumHigh : (num : ℚ) < 2 ^ ((num.log2 : Int) + 1) := by
    rw [← Nat.cast_succ, zpow_natCast]
    exact_mod_cast Nat.lt_log2_self
  have hdenLow : (2 : ℚ) ^ (den.log2 : Int) ≤ den := by
    rw [zpow_natCast]
    exact_mod_cast Nat.log2_self_le hden.ne'
  have hdenHigh : (den : ℚ) < 2 ^ ((den.log2 : Int) + 1) := by
    rw [← Nat.cast_succ, zpow_natCast]
    exact_mod_cast Nat.lt_log2_self
  constructor
  · rw [lt_div_iff₀ hpos]
    calc (2 : ℚ) ^ ((num.log2 : Int) - den.log2 - 1) * den
        < 2 ^ ((num.log2 : Int) - den.log2 - 1) * 2 ^ ((den.log2 : Int) + 1) :=
          mul_lt_mul_of_pos_left hdenHigh (by positivity)
      _ = 2 ^ (num.log2 : Int) := by
          rw [← zpow_add₀ (by norm_num)]
          congr 1
          ring
      _ ≤ num := hnumLow
  · rw [div_lt_iff₀ hpos]
    calc (num : ℚ) < 2 ^ ((num.log2 : Int) + 1) := hnumHigh
      _ = 2 ^ ((num.log2 : Int) - den.log2 + 1) * 2 ^ (den.log2 : Int) := by
          rw [← zpow_add₀ (by norm_num)]
          congr 1
          ring
      _ ≤ 2 ^ ((num.log2 : Int) - den.log2 + 1) * den := mul_le_mul_of_nonneg_left hdenLow (by positivity)

/-- A value is the quotient of two numbers on the grid of an exponent. -/
structure OnGrid (x : ℚ) (j n d : Nat) : Prop where
  pos : 0 < d
  value : (n : ℚ) / d * 2 ^ j = x * scale
  lt : n / d < 2 ^ 53
  le : j = 0 ∨ 2 ^ 52 ≤ n / d

theorem onGrid_scaled {e : Int} (he : -1074 ≤ e) (hhigh : (num : ℚ) / den / 2 ^ e < 2 ^ 53)
    (hlow : e = -1074 ∨ 2 ^ 52 ≤ (num : ℚ) / den / 2 ^ e) :
    OnGrid (num / den) (e + 1074).toNat (scaled num den e).1 (scaled num den e).2 := by
  obtain ⟨hd, hvalue⟩ := scaled_spec hden num e
  refine ⟨hd, ?_, ?_, ?_⟩
  · have hexp : (2 : ℚ) ^ (e + 1074).toNat = 2 ^ e * scale := by
      rw [scale, ← zpow_natCast, Int.toNat_of_nonneg (by omega), zpow_add₀ (by norm_num)]
      norm_cast
    rw [hvalue, hexp, ← mul_assoc, div_mul_cancel₀ _ (by positivity)]
  · rw [div_lt_iff_cast hd, hvalue]
    exact_mod_cast hhigh
  · rcases hlow with rfl | hlow
    · exact .inl rfl
    · refine .inr (Nat.le_of_not_lt fun hlt => ?_)
      rw [div_lt_iff_cast hd, hvalue] at hlt
      push_cast at hlt
      linarith

/-- Rounding finds the grid of a quotient. -/
theorem nearest_eq_grid (hnum : num ≠ 0) : ∃ j n d, OnGrid (num / den) j n d ∧
    nearest num den = min infinite (j * 2 ^ 52 + roundDiv n d) := by
  obtain ⟨hratioLow, hratioHigh⟩ := ratio_bounds hden hnum
  have hscale (k e : Int) : (2 : ℚ) ^ k / 2 ^ e = 2 ^ (k - e) := (zpow_sub₀ (by norm_num) k e).symm
  have hpos (e : Int) : (0 : ℚ) < 2 ^ e := by positivity
  obtain ⟨guess, hguess⟩ : ∃ g : Int, g = max (-1074) ((num.log2 : Int) - den.log2 - 52) := ⟨_, rfl⟩
  have hsmall : (scaled num den guess).1 / (scaled num den guess).2 < Nat.pow 2 52 ↔
      (num : ℚ) / den / 2 ^ guess < 2 ^ 52 := by
    obtain ⟨hd, hvalue⟩ := scaled_spec hden num guess
    rw [div_lt_iff_cast hd, hvalue]
    norm_num
  unfold nearest
  rw [if_neg (by simpa using hnum), ← hguess]
  simp only
  split
  · rename_i hlt
    rw [hsmall] at hlt
    refine ⟨_, _, _, onGrid_scaled hden (le_max_left _ _) ?_ ?_, rfl⟩
    · rcases lt_or_ge (-1074) guess with hmore | hleast
      · -- one binary place more
        rw [max_eq_right (by omega), zpow_sub₀ (by norm_num), zpow_one, div_div_eq_mul_div, mul_div_right_comm]
        linarith
      · obtain rfl : guess = -1074 := by omega
        rw [max_eq_left (by omega)]
        linarith
    · rcases lt_or_ge (-1074) guess with hmore | hleast
      · refine .inr ?_
        have hlow := div_lt_div_of_pos_right hratioLow (hpos (guess - 1))
        rw [hscale, show (num.log2 : Int) - den.log2 - 1 - (guess - 1) = 52 by omega] at hlow
        rw [max_eq_right (by omega)]
        exact_mod_cast hlow.le
      · exact .inl (by omega)
  · rename_i hge
    rw [hsmall, not_lt] at hge
    refine ⟨_, _, _, onGrid_scaled hden (by omega) ?_ (.inr hge), rfl⟩
    have hhigh := div_lt_div_of_pos_right hratioHigh (hpos guess)
    rw [hscale] at hhigh
    refine hhigh.trans_le ?_
    calc (2 : ℚ) ^ ((num.log2 : Int) - den.log2 + 1 - guess) ≤ 2 ^ (53 : Int) :=
          zpow_le_zpow_right₀ (by norm_num) (by omega)
      _ = 2 ^ 53 := by norm_cast

/-- A quotient is rounded to the nearest magnitude. -/
theorem closest_nearest (num : Nat) :
    Closest (fun m => (units m : ℚ)) infinite (num / den * scale) (nearest num den) := by
  have hmono := units_cast_strictMono
  rcases Nat.eq_zero_or_pos num with rfl | hnum
  · refine closest_of_between (m := 0) hmono ?_ ?_ (.inl rfl) (le_refl _) ?_ (fun _ => rfl) (Nat.zero_le _)
    · simp [units_zero]
    · simp
    · simp [units_zero]
  obtain ⟨j, n, d, ⟨hd, hvalue, hlt, hle⟩, hnearest⟩ := nearest_eq_grid hden hnum.ne'
  obtain ⟨hstep, hbelow, habove, heven⟩ := roundDiv_spec hd n
  have hpow : (0 : ℚ) < 2 ^ j := by positivity
  have hgrid {q : Nat} (hq : q = n / d ∨ q = n / d + 1) :
      (units (j * 2 ^ 52 + q) : ℚ) - num / den * scale = (q - n / d) * 2 ^ j := by
    rw [units_grid (by omega) (by omega), ← hvalue, sub_mul]
    push_cast
    rfl
  have hdist {q : Nat} (hq : q = n / d ∨ q = n / d + 1) :
      |(units (j * 2 ^ 52 + q) : ℚ) - num / den * scale| = |(q : ℚ) - n / d| * 2 ^ j := by
    rw [hgrid hq, abs_mul, abs_of_pos hpow]
  -- the quotient lies between two magnitudes that follow each other
  have hlow : (units (j * 2 ^ 52 + n / d) : ℚ) ≤ num / den * scale := by
    refine sub_nonpos.mp ((hgrid (.inl rfl)).trans_le (mul_nonpos_of_nonpos_of_nonneg ?_ hpow.le))
    exact sub_nonpos.mpr Nat.cast_div_le
  have hhigh : (num : ℚ) / den * scale ≤ units (j * 2 ^ 52 + n / d + 1) := by
    rw [Nat.add_assoc]
    refine sub_nonneg.mp ((mul_nonneg ?_ hpow.le).trans_eq (hgrid (.inr rfl)).symm)
    exact sub_nonneg.mpr ((div_lt_iff_cast hd).mp (Nat.lt_succ_self _)).le
  rw [hnearest]
  rcases Nat.lt_or_ge infinite (j * 2 ^ 52 + roundDiv n d) with hover | hwithin
  · rw [Nat.min_eq_left hover.le]
    have hle : infinite ≤ j * 2 ^ 52 + n / d := by omega
    exact closest_of_above hmono ((hmono.monotone hle).trans hlow)
  · rw [Nat.min_eq_right hwithin]
    refine closest_of_between (m := j * 2 ^ 52 + n / d) hmono hlow hhigh ?_ ?_ ?_ ?_ hwithin
    · rw [Nat.add_assoc]
      exact hstep.imp (congrArg _) (congrArg _)
    · rw [hdist hstep, hdist (.inl rfl)]
      exact mul_le_mul_of_nonneg_right hbelow hpow.le
    · rw [Nat.add_assoc, hdist hstep, hdist (.inr rfl)]
      exact mul_le_mul_of_nonneg_right habove hpow.le
    · rw [Nat.add_assoc, hdist (.inl rfl), hdist (.inr rfl)]
      intro htie
      have := heven (mul_right_cancel₀ hpow.ne' htie)
      omega

end Rounding

/-! ## Values -/

/-- The value of a number; the infinite ones count as `2 ^ 1024`. -/
def toRat (x : Binary64) : ℚ := (if x.negative then -1 else 1) * (units x.magnitude / scale)

/-- The value is the mantissa times the power of two that the bits tell. -/
theorem toRat_eq_parts (x : Binary64) :
    x.toRat = (if x.negative then -1 else 1) * (x.parts.1 * (2 : ℚ) ^ x.parts.2) := by
  have hscale : scale⁻¹ = (2 : ℚ) ^ (-1074 : Int) := by rw [zpow_neg, scale, zpow_ofNat]
  rw [toRat, div_eq_mul_inv, hscale]
  congr 1
  simp only [parts, Nat.pow_eq, beq_iff_eq, units]
  split
  · rename_i hzero
    rw [show x.magnitude % 2 ^ 52 = x.magnitude by omega]
  · rename_i hpos
    obtain ⟨k, hk⟩ : ∃ k, x.magnitude / 2 ^ 52 = k + 1 := ⟨x.magnitude / 2 ^ 52 - 1, by omega⟩
    rw [hk, Nat.add_sub_cancel, Nat.cast_mul, Nat.cast_pow, Nat.cast_two, mul_assoc, ← zpow_natCast,
      ← zpow_add₀ two_ne_zero, Nat.add_comm (2 ^ 52)]
    congr 2
    omega

/-- A number is nearest to a value: none is nearer, and one that is as near as another is even. -/
structure IsNearest (v : Binary64) (x : ℚ) : Prop where
  le : v.magnitude ≤ infinite
  closest : ∀ w : Binary64, w.magnitude ≤ infinite → |v.toRat - x| ≤ |w.toRat - x|
  even : ∀ w : Binary64, w.magnitude ≤ infinite → w.toRat ≠ v.toRat →
    |w.toRat - x| = |v.toRat - x| → v.magnitude % 2 = 0

theorem toRat_negated (v : Binary64) : v.negated.toRat = -v.toRat := by
  unfold toRat negated
  cases v.negative <;> simp

theorem negated_negated (v : Binary64) : v.negated.negated = v := by
  simp [negated]

theorem IsNearest.negated {v : Binary64} {x : ℚ} (h : v.IsNearest x) : v.negated.IsNearest (-x) := by
  have habs (w : Binary64) : |w.negated.toRat - -x| = |w.toRat - x| := by
    rw [toRat_negated, ← abs_neg]
    congr 1
    ring
  refine ⟨h.le, fun w hw => ?_, fun w hw hne htie => ?_⟩
  · rw [habs, ← negated_negated w, habs]
    exact h.closest w.negated hw
  · rw [habs, ← negated_negated w, habs] at htie
    refine h.even w.negated hw (fun heq => hne ?_) htie
    rw [← negated_negated w, toRat_negated, heq, toRat_negated]

/-- What is nearest in units is nearest. -/
theorem isNearest_of_closest {x : ℚ} (hx : 0 ≤ x) {m : Nat}
    (h : Closest (fun m => (units m : ℚ)) infinite (x * scale) m) : IsNearest ⟨false, m⟩ x := by
  have hdist (n : Nat) : |(⟨false, n⟩ : Binary64).toRat - x| = |(units n : ℚ) - x * scale| / scale := by
    have hvalue : (⟨false, n⟩ : Binary64).toRat - x = (units n - x * scale) / scale := by
      rw [sub_div, mul_div_cancel_right₀ _ scale_pos.ne']
      simp [toRat]
    rw [hvalue, abs_div, abs_of_pos scale_pos]
  -- below zero nothing is nearer than zero
  have hnonneg (n : Nat) : 0 ≤ (units n : ℚ) / scale := div_nonneg (Nat.cast_nonneg _) scale_pos.le
  have hbelow (n : Nat) : |(⟨true, n⟩ : Binary64).toRat - x| = |(⟨false, 0⟩ : Binary64).toRat - x| +
      units n / scale := by
    have hzero : (⟨false, 0⟩ : Binary64).toRat - x = -x := by simp [toRat, units_zero]
    have hminus : (⟨true, n⟩ : Binary64).toRat - x = -(x + units n / scale) := by
      simp only [toRat, if_true]
      ring
    rw [hzero, hminus, abs_neg, abs_neg, abs_of_nonneg hx, abs_of_nonneg (add_nonneg hx (hnonneg n))]
  have hcloser {n : Nat} (hn : n ≤ infinite) :
      |(⟨false, m⟩ : Binary64).toRat - x| ≤ |(⟨false, n⟩ : Binary64).toRat - x| := by
    rw [hdist, hdist]
    exact div_le_div_of_nonneg_right (h.closest n hn) scale_pos.le
  refine ⟨h.le, fun w hw => ?_, fun w hw hne htie => ?_⟩
  · obtain ⟨negative, n⟩ := w
    cases negative with
    | false => exact hcloser hw
    | true =>
      rw [hbelow]
      have hzero := hcloser (Nat.zero_le infinite)
      linarith [hnonneg n]
  · have heven {n : Nat} (hn : n ≤ infinite) (hne : n ≠ m)
        (htie : |(⟨false, n⟩ : Binary64).toRat - x| = |(⟨false, m⟩ : Binary64).toRat - x|) : m % 2 = 0 := by
      rw [hdist, hdist] at htie
      exact h.even n hn hne ((div_left_inj' scale_pos.ne').mp htie)
    obtain ⟨negative, n⟩ := w
    cases negative with
    | false => exact heven hw (fun heq => hne (congrArg (fun n => (⟨false, n⟩ : Binary64).toRat) heq)) htie
    | true =>
      -- it is as near as zero, so it is zero
      have hzero := hcloser (Nat.zero_le infinite)
      rw [hbelow] at htie
      have hvalue : (units n : ℚ) / scale = 0 := by linarith [hnonneg n]
      refine heven (Nat.zero_le _) (fun heq => hne ?_) (by linarith)
      rw [← heq]
      simp [toRat, hvalue, units_zero]

/-! ## Decimals -/

theorem isNearest_zero : IsNearest ⟨false, 0⟩ 0 := by
  have hzero : (⟨false, 0⟩ : Binary64).toRat = 0 := by simp [toRat, units_zero]
  refine ⟨Nat.zero_le _, fun w _ => ?_, fun _ _ _ _ => rfl⟩
  rw [hzero, sub_zero, abs_zero]
  exact abs_nonneg _

theorem ofDecimal_true (digits : Nat) (exponent : Int) :
    ofDecimal true digits exponent = (ofDecimal false digits exponent).negated := by
  simp only [ofDecimal]
  repeat' split
  all_goals rfl

/-- More than 400 places before the point are too many. -/
theorem closest_of_large {digits : Nat} (hdigits : digits ≠ 0) {exponent : Int} (h : 400 < exponent) :
    Closest (fun m => (units m : ℚ)) infinite (digits * (10 : ℚ) ^ exponent * scale) infinite := by
  refine closest_of_above units_cast_strictMono ?_
  have hone : (1 : ℚ) ≤ digits := by exact_mod_cast Nat.one_le_iff_ne_zero.mpr hdigits
  have hpower : (2 : ℚ) ^ 1024 ≤ 10 ^ exponent := by
    calc (2 : ℚ) ^ 1024 ≤ (2 ^ 3) ^ 400 := by
          rw [← pow_mul]
          exact pow_le_pow_right₀ (by norm_num) (by norm_num)
      _ ≤ 10 ^ 400 := pow_le_pow_left₀ (by norm_num) (by norm_num) 400
      _ = 10 ^ (400 : Int) := (zpow_ofNat 10 400).symm
      _ ≤ 10 ^ exponent := zpow_le_zpow_right₀ (by norm_num) h.le
  calc ((units infinite : Nat) : ℚ) = 2 ^ 1024 * scale := by
        rw [units_infinite, scale, Nat.cast_mul, Nat.cast_pow, Nat.cast_pow, Nat.cast_two, ← pow_add, ← pow_add]
    _ ≤ digits * 10 ^ exponent * scale := by
        refine mul_le_mul_of_nonneg_right ?_ scale_pos.le
        exact hpower.trans (le_mul_of_one_le_left (by positivity) hone)

/-- What is below half the smallest magnitude is read as zero. -/
theorem closest_of_small {digits : Nat} {exponent : Int} (h : (digits.log2 : Int) + 3 * exponent < -1200) :
    Closest (fun m => (units m : ℚ)) infinite (digits * (10 : ℚ) ^ exponent * scale) 0 := by
  have hdigits : (digits : ℚ) ≤ 2 ^ ((digits.log2 : Int) + 1) := by
    rw [← Nat.cast_succ, zpow_natCast]
    exact_mod_cast Nat.lt_log2_self.le
  -- a power of ten with a negative exponent is at most the one of eight
  have hpower : (10 : ℚ) ^ exponent ≤ 2 ^ (3 * exponent) := by
    obtain ⟨k, rfl⟩ : ∃ k : Nat, exponent = -(k : Int) := ⟨(-exponent).toNat, by omega⟩
    rw [zpow_mul, zpow_neg, zpow_neg, zpow_natCast, zpow_natCast]
    exact inv_anti₀ (by positivity) (pow_le_pow_left₀ (by norm_num) (by norm_num) k)
  have hsmall : (digits : ℚ) * 10 ^ exponent * scale ≤ 1 / 2 := by
    calc (digits : ℚ) * 10 ^ exponent * scale
        ≤ 2 ^ ((digits.log2 : Int) + 1) * 2 ^ (3 * exponent) * scale := by
          refine mul_le_mul_of_nonneg_right ?_ scale_pos.le
          exact mul_le_mul hdigits hpower (by positivity) (by positivity)
      _ = 2 ^ ((digits.log2 : Int) + 1 + 3 * exponent + 1074) := by
          rw [scale, ← zpow_natCast, ← zpow_add₀ (by norm_num), ← zpow_add₀ (by norm_num)]
          norm_cast
      _ ≤ 2 ^ (-1 : Int) := zpow_le_zpow_right₀ (by norm_num) (by omega)
      _ = 1 / 2 := by norm_num
  obtain ⟨x, hx⟩ : ∃ x : ℚ, x = digits * 10 ^ exponent * scale := ⟨_, rfl⟩
  have hnonneg : 0 ≤ x := by
    rw [hx]
    exact mul_nonneg (by positivity) scale_pos.le
  rw [← hx] at hsmall ⊢
  have hzero : |((units 0 : Nat) : ℚ) - x| = x := by
    rw [units_zero, Nat.cast_zero, zero_sub, abs_neg, abs_of_nonneg hnonneg]
  have hone : |((units 1 : Nat) : ℚ) - x| = 1 - x := by
    rw [show units 1 = 1 from rfl, Nat.cast_one, abs_of_nonneg (by linarith)]
  refine closest_of_between units_cast_strictMono ?_ ?_ (.inl rfl) le_rfl ?_ (fun _ => rfl) (Nat.zero_le _)
  · simpa [units_zero] using hnonneg
  · simp only [show units (0 + 1) = 1 from rfl, Nat.cast_one]
    linarith
  · simp only [hzero, hone, Nat.zero_add]
    linarith

/-- A decimal is read as the number nearest to it. -/
theorem isNearest_ofDecimal (negative : Bool) (digits : Nat) (exponent : Int) :
    IsNearest (ofDecimal negative digits exponent)
      ((if negative then -1 else 1) * (digits * (10 : ℚ) ^ exponent)) := by
  have hpositive : IsNearest (ofDecimal false digits exponent) (digits * (10 : ℚ) ^ exponent) := by
    by_cases hdigits : digits = 0
    · subst hdigits
      rw [Nat.cast_zero, zero_mul]
      exact isNearest_zero
    have hnonneg : 0 ≤ (digits : ℚ) * 10 ^ exponent := by positivity
    simp only [ofDecimal]
    rw [if_neg (by simpa using hdigits)]
    split
    · exact isNearest_of_closest hnonneg (closest_of_large hdigits ‹_›)
    split
    · exact isNearest_of_closest hnonneg (closest_of_small ‹_›)
    split
    · rename_i hneg
      obtain ⟨k, rfl⟩ : ∃ k : Nat, exponent = -(k : Int) := ⟨(-exponent).toNat, by omega⟩
      have hvalue : (digits : ℚ) * 10 ^ (-(k : Int)) = digits / (Nat.pow 10 k : Nat) := by
        rw [zpow_neg, zpow_natCast, div_eq_mul_inv, Nat.pow_eq, Nat.cast_pow]
        rfl
      refine isNearest_of_closest hnonneg ?_
      rw [hvalue, neg_neg, Int.toNat_natCast]
      exact closest_nearest (Nat.pow_pos (by decide)) digits
    · rename_i hneg
      obtain ⟨k, rfl⟩ : ∃ k : Nat, exponent = (k : Int) := ⟨exponent.toNat, by omega⟩
      have hvalue : (digits : ℚ) * 10 ^ (k : Int) = (digits * Nat.pow 10 k : Nat) / (1 : Nat) := by
        rw [zpow_natCast, Nat.cast_mul, Nat.pow_eq, Nat.cast_pow, Nat.cast_one, div_one]
        rfl
      refine isNearest_of_closest hnonneg ?_
      rw [hvalue, Int.toNat_natCast]
      exact closest_nearest Nat.one_pos _
  cases negative with
  | false => simpa using hpositive
  | true => simpa [ofDecimal_true] using hpositive.negated

/-! ## Order -/

/-- A number in units, with its sign. -/
def signedUnits (x : Binary64) : Int := if x.negative then -units x.magnitude else units x.magnitude

theorem toRat_eq (x : Binary64) : x.toRat = x.signedUnits / scale := by
  unfold toRat signedUnits
  cases x.negative with
  | false => simp
  | true =>
    simp only [if_true]
    push_cast
    ring

theorem key_lt_iff {v w : Binary64} : v.key < w.key ↔ v.signedUnits < w.signedUnits := by
  have hless := units_strictMono.lt_iff_lt (a := v.magnitude) (b := w.magnitude)
  have hmore := units_strictMono.lt_iff_lt (a := w.magnitude) (b := v.magnitude)
  have hv := units_strictMono.lt_iff_lt (a := 0) (b := v.magnitude)
  have hw := units_strictMono.lt_iff_lt (a := 0) (b := w.magnitude)
  rw [units_zero] at hv hw
  unfold key signedUnits
  cases v.negative <;> cases w.negative <;> simp only [Bool.false_eq_true, if_false, if_true] <;> omega

theorem key_lt_iff_toRat {v w : Binary64} : v.key < w.key ↔ v.toRat < w.toRat := by
  rw [key_lt_iff, toRat_eq, toRat_eq, div_lt_div_iff_of_pos_right scale_pos, Int.cast_lt]

/-- Numbers are ordered by their values. -/
theorem order_eq (v w : Binary64) : v.order w = compare v.toRat w.toRat := by
  unfold order
  rcases lt_trichotomy v.toRat w.toRat with h | h | h
  · rw [compare_lt_iff_lt.mpr h, compare_lt_iff_lt.mpr (key_lt_iff_toRat.mpr h)]
  · rw [compare_eq_iff_eq.mpr h, compare_eq_iff_eq.mpr (le_antisymm ?_ ?_)]
    · exact not_lt.mp fun hlt => (key_lt_iff_toRat.mp hlt).ne' h
    · exact not_lt.mp fun hlt => (key_lt_iff_toRat.mp hlt).ne h
  · rw [compare_gt_iff_gt.mpr h, compare_gt_iff_gt.mpr (key_lt_iff_toRat.mpr h)]

/-- Of two numbers the greater one is not nearer to a value unless the middle is below it. -/
theorem add_le_of_nearer {v w x : ℚ} (h : w < v) (hle : |v - x| ≤ |w - x|) : v + w ≤ 2 * x := by
  have hsquare : (v - x) ^ 2 ≤ (w - x) ^ 2 := sq_le_sq.mpr hle
  nlinarith

theorem le_add_of_nearer {v w x : ℚ} (h : w < v) (hle : |w - x| ≤ |v - x|) : 2 * x ≤ v + w := by
  have hsquare : (w - x) ^ 2 ≤ (v - x) ^ 2 := sq_le_sq.mpr hle
  nlinarith

/-- The number nearest to a greater value is not less. -/
theorem IsNearest.mono {v w : Binary64} {x y : ℚ} (hv : v.IsNearest x) (hw : w.IsNearest y) (h : x < y) :
    v.toRat ≤ w.toRat := by
  refine not_lt.mp fun hlt => ?_
  have hbelow := add_le_of_nearer hlt (hv.closest w hw.le)
  have habove := le_add_of_nearer hlt (hw.closest v hv.le)
  linarith

theorem exists_key (k : Int) : ∃ u : Binary64, u.key = k ∧ u.magnitude = k.natAbs := by
  refine ⟨⟨decide (k < 0), k.natAbs⟩, ?_, rfl⟩
  unfold key
  by_cases hk : k < 0 <;> simp only [hk, decide_true, decide_false, Bool.false_eq_true, if_true, if_false] <;>
    omega

theorem natAbs_key (v : Binary64) : v.key.natAbs = v.magnitude := by
  unfold key
  split <;> omega

/-- Between two even numbers there is another one. -/
theorem exists_between {v w : Binary64} (hv : v.magnitude ≤ infinite) (hw : w.magnitude ≤ infinite)
    (hveven : v.magnitude % 2 = 0) (hweven : w.magnitude % 2 = 0) (h : v.toRat < w.toRat) :
    ∃ u : Binary64, u.magnitude ≤ infinite ∧ v.toRat < u.toRat ∧ u.toRat < w.toRat := by
  obtain ⟨u, hkey, hmagnitude⟩ := exists_key (v.key + 1)
  have hlt := key_lt_iff_toRat.mpr h
  have habs := natAbs_key v
  have habs' := natAbs_key w
  refine ⟨u, by omega, key_lt_iff_toRat.mp (by omega), key_lt_iff_toRat.mp ?_⟩
  omega

/-- What lies between two numbers that are equally far from a value is nearer to it. -/
theorem abs_lt_of_between {v u w x : ℚ} (hvu : v < u) (huw : u < w) (h : |v - x| = |w - x|) :
    |u - x| < |v - x| := by
  have hmiddle : v + w = 2 * x := by
    have hsquare : (v - x) ^ 2 = (w - x) ^ 2 := sq_eq_sq_iff_abs_eq_abs _ _ |>.mpr h
    have hproduct : (w - v) * (v + w - 2 * x) = 0 := by linarith
    rcases mul_eq_zero.mp hproduct with hzero | hzero <;> linarith
  rw [abs_of_neg (show v - x < 0 by linarith), abs_lt]
  constructor <;> linarith

/-- The value of the number nearest to a value is determined. -/
theorem IsNearest.unique {v w : Binary64} {x : ℚ} (hv : v.IsNearest x) (hw : w.IsNearest x) :
    v.toRat = w.toRat := by
  have htie : |v.toRat - x| = |w.toRat - x| := le_antisymm (hv.closest w hw.le) (hw.closest v hv.le)
  by_contra hne
  have hveven := hv.even w hw.le (Ne.symm hne) htie.symm
  have hweven := hw.even v hv.le hne htie
  rcases lt_or_gt_of_ne hne with hlt | hlt
  · obtain ⟨u, hu, hvu, huw⟩ := exists_between hv.le hw.le hveven hweven hlt
    exact absurd (hv.closest u hu) (not_le.mpr (abs_lt_of_between hvu huw htie))
  · obtain ⟨u, hu, hwu, huv⟩ := exists_between hw.le hv.le hweven hveven hlt
    exact absurd (hw.closest u hu) (not_le.mpr (abs_lt_of_between hwu huv htie.symm))

/-- A value of the format is its own nearest number. -/
theorem IsNearest.exact {v w : Binary64} (hv : v.IsNearest w.toRat) (hw : w.magnitude ≤ infinite) :
    v.toRat = w.toRat := by
  have hzero := hv.closest w hw
  rw [sub_self, abs_zero] at hzero
  exact sub_eq_zero.mp (abs_eq_zero.mp (le_antisymm hzero (abs_nonneg _)))

/-- Numbers that are nearest to two values compare as these do, unless they are the same. -/
theorem IsNearest.compare_eq_iff {v w : Binary64} {x y : ℚ} (hv : v.IsNearest x) (hw : w.IsNearest y) :
    compare v.toRat w.toRat = compare x y ↔ (v.toRat = w.toRat → x = y) := by
  rcases lt_trichotomy x y with hlt | rfl | hgt
  · rw [compare_lt_iff_lt.mpr hlt, compare_lt_iff_lt]
    exact ⟨fun h heq => absurd heq h.ne, fun h => lt_of_le_of_ne (hv.mono hw hlt) (mt h hlt.ne)⟩
  · rw [compare_eq_iff_eq.mpr rfl, compare_eq_iff_eq.mpr (hv.unique hw)]
    exact iff_of_true rfl fun _ => rfl
  · rw [compare_gt_iff_gt.mpr hgt, compare_gt_iff_gt]
    exact ⟨fun h heq => absurd heq h.ne', fun h => lt_of_le_of_ne (hw.mono hv hgt) fun heq => hgt.ne' (h heq.symm)⟩

end MemberOrder.Binary64
