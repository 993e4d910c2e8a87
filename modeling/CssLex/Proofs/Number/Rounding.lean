import CssLex.Number.Binary64
import Mathlib.Algebra.Order.Field.Power
import Mathlib.Algebra.Order.Ring.Rat
import Mathlib.Order.Monotone.Basic
import Mathlib.Tactic.FieldSimp
import Mathlib.Tactic.Linarith
import Mathlib.Tactic.NormNum
import Mathlib.Tactic.Positivity
import Mathlib.Tactic.Ring

/-!
The number that a decimal is read as is the nearest one (`nearest_ofDecimal`), of two equally near the one with an even
significand. Which decimals become at most a given number is a matter of the midpoint above it (`Nearest.le_iff`).
-/

namespace CssLex.Binary64

variable {m k q n d : Nat} {x : ℚ}

/-- The value of magnitude bits. Those of infinity stand for the power of two that comes after the greatest number. -/
def value (m : Nat) : ℚ :=
  if m / 2 ^ 52 = 0 then m * 2 ^ leastSpacing
  else (2 ^ 52 + m % 2 ^ 52 : Nat) * 2 ^ (leastSpacing + (m / 2 ^ 52 - 1 : Nat))

/-- A significand with an exponent is the magnitude of their product, also one that carries into the next binade. -/
private theorem value_significand (normal : k = 0 ∨ 2 ^ 52 ≤ q) (fits : q ≤ 2 ^ 53) :
    value ((k <<< 52) + q) = q * 2 ^ (leastSpacing + k) := by
  rw [Nat.shiftLeft_eq]
  by_cases subnormal : q < 2 ^ 52
  · obtain rfl : k = 0 := normal.resolve_right (Nat.not_le.mpr subnormal)
    rw [Nat.zero_mul, Nat.zero_add, value, if_pos (Nat.div_eq_of_lt subnormal), Nat.cast_zero, add_zero]
  · by_cases carry : q = 2 ^ 53
    · have exponent : (k * 2 ^ 52 + q) / 2 ^ 52 = k + 1 + 1 := by omega
      have fraction : (k * 2 ^ 52 + q) % 2 ^ 52 = 0 := by omega
      rw [value, exponent, fraction, if_neg (Nat.succ_ne_zero _), carry, Nat.add_sub_cancel, Nat.cast_succ, ← add_assoc,
        zpow_add_one₀ two_ne_zero]
      push_cast
      ring
    · have exponent : (k * 2 ^ 52 + q) / 2 ^ 52 = k + 1 := by omega
      have whole : 2 ^ 52 + (k * 2 ^ 52 + q) % 2 ^ 52 = q := by omega
      rw [value, exponent, whole, if_neg (Nat.succ_ne_zero _), Nat.add_sub_cancel]

/-- Each magnitude is a significand of at most 53 bits with an exponent. -/
private theorem exists_significand (m : Nat) : ∃ k q, m = (k <<< 52) + q ∧ (k = 0 ∨ 2 ^ 52 ≤ q) ∧ q < 2 ^ 53 := by
  refine ⟨m / 2 ^ 52 - 1, m - (m / 2 ^ 52 - 1) * 2 ^ 52, ?_, ?_, ?_⟩
  · rw [Nat.shiftLeft_eq]
    omega
  · omega
  · omega

private theorem value_lt_succ (m : Nat) : value m < value (m + 1) := by
  obtain ⟨k, q, rfl, normal, fits⟩ := exists_significand m
  rw [Nat.add_assoc, value_significand normal fits.le, value_significand (normal.imp_right Nat.le_succ_of_le) fits]
  have spacing : (0 : ℚ) < 2 ^ (leastSpacing + k) := by positivity
  push_cast
  linarith

/-- Magnitudes stand in the order of their values. -/
theorem value_strictMono : StrictMono value := strictMono_nat_of_lt_succ value_lt_succ

private theorem value_zero : value 0 = 0 := by simp [value]

private theorem value_infinityBits : value infinityBits = 2 ^ (1024 : ℤ) := by
  have same : infinityBits = (2045 <<< 52) + 2 ^ 53 := by decide
  rw [same, value_significand (.inr (by decide)) (le_refl _), leastSpacing, Nat.cast_pow, Nat.cast_ofNat,
    ← zpow_natCast, ← zpow_add₀ two_ne_zero]
  rfl

/-- A magnitude is the nearest to a value, and of two equally near the even one. -/
structure Nearest (x : ℚ) (m : Nat) : Prop where
  bounded : m ≤ infinityBits
  near : ∀ k ≤ infinityBits, |x - value m| ≤ |x - value k|
  even : ∀ k ≤ infinityBits, k ≠ m → |x - value k| = |x - value m| → m % 2 = 0

/-- What lies in the middle between a magnitude and the next one. -/
def midway (m : Nat) : ℚ := (value m + value (m + 1)) / 2

/-- Which of two magnitudes is nearer is decided in the middle between them. -/
private theorem nearer_iff (less : k < m) :
    (|x - value k| ≤ |x - value m| ↔ 2 * x ≤ value k + value m) ∧
      (|x - value m| ≤ |x - value k| ↔ value k + value m ≤ 2 * x) := by
  have apart := sub_pos.mpr (value_strictMono less)
  have below : (x - value m) ^ 2 - (x - value k) ^ 2 = (value m - value k) * (value k + value m - 2 * x) := by ring
  have above : (x - value k) ^ 2 - (x - value m) ^ 2 = (value m - value k) * (2 * x - (value k + value m)) := by ring
  rw [← sq_le_sq, ← sq_le_sq]
  constructor
  · rw [← sub_nonneg, below, mul_nonneg_iff_of_pos_left apart, sub_nonneg]
  · rw [← sub_nonneg, above, mul_nonneg_iff_of_pos_left apart, sub_nonneg]

private theorem value_lt_midway (m : Nat) : value m < midway m := by
  have step := value_lt_succ m
  rw [midway]
  linarith

private theorem midway_lt_value (m : Nat) : midway m < value (m + 1) := by
  have step := value_lt_succ m
  rw [midway]
  linarith

/-- A magnitude is the nearest of all if it is the nearest of its neighbours. -/
private theorem nearest_of_neighbours (bounded : m ≤ infinityBits)
    (lower : ∀ k, m = k + 1 → midway k < x ∨ midway k = x ∧ m % 2 = 0)
    (upper : m < infinityBits → x < midway m ∨ x = midway m ∧ m % 2 = 0) : Nearest x m := by
  -- the middle to a magnitude further away lies further away
  have below : ∀ k < m, value k + value m < 2 * x ∨ value k + value m = 2 * x ∧ m % 2 = 0 := by
    intro k less
    obtain ⟨j, rfl⟩ := Nat.exists_eq_succ_of_ne_zero (Nat.ne_zero_of_lt less)
    have further := value_strictMono.monotone (Nat.le_of_lt_succ less)
    have middle : value k + value (j + 1) ≤ 2 * midway j := by
      rw [midway]
      linarith
    rcases lower j rfl with outer | ⟨tie, even⟩
    · exact .inl (by linarith)
    · rw [tie] at middle
      exact middle.lt_or_eq.imp_right fun same => ⟨same, even⟩
  have above : ∀ k ≤ infinityBits, m < k → 2 * x < value m + value k ∨ 2 * x = value m + value k ∧ m % 2 = 0 := by
    intro k inside less
    have further := value_strictMono.monotone (Nat.succ_le_of_lt less)
    have middle : 2 * midway m ≤ value m + value k := by
      rw [midway]
      linarith
    rcases upper (less.trans_le inside) with inner | ⟨tie, even⟩
    · exact .inl (by linarith)
    · rw [← tie] at middle
      exact middle.lt_or_eq.imp_right fun same => ⟨same, even⟩
  refine ⟨bounded, fun k inside => ?_, fun k inside other same => ?_⟩
  · rcases Nat.lt_trichotomy k m with less | rfl | more
    · exact (nearer_iff less).2.mpr ((below k less).elim le_of_lt fun tie => tie.1.le)
    · exact le_refl _
    · exact (nearer_iff more).1.mpr ((above k inside more).elim le_of_lt fun tie => tie.1.le)
  · rcases Nat.lt_or_gt_of_ne other with less | more
    · exact ((below k less).resolve_left (not_lt.mpr ((nearer_iff less).1.mp same.le))).2
    · exact ((above k inside more).resolve_left (not_lt.mpr ((nearer_iff more).2.mp same.le))).2

private theorem nearest_lower (finite : m < infinityBits) (low : value m ≤ x)
    (near : x < midway m ∨ x = midway m ∧ m % 2 = 0) : Nearest x m := by
  refine nearest_of_neighbours finite.le ?_ fun _ => near
  rintro k rfl
  exact .inl ((midway_lt_value k).trans_le low)

private theorem nearest_upper (finite : m < infinityBits) (high : x ≤ value (m + 1))
    (near : midway m < x ∨ x = midway m ∧ m % 2 = 1) : Nearest x (m + 1) := by
  refine nearest_of_neighbours finite ?_ fun _ => .inl (high.trans_lt (value_lt_midway _))
  rintro k same
  obtain rfl := Nat.succ.inj same
  exact near.imp_right fun ⟨tie, odd⟩ => ⟨tie.symm, by omega⟩

theorem nearest_infinity (beyond : value infinityBits ≤ x) : Nearest x infinityBits := by
  refine nearest_of_neighbours (le_refl _) ?_ fun finite => absurd finite (lt_irrefl _)
  intro k same
  rw [same] at beyond
  exact .inl ((midway_lt_value k).trans_le beyond)

/-- Between a magnitude and the next one the middle decides, and infinity is nearest beyond all of them. -/
theorem nearest_between (low : value m ≤ x) (high : x ≤ value (m + 1))
    (near : q = m ∧ (x < midway m ∨ x = midway m ∧ m % 2 = 0) ∨
      q = m + 1 ∧ (midway m < x ∨ x = midway m ∧ m % 2 = 1)) : Nearest x (min infinityBits q) := by
  by_cases finite : m < infinityBits
  · rcases near with ⟨rfl, near⟩ | ⟨rfl, near⟩
    · rw [min_eq_right finite.le]
      exact nearest_lower finite low near
    · rw [min_eq_right finite]
      exact nearest_upper finite high near
  · have least : m ≤ q := by
      rcases near with ⟨rfl, -⟩ | ⟨rfl, -⟩
      · exact le_refl _
      · exact Nat.le_succ m
    rw [min_eq_left ((Nat.not_lt.mp finite).trans least)]
    exact nearest_infinity ((value_strictMono.monotone (Nat.not_lt.mp finite)).trans low)

/-- Values up to the midpoint above a magnitude are rounded to at most this magnitude; the midpoint itself is, if the
magnitude is even. -/
theorem Nearest.le_iff (nearest : Nearest x m) (finite : k < infinityBits) :
    m ≤ k ↔ x < midway k ∨ x = midway k ∧ k % 2 = 0 := by
  have step := value_lt_succ k
  rw [midway, lt_div_iff₀ two_pos, eq_div_iff two_ne_zero, mul_comm]
  constructor
  · intro inside
    rcases inside.eq_or_lt with rfl | below
    · have half := (nearer_iff (Nat.lt_succ_self m)).1.mp (nearest.near (m + 1) finite)
      rcases half.eq_or_lt with tie | less
      · have back := (nearer_iff (Nat.lt_succ_self m)).2.mpr tie.ge
        exact .inr ⟨tie, nearest.even (m + 1) finite (Nat.succ_ne_self m) (le_antisymm back (nearest.near _ finite))⟩
      · exact .inl less
    · have half := (nearer_iff below).1.mp (nearest.near k finite.le)
      left
      linarith [value_strictMono below]
  · intro within
    by_contra above
    rw [Nat.not_le] at above
    have half := (nearer_iff above).2.mp (nearest.near k finite.le)
    have further := value_strictMono.monotone above
    rcases within with less | ⟨tie, even⟩
    · linarith
    · obtain rfl : m = k + 1 := value_strictMono.injective (by linarith)
      have back := (nearer_iff above).1.mpr tie.le
      have odd := nearest.even k finite.le (Nat.succ_ne_self k).symm (le_antisymm back (nearest.near _ finite.le))
      omega

theorem Nearest.le_iff_of_even (nearest : Nearest x m) (finite : k < infinityBits) (even : k % 2 = 0) :
    m ≤ k ↔ x ≤ midway k := by
  rw [nearest.le_iff finite, le_iff_lt_or_eq]
  simp [even]

theorem Nearest.lt_iff_of_odd (nearest : Nearest x m) (finite : k < infinityBits) (odd : k % 2 = 1) :
    k < m ↔ midway k ≤ x := by
  rw [← Nat.not_le, nearest.le_iff finite]
  simp [odd]

/-- A quotient is rounded down below the middle between two whole numbers, up above it, and in it to the even one. -/
private theorem roundHalfEven_cases (n d : Nat) :
    (roundHalfEven n d = n / d ∧ (2 * n < (2 * (n / d) + 1) * d ∨ 2 * n = (2 * (n / d) + 1) * d ∧ n / d % 2 = 0)) ∨
      (roundHalfEven n d = n / d + 1 ∧
        ((2 * (n / d) + 1) * d < 2 * n ∨ 2 * n = (2 * (n / d) + 1) * d ∧ n / d % 2 = 1)) := by
  have parts := Nat.div_add_mod n d
  have middle : (2 * (n / d) + 1) * d = 2 * (d * (n / d)) + d := by ring
  rw [roundHalfEven, middle]
  simp only [Bool.or_eq_true, Bool.and_eq_true, decide_eq_true_eq, beq_iff_eq]
  split
  · left
    refine ⟨rfl, ?_⟩
    omega
  · right
    refine ⟨rfl, ?_⟩
    omega

private theorem scaled_eq (n : Nat) (pos : 0 < d) (e : ℤ) :
    0 < (scaled n d e).2 ∧ ((scaled n d e).1 : ℚ) / (scaled n d e).2 * 2 ^ e = n / d := by
  have positive : (0 : ℚ) < d := by exact_mod_cast pos
  rw [scaled]
  split
  · rename_i up
    obtain ⟨e, rfl⟩ := Int.eq_ofNat_of_zero_le up
    refine ⟨by simpa using pos, ?_⟩
    simp only [Int.toNat_natCast, Nat.shiftLeft_eq, zpow_natCast]
    push_cast
    field_simp
  · rename_i down
    obtain ⟨f, same⟩ := Int.eq_ofNat_of_zero_le (Int.neg_nonneg.mpr (Int.le_of_lt (Int.not_le.mp down)))
    obtain rfl := Int.eq_neg_comm.mp same.symm
    refine ⟨pos, ?_⟩
    simp only [neg_neg, Int.toNat_natCast, Nat.shiftLeft_eq, zpow_neg, zpow_natCast]
    push_cast
    field_simp

private theorem two_zpow_log2_le (pos : 0 < n) : (2 : ℚ) ^ (n.log2 : ℤ) ≤ n := by
  rw [zpow_natCast]
  exact_mod_cast Nat.log2_self_le pos.ne'

private theorem lt_two_zpow_log2 (n : Nat) : (n : ℚ) < 2 ^ (n.log2 + 1 : ℤ) := by
  rw [← Nat.cast_succ, zpow_natCast]
  exact_mod_cast Nat.lt_log2_self

/-- A quotient lies in its binade. -/
theorem binade_spec (some : 0 < n) (pos : 0 < d) :
    (2 : ℚ) ^ binade n d ≤ n / d ∧ (n : ℚ) / d < 2 ^ (binade n d + 1) := by
  have positive : (0 : ℚ) < d := by exact_mod_cast pos
  obtain ⟨divisor, same⟩ := scaled_eq n pos ((n.log2 : ℤ) - d.log2)
  have unit : (0 : ℚ) < 2 ^ ((n.log2 : ℤ) - d.log2) := by positivity
  -- the estimate is right or one too great
  have low : (2 : ℚ) ^ ((n.log2 : ℤ) - d.log2 - 1) ≤ n / d := by
    rw [le_div_iff₀ positive]
    calc (2 : ℚ) ^ ((n.log2 : ℤ) - d.log2 - 1) * d
        ≤ 2 ^ ((n.log2 : ℤ) - d.log2 - 1) * 2 ^ (d.log2 + 1 : ℤ) := by gcongr; exact (lt_two_zpow_log2 d).le
      _ = 2 ^ (n.log2 : ℤ) := by rw [← zpow_add₀ two_ne_zero]; congr 1; ring
      _ ≤ n := two_zpow_log2_le some
  have high : (n : ℚ) / d < 2 ^ ((n.log2 : ℤ) - d.log2 + 1) := by
    rw [div_lt_iff₀ positive]
    calc (n : ℚ) < 2 ^ (n.log2 + 1 : ℤ) := lt_two_zpow_log2 n
      _ = 2 ^ ((n.log2 : ℤ) - d.log2 + 1) * 2 ^ (d.log2 : ℤ) := by rw [← zpow_add₀ two_ne_zero]; congr 1; ring
      _ ≤ 2 ^ ((n.log2 : ℤ) - d.log2 + 1) * d := by gcongr; exact two_zpow_log2_le pos
  rw [binade]
  dsimp only
  have whole : (0 : ℚ) < (scaled n d ((n.log2 : ℤ) - d.log2)).2 := by exact_mod_cast divisor
  split
  · rename_i one
    refine ⟨?_, high⟩
    rw [← same, le_mul_iff_one_le_left unit, one_le_div whole]
    exact_mod_cast one
  · rename_i one
    rw [sub_add_cancel]
    refine ⟨low, ?_⟩
    rw [← same, mul_lt_iff_lt_one_left unit, div_lt_one whole]
    exact_mod_cast Nat.not_le.mp one

/-- A quotient lies between a magnitude and the next one, on a grid that the spacing gives. -/
theorem spacing_spec (some : 0 < n) (pos : 0 < d) : ∃ k : Nat, spacing n d = leastSpacing + k ∧
    (k = 0 ∨ (2 : ℚ) ^ (52 : ℤ) ≤ n / d / 2 ^ spacing n d) ∧ (n : ℚ) / d / 2 ^ spacing n d < 2 ^ (53 : ℤ) := by
  obtain ⟨low, high⟩ := binade_spec some pos
  have unit : (0 : ℚ) < 2 ^ spacing n d := by positivity
  have least : leastSpacing ≤ spacing n d := le_max_left _ _
  refine ⟨(spacing n d - leastSpacing).toNat, by omega, ?_, ?_⟩
  · rcases max_choice leastSpacing (binade n d - 52) with same | same
    · left
      rw [spacing, same]
      simp
    · right
      rw [le_div_iff₀ unit, ← zpow_add₀ two_ne_zero, spacing, same, add_sub_cancel]
      exact low
  · rw [div_lt_iff₀ unit, ← zpow_add₀ two_ne_zero]
    refine high.trans_le (zpow_le_zpow_right₀ one_le_two ?_)
    have above : binade n d - 52 ≤ spacing n d := le_max_right _ _
    omega

/-- On the grid of an exponent the nearest whole number is the nearest magnitude, or beyond all of them. -/
theorem nearest_grid (place : x = (n : ℚ) / d * 2 ^ (leastSpacing + k)) (normal : k = 0 ∨ 2 ^ 52 ≤ n / d)
    (fits : n / d < 2 ^ 53) (pos : 0 < d) : Nearest x (min infinityBits ((k <<< 52) + roundHalfEven n d)) := by
  have positive : (0 : ℚ) < d := by exact_mod_cast pos
  have unit : (0 : ℚ) < 2 ^ (leastSpacing + k) := by positivity
  have floor := Nat.div_mul_le_self n d
  have ceiling := Nat.lt_mul_of_div_lt (Nat.lt_succ_self (n / d)) pos
  have rounded := roundHalfEven_cases n d
  generalize n / d = q at *
  have lower := value_significand normal fits.le
  have upper := value_significand (normal.imp_right Nat.le_succ_of_le) fits
  have low : value ((k <<< 52) + q) ≤ x := by
    rw [lower, place, mul_le_mul_iff_left₀ unit, le_div_iff₀ positive]
    exact_mod_cast floor
  have high : x ≤ value ((k <<< 52) + q + 1) := by
    rw [Nat.add_assoc, upper, place, mul_le_mul_iff_left₀ unit, div_le_iff₀ positive]
    exact_mod_cast ceiling.le
  have middle : midway ((k <<< 52) + q) = (2 * q + 1) / 2 * 2 ^ (leastSpacing + k) := by
    rw [midway, lower, Nat.add_assoc, upper]
    push_cast
    ring
  have below : x < midway ((k <<< 52) + q) ↔ 2 * n < (2 * q + 1) * d := by
    rw [middle, place, mul_lt_mul_iff_left₀ unit, div_lt_div_iff₀ positive two_pos, mul_comm (n : ℚ)]
    norm_cast
  have above : midway ((k <<< 52) + q) < x ↔ (2 * q + 1) * d < 2 * n := by
    rw [middle, place, mul_lt_mul_iff_left₀ unit, div_lt_div_iff₀ two_pos positive, mul_comm (n : ℚ)]
    norm_cast
  have tie : x = midway ((k <<< 52) + q) ↔ 2 * n = (2 * q + 1) * d := by
    rw [middle, place, mul_left_inj' unit.ne', div_eq_div_iff positive.ne' two_ne_zero, mul_comm (n : ℚ)]
    norm_cast
  have parity : ((k <<< 52) + q) % 2 = q % 2 := by
    rw [Nat.shiftLeft_eq]
    omega
  rw [← below, ← above, ← tie, ← parity] at rounded
  refine nearest_between low high (rounded.imp ?_ ?_)
  · rintro ⟨same, near⟩
    exact ⟨by rw [same], near⟩
  · rintro ⟨same, near⟩
    exact ⟨by rw [same, Nat.add_assoc], near⟩

theorem nearest_ofRatio (negative : Bool) (some : 0 < n) (pos : 0 < d) :
    Nearest (n / d) (ofRatio negative n d).magnitude := by
  obtain ⟨k, exponent, normal, fits⟩ := spacing_spec some pos
  obtain ⟨divisor, same⟩ := scaled_eq n pos (spacing n d)
  have unit : (0 : ℚ) < 2 ^ spacing n d := by positivity
  have index : (spacing n d - leastSpacing).toNat = k := by omega
  rw [← same, mul_div_cancel_right₀ _ unit.ne'] at normal fits
  rw [ofRatio, index]
  dsimp only
  have positive : (0 : ℚ) < (scaled n d (spacing n d)).2 := by exact_mod_cast divisor
  refine nearest_grid ?_ (normal.imp_right fun h => ?_) ?_ divisor
  · rw [← exponent, same]
  · rw [le_div_iff₀ positive] at h
    rw [Nat.le_div_iff_mul_le divisor]
    exact_mod_cast h
  · rw [div_lt_iff₀ positive] at fits
    rw [Nat.div_lt_iff_lt_mul divisor]
    exact_mod_cast fits

theorem midway_zero : midway 0 = 2 ^ (-1075 : ℤ) := by
  have one : value 1 = 2 ^ leastSpacing := by simp [value]
  have half : (2 : ℚ) ^ leastSpacing = 2 ^ (-1075 : ℤ) * 2 := by rw [← zpow_add_one₀ two_ne_zero]; rfl
  rw [midway, value_zero, one, half, zero_add, mul_div_cancel_right₀ _ two_ne_zero]

theorem nearest_zero (low : 0 ≤ x) (high : x ≤ midway 0) : Nearest x 0 :=
  nearest_lower (by decide) (value_zero.trans_le low) (high.lt_or_eq.imp_right fun tie => ⟨tie, rfl⟩)

private theorem value_one : value one.magnitude = 1 := by
  have same : one.magnitude = (1022 <<< 52) + 2 ^ 52 := by decide
  rw [same, value_significand (.inr (by decide)) (by decide), leastSpacing]
  norm_num

theorem midway_one : midway one.magnitude = 1 + 2 ^ (-53 : ℤ) := by
  have above : one.magnitude + 1 = (1022 <<< 52) + (2 ^ 52 + 1) := by decide
  rw [midway, value_one, above, value_significand (.inr (by decide)) (by decide), leastSpacing]
  norm_num

theorem midway_below_one : midway (one.magnitude - 1) = 1 - 2 ^ (-54 : ℤ) := by
  have below : one.magnitude - 1 = (1021 <<< 52) + (2 ^ 53 - 1) := by decide
  rw [midway, Nat.sub_add_cancel (by decide), value_one, below, value_significand (.inr (by decide)) (by decide),
    leastSpacing]
  norm_num

theorem Nearest.eq_zero_iff (nearest : Nearest x m) : m = 0 ↔ x ≤ midway 0 := by
  rw [← Nat.le_zero, nearest.le_iff_of_even (by decide) rfl]

theorem Nearest.eq_infinityBits (nearest : Nearest x m) (beyond : value infinityBits ≤ x) : m = infinityBits := by
  refine le_antisymm nearest.bounded ((nearest.lt_iff_of_odd (k := infinityBits - 1) (by decide) (by decide)).mpr ?_)
  have less : value (infinityBits - 1) ≤ value infinityBits := value_strictMono.monotone (Nat.sub_le _ _)
  rw [midway, Nat.sub_add_cancel (by decide)]
  linarith

/-- A decimal with a great exponent is infinity, whatever its digits are. -/
theorem infinity_le (some : 0 < n) {e : ℤ} (great : 400 ≤ e) : value infinityBits ≤ n * 10 ^ e := by
  have one : (1 : ℚ) ≤ n := by exact_mod_cast some
  calc value infinityBits = 2 ^ (1024 : ℤ) := value_infinityBits
    _ ≤ 2 ^ (3 * 400 : ℤ) := zpow_le_zpow_right₀ one_le_two (by decide)
    _ = (2 ^ (3 : ℤ)) ^ (400 : ℤ) := zpow_mul _ _ _
    _ ≤ 10 ^ (400 : ℤ) := zpow_le_zpow_left₀ (by decide) (by positivity) (by norm_num)
    _ ≤ 10 ^ e := zpow_le_zpow_right₀ (by norm_num) great
    _ ≤ n * 10 ^ e := le_mul_of_one_le_left (by positivity) one

/-- A decimal is zero if its digits do not make up for the exponent. -/
theorem le_midway_zero {e : ℤ} (small : 3 * e + n.log2 + 1076 < 0) : (n : ℚ) * 10 ^ e ≤ midway 0 := by
  obtain ⟨f, rfl⟩ : ∃ f : ℕ, e = -f := ⟨(-e).toNat, by omega⟩
  have eight : (10 : ℚ) ^ (-f : ℤ) ≤ 2 ^ (3 * -f : ℤ) := by
    rw [zpow_mul, zpow_neg, zpow_neg, zpow_natCast, zpow_natCast]
    gcongr
    norm_num
  calc (n : ℚ) * 10 ^ (-f : ℤ) ≤ 2 ^ (n.log2 + 1 : ℤ) * 2 ^ (3 * -f : ℤ) := by
        gcongr
        exact (lt_two_zpow_log2 n).le
    _ = 2 ^ (n.log2 + 1 + 3 * -f : ℤ) := (zpow_add₀ two_ne_zero _ _).symm
    _ ≤ 2 ^ (-1075 : ℤ) := zpow_le_zpow_right₀ one_le_two (by omega)
    _ = midway 0 := midway_zero.symm

/-- A decimal is read as the number nearest to it. -/
theorem nearest_ofDecimal (negative : Bool) (digits : Nat) (exponent : ℤ) :
    Nearest (digits * 10 ^ exponent) (ofDecimal negative digits exponent).magnitude := by
  rw [ofDecimal]
  by_cases none : digits = 0
  · rw [if_pos none, none, Nat.cast_zero, zero_mul]
    refine nearest_zero (le_refl _) ?_
    rw [midway_zero]
    positivity
  have some : 0 < digits := Nat.pos_of_ne_zero none
  rw [if_neg none]
  by_cases great : 400 < exponent
  · rw [if_pos great]
    exact nearest_infinity (infinity_le some great.le)
  rw [if_neg great]
  by_cases small : 3 * exponent + digits.log2 + 1076 < 0
  · rw [if_pos small]
    exact nearest_zero (by positivity) (le_midway_zero small)
  rw [if_neg small]
  by_cases whole : 0 ≤ exponent
  · obtain ⟨e, rfl⟩ := Int.eq_ofNat_of_zero_le whole
    have near := nearest_ofRatio negative (Nat.mul_pos some (Nat.pow_pos (n := e) (Nat.succ_pos 9))) Nat.one_pos
    rw [Nat.cast_one, div_one, Nat.cast_mul, Nat.cast_pow] at near
    rw [if_pos whole]
    exact near
  · obtain ⟨e, rfl⟩ : ∃ e : ℕ, exponent = -e := ⟨(-exponent).toNat, by omega⟩
    have near := nearest_ofRatio negative some (Nat.pow_pos (n := e) (Nat.succ_pos 9))
    rw [Nat.cast_pow, div_eq_mul_inv] at near
    rw [if_neg whole, neg_neg, zpow_neg]
    exact near

theorem ofDecimal_negative (negative : Bool) (digits : Nat) (exponent : ℤ) :
    (ofDecimal negative digits exponent).negative = negative := by
  rw [ofDecimal]
  split_ifs <;> rfl

end CssLex.Binary64
