import Hypertext.Proofs.Digits
import Mathlib.Data.Int.Log
import Mathlib.Data.Rat.Floor
import Mathlib.Algebra.Order.Field.Power
import Mathlib.Tactic.FieldSimp
import Mathlib.Tactic.Linarith
import Mathlib.Tactic.Positivity
import Mathlib.Tactic.Ring

/-!
# The nearest number of six digits

A number is short if it has at most six significant digits. One short number is the nearest to a given
number, once a tie goes to the even sixth digit (`Nearest.unique`), and a greater number has no smaller one
(`Nearest.mono`). Rounding finds it, also where it carries into a seventh digit (`nearest_ofFixed`).
-/

namespace Hypertext.Numeral

def IsShort (x : ℚ) : Prop := ∃ m e : ℤ, |m| < 10 ^ 6 ∧ x = m * 10 ^ e

/-- The sixth significant digit is even. -/
def EndsEven (x : ℚ) : Prop := ∃ m e : ℤ, 10 ^ 5 ≤ |m| ∧ |m| < 10 ^ 6 ∧ Even m ∧ x = m * 10 ^ e

/-- No short number is nearer, and if there is another as near, the sixth digit is even. -/
structure Nearest (v x : ℚ) : Prop where
  short : IsShort x
  le : ∀ y, IsShort y → |x - v| ≤ |y - v|
  even : ∀ y, IsShort y → y ≠ x → |y - v| = |x - v| → EndsEven x

theorem IsShort.neg {x : ℚ} : IsShort x → IsShort (-x)
  | ⟨m, e, small, eq⟩ => ⟨-m, e, by rwa [abs_neg], by rw [eq]; push_cast; ring⟩

theorem EndsEven.neg {x : ℚ} : EndsEven x → EndsEven (-x)
  | ⟨m, e, big, small, even, eq⟩ =>
    ⟨-m, e, by rwa [abs_neg], by rwa [abs_neg], even.neg, by rw [eq]; push_cast; ring⟩

theorem Nearest.neg {v x : ℚ} (h : Nearest v x) : Nearest (-v) (-x) := by
  have mirrored (y : ℚ) : |y - -v| = |(-y) - v| := by
    rw [← abs_neg]
    congr 1
    ring
  refine ⟨h.short.neg, fun y short => ?_, fun y short other tie => ?_⟩
  · rw [mirrored, mirrored, neg_neg]
    exact h.le (-y) short.neg
  · rw [mirrored, mirrored, neg_neg] at tie
    exact (h.even (-y) short.neg (fun same => other (by rw [← same, neg_neg])) tie).neg

/-- A nearest whole number, of two the even one. -/
structure HalfEven (q : ℚ) (k : ℤ) : Prop where
  near : |k - q| ≤ 1 / 2
  even : |k - q| = 1 / 2 → Even k

namespace HalfEven

/-- Two whole numbers are one apart at least, and a number between them cannot be near to both. -/
theorem one_le_add {k l : ℤ} (other : l ≠ k) (q : ℚ) : 1 ≤ |(l : ℚ) - q| + |(k : ℚ) - q| := by
  have apart : (1 : ℚ) ≤ |(l : ℚ) - k| := by
    exact_mod_cast Int.one_le_abs (sub_ne_zero.2 other)
  have path := abs_sub_le (l : ℚ) q k
  rw [abs_sub_comm q] at path
  exact apart.trans path

theorem le {q : ℚ} {k : ℤ} (h : HalfEven q k) (l : ℤ) : |(k : ℚ) - q| ≤ |(l : ℚ) - q| := by
  rcases eq_or_ne l k with rfl | other
  · exact le_rfl
  · linarith [one_le_add other q, h.near]

theorem eq_half {q : ℚ} {k l : ℤ} (h : HalfEven q k) (other : l ≠ k)
    (tie : |(l : ℚ) - q| = |(k : ℚ) - q|) : |(k : ℚ) - q| = 1 / 2 := by
  linarith [one_le_add other q, h.near]

theorem unique {q : ℚ} {k l : ℤ} (h : HalfEven q k) (h' : HalfEven q l) : l = k := by
  by_contra other
  have far := one_le_add other q
  have evenK := h.even (by linarith [h.near, h'.near])
  have evenL := h'.even (by linarith [h.near, h'.near])
  have close : |l - k| ≤ 1 := by
    have path := abs_sub_le (l : ℚ) q k
    rw [abs_sub_comm q] at path
    have : |(l : ℚ) - k| ≤ 1 := by linarith [h.near, h'.near]
    exact_mod_cast this
  rw [abs_le] at close
  rw [Int.even_iff] at evenK evenL
  omega

theorem refl (k : ℤ) : HalfEven k k := by
  constructor <;> norm_num

end HalfEven

/-- Distances to a quotient are compared in whole numbers. -/
theorem halfEven_div {n k : ℤ} {d : ℕ} (pos : 0 < d) (near : 2 * (k * d - n).natAbs ≤ d)
    (even : 2 * (k * d - n).natAbs = d → Even k) : HalfEven (n / d) k := by
  have positive : (0 : ℚ) < d := by exact_mod_cast pos
  have dist : |(k : ℚ) - n / d| = (k * d - n).natAbs / d := by
    rw [sub_div' positive.ne', abs_div, abs_of_pos positive, Nat.cast_natAbs]
    push_cast
    rfl
  refine ⟨?_, fun tie => even ?_⟩
  · rw [dist, div_le_div_iff₀ positive two_pos, one_mul, mul_comm]
    exact_mod_cast near
  · rw [dist, div_eq_div_iff positive.ne' two_ne_zero, one_mul, mul_comm] at tie
    exact_mod_cast tie

theorem roundHalfEven_cases (n d : ℕ) :
    2 * (n % d) < d ∧ roundHalfEven n d = n / d ∨ d < 2 * (n % d) ∧ roundHalfEven n d = n / d + 1 ∨
      2 * (n % d) = d ∧ Even (roundHalfEven n d) ∧
        (roundHalfEven n d = n / d ∨ roundHalfEven n d = n / d + 1) := by
  simp only [roundHalfEven, Nat.even_iff]
  split_ifs <;> omega

theorem halfEven_roundHalfEven (n : ℕ) {d : ℕ} (pos : 0 < d) :
    HalfEven (n / d) (roundHalfEven n d) := by
  have small : n % d < d := Nat.mod_lt n pos
  have whole : ((n / d : ℕ) * d + (n % d : ℕ) : ℤ) = n := by exact_mod_cast Nat.div_add_mod' n d
  have down : ((n / d : ℕ) * d - n : ℤ) = -(n % d : ℕ) := by linarith
  have up : ((n / d + 1 : ℕ) * d - n : ℤ) = d - (n % d : ℕ) := by
    rw [Nat.cast_succ]
    linarith
  have even_of_half (tie : 2 * (n % d) = d) : Even (roundHalfEven n d : ℤ) := by
    rcases roundHalfEven_cases n d with ⟨less, -⟩ | ⟨more, -⟩ | ⟨-, even, -⟩
    · omega
    · omega
    · exact_mod_cast even
  rw [← Int.cast_natCast (R := ℚ) n]
  rcases roundHalfEven_cases n d with ⟨_, eq⟩ | ⟨_, eq⟩ | ⟨_, _, eq | eq⟩
  all_goals
    refine halfEven_div pos ?_ fun tie => even_of_half ?_
    all_goals
      rw [eq] at *
      omega

theorem ten_zpow_pos (e : ℤ) : (0 : ℚ) < 10 ^ e := zpow_pos (by norm_num) e

/-- Among the multiples of a power of ten are all short numbers that are not too small. -/
theorem IsShort.multiple_or_lt {y : ℚ} (e : ℤ) :
    IsShort y → (∃ l : ℤ, y = l * 10 ^ e) ∨ |y| < 10 ^ 5 * 10 ^ e := by
  rintro ⟨m, f, small, rfl⟩
  rcases le_or_gt e f with fine | coarse
  · obtain ⟨n, rfl⟩ := Int.le.dest fine
    refine .inl ⟨m * 10 ^ n, ?_⟩
    rw [zpow_add₀ (by norm_num), zpow_natCast]
    push_cast
    ring
  · right
    have step : (10 : ℚ) ^ f * 10 ≤ 10 ^ e := by
      rw [← zpow_add_one₀ (by norm_num)]
      exact zpow_le_zpow_right₀ (by norm_num) coarse
    have bound : |(m : ℚ)| < 10 ^ 6 := by exact_mod_cast small
    rw [abs_mul, abs_of_pos (ten_zpow_pos f)]
    nlinarith [ten_zpow_pos f]

theorem million_mul (e : ℤ) : (10 : ℚ) ^ 6 * 10 ^ e = 10 ^ 5 * 10 ^ (e + 1) := by
  rw [zpow_add_one₀ (by norm_num)]
  ring

/-- A million of some power of ten has its one digit at the next power. -/
theorem isShort_mul {k : ℤ} (bound : |k| ≤ 10 ^ 6) (e : ℤ) : IsShort (k * 10 ^ e) := by
  have carry := million_mul e
  rcases bound.lt_or_eq with small | carried
  · exact ⟨k, e, small, rfl⟩
  · rcases eq_or_eq_neg_of_abs_eq carried with rfl | rfl
    · exact ⟨10 ^ 5, e + 1, by norm_num, by exact_mod_cast carry⟩
    · exact ⟨-10 ^ 5, e + 1, by norm_num, by push_cast; linarith⟩

theorem log_mul {q : ℚ} (low : 10 ^ 5 ≤ q) (high : q < 10 ^ 6) (e : ℤ) :
    Int.log 10 (q * 10 ^ e) = e + 5 := by
  have scale := ten_zpow_pos e
  have pos : 0 < q * 10 ^ e := by positivity
  have base : 1 < 10 := by norm_num
  apply le_antisymm
  · rw [← Int.lt_add_one_iff, ← Int.lt_zpow_iff_log_lt base pos]
    push_cast
    rw [add_assoc, zpow_add₀ (by norm_num)]
    norm_num
    nlinarith
  · rw [← Int.zpow_le_iff_le_log base pos]
    push_cast
    rw [zpow_add₀ (by norm_num)]
    norm_num
    nlinarith

/-- The six digits of a number and their place are its own. -/
theorem eq_of_mul_eq {k l e f : ℤ} (hk : 10 ^ 5 ≤ k ∧ k < 10 ^ 6) (hl : 10 ^ 5 ≤ l ∧ l < 10 ^ 6)
    (same : (k * 10 ^ e : ℚ) = l * 10 ^ f) : k = l ∧ e = f := by
  have place : e = f := by
    have logs := congrArg (Int.log 10) same
    rw [log_mul (by exact_mod_cast hk.1) (by exact_mod_cast hk.2),
      log_mul (by exact_mod_cast hl.1) (by exact_mod_cast hl.2)] at logs
    exact add_right_cancel logs
  subst place
  exact ⟨by exact_mod_cast mul_right_cancel₀ (ten_zpow_pos e).ne' same, rfl⟩

theorem even_of_endsEven {k e : ℤ} (low : 10 ^ 5 ≤ k) (high : k ≤ 10 ^ 6)
    (h : EndsEven (k * 10 ^ e)) : Even k := by
  rcases high.lt_or_eq with small | rfl
  · obtain ⟨m, f, big, bound, even, eq⟩ := h
    have pos : 0 < (m : ℚ) := by
      have : (0 : ℚ) < m * 10 ^ f := by
        rw [← eq]
        have : (0 : ℚ) < k := by exact_mod_cast lt_of_lt_of_le (by norm_num) low
        have := ten_zpow_pos e
        positivity
      exact pos_of_mul_pos_left this (ten_zpow_pos f).le
    rw [abs_of_pos (by exact_mod_cast pos)] at big bound
    rwa [(eq_of_mul_eq ⟨low, small⟩ ⟨big, bound⟩ eq).1]
  · decide

theorem endsEven_mul {k : ℤ} (low : 10 ^ 5 ≤ k) (high : k ≤ 10 ^ 6) (even : Even k) (e : ℤ) :
    EndsEven (k * 10 ^ e) := by
  have nonneg : 0 ≤ k := le_trans (by norm_num) low
  rcases high.lt_or_eq with small | rfl
  · exact ⟨k, e, by rwa [abs_of_nonneg nonneg], by rwa [abs_of_nonneg nonneg], even, rfl⟩
  · exact ⟨10 ^ 5, e + 1, by norm_num, by norm_num, by decide, by exact_mod_cast million_mul e⟩

theorem dist_mul (a q : ℚ) (e : ℤ) : |a * 10 ^ e - q * 10 ^ e| = |a - q| * 10 ^ e := by
  rw [← sub_mul, abs_mul, abs_of_pos (ten_zpow_pos e)]

/-- Rounding does not leave the six digits, but may carry out of them. -/
theorem bounds_of_near {q : ℚ} {k : ℤ} (low : 10 ^ 5 ≤ q) (high : q < 10 ^ 6)
    (near : |k - q| ≤ 1 / 2) : 10 ^ 5 ≤ k ∧ k ≤ 10 ^ 6 := by
  have := abs_le.1 near
  constructor
  · have : (10 ^ 5 : ℚ) < k + 1 := by linarith
    exact Int.lt_add_one_iff.1 (by exact_mod_cast this)
  · have : (k : ℚ) < 10 ^ 6 + 1 := by linarith
    exact Int.lt_add_one_iff.1 (by exact_mod_cast this)

section Grid

variable {q : ℚ} {k : ℤ} (low : 10 ^ 5 ≤ q) (high : q < 10 ^ 6) (h : HalfEven q k) (e : ℤ)
include low h

/-- A short number between the multiples is so small that the least of them is nearer. -/
theorem HalfEven.multiple_or_lt {y : ℚ} (short : IsShort y) :
    (∃ l : ℤ, y = l * 10 ^ e) ∨ |k * 10 ^ e - q * 10 ^ e| < |y - q * 10 ^ e| := by
  refine (short.multiple_or_lt e).imp_right fun small => ?_
  -- The least six-digit number is a multiple too, so rounding does not go farther than to it.
  have least : |(k : ℚ) - q| ≤ q - 10 ^ 5 := by
    have : ((10 ^ 5 : ℤ) : ℚ) = 10 ^ 5 := by norm_num
    rw [← abs_of_nonneg (sub_nonneg.2 low), abs_sub_comm q, ← this]
    exact h.le (10 ^ 5)
  calc |k * 10 ^ e - q * 10 ^ e| = |(k : ℚ) - q| * 10 ^ e := dist_mul k q e
    _ ≤ (q - 10 ^ 5) * 10 ^ e := mul_le_mul_of_nonneg_right least (ten_zpow_pos e).le
    _ < q * 10 ^ e - |y| := by linarith
    _ ≤ |y - q * 10 ^ e| := by
      rw [abs_sub_comm]
      linarith [le_abs_self (q * 10 ^ e - y), le_abs_self y]

include high

theorem nearest_of_halfEven : Nearest (q * 10 ^ e) (k * 10 ^ e) := by
  have ⟨atLeast, atMost⟩ := bounds_of_near low high h.near
  have bound : |k| ≤ 10 ^ 6 := by rwa [abs_of_nonneg (le_trans (by norm_num) atLeast)]
  refine ⟨isShort_mul bound e, fun y short => ?_, fun y short other tie => ?_⟩
  · rcases h.multiple_or_lt low e short with ⟨l, rfl⟩ | farther
    · rw [dist_mul, dist_mul]
      exact mul_le_mul_of_nonneg_right (h.le l) (ten_zpow_pos e).le
    · exact farther.le
  · rcases h.multiple_or_lt low e short with ⟨l, rfl⟩ | farther
    · rw [dist_mul, dist_mul] at tie
      have apart : l ≠ k := fun same => other (by rw [same])
      have half := h.eq_half apart (mul_right_cancel₀ (ten_zpow_pos e).ne' tie)
      exact endsEven_mul atLeast atMost (h.even half) e
    · exact absurd tie farther.ne'

theorem Nearest.eq_of_halfEven {x : ℚ} (nearest : Nearest (q * 10 ^ e) x) : x = k * 10 ^ e := by
  by_contra other
  have found := nearest_of_halfEven low high h e
  have tie := le_antisymm (nearest.le _ found.short) (found.le x nearest.short)
  rcases h.multiple_or_lt low e nearest.short with ⟨l, rfl⟩ | farther
  · have apart : l ≠ k := fun same => other (by rw [same])
    have evenX := nearest.even _ found.short (Ne.symm other) tie.symm
    rw [dist_mul, dist_mul] at tie
    have tie := mul_right_cancel₀ (ten_zpow_pos e).ne' tie
    have near : |(l : ℚ) - q| ≤ 1 / 2 := (tie.trans (h.eq_half apart tie)).le
    have ⟨atLeast, atMost⟩ := bounds_of_near low high near
    exact apart (h.unique ⟨near, fun _ => even_of_endsEven atLeast atMost evenX⟩)
  · exact absurd tie farther.ne'

end Grid

theorem exists_halfEven {q : ℚ} (nonneg : 0 ≤ q) : ∃ k, HalfEven q k := by
  have whole : ((q.num.toNat : ℕ) : ℚ) / q.den = q := by
    rw [← Int.cast_natCast, Int.toNat_of_nonneg (Rat.num_nonneg.2 nonneg), Rat.num_div_den]
  refine ⟨roundHalfEven q.num.toNat q.den, ?_⟩
  have found := halfEven_roundHalfEven q.num.toNat q.den_pos
  rwa [whole] at found

theorem exists_scaled {v : ℚ} (pos : 0 < v) :
    ∃ (q : ℚ) (e : ℤ), 10 ^ 5 ≤ q ∧ q < 10 ^ 6 ∧ v = q * 10 ^ e := by
  obtain ⟨e, place⟩ : ∃ e, Int.log 10 v = e + 5 := ⟨Int.log 10 v - 5, by ring⟩
  have scale := ten_zpow_pos e
  have low := Int.zpow_log_le_self (b := 10) (by norm_num) pos
  have high := Int.lt_zpow_succ_log_self (b := 10) (by norm_num) v
  rw [place] at low high
  push_cast at low high
  rw [add_assoc] at high
  rw [zpow_add₀ (by norm_num)] at low high
  refine ⟨v / 10 ^ e, e, ?_, ?_, (div_mul_cancel₀ _ scale.ne').symm⟩
  · rw [le_div_iff₀ scale]
    linarith
  · rw [div_lt_iff₀ scale]
    norm_num at high ⊢
    linarith

theorem nearest_zero : Nearest 0 0 where
  short := ⟨0, 0, by norm_num, by norm_num⟩
  le y _ := by simp
  even y _ other tie := absurd (by simpa using tie) other

theorem Nearest.unique_of_pos {v x y : ℚ} (pos : 0 < v) (hx : Nearest v x) (hy : Nearest v y) : x = y := by
  obtain ⟨q, e, low, high, rfl⟩ := exists_scaled pos
  obtain ⟨k, even⟩ := exists_halfEven (le_trans (by norm_num) low)
  rw [hx.eq_of_halfEven low high even, hy.eq_of_halfEven low high even]

theorem Nearest.unique {v x y : ℚ} (hx : Nearest v x) (hy : Nearest v y) : x = y := by
  rcases lt_trichotomy v 0 with negative | rfl | pos
  · exact neg_injective (unique_of_pos (neg_pos.2 negative) hx.neg hy.neg)
  · have zero {z : ℚ} (h : Nearest 0 z) : z = 0 := by simpa using h.le 0 nearest_zero.short
    rw [zero hx, zero hy]
  · exact unique_of_pos pos hx hy

/-- If two numbers were rounded past each other, each would be nearer to the other's nearest number. -/
theorem Nearest.mono {v w x y : ℚ} (hx : Nearest v x) (hy : Nearest w y) (le : v ≤ w) : x ≤ y := by
  by_contra! less
  have fromV := sq_le_sq.2 (hx.le y hy.short)
  have fromW := sq_le_sq.2 (hy.le x hx.short)
  have same : v = w := by nlinarith
  subst same
  exact less.ne' (hx.unique hy)

/-! ## Rounding to digits -/

def Fixed.value (x : Fixed) : ℚ := x.coefficient * 10 ^ (-x.places : ℤ)

def Rounded.value (x : Rounded) : ℚ := x.significand * 10 ^ (x.exponent - 5)

namespace Rounded

/-- Zero, or six digits. -/
inductive Normal : Rounded → Prop
  | zero : Normal ⟨0, 0⟩
  | digits {significand : ℕ} (low : 10 ^ 5 ≤ significand) (high : significand < 10 ^ 6) (exponent : ℤ) :
    Normal ⟨significand, exponent⟩

theorem carry_of_lt {significand : ℕ} (small : significand < 10 ^ 6) (exponent : ℤ) :
    carry significand exponent = ⟨significand, exponent⟩ := if_neg small.ne

theorem normal_carry {significand : ℕ} (low : 10 ^ 5 ≤ significand) (high : significand ≤ 10 ^ 6)
    (exponent : ℤ) : Normal (carry significand exponent) := by
  rw [carry]
  split_ifs with full
  · exact .digits (by decide) (by decide) _
  · exact .digits low (lt_of_le_of_ne high full) _

theorem value_carry (significand : ℕ) (exponent : ℤ) :
    (carry significand exponent).value = significand * 10 ^ (exponent - 5) := by
  rw [carry]
  split_ifs with full
  · have carried := million_mul (exponent - 5)
    rw [full, value, add_sub_right_comm]
    simp only [significantDigits, Nat.pow_eq]
    push_cast
    exact carried.symm
  · rfl

/-- A scaled number with six whole digits, and a nearest whole number, which is the significand but for a
carry. -/
structure IsRounding (x : Fixed) (q : ℚ) (k : ℕ) (e : ℤ) : Prop where
  low : 10 ^ 5 ≤ q
  high : q < 10 ^ 6
  half : HalfEven q k
  value : x.value = q * 10 ^ (e - 5)
  eq : ofFixed x = carry k e

/-- At most six digits are kept, with zeros behind them. -/
theorem isRounding_of_le {c rest : ℕ} (nonzero : c ≠ 0) (full : digitCount c + rest = 6) (places : ℕ) :
    IsRounding ⟨c, places⟩ (c * 10 ^ rest : ℕ) (c * 10 ^ rest) (digitCount c - 1 - places) := by
  have some := digitCount_pos c
  have low : 10 ^ 5 ≤ c * 10 ^ rest := by
    rw [show 5 = digitCount c - 1 + rest by omega, pow_add]
    exact Nat.mul_le_mul_right _ (pow_digitCount_le (Nat.pos_of_ne_zero nonzero))
  have high : c * 10 ^ rest < 10 ^ 6 := by
    rw [← full, pow_add]
    exact Nat.mul_lt_mul_of_pos_right (lt_pow_digitCount c) (by positivity)
  have place : (-places : ℤ) = rest + (digitCount c - 1 - places - 5) := by omega
  have kept : ofFixed ⟨c, places⟩ = ⟨c * 10 ^ (6 - digitCount c), digitCount c - 1 - places⟩ := by
    rw [ofFixed, if_neg nonzero]
    exact if_pos (Nat.le.intro full)
  refine ⟨by exact_mod_cast low, by exact_mod_cast high, HalfEven.refl _, ?_, ?_⟩
  · rw [Fixed.value, place, zpow_add₀ (by norm_num), zpow_natCast]
    push_cast
    ring
  · rw [kept, carry_of_lt high, show 6 - digitCount c = rest by omega]

/-- Of more digits those behind the sixth are rounded. -/
theorem isRounding_of_lt {c more : ℕ} (count : 6 + more = digitCount c) (many : 6 < digitCount c)
    (places : ℕ) :
    IsRounding ⟨c, places⟩ (c / (10 ^ more : ℕ)) (roundHalfEven c (10 ^ more))
      (digitCount c - 1 - places) := by
  have nonzero : c ≠ 0 := by
    rintro rfl
    exact absurd many (by decide)
  have low : 10 ^ 5 * 10 ^ more ≤ c := by
    rw [← pow_add, show 5 + more = digitCount c - 1 by omega]
    exact pow_digitCount_le (Nat.pos_of_ne_zero nonzero)
  have high : c < 10 ^ 6 * 10 ^ more := by
    rw [← pow_add, count]
    exact lt_pow_digitCount c
  have scale : (0 : ℚ) < (10 ^ more : ℕ) := by positivity
  have place : (-places : ℤ) + more = digitCount c - 1 - places - 5 := by omega
  refine ⟨?_, ?_, halfEven_roundHalfEven c (by positivity), ?_, ?_⟩
  · rw [le_div_iff₀ scale]
    exact_mod_cast low
  · rw [div_lt_iff₀ scale]
    exact_mod_cast high
  · rw [Fixed.value, ← place, zpow_add₀ (by norm_num), zpow_natCast]
    push_cast
    field_simp
  · rw [ofFixed, if_neg nonzero, show more = digitCount c - significantDigits by
      rw [← count]
      exact (Nat.add_sub_cancel_left ..).symm]
    exact if_neg many.not_ge

theorem exists_isRounding {x : Fixed} (nonzero : x.coefficient ≠ 0) : ∃ q k e, IsRounding x q k e := by
  obtain ⟨c, places⟩ := x
  rcases le_or_gt (digitCount c) 6 with few | many
  · obtain ⟨rest, full⟩ := Nat.le.dest few
    exact ⟨_, _, _, isRounding_of_le nonzero full places⟩
  · obtain ⟨more, count⟩ := Nat.le.dest many.le
    exact ⟨_, _, _, isRounding_of_lt count many places⟩

theorem value_pos {significand : ℕ} (low : 10 ^ 5 ≤ significand) (exponent : ℤ) :
    0 < (⟨significand, exponent⟩ : Rounded).value := by
  have pos : (0 : ℚ) < significand := by exact_mod_cast lt_of_lt_of_le (by positivity) low
  exact mul_pos pos (ten_zpow_pos _)

theorem value_zero : (⟨0, 0⟩ : Rounded).value = 0 := by
  rw [value, Nat.cast_zero, zero_mul]

theorem Normal.eq_of_value_eq {x y : Rounded} (hx : x.Normal) (hy : y.Normal)
    (same : x.value = y.value) : x = y := by
  cases hx with
  | zero =>
    cases hy with
    | zero => rfl
    | digits low _ exponent => exact absurd (value_zero.symm.trans same) (value_pos low exponent).ne
  | @digits s low high exponent =>
    cases hy with
    | zero => exact absurd (same.trans value_zero) (value_pos low exponent).ne'
    | @digits t low' high' exponent' =>
      have digits : (s : ℤ) = t ∧ exponent - 5 = exponent' - 5 :=
        eq_of_mul_eq ⟨by exact_mod_cast low, by exact_mod_cast high⟩
          ⟨by exact_mod_cast low', by exact_mod_cast high'⟩ (by exact_mod_cast same)
      rw [Nat.cast_inj.1 digits.1, sub_left_injective digits.2]

theorem normal_ofFixed (x : Fixed) : (ofFixed x).Normal := by
  by_cases zero : x.coefficient = 0
  · rw [ofFixed, if_pos zero]
    exact .zero
  · obtain ⟨q, k, e, h⟩ := exists_isRounding zero
    obtain ⟨atLeast, atMost⟩ := bounds_of_near h.low h.high h.half.near
    rw [h.eq]
    exact normal_carry (by exact_mod_cast atLeast) (by exact_mod_cast atMost) e

end Rounded

theorem nearest_ofFixed (x : Fixed) : Nearest x.value (Rounded.ofFixed x).value := by
  by_cases zero : x.coefficient = 0
  · have value : x.value = 0 := by rw [Fixed.value, zero, Nat.cast_zero, zero_mul]
    have rounded : (Rounded.ofFixed x).value = 0 := by
      rw [Rounded.ofFixed, if_pos zero, Rounded.value, Nat.cast_zero, zero_mul]
    rw [value, rounded]
    exact nearest_zero
  · obtain ⟨q, k, e, h⟩ := Rounded.exists_isRounding zero
    rw [h.value, h.eq, Rounded.value_carry, ← Int.cast_natCast (R := ℚ) k]
    exact nearest_of_halfEven h.low h.high h.half (e - 5)

end Hypertext.Numeral
