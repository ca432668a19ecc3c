import Hypertext.Proofs.Literal
import Hypertext.Proofs.Nearest

/-!
# Six digits as a literal

What is written for rounded digits is a literal of that number (`Rounded.value_literal`), in positional or
in exponential form by the place of the leading digit alone, and without needless zeros
(`Rounded.inGeneralForm_literal`).
-/

namespace Hypertext.Numeral

/-- The form of a literal by the exponent of its leading digit, which is zero for zero. -/
structure Literal.InGeneralForm (l : Literal) : Prop where
  positional : l.exponent? = none ↔ -4 ≤ Int.log 10 |l.value| ∧ Int.log 10 |l.value| < 6
  whole : IsNumeral l.whole
  leading : l.exponent? ≠ none → ∃ b, b ≠ 48 ∧ l.whole = [b]
  exponent : ∀ negative digits, l.exponent? = some (negative, digits) →
    2 ≤ digits.length ∧ (2 < digits.length → digits.head? ≠ some 48) ∧
      Literal.exponentValue l.exponent? = Int.log 10 |l.value|
  fraction : ∀ digits, l.fraction? = some digits → ∃ init b, digits = init ++ [b] ∧ b ≠ 48

namespace Rounded

/-- The digits that are kept behind a point, if there are any. -/
def trimmed (fraction : Bytes) : Option Bytes :=
  match dropFinalZeros fraction with
  | [] => none
  | kept => some kept

theorem withFraction_eq (whole fraction : Bytes) :
    withFraction whole fraction = whole ++ Literal.fractionText (trimmed fraction) := by
  rw [withFraction, trimmed]
  cases dropFinalZeros fraction with
  | nil => exact (List.append_nil whole).symm
  | cons b kept => rfl

theorem getD_trimmed (fraction : Bytes) : (trimmed fraction).getD [] = dropFinalZeros fraction := by
  rw [trimmed]
  cases dropFinalZeros fraction <;> rfl

theorem exists_zeros (s : Bytes) : ∃ n, s = dropFinalZeros s ++ List.replicate n 48 := by
  have split : dropFinalZeros s ++ s.rtakeWhile (· == 48) = s := List.rdropWhile_append_rtakeWhile
  have zeros : s.rtakeWhile (· == 48) = List.replicate (s.rtakeWhile (· == 48)).length 48 :=
    List.eq_replicate_of_mem fun b hb => by simpa using List.mem_rtakeWhile_imp hb
  rw [zeros] at split
  exact ⟨_, split.symm⟩

theorem of_trimmed_eq_some {fraction kept : Bytes} (h : trimmed fraction = some kept) :
    kept ⊆ fraction ∧ ∃ init b, kept = init ++ [b] ∧ b ≠ 48 := by
  have some : dropFinalZeros fraction ≠ [] := fun none => by
    rw [trimmed, none] at h
    cases h
  have eq : dropFinalZeros fraction = kept := by rw [← getD_trimmed, h, Option.getD_some]
  subst eq
  refine ⟨(List.rdropWhile_prefix (· == 48) fraction).subset, _, _,
    (List.dropLast_append_getLast some).symm, ?_⟩
  have last := List.rdropWhile_last_not (· == 48) fraction some
  exact fun zero => last (by rw [beq_iff_eq]; exact zero)

theorem value_trimmed (negative : Bool) (whole fraction : Bytes) (exponent? : Option (Bool × Bytes)) :
    (⟨negative, whole, trimmed fraction, exponent?⟩ : Literal).value = signed negative
      (valueOf (whole ++ fraction) * 10 ^ (Literal.exponentValue exponent? - fraction.length)) := by
  obtain ⟨n, zeros⟩ := exists_zeros fraction
  have digits : valueOf (whole ++ fraction) = valueOf (whole ++ dropFinalZeros fraction) * 10 ^ n := by
    rw [← valueOf_append_zeros, List.append_assoc, ← zeros]
  have length : (fraction.length : ℤ) = (dropFinalZeros fraction).length + n := by
    exact_mod_cast (congrArg List.length zeros).trans (by simp)
  have place : (10 : ℚ) ^ (Literal.exponentValue exponent? - (dropFinalZeros fraction).length) =
      10 ^ n * 10 ^ (Literal.exponentValue exponent? - fraction.length) := by
    rw [← zpow_natCast, ← zpow_add₀ (by norm_num), length]
    congr 1
    ring
  rw [Literal.value, getD_trimmed, digits, place, Nat.cast_mul, Nat.cast_pow, mul_assoc]
  rfl

/-! ## The digits and their layout -/

theorem isDigit_of_mem_leftpad {n k : ℕ} {b : UInt8} (h : b ∈ (natural k).leftpad n 48) :
    isDigit b = true := by
  rw [List.leftpad, List.mem_append, List.mem_replicate] at h
  rcases h with ⟨-, rfl⟩ | h
  · decide
  · exact isDigit_of_mem_natural h

theorem valueOf_leftpad (n k : ℕ) : valueOf ((natural k).leftpad n 48) = k := by
  rw [List.leftpad, valueOf_zeros_append, valueOf_natural]

theorem length_digits {x : Rounded} (small : x.significand < 10 ^ 6) : x.digits.length = 6 := by
  have count : digitCount x.significand ≤ 6 := by
    rw [digitCount, natural, List.length_map]
    exact (Nat.length_toDigits_le_iff (by norm_num) (by norm_num)).2 small
  rw [digits, List.length_leftpad, length_natural]
  exact Nat.max_eq_left count

/-- The whole digits, the digits behind them with zeros at the end, and the exponent. -/
def parts (x : Rounded) : Bytes × Bytes × Option (Bool × Bytes) :=
  if -4 ≤ x.exponent ∧ x.exponent < significantDigits then
    if 0 ≤ x.exponent then
      (x.digits.take (x.exponent.toNat + 1), x.digits.drop (x.exponent.toNat + 1), none)
    else ([48], List.replicate ((-x.exponent).toNat - 1) 48 ++ x.digits, none)
  else
    (x.digits.take 1, x.digits.drop 1,
      some (decide (x.exponent < 0), (natural x.exponent.natAbs).leftpad 2 48))

def literal (negative : Bool) (x : Rounded) : Literal :=
  ⟨negative, x.parts.1, trimmed x.parts.2.1, x.parts.2.2⟩

theorem text_literal (negative : Bool) (x : Rounded) :
    (x.literal negative).text = Literal.sign negative ++ x.text := by
  rw [literal, Literal.text, List.append_assoc, List.append_assoc, parts, text, positional, exponential]
  split_ifs with near whole below
  · simp only [withFraction_eq, Literal.exponentText, List.append_nil]
  · simp only [withFraction_eq, Literal.exponentText, List.append_nil]
  all_goals
    simp only [withFraction_eq, Literal.exponentText, below, decide_true, decide_false, if_true,
      if_false, Bool.false_eq_true, List.append_assoc]

theorem exists_parts_append (x : Rounded) :
    ∃ n, x.parts.1 ++ x.parts.2.1 = List.replicate n 48 ++ x.digits := by
  rw [parts]
  split_ifs
  · exact ⟨0, List.take_append_drop ..⟩
  · exact ⟨(-x.exponent).toNat - 1 + 1, by rw [List.replicate_succ]; rfl⟩
  · exact ⟨0, List.take_append_drop ..⟩

theorem value_literal {x : Rounded} (small : x.significand < 10 ^ 6) (negative : Bool) :
    (x.literal negative).value = signed negative x.value := by
  have digits : valueOf (x.parts.1 ++ x.parts.2.1) = x.significand := by
    obtain ⟨n, eq⟩ := x.exists_parts_append
    rw [eq, valueOf_zeros_append, Rounded.digits, valueOf_leftpad]
  have place : Literal.exponentValue x.parts.2.2 - x.parts.2.1.length = x.exponent - 5 := by
    have six := length_digits small
    rw [parts]
    split_ifs with near whole
    · simp only [Literal.exponentValue, List.length_drop, six]
      simp only [significantDigits] at near
      omega
    · simp only [Literal.exponentValue, List.length_append, List.length_replicate, six]
      omega
    · simp only [Literal.exponentValue, List.length_drop, six, valueOf_leftpad, decide_eq_true_eq]
      split_ifs <;> omega
  rw [literal, value_trimmed, digits, place, value]

theorem Normal.small {x : Rounded} : x.Normal → x.significand < 10 ^ 6
  | .zero => by decide
  | .digits _ high _ => high

theorem log_value {x : Rounded} (h : x.Normal) (negative : Bool) :
    Int.log 10 |(x.literal negative).value| = x.exponent := by
  have nonneg : 0 ≤ x.value := mul_nonneg (Nat.cast_nonneg _) (ten_zpow_pos _).le
  rw [value_literal h.small, abs_signed, abs_of_nonneg nonneg]
  cases h with
  | zero => rw [value, Nat.cast_zero, zero_mul, Int.log_zero_right]
  | digits low high exponent =>
    rw [value, log_mul (by exact_mod_cast low) (by exact_mod_cast high), sub_add_cancel]

/-- The leading digit is not zero, as the other five alone are too small. -/
theorem exists_digits_eq {x : Rounded} (low : 10 ^ 5 ≤ x.significand) (high : x.significand < 10 ^ 6) :
    ∃ b rest, x.digits = b :: rest ∧ b ≠ 48 := by
  have six := length_digits high
  obtain ⟨b, rest, eq⟩ := List.exists_cons_of_length_pos (by rw [six]; norm_num)
  refine ⟨b, rest, eq, ?_⟩
  rintro rfl
  have value : valueOf x.digits = x.significand := valueOf_leftpad ..
  have small : valueOf rest < 10 ^ rest.length := valueOf_lt_pow fun b h =>
    isDigit_of_mem_leftpad (n := significantDigits) (k := x.significand)
      (by rw [← digits, eq]; exact List.mem_cons_of_mem _ h)
  rw [eq, List.length_cons] at six
  rw [eq, valueOf_cons, Nat.succ.inj six] at value
  rw [Nat.succ.inj six] at small
  simp at value
  omega

theorem exponent?_eq_none_iff (x : Rounded) :
    x.parts.2.2 = none ↔ -4 ≤ x.exponent ∧ x.exponent < 6 := by
  rw [parts]
  split_ifs with near whole
  · exact iff_of_true rfl near
  · exact iff_of_true rfl near
  · exact iff_of_false nofun near

theorem parts_of_exponent?_ne_none {x : Rounded} (h : x.parts.2.2 ≠ none) : x.parts =
    (x.digits.take 1, x.digits.drop 1,
      some (decide (x.exponent < 0), (natural x.exponent.natAbs).leftpad 2 48)) :=
  if_neg fun near => h (x.exponent?_eq_none_iff.2 near)

theorem of_exponent?_eq_some {x : Rounded} {below : Bool} {ds : Bytes}
    (h : x.parts.2.2 = some (below, ds)) :
    below = decide (x.exponent < 0) ∧ ds = (natural x.exponent.natAbs).leftpad 2 48 := by
  rw [parts_of_exponent?_ne_none (by rw [h]; exact Option.some_ne_none _)] at h
  obtain ⟨rfl, rfl⟩ := Prod.mk.inj (Option.some.inj h)
  exact ⟨rfl, rfl⟩

theorem isNumeral_whole {x : Rounded} (h : x.Normal) : IsNumeral x.parts.1 := by
  cases h with
  | zero => exact isNumeral_natural 0
  | digits low high exponent =>
    obtain ⟨b, rest, eq, nonzero⟩ := exists_digits_eq (x := ⟨_, exponent⟩) low high
    have leading (k : ℕ) : IsNumeral ((b :: rest).take (k + 1)) := by
      refine ⟨by simp, fun c h => ?_, fun h => absurd (Option.some.inj h) nonzero⟩
      rw [← eq] at h
      exact isDigit_of_mem_leftpad (List.mem_of_mem_take h)
    rw [parts, eq]
    split_ifs
    · exact leading _
    · exact isNumeral_natural 0
    · exact leading 0

/-- An exponent has two digits, and more only if it takes more. -/
theorem leftpad_two (n : ℕ) : 2 ≤ ((natural n).leftpad 2 48).length ∧
    (2 < ((natural n).leftpad 2 48).length → ((natural n).leftpad 2 48).head? ≠ some 48) := by
  rw [List.length_leftpad]
  refine ⟨Nat.le_max_left .., fun longer zero => ?_⟩
  have long : 2 < (natural n).length := by omega
  rw [List.leftpad, Nat.sub_eq_zero_of_le long.le, List.replicate_zero, List.nil_append] at zero
  have alone := (isNumeral_natural n).lead zero
  rw [alone] at long
  exact absurd long (by decide)

theorem wellFormed_literal {x : Rounded} (h : x.Normal) (negative : Bool) :
    (x.literal negative).WellFormed := by
  have digits (b : UInt8) (h : b ∈ x.parts.1 ++ x.parts.2.1) : isDigit b = true := by
    obtain ⟨n, eq⟩ := x.exists_parts_append
    rw [eq, List.mem_append, List.mem_replicate] at h
    rcases h with ⟨-, rfl⟩ | h
    · decide
    · exact isDigit_of_mem_leftpad h
  refine ⟨(isNumeral_whole h).ne_nil, fun b h => digits b (List.mem_append_left _ h),
    fun kept trimmed b h => digits b (List.mem_append_right _ ((of_trimmed_eq_some trimmed).1 h)),
    fun below ds exponent => ?_⟩
  obtain ⟨-, rfl⟩ := of_exponent?_eq_some exponent
  exact ⟨List.length_pos_iff.1 (lt_of_lt_of_le two_pos (leftpad_two _).1), fun b => isDigit_of_mem_leftpad⟩

theorem inGeneralForm_literal {x : Rounded} (h : x.Normal) (negative : Bool) :
    (x.literal negative).InGeneralForm where
  positional := by
    rw [log_value h]
    exact x.exponent?_eq_none_iff
  whole := isNumeral_whole h
  leading far := by
    change x.parts.2.2 ≠ none at far
    cases h with
    | zero => exact absurd rfl far
    | digits low high exponent =>
      obtain ⟨b, rest, eq, nonzero⟩ := exists_digits_eq (x := ⟨_, exponent⟩) low high
      exact ⟨b, nonzero, by rw [literal, parts_of_exponent?_ne_none far, eq]; rfl⟩
  exponent below ds eq := by
    change x.parts.2.2 = some (below, ds) at eq
    obtain ⟨rfl, rfl⟩ := of_exponent?_eq_some eq
    refine ⟨(leftpad_two _).1, (leftpad_two _).2, ?_⟩
    rw [log_value h, literal, eq, Literal.exponentValue, valueOf_leftpad]
    simp only [decide_eq_true_eq]
    split_ifs <;> omega
  fraction kept trimmed := (of_trimmed_eq_some trimmed).2

theorem head?_text_literal {x : Rounded} (normal : x.Normal) (negative : Bool) :
    (x.literal negative).text.head? = some 45 ↔ negative = true := by
  have numeral := isNumeral_whole normal
  obtain ⟨b, rest, whole⟩ := List.exists_cons_of_ne_nil numeral.ne_nil
  have digit : b ≠ 45 := by
    rintro rfl
    have := numeral.digits 45 (by rw [whole]; exact List.mem_cons_self)
    contradiction
  rw [Literal.text, literal, whole]
  cases negative <;> simp [Literal.sign, digit]

end Rounded

end Hypertext.Numeral
