import Hypertext.Proofs.GeneralForm
import Hypertext.Scalar

/-!
# Printed floating-point data

Finite data are exact rational numbers, from the least subnormal ones on, and each is printed as the nearest
number of six digits (`floats_print_nearest`). So the text of one depends on its sign bit and its value, and
not on its format, and greater data are not printed smaller.
-/

namespace Hypertext

namespace Numeral

/-- The sign bit and the exact value of finite data. The exponent is biased, and a significand has a leading
one unless the exponent field is zero. -/
def BinaryFormat.finite? (f : BinaryFormat) (bits : ℕ) : Option (Bool × ℚ) :=
  let fraction := bits % 2 ^ f.fractionBits
  let exponent := bits / 2 ^ f.fractionBits % 2 ^ f.exponentBits
  let negative := bits.testBit (f.fractionBits + f.exponentBits)
  let bias : ℤ := 2 ^ (f.exponentBits - 1) - 1
  if exponent = 2 ^ f.exponentBits - 1 then none
  else if exponent = 0 then
    some (negative, signed negative (fraction / 2 ^ f.fractionBits * 2 ^ (1 - bias)))
  else some (negative, signed negative ((1 + fraction / 2 ^ f.fractionBits) * 2 ^ (exponent - bias)))

theorem value_ofUnits (units scale : ℕ) :
    (Fixed.ofUnits units scale).value = units * 2 ^ (-scale : ℤ) := by
  rw [Fixed.value, Fixed.ofUnits, zpow_neg, zpow_neg, zpow_natCast, zpow_natCast,
    show (10 : ℚ) = 5 * 2 by norm_num, mul_pow]
  simp only [Nat.pow_eq]
  push_cast
  field_simp

/-- One unit is the last place of the least exponent. -/
theorem BinaryFormat.value_units {f : BinaryFormat} (wide : 2 ≤ f.exponentBits) (c k : ℕ) :
    (Fixed.ofUnits (c * 2 ^ k) f.scale).value =
      c / 2 ^ f.fractionBits * 2 ^ (k + 1 - (2 ^ (f.exponentBits - 1) - 1) : ℤ) := by
  have enough : 2 ≤ 2 ^ (f.exponentBits - 1) := Nat.le_self_pow (by omega) 2
  have scale : (f.scale : ℤ) = 2 ^ (f.exponentBits - 1) - 2 + f.fractionBits := by
    rw [scale, Nat.pow_eq]
    push_cast [enough]
    rfl
  have place : (k : ℤ) + -f.scale = -f.fractionBits + (k + 1 - (2 ^ (f.exponentBits - 1) - 1)) := by
    rw [scale]
    ring
  rw [value_ofUnits, div_eq_mul_inv, ← zpow_natCast, ← zpow_neg, mul_assoc, ← zpow_add₀ two_ne_zero,
    ← place, zpow_add₀ two_ne_zero, zpow_natCast]
  push_cast
  ring

theorem BinaryFormat.decode_of_finite? {f : BinaryFormat} (wide : 2 ≤ f.exponentBits) {bits : ℕ}
    {negative : Bool} {v : ℚ} (h : f.finite? bits = some (negative, v)) :
    ∃ units, f.decode bits = ⟨negative, .finite units⟩ ∧
      v = signed negative (Fixed.ofUnits units f.scale).value := by
  have sign : (bits / 2 ^ (f.fractionBits + f.exponentBits) % 2 == 1) =
      bits.testBit (f.fractionBits + f.exponentBits) :=
    (Nat.testBit_eq_decide_div_mod_eq).symm
  rw [finite?] at h
  simp only [decode, Nat.pow_eq, sign]
  split_ifs at h ⊢ with special least
  · obtain ⟨rfl, rfl⟩ := Prod.mk.inj (Option.some.inj h)
    refine ⟨_, rfl, ?_⟩
    have value := value_units wide (bits % 2 ^ f.fractionBits) 0
    rw [pow_zero, mul_one] at value
    rw [value, Nat.cast_zero, zero_add]
  · obtain ⟨rfl, rfl⟩ := Prod.mk.inj (Option.some.inj h)
    refine ⟨_, rfl, ?_⟩
    obtain ⟨k, exponent⟩ := Nat.exists_eq_succ_of_ne_zero least
    rw [exponent, Nat.succ_sub_one, value_units wide, Nat.cast_succ]
    push_cast
    rw [add_div, div_self (by positivity)]

theorem BinaryFormat.exists_rounded {f : BinaryFormat} (wide : 2 ≤ f.exponentBits) {bits : ℕ}
    {negative : Bool} {v : ℚ} (h : f.finite? bits = some (negative, v)) :
    ∃ x : Rounded, x.Normal ∧ f.text bits = (x.literal negative).text ∧
      Nearest v (x.literal negative).value := by
  obtain ⟨units, decoded, rfl⟩ := decode_of_finite? wide h
  have normal := Rounded.normal_ofFixed (Fixed.ofUnits units f.scale)
  refine ⟨_, normal, ?_, ?_⟩
  · simp only [text, decoded, Magnitude.text, Rounded.text_literal, Literal.sign]
  · have nearest := nearest_ofFixed (Fixed.ofUnits units f.scale)
    rw [Rounded.value_literal normal.small]
    cases negative with
    | false => exact nearest
    | true => exact nearest.neg

end Numeral

/-- The sign bit and the exact value of a finite datum of a floating-point type. -/
def Number.finite? : Number → Option (Bool × ℚ)
  | float32 bits => Numeral.BinaryFormat.single.finite? bits.toNat
  | float64 bits => Numeral.BinaryFormat.double.finite? bits.toNat
  | _ => none

open Numeral

theorem Number.exists_rounded {n : Number} {negative : Bool} {v : ℚ} (h : n.finite? = some (negative, v)) :
    ∃ x : Rounded, x.Normal ∧ n.text = (x.literal negative).text ∧ Nearest v (x.literal negative).value := by
  cases n with
  | float32 bits => exact BinaryFormat.exists_rounded (by decide) h
  | float64 bits => exact BinaryFormat.exists_rounded (by decide) h
  | _ => cases h

/-- Of finite data, the text is a literal of the nearest number of six digits, in the form that goes by the
place of its leading digit. A minus shows the sign bit, also before a zero. -/
theorem floats_print_nearest {n : Number} {negative : Bool} {v : ℚ}
    (finite : n.finite? = some (negative, v)) :
    let text := (Scalar.ofNumber n).text
    ∃ l : Literal, Literal.read? text = some l ∧ l.text = text ∧ Nearest v l.value ∧
      (∀ x, Nearest v x → x = l.value) ∧ l.InGeneralForm ∧
      (text.head? = some 45 ↔ negative = true) ∧
      (v = 0 → text = if negative then Bytes.ascii "-0" else Bytes.ascii "0") ∧
      (∀ m : Number, m.finite? = n.finite? → (Scalar.ofNumber m).text = text) ∧
      ∀ (m : Number) (below : Bool) (w : ℚ) (k : Literal), m.finite? = some (below, w) →
        Literal.read? (Scalar.ofNumber m).text = some k → v ≤ w → l.value ≤ k.value := by
  intro text
  obtain ⟨x, normal, written, nearest⟩ := Number.exists_rounded finite
  have written : text = (x.literal negative).text := written
  have value := Rounded.value_literal normal.small negative
  refine ⟨x.literal negative, ?_, written.symm, nearest, fun y other => other.unique nearest,
    Rounded.inGeneralForm_literal normal negative, ?_, ?_, ?_, ?_⟩
  · rw [written]
    exact Literal.read?_text (Rounded.wellFormed_literal normal negative)
  · rw [written]
    exact Rounded.head?_text_literal normal negative
  · rintro rfl
    have zero : x.value = (⟨0, 0⟩ : Rounded).value := by
      apply signed_injective negative
      rw [← value, nearest.unique nearest_zero, Rounded.value_zero]
      cases negative <;> simp [signed]
    rw [written, normal.eq_of_value_eq .zero zero]
    cases negative <;> decide
  · intro m same
    obtain ⟨y, normal', written', nearest'⟩ := Number.exists_rounded (same.trans finite)
    have values := nearest'.unique nearest
    rw [value, Rounded.value_literal normal'.small] at values
    rw [written, ← normal'.eq_of_value_eq normal (signed_injective negative values)]
    exact written'
  · intro m below w k finite' read le
    obtain ⟨y, normal', written', nearest'⟩ := Number.exists_rounded finite'
    have found : Literal.read? (Scalar.ofNumber m).text = some (y.literal below) := by
      rw [Scalar.ofNumber, written']
      exact Literal.read?_text (Rounded.wellFormed_literal normal' below)
    obtain rfl := Option.some.inj (read.symm.trans found)
    exact nearest.mono nearest' le

/-- A tie, which is rounded to even and so carries into a seventh digit. -/
def Number.tie : Number := .float64 0x412E847F00000000

/-- The negative number nearest to zero, a subnormal one. -/
def Number.leastNegative : Number := .float64 0x8000000000000001

theorem floats_print_nearest_extremes :
    Number.leastNegative.finite? = some (true, -1 / 2 ^ 1074) ∧
      Number.tie.finite? = some (false, 999999 + 1 / 2) ∧
      Number.leastNegative.text = Bytes.ascii "-4.94066e-324" ∧ Number.tie.text = Bytes.ascii "1e+06" ∧
      ∃ l k : Literal, Literal.read? (Bytes.ascii "-4.94066e-324") = some l ∧
        Literal.read? (Bytes.ascii "1e+06") = some k ∧ Nearest (-1 / 2 ^ 1074) l.value ∧
        Nearest (999999 + 1 / 2) k.value ∧ k.value = 10 ^ 6 ∧ l.value ≤ k.value := by
  have finiteL : Number.leastNegative.finite? = some (true, -1 / 2 ^ 1074) := by decide +kernel
  have finiteK : Number.tie.finite? = some (false, 999999 + 1 / 2) := by decide +kernel
  have textL : Number.leastNegative.text = Bytes.ascii "-4.94066e-324" := by decide +kernel
  have textK : Number.tie.text = Bytes.ascii "1e+06" := by decide +kernel
  have parts : Literal.read? (Bytes.ascii "1e+06") = some ⟨false, [49], none, some (false, [48, 54])⟩ := by
    decide +kernel
  have value : (⟨false, [49], none, some (false, [48, 54])⟩ : Literal).value = 10 ^ 6 := by decide +kernel
  obtain ⟨l, readL, -, nearestL, -, -, -, -, -, mono⟩ := floats_print_nearest finiteL
  obtain ⟨k, readK, -, nearestK, -⟩ := floats_print_nearest finiteK
  have le := mono _ _ _ k finiteK readK (by decide +kernel)
  rw [Scalar.ofNumber, textL] at readL
  rw [Scalar.ofNumber, textK] at readK
  obtain rfl := Option.some.inj (parts.symm.trans readK)
  exact ⟨finiteL, finiteK, textL, textK, l, _, readL, readK, nearestL, nearestK, value, le⟩

end Hypertext
