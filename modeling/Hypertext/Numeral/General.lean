import Hypertext.Numeral
import Hypertext.Numeral.Binary

/-! # Numbers to six significant digits

A magnitude is rounded to the nearest number of six digits, a tie to the even last digit. It is written
positionally while its leading digit stands between the fourth decimal and the sixth whole place, else
with an exponent; zeros at the end of the fraction are left out.
-/

namespace Hypertext.Numeral

/-- The exact number `coefficient * 10 ^ -places`. -/
structure Fixed where
  coefficient : Nat
  places : Nat
  deriving DecidableEq

/-- A unit of `2 ^ -scale` is `5 ^ scale` units of the last of `scale` decimal places. -/
def Fixed.ofUnits (units scale : Nat) : Fixed := ⟨units * Nat.pow 5 scale, scale⟩

def digitCount (n : Nat) : Nat := (natural n).length

/-- The nearest whole number to `n / d`, of two equally near ones the even one. -/
def roundHalfEven (n d : Nat) : Nat :=
  let q := n / d
  let twice := 2 * (n % d)
  if twice < d then q else if d < twice then q + 1 else q + q % 2

def significantDigits : Nat := 6

/-- A number whose leading digit stands for `10 ^ exponent`. The significand is zero, or has just the
significant digits. -/
structure Rounded where
  significand : Nat
  exponent : Int
  deriving DecidableEq

namespace Rounded

/-- Carrying out of the first digit leaves a one and zeros, one place further up. -/
def carry (significand : Nat) (exponent : Int) : Rounded :=
  if significand = Nat.pow 10 significantDigits then
    ⟨Nat.pow 10 (significantDigits - 1), exponent + 1⟩
  else ⟨significand, exponent⟩

def ofFixed (x : Fixed) : Rounded :=
  if x.coefficient = 0 then ⟨0, 0⟩ else
    let count := digitCount x.coefficient
    let exponent : Int := (count : Int) - 1 - x.places
    if count ≤ significantDigits then
      ⟨x.coefficient * Nat.pow 10 (significantDigits - count), exponent⟩
    else carry (roundHalfEven x.coefficient (Nat.pow 10 (count - significantDigits))) exponent

def digits (x : Rounded) : Bytes := (natural x.significand).leftpad significantDigits 48

def dropFinalZeros (s : Bytes) : Bytes := (s.reverse.dropWhile (· == 48)).reverse

/-- The point is written only before a digit. -/
def withFraction (whole fraction : Bytes) : Bytes :=
  match dropFinalZeros fraction with
  | [] => whole
  | kept => whole ++ 46 :: kept

def positional (x : Rounded) : Bytes :=
  if 0 ≤ x.exponent then
    let whole := x.exponent.toNat + 1
    withFraction (x.digits.take whole) (x.digits.drop whole)
  else withFraction [48] (List.replicate ((-x.exponent).toNat - 1) 48 ++ x.digits)

/-- An exponent has a sign and at least two digits. -/
def exponential (x : Rounded) : Bytes :=
  withFraction (x.digits.take 1) (x.digits.drop 1) ++ 101 :: (if x.exponent < 0 then 45 else 43) ::
    (natural x.exponent.natAbs).leftpad 2 48

def text (x : Rounded) : Bytes :=
  if -4 ≤ x.exponent ∧ x.exponent < significantDigits then x.positional else x.exponential

end Rounded

def Magnitude.text (scale : Nat) : Magnitude → Bytes
  | .finite units => (Rounded.ofFixed (Fixed.ofUnits units scale)).text
  | .infinite => Bytes.ascii "inf"
  | .nan => Bytes.ascii "nan"

/-- A set sign bit is written also before zero and before what is no number. -/
def BinaryFormat.text (f : BinaryFormat) (bits : Nat) : Bytes :=
  let x := f.decode bits
  (if x.negative then [45] else []) ++ x.magnitude.text f.scale

end Hypertext.Numeral
