/-! # Binary floating-point data

Every finite datum of a format is a whole number of its smallest positive values, so its magnitude is
a natural number of these units, and one unit is `2 ^ -scale`.
-/

namespace Hypertext.Numeral

/-- A binary interchange format, given by the widths of its exponent and fraction fields. -/
structure BinaryFormat where
  exponentBits : Nat
  fractionBits : Nat

namespace BinaryFormat

def single : BinaryFormat := ⟨8, 23⟩
def double : BinaryFormat := ⟨11, 52⟩

def scale (f : BinaryFormat) : Nat := Nat.pow 2 (f.exponentBits - 1) - 2 + f.fractionBits

end BinaryFormat

inductive Magnitude | finite (units : Nat) | infinite | nan deriving DecidableEq

structure Datum where
  negative : Bool
  magnitude : Magnitude
  deriving DecidableEq

namespace BinaryFormat

/-- The greatest exponent field stands for infinities and NaNs, the least for zero and the subnormal
data, which have no leading one. -/
def decode (f : BinaryFormat) (bits : Nat) : Datum :=
  let fraction := bits % Nat.pow 2 f.fractionBits
  let exponent := bits / Nat.pow 2 f.fractionBits % Nat.pow 2 f.exponentBits
  let negative := bits / Nat.pow 2 (f.fractionBits + f.exponentBits) % 2 == 1
  ⟨negative,
    if exponent = Nat.pow 2 f.exponentBits - 1 then if fraction = 0 then .infinite else .nan
    else if exponent = 0 then .finite fraction
    else .finite ((Nat.pow 2 f.fractionBits + fraction) * Nat.pow 2 (exponent - 1))⟩

end BinaryFormat

end Hypertext.Numeral
