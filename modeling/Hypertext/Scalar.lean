import Hypertext.Numeral.General

/-! # Scalars

A scalar is a value that a tree knows by its text alone. A truth value also keeps what it says, so that
as an attribute it can be a flag.
-/

namespace Hypertext

/-- A number of one of the machine's types; floating-point data are given by their bits. -/
inductive Number
  | int8 (value : Int8) | uint8 (value : UInt8)
  | int16 (value : Int16) | uint16 (value : UInt16)
  | int32 (value : Int32) | uint32 (value : UInt32)
  | int64 (value : Int64) | uint64 (value : UInt64)
  | float32 (bits : UInt32) | float64 (bits : UInt64)
  deriving DecidableEq

namespace Number

def toInt? : Number → Option Int
  | int8 v => some v.toInt
  | uint8 v => some v.toNat
  | int16 v => some v.toInt
  | uint16 v => some v.toNat
  | int32 v => some v.toInt
  | uint32 v => some v.toNat
  | int64 v => some v.toInt
  | uint64 v => some v.toNat
  | float32 _ | float64 _ => none

def text : Number → Bytes
  | int8 v => Numeral.integer v.toInt
  | uint8 v => Numeral.natural v.toNat
  | int16 v => Numeral.integer v.toInt
  | uint16 v => Numeral.natural v.toNat
  | int32 v => Numeral.integer v.toInt
  | uint32 v => Numeral.natural v.toNat
  | int64 v => Numeral.integer v.toInt
  | uint64 v => Numeral.natural v.toNat
  | float32 bits => Numeral.BinaryFormat.single.text bits.toNat
  | float64 bits => Numeral.BinaryFormat.double.text bits.toNat

theorem text_of_toInt? {n : Number} {i : Int} (h : n.toInt? = some i) : n.text = Numeral.integer i := by
  cases n <;> simp only [toInt?, Option.some.injEq, reduceCtorEq] at h <;> subst h <;> rfl

end Number

structure Scalar where
  text : Bytes
  truth? : Option Bool := none
  deriving DecidableEq

namespace Scalar

def ofTruth (b : Bool) : Scalar := ⟨Bytes.ascii (if b then "true" else "false"), some b⟩

def ofNumber (n : Number) : Scalar := ⟨n.text, none⟩

/-- A character is printed as the number of its signed byte. -/
def ofCharacter (b : UInt8) : Scalar := ofNumber (.int8 b.toInt8)

def ofText (s : Bytes) : Scalar := ⟨s, none⟩

/-- A truth value that is printed in words of its own. -/
def worded (b : Bool) (text : Bytes) : Scalar := ⟨text, some b⟩

end Scalar

end Hypertext
