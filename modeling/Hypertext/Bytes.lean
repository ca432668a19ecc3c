/-! # Byte strings

All text is a list of bytes: nothing in the library decodes an encoding, and only the letters
`A` to `Z` have another case.
-/

namespace Hypertext

abbrev Bytes := List UInt8

namespace Bytes

/-- The bytes of a text whose characters are all below `U+0100`. -/
def ascii (s : String) : Bytes := s.toList.map Char.toUInt8

def isUpper (b : UInt8) : Bool := 65 ≤ b && b ≤ 90

def lowerByte (b : UInt8) : UInt8 := if isUpper b then b + 32 else b

/-- Lower-cases the ASCII letters and keeps every other byte. -/
def lower (s : Bytes) : Bytes := s.map lowerByte

/-- What a reader that stops at the first NUL sees. -/
def untilNul (s : Bytes) : Bytes := s.takeWhile (· != 0)

/-- The text that a NUL ends; where there is none at all, it is empty. -/
def ofTerminated (s : Option Bytes) : Bytes := untilNul (s.getD [])

@[simp] theorem ascii_empty : ascii "" = [] := rfl

theorem isUpper_lowerByte (b : UInt8) : isUpper (lowerByte b) = false := by
  unfold lowerByte
  split
  · rename_i h
    simp only [isUpper, Bool.and_eq_true, decide_eq_true_eq, UInt8.le_iff_toNat_le] at h
    obtain ⟨low, high⟩ := h
    have sum : (b + 32).toNat = b.toNat + 32 := by
      simp only [UInt8.toNat_add, UInt8.reduceToNat] at *
      omega
    simp only [isUpper, Bool.and_eq_false_iff, decide_eq_false_iff_not, UInt8.le_iff_toNat_le, sum]
    simp only [UInt8.reduceToNat] at *
    omega
  · rename_i h
    simpa using h

@[simp] theorem lowerByte_lowerByte (b : UInt8) : lowerByte (lowerByte b) = lowerByte b := by
  rw [lowerByte.eq_def (lowerByte b), isUpper_lowerByte]
  rfl

@[simp] theorem lower_nil : lower [] = [] := rfl

@[simp] theorem lower_append (s t : Bytes) : lower (s ++ t) = lower s ++ lower t := List.map_append

@[simp] theorem length_lower (s : Bytes) : (lower s).length = s.length := List.length_map ..

@[simp] theorem lower_lower (s : Bytes) : lower (lower s) = lower s := by
  simp [lower]

@[simp] theorem lower_eq_nil_iff {s : Bytes} : lower s = [] ↔ s = [] := List.map_eq_nil_iff

theorem zero_notMem_untilNul (s : Bytes) : (0 : UInt8) ∉ untilNul s := fun h => by
  simpa using List.all_eq_true.1 (List.all_takeWhile (p := (· != 0)) (l := s)) 0 h

end Bytes

end Hypertext
