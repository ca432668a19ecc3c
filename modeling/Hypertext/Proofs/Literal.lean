import Hypertext.Proofs.Digits
import Mathlib.Data.List.DropRight
import Mathlib.Algebra.Order.Field.Rat

/-!
# Decimal literals

A literal has a sign, whole digits, and perhaps a fraction and an exponent. It is read from its text alone,
with every part as it stands there (`Literal.read?_text`), and its value is an exact rational number.
-/

namespace Hypertext.Numeral

def signed (negative : Bool) (x : ℚ) : ℚ := if negative then -x else x

@[simp] theorem abs_signed (negative : Bool) (x : ℚ) : |signed negative x| = |x| := by
  cases negative <;> simp [signed]

theorem signed_injective (negative : Bool) : Function.Injective (signed negative) := by
  cases negative with
  | false => exact Function.injective_id
  | true => exact neg_injective

structure Literal where
  negative : Bool
  whole : Bytes
  /-- The digits behind the point, if there is a point. -/
  fraction? : Option Bytes
  /-- Whether the exponent is negative, and its digits. -/
  exponent? : Option (Bool × Bytes)
  deriving DecidableEq

namespace Literal

def sign (negative : Bool) : Bytes := if negative then [45] else []

def fractionText : Option Bytes → Bytes
  | none => []
  | some digits => 46 :: digits

def exponentText : Option (Bool × Bytes) → Bytes
  | none => []
  | some (negative, digits) => 101 :: (if negative then 45 else 43) :: digits

def text (l : Literal) : Bytes :=
  sign l.negative ++ l.whole ++ fractionText l.fraction? ++ exponentText l.exponent?

def exponentValue : Option (Bool × Bytes) → ℤ
  | none => 0
  | some (negative, digits) => if negative then -valueOf digits else valueOf digits

/-- The digits behind the point are tenths, hundredths and so on. -/
def value (l : Literal) : ℚ :=
  let fraction := l.fraction?.getD []
  signed l.negative
    (valueOf (l.whole ++ fraction) * 10 ^ (exponentValue l.exponent? - fraction.length))

/-! ## Reading -/

def readSign : Bytes → Bool × Bytes
  | 45 :: s => (true, s)
  | s => (false, s)

def readFraction : Bytes → Option Bytes × Bytes
  | 46 :: s => (some (s.takeWhile isDigit), s.dropWhile isDigit)
  | s => (none, s)

/-- An exponent has a sign and ends the text. -/
def readExponent? : Bytes → Option (Option (Bool × Bytes))
  | [] => some none
  | 101 :: b :: digits =>
    if (b = 43 ∨ b = 45) ∧ digits ≠ [] ∧ digits.all isDigit then some (some (b == 45, digits)) else none
  | _ => none

def read? (s : Bytes) : Option Literal :=
  let (negative, s) := readSign s
  let whole := s.takeWhile isDigit
  let (fraction?, s) := readFraction (s.dropWhile isDigit)
  if whole = [] then none else (readExponent? s).map (⟨negative, whole, fraction?, ·⟩)

/-- The parts are digits where they have to be. -/
structure WellFormed (l : Literal) : Prop where
  whole_ne_nil : l.whole ≠ []
  whole : ∀ b ∈ l.whole, isDigit b = true
  fraction : ∀ digits, l.fraction? = some digits → ∀ b ∈ digits, isDigit b = true
  exponent : ∀ negative digits, l.exponent? = some (negative, digits) →
    digits ≠ [] ∧ ∀ b ∈ digits, isDigit b = true

theorem span_append {s t : Bytes} (digits : ∀ b ∈ s, isDigit b = true)
    (stop : ∀ b ∈ t.head?, isDigit b = false) :
    (s ++ t).takeWhile isDigit = s ∧ (s ++ t).dropWhile isDigit = t := by
  rw [List.takeWhile_append_of_pos digits, List.dropWhile_append_of_pos digits]
  cases t with
  | nil => simp
  | cons b t =>
    have := stop b rfl
    simp [this]

theorem stop_exponentText (exponent? : Option (Bool × Bytes)) :
    ∀ b ∈ (exponentText exponent?).head?, isDigit b = false := by
  cases exponent? with
  | none => nofun
  | some exponent =>
    rintro b ⟨⟩
    decide

theorem stop_fractionText (fraction? : Option Bytes) {s : Bytes} (stop : ∀ b ∈ s.head?, isDigit b = false) :
    ∀ b ∈ (fractionText fraction? ++ s).head?, isDigit b = false := by
  cases fraction? with
  | none => exact stop
  | some digits =>
    rintro b ⟨⟩
    decide

theorem readSign_append (negative : Bool) {s : Bytes} (unsigned : ∀ t, s ≠ 45 :: t) :
    readSign (sign negative ++ s) = (negative, s) := by
  cases negative with
  | true => rfl
  | false =>
    rw [sign, if_neg (by decide), List.nil_append, readSign]
    exact unsigned

theorem readFraction_append {fraction? : Option Bytes}
    (digits : ∀ s, fraction? = some s → ∀ b ∈ s, isDigit b = true) (exponent? : Option (Bool × Bytes)) :
    readFraction (fractionText fraction? ++ exponentText exponent?) =
      (fraction?, exponentText exponent?) := by
  cases fraction? with
  | none =>
    cases exponent? <;> rfl
  | some s =>
    obtain ⟨taken, dropped⟩ := span_append (digits s rfl) (stop_exponentText exponent?)
    rw [fractionText, List.cons_append, readFraction, taken, dropped]

theorem readExponent?_exponentText {exponent? : Option (Bool × Bytes)}
    (digits : ∀ negative s, exponent? = some (negative, s) → s ≠ [] ∧ ∀ b ∈ s, isDigit b = true) :
    readExponent? (exponentText exponent?) = some exponent? := by
  cases exponent? with
  | none => rfl
  | some exponent =>
    obtain ⟨negative, s⟩ := exponent
    obtain ⟨some, all⟩ := digits negative s rfl
    have all : s.all isDigit = true := List.all_eq_true.2 all
    cases negative <;> simp [exponentText, readExponent?, some, all]

theorem read?_text {l : Literal} (h : l.WellFormed) : read? l.text = some l := by
  obtain ⟨negative, whole, fraction?, exponent?⟩ := l
  have unsigned (s : Bytes) : ∀ t, whole ++ s ≠ 45 :: t := by
    obtain ⟨b, rest, rfl⟩ := List.exists_cons_of_ne_nil h.whole_ne_nil
    rintro t ⟨⟩
    have := h.whole 45 List.mem_cons_self
    contradiction
  obtain ⟨taken, dropped⟩ := span_append h.whole
    (stop_fractionText fraction? (stop_exponentText exponent?))
  rw [text, List.append_assoc, List.append_assoc, read?, readSign_append negative (unsigned _)]
  simp only [taken, dropped, readFraction_append h.fraction, if_neg h.whole_ne_nil,
    readExponent?_exponentText h.exponent, Option.map_some]

end Literal

end Hypertext.Numeral
