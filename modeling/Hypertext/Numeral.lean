import Hypertext.Bytes

/-! # Decimal numerals

Writing and reading whole numbers. Reading undoes writing, so no two numbers are written alike.
-/

namespace Hypertext.Numeral

def isDigit (b : UInt8) : Bool := 48 ≤ b && b ≤ 57

def natural (n : Nat) : Bytes := (Nat.toDigits 10 n).map Char.toUInt8

/-- A minus sign stands before a negative number, and no sign before any other. -/
def integer : Int → Bytes
  | .ofNat n => natural n
  | .negSucc n => 45 :: natural (n + 1)

def valueOf (digits : Bytes) : Nat := digits.foldl (fun n b => 10 * n + (b.toNat - 48)) 0

def natural? (s : Bytes) : Option Nat :=
  if s ≠ [] ∧ s.all isDigit then some (valueOf s) else none

def integer? : Bytes → Option Int
  | 45 :: s => (natural? s).map fun n => -(n : Int)
  | s => (natural? s).map Int.ofNat

theorem natural_ne_nil (n : Nat) : natural n ≠ [] := by
  simp [natural, Nat.toDigits_ne_nil]

private theorem toNat_toUInt8 {c : Char} (h : c.isDigit = true) :
    c.toUInt8.toNat = c.toNat ∧ 48 ≤ c.toNat ∧ c.toNat ≤ 57 := by
  simp only [Char.isDigit, Bool.and_eq_true, decide_eq_true_eq, ge_iff_le,
    UInt32.le_iff_toNat_le] at h
  have low : 48 ≤ c.toNat := h.1
  have high : c.toNat ≤ 57 := h.2
  refine ⟨?_, low, high⟩
  show c.toNat % 256 = c.toNat
  omega

theorem isDigit_of_mem_natural {n : Nat} {b : UInt8} (h : b ∈ natural n) : isDigit b = true := by
  obtain ⟨c, hc, rfl⟩ := List.mem_map.1 h
  obtain ⟨same, low, high⟩ := toNat_toUInt8 (Nat.isDigit_of_mem_toDigits (by omega) (by omega) hc)
  simp only [isDigit, Bool.and_eq_true, decide_eq_true_eq, UInt8.le_iff_toNat_le]
  simp only [same, UInt8.reduceToNat]
  omega

private theorem foldl_map_toUInt8 (cs : List Char) (h : ∀ c ∈ cs, c.isDigit = true) (n : Nat) :
    (cs.map Char.toUInt8).foldl (fun n b => 10 * n + (b.toNat - 48)) n =
      Nat.ofDigitChars 10 cs n := by
  induction cs generalizing n with
  | nil => rfl
  | cons c cs ih =>
    have hc := (toNat_toUInt8 (h c List.mem_cons_self)).1
    simpa [Nat.ofDigitChars_cons, hc] using
      ih (fun d hd => h d (List.mem_cons_of_mem _ hd)) (10 * n + (c.toNat - 48))

theorem valueOf_natural (n : Nat) : valueOf (natural n) = n := by
  rw [valueOf, natural, foldl_map_toUInt8 _ fun c hc =>
    Nat.isDigit_of_mem_toDigits (by omega) (by omega) hc]
  exact Nat.ofDigitChars_toDigits (by omega) (by omega)

@[simp] theorem natural?_natural (n : Nat) : natural? (natural n) = some n := by
  have digits : (natural n).all isDigit = true := List.all_eq_true.2 fun _ => isDigit_of_mem_natural
  simp [natural?, natural_ne_nil, digits, valueOf_natural]

private theorem natural_ne_minus_cons (n : Nat) (s : Bytes) : natural n ≠ 45 :: s := fun h => by
  have := isDigit_of_mem_natural (n := n) (b := 45) (by simp [h])
  simp [isDigit] at this

@[simp] theorem integer?_integer (i : Int) : integer? (integer i) = some i := by
  cases i with
  | negSucc n => simp [integer, integer?, Int.negSucc_eq]
  | ofNat n =>
    rw [integer, integer?]
    · simp
    · exact natural_ne_minus_cons n

theorem integer_injective {i j : Int} (h : integer i = integer j) : i = j := by
  have := congrArg integer? h
  simpa using this

end Hypertext.Numeral
