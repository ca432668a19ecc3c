import Hypertext.Numeral.General
import Mathlib.Data.Set.Function
import Mathlib.Algebra.Order.Ring.Nat
import Mathlib.Tactic.Linarith
import Mathlib.Tactic.Ring

/-!
# Digit strings

A number has one numeral without a leading zero, the one that is written for it
(`Numeral.integer_bijOn_canonical`), and as many digits as it takes (`Numeral.pow_digitCount_le`,
`Numeral.lt_pow_digitCount`).
-/

namespace Hypertext.Numeral

theorem valueOf_append (s t : Bytes) : valueOf (s ++ t) = valueOf s * 10 ^ t.length + valueOf t := by
  have shifted (n : ℕ) : t.foldl (fun n b => 10 * n + (b.toNat - 48)) n =
      n * 10 ^ t.length + valueOf t := by
    induction t generalizing n with
    | nil => simp [valueOf]
    | cons b t ih =>
      rw [valueOf, List.foldl_cons, List.foldl_cons, ih, ih (10 * 0 + _), List.length_cons, pow_succ]
      ring
  rw [valueOf, List.foldl_append]
  exact shifted (valueOf s)

theorem valueOf_cons (b : UInt8) (s : Bytes) :
    valueOf (b :: s) = (b.toNat - 48) * 10 ^ s.length + valueOf s := by
  rw [← List.singleton_append, valueOf_append]
  simp [valueOf]

@[simp] theorem valueOf_zeros_append (n : ℕ) (s : Bytes) :
    valueOf (List.replicate n 48 ++ s) = valueOf s := by
  induction n with
  | zero => rfl
  | succ n ih => simp [List.replicate_succ, valueOf_cons, ih]

theorem valueOf_append_zeros (s : Bytes) (n : ℕ) :
    valueOf (s ++ List.replicate n 48) = valueOf s * 10 ^ n := by
  rw [valueOf_append, List.length_replicate, ← List.append_nil (List.replicate n 48),
    valueOf_zeros_append]
  rfl

theorem valueOf_lt_pow {s : Bytes} (digits : ∀ b ∈ s, isDigit b = true) : valueOf s < 10 ^ s.length := by
  induction s with
  | nil => decide
  | cons b s ih =>
    obtain ⟨first, others⟩ := List.forall_mem_cons.1 digits
    have small : b.toNat - 48 ≤ 9 := by
      simp only [isDigit, Bool.and_eq_true, decide_eq_true_eq, UInt8.le_iff_toNat_le,
        UInt8.reduceToNat] at first
      omega
    have := ih others
    rw [valueOf_cons, List.length_cons, pow_succ]
    nlinarith [Nat.mul_le_mul_right (10 ^ s.length) small]

theorem pow_le_valueOf {b : UInt8} {s : Bytes} (digit : isDigit b = true) (nonzero : b ≠ 48) :
    10 ^ s.length ≤ valueOf (b :: s) := by
  have positive : 1 ≤ b.toNat - 48 := by
    have : b.toNat ≠ 48 := fun same => nonzero (UInt8.toNat_inj.1 same)
    simp only [isDigit, Bool.and_eq_true, decide_eq_true_eq, UInt8.le_iff_toNat_le,
      UInt8.reduceToNat] at digit
    omega
  rw [valueOf_cons]
  nlinarith [Nat.mul_le_mul_right (10 ^ s.length) positive]

theorem eq_of_valueOf_eq {s t : Bytes} (hs : ∀ b ∈ s, isDigit b = true)
    (ht : ∀ b ∈ t, isDigit b = true) (length : s.length = t.length) (value : valueOf s = valueOf t) :
    s = t := by
  induction s generalizing t with
  | nil => exact (List.eq_nil_of_length_eq_zero length.symm).symm
  | cons b s ih =>
    cases t with
    | nil => cases length
    | cons c t =>
      obtain ⟨digitB, restS⟩ := List.forall_mem_cons.1 hs
      obtain ⟨digitC, restT⟩ := List.forall_mem_cons.1 ht
      have same : s.length = t.length := Nat.succ.inj length
      have scale : 0 < 10 ^ s.length := by positivity
      -- The weight of the first digit divides both values into that digit and the rest.
      have split {d : UInt8} {r : Bytes} (small : valueOf r < 10 ^ s.length) (size : s.length = r.length) :
          valueOf (d :: r) / 10 ^ s.length = d.toNat - 48 ∧ valueOf (d :: r) % 10 ^ s.length = valueOf r :=
        (Nat.div_mod_unique scale).2 ⟨by rw [valueOf_cons, size]; ring, small⟩
      have atB := split (d := b) (valueOf_lt_pow restS) rfl
      have atC := split (d := c) (same ▸ valueOf_lt_pow restT) same
      rw [value] at atB
      have first : b = c := by
        have digits := atB.1.symm.trans atC.1
        simp only [isDigit, Bool.and_eq_true, decide_eq_true_eq, UInt8.le_iff_toNat_le,
          UInt8.reduceToNat] at digitB digitC
        exact UInt8.toNat_inj.1 (by omega)
      rw [first, ih restS restT same (atB.2.symm.trans atC.2)]

theorem length_natural (n : ℕ) : (natural n).length = digitCount n := rfl

theorem digitCount_pos (n : ℕ) : 0 < digitCount n := List.length_pos_iff.2 (natural_ne_nil n)

theorem lt_pow_digitCount (n : ℕ) : n < 10 ^ digitCount n := by
  rw [digitCount, natural, List.length_map,
    ← Nat.length_toDigits_le_iff (by norm_num) Nat.length_toDigits_pos]

theorem pow_digitCount_le {n : ℕ} (pos : 0 < n) : 10 ^ (digitCount n - 1) ≤ n := by
  by_contra! less
  obtain one | more : digitCount n = 1 ∨ 0 < digitCount n - 1 := by
    have := digitCount_pos n
    omega
  · simp [one] at less
    omega
  · rw [← Nat.length_toDigits_le_iff (by norm_num) more] at less
    rw [digitCount, natural, List.length_map] at less more
    omega

/-- Digits, of which a zero is the first only if it is the only one. -/
structure IsNumeral (s : Bytes) : Prop where
  ne_nil : s ≠ []
  digits : ∀ b ∈ s, isDigit b = true
  lead : s.head? = some 48 → s = [48]

theorem isNumeral_natural (n : ℕ) : IsNumeral (natural n) where
  ne_nil := natural_ne_nil n
  digits _ := isDigit_of_mem_natural
  lead h := by
    obtain ⟨t, eq⟩ := List.head?_eq_some_iff.1 h
    -- Behind a zero there are too few digits left for a number of so many.
    have count : digitCount n = t.length + 1 := by rw [← length_natural, eq, List.length_cons]
    have small : n < 10 ^ t.length := by
      rw [← valueOf_natural n, eq, valueOf_cons]
      simpa using valueOf_lt_pow fun b hb =>
        isDigit_of_mem_natural (n := n) (eq ▸ List.mem_cons_of_mem _ hb)
    rcases Nat.eq_zero_or_pos n with rfl | pos
    · rfl
    · have := pow_digitCount_le pos
      rw [count] at this
      exact absurd small this.not_gt

theorem natural_valueOf {s : Bytes} (h : IsNumeral s) : natural (valueOf s) = s := by
  obtain ⟨b, t, rfl⟩ := List.exists_cons_of_ne_nil h.ne_nil
  by_cases zero : b = 48
  · subst zero
    rw [h.lead rfl]
    rfl
  · have low := pow_le_valueOf (s := t) (h.digits b List.mem_cons_self) zero
    have high := valueOf_lt_pow h.digits
    have atLeast := pow_digitCount_le (lt_of_lt_of_le (by positivity) low)
    have below := lt_pow_digitCount (valueOf (b :: t))
    have count : digitCount (valueOf (b :: t)) = t.length + 1 := by
      have one := (Nat.pow_lt_pow_iff_right (by norm_num)).1 (lt_of_le_of_lt low below)
      have other := (Nat.pow_lt_pow_iff_right (by norm_num)).1 (lt_of_le_of_lt atLeast high)
      rw [List.length_cons] at other
      omega
    exact eq_of_valueOf_eq (fun _ => isDigit_of_mem_natural) h.digits count (valueOf_natural _)

theorem head?_integer (i : ℤ) : (integer i).head? = some 45 ↔ i < 0 := by
  cases i with
  | negSucc n => exact iff_of_true rfl (Int.negSucc_lt_zero n)
  | ofNat n =>
    refine iff_of_false (fun minus => ?_) (Int.natCast_nonneg n).not_gt
    have digit := isDigit_of_mem_natural (List.mem_of_mem_head? minus)
    contradiction

/-- A numeral, or a minus before a numeral other than zero. -/
inductive IsCanonical : Bytes → Prop
  | natural {s : Bytes} (numeral : IsNumeral s) : IsCanonical s
  | negative {s : Bytes} (numeral : IsNumeral s) (nonzero : s ≠ [48]) : IsCanonical (45 :: s)

theorem integer_bijOn_canonical : Set.BijOn integer Set.univ {s | IsCanonical s} := by
  refine ⟨fun i _ => ?_, fun i _ j _ => integer_injective, fun s canonical => ?_⟩
  · cases i with
    | ofNat n => exact .natural (isNumeral_natural n)
    | negSucc n =>
      refine .negative (isNumeral_natural (n + 1)) fun zero => ?_
      have := valueOf_natural (n + 1)
      rw [zero] at this
      cases this
  · cases canonical with
    | natural numeral => exact ⟨valueOf s, Set.mem_univ _, natural_valueOf numeral⟩
    | @negative t numeral nonzero =>
      obtain ⟨n, value⟩ : ∃ n, valueOf t = n + 1 := Nat.exists_eq_succ_of_ne_zero fun zero =>
        nonzero (by rw [← natural_valueOf numeral, zero]; rfl)
      refine ⟨.negSucc n, Set.mem_univ _, ?_⟩
      rw [integer, ← value, natural_valueOf numeral]

end Hypertext.Numeral
