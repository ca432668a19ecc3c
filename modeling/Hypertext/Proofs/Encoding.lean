import Hypertext.Proofs.Quotation
import Mathlib.Data.Set.Function

/-!
# The language of encoded texts

An encoded text has no bracket or quote, and each ampersand in it begins an entity. All texts like that
are encoded texts, each of a single text, which is found by replacing the entities from left to right
(`Entity.encode_bijOn_written`). So a text is encoded once more unless it has nothing to encode.
-/

namespace Hypertext.Entity

def entities : List Bytes := ["&lt;", "&gt;", "&amp;", "&quot;"].map Bytes.ascii

theorem entities_eq : entities = [[38, 108, 116, 59], [38, 103, 116, 59], [38, 97, 109, 112, 59],
    [38, 113, 117, 111, 116, 59]] := by
  decide

/-- Every ampersand begins an entity, and there are no brackets and quotes. -/
structure Written (s : Bytes) : Prop where
  unmarked : s.Unmarked
  entity : ∀ rest, 38 :: rest <:+ s → ∃ entity ∈ entities, entity <+: 38 :: rest

/-- Replaces the entities from left to right, and keeps every other byte. -/
def resolve : Bytes → Bytes
  | [] => []
  | 38 :: 108 :: 116 :: 59 :: rest => 60 :: resolve rest
  | 38 :: 103 :: 116 :: 59 :: rest => 62 :: resolve rest
  | 38 :: 97 :: 109 :: 112 :: 59 :: rest => 38 :: resolve rest
  | 38 :: 113 :: 117 :: 111 :: 116 :: 59 :: rest => 34 :: resolve rest
  | b :: rest => b :: resolve rest

/-- Where nothing is refused, both ways of decoding do the same. -/
theorem resolve_of_decode {s t : Bytes} (h : decode s = some t) : resolve s = t := by
  fun_induction decode s generalizing t with
  | case1 => simpa [resolve] using h
  | case2 rest ih | case3 rest ih | case4 rest ih | case5 rest ih =>
    obtain ⟨u, hu, rfl⟩ := Option.map_eq_some_iff.1 h
    rw [resolve, ih hu]
  | case6 => cases h
  | case7 b rest _ _ _ _ _ ih =>
    obtain ⟨u, hu, rfl⟩ := Option.map_eq_some_iff.1 h
    rw [resolve, ih hu] <;> assumption

theorem eq_encode_of_decode {s t : Bytes} (h : decode s = some t) : s = encode t := by
  fun_induction decode s generalizing t with
  | case1 =>
    cases h
    rfl
  | case2 rest ih | case3 rest ih | case4 rest ih | case5 rest ih =>
    obtain ⟨u, hu, rfl⟩ := Option.map_eq_some_iff.1 h
    rw [encode_cons, ← ih hu]
    rfl
  | case6 => cases h
  | case7 b rest _ _ _ _ bare ih =>
    obtain ⟨u, hu, rfl⟩ := Option.map_eq_some_iff.1 h
    rw [encode_cons, ← ih hu, encodeByte_of_replacement?_eq_none (by simpa using bare)]
    rfl

theorem Written.of_suffix {s t : Bytes} (h : Written t) (behind : s <:+ t) : Written s where
  unmarked b hb := h.unmarked b (behind.mem hb)
  entity rest found := h.entity rest (found.trans behind)

theorem written_nil : Written [] where
  unmarked := nofun
  entity _ found := absurd (List.suffix_nil.1 found) (List.cons_ne_nil _ _)

theorem Written.cons {b : UInt8} {s : Bytes} (bare : b ≠ 60 ∧ b ≠ 62 ∧ b ≠ 34) (h : Written s)
    (starts : b = 38 → ∃ entity ∈ entities, entity <+: b :: s) : Written (b :: s) where
  unmarked := List.forall_mem_cons.2 ⟨bare, h.unmarked⟩
  entity rest found := by
    rcases List.suffix_cons_iff.1 found with same | found
    · obtain ⟨rfl, rfl⟩ := List.cons.inj same
      exact starts rfl
    · exact h.entity rest found

/-- What begins an entity is the ampersand alone. -/
theorem Written.append {letters s : Bytes} (h : Written s)
    (plain : ∀ b ∈ letters, b ≠ 60 ∧ b ≠ 62 ∧ b ≠ 38 ∧ b ≠ 34) : Written (letters ++ s) := by
  induction letters with
  | nil => exact h
  | cons b letters ih =>
    obtain ⟨⟨open', close, ampersand, quote⟩, others⟩ := List.forall_mem_cons.1 plain
    exact (ih others).cons ⟨open', close, quote⟩ fun same => absurd same ampersand

theorem Written.encodeByte_append (b : UInt8) {s : Bytes} (h : Written s) :
    Written (encodeByte b ++ s) := by
  cases written : replacement? b with
  | none =>
    rw [encodeByte_of_replacement?_eq_none written]
    exact h.append (by simpa using replacement?_eq_none_iff.1 written)
  | some entity =>
    obtain ⟨letters, eq, plain, listed⟩ : ∃ letters, entity = 38 :: letters ∧
        (∀ b ∈ letters, b ≠ 60 ∧ b ≠ 62 ∧ b ≠ 38 ∧ b ≠ 34) ∧ entity ∈ entities := by
      rcases of_replacement?_eq_some written with
        ⟨-, rfl⟩ | ⟨-, rfl⟩ | ⟨-, rfl⟩ | ⟨-, rfl⟩ <;> exact ⟨_, rfl, by simp, by decide⟩
    subst eq
    rw [encodeByte, written, Option.getD_some, List.cons_append]
    exact (h.append plain).cons (by simp) fun _ => ⟨_, listed, List.prefix_append _ _⟩

theorem written_encode (s : Bytes) : Written (encode s) := by
  induction s with
  | nil => exact written_nil
  | cons b s ih => exact ih.encodeByte_append b

/-- The strict decoder refuses nothing that is written. -/
theorem Written.isSome_decode {s : Bytes} (h : Written s) : (decode s).isSome = true := by
  fun_induction decode s with
  | case1 => rfl
  | case2 rest ih | case3 rest ih =>
    rw [Option.isSome_map]
    exact ih (h.of_suffix ⟨[_, _, _, _], rfl⟩)
  | case4 rest ih =>
    rw [Option.isSome_map]
    exact ih (h.of_suffix ⟨[_, _, _, _, _], rfl⟩)
  | case5 rest ih =>
    rw [Option.isSome_map]
    exact ih (h.of_suffix ⟨[_, _, _, _, _, _], rfl⟩)
  | case6 b rest lt gt amp quot special =>
    exfalso
    obtain ⟨hlt, hgt, hquot⟩ := h.unmarked b List.mem_cons_self
    have ampersand : b = 38 := by
      by_contra other
      rw [replacement?_eq_none_iff.2 ⟨hlt, hgt, other, hquot⟩] at special
      cases special
    subst ampersand
    obtain ⟨entity, listed, after, eq⟩ := h.entity rest (List.suffix_refl _)
    rw [entities_eq] at listed
    simp only [List.mem_cons, List.not_mem_nil, or_false] at listed
    rcases listed with rfl | rfl | rfl | rfl
    · exact lt after rfl (List.cons.inj eq).2.symm
    · exact gt after rfl (List.cons.inj eq).2.symm
    · exact amp after rfl (List.cons.inj eq).2.symm
    · exact quot after rfl (List.cons.inj eq).2.symm
  | case7 b rest _ _ _ _ _ ih =>
    rw [Option.isSome_map]
    exact ih (h.of_suffix (List.suffix_cons b rest))

theorem written_iff_isSome_decode {s : Bytes} : Written s ↔ (decode s).isSome = true := by
  refine ⟨Written.isSome_decode, fun h => ?_⟩
  obtain ⟨t, decoded⟩ := Option.isSome_iff_exists.1 h
  rw [eq_encode_of_decode decoded]
  exact written_encode t

instance : DecidablePred Written := fun _ => decidable_of_iff _ written_iff_isSome_decode.symm

theorem resolve_encode (t : Bytes) : resolve (encode t) = t := resolve_of_decode (decode_encode t)

theorem encode_resolve {s : Bytes} (h : Written s) : encode (resolve s) = s := by
  obtain ⟨t, decoded⟩ := Option.isSome_iff_exists.1 h.isSome_decode
  rw [resolve_of_decode decoded, ← eq_encode_of_decode decoded]

theorem encode_injective : Function.Injective encode := fun s t same => by
  rw [← resolve_encode s, same, resolve_encode]

/-- Each byte with an entity is written with two bytes more at least. -/
theorem length_add_countP_le (s : Bytes) :
    s.length + s.countP (fun b => (replacement? b).isSome) ≤ (encode s).length := by
  induction s with
  | nil => exact Nat.le_refl 0
  | cons b s ih =>
    have first : 1 + (if (replacement? b).isSome then 1 else 0) ≤ (encodeByte b).length := by
      cases written : replacement? b with
      | none => simp [encodeByte, written]
      | some entity =>
        rcases of_replacement?_eq_some written with
          ⟨-, rfl⟩ | ⟨-, rfl⟩ | ⟨-, rfl⟩ | ⟨-, rfl⟩ <;> simp [encodeByte, written]
    rw [List.length_cons, List.countP_cons, encode_cons, List.length_append]
    omega

theorem encode_eq_self_iff {s : Bytes} : encode s = s ↔ needsEncoding s = false := by
  refine ⟨fun same => ?_, encode_eq_self_of_needsEncoding_eq_false⟩
  have longer := length_add_countP_le s
  rw [same] at longer
  have none : s.countP (fun b => (replacement? b).isSome) = 0 := by omega
  rw [needsEncoding, List.any_eq_false]
  exact List.countP_eq_zero.1 none

/-- Encoding matches the texts one to one with the written texts, and replacing the entities undoes it.
A text that encoding changes is changed once more when it is encoded again. -/
theorem encode_bijOn_written :
    Set.BijOn encode Set.univ {s | Written s} ∧
      (∀ t, resolve (encode t) = t) ∧
      (∀ s, Written s → encode (resolve s) = s) ∧
      (∀ s t, encode (s ++ t) = encode s ++ encode t) ∧
      ∀ t, (needsEncoding t = false ↔ encode t = t) ∧
        (encode t = t ↔ encode (encode t) = encode t) := by
  refine ⟨⟨fun t _ => written_encode t, encode_injective.injOn, fun s h => ?_⟩, resolve_encode,
    fun _ => encode_resolve, encode_append, fun t => ⟨encode_eq_self_iff.symm, ?_⟩⟩
  · exact ⟨resolve s, Set.mem_univ _, encode_resolve h⟩
  · exact encode_injective.eq_iff.symm

/-- What looks like an entity behind an ampersand of its own is resolved once. -/
theorem encode_resolve_lookalike :
    let s := Bytes.ascii "&amp;lt;&amp;&quot;" ++ [0, 255]
    Written s ∧ resolve s = Bytes.ascii "&lt;&\"" ++ [0, 255] ∧ encode (resolve s) = s := by
  intro s
  have written : Written s := by decide
  exact ⟨written, by decide, encode_bijOn_written.2.2.1 s written⟩

end Hypertext.Entity
