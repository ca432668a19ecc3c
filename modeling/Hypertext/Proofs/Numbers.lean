import Hypertext.Proofs.FloatingPoint
import Hypertext.Proofs.Simplification
import Hypertext.Proofs.Token

/-!
# Printed numbers in markup

Whole numbers are printed as their canonical numerals, and no text of a number, of any type, has a byte that
is encoded. So each number stands in markup as it is printed, between tags and between quotes
(`numbers_print_verbatim`).
-/

namespace Hypertext

/-- What is printed as a number. A character is printed as the number of its signed byte. -/
inductive Numeric | number (n : Number) | character (byte : UInt8)

namespace Numeric

def scalar : Numeric → Scalar
  | number n => .ofNumber n
  | character b => .ofCharacter b

/-- The upper half of the bytes is negative. -/
def toInt? : Numeric → Option ℤ
  | number n => n.toInt?
  | character b => some (if b.toNat < 128 then b.toNat else b.toNat - 256)

end Numeric

theorem toInt_toInt8 (b : UInt8) :
    b.toInt8.toInt = if b.toNat < 128 then (b.toNat : ℤ) else b.toNat - 256 := by
  have bits : b.toInt8.toInt = b.toBitVec.toInt := rfl
  rw [bits, BitVec.toInt_eq_toNat_cond, UInt8.toNat_toBitVec]
  split_ifs <;> omega

theorem Numeric.text_of_toInt? {u : Numeric} {i : ℤ} (h : u.toInt? = some i) :
    u.scalar.text = Numeral.integer i := by
  cases u with
  | number n => exact Number.text_of_toInt? h
  | character b =>
    obtain rfl := Option.some.inj h
    rw [← toInt_toInt8]
    rfl

namespace Numeral

/-- The bytes of which numbers are written. -/
def IsNumberByte (b : UInt8) : Prop := isDigit b = true ∨ b ∈ Bytes.ascii "+-.eafin"

theorem IsNumberByte.plain {b : UInt8} (h : IsNumberByte b) : Entity.replacement? b = none := by
  rcases h with digit | other
  · rw [Entity.replacement?_eq_none_iff]
    refine ⟨?_, ?_, ?_, ?_⟩ <;>
    · rintro rfl
      contradiction
  · have all : ∀ b ∈ Bytes.ascii "+-.eafin", Entity.replacement? b = none := by decide +kernel
    exact all b other

theorem isNumberByte_of_mem_integer {i : ℤ} {b : UInt8} (h : b ∈ integer i) : IsNumberByte b := by
  cases i with
  | ofNat n => exact .inl (isDigit_of_mem_natural h)
  | negSucc n =>
    rcases List.mem_cons.1 h with rfl | h
    · exact .inr (by decide)
    · exact .inl (isDigit_of_mem_natural h)

theorem isNumberByte_of_mem_sign {negative : Bool} {b : UInt8} (h : b ∈ Literal.sign negative) :
    IsNumberByte b := by
  cases negative with
  | false => cases h
  | true => exact .inr (by rw [List.mem_singleton.1 h]; decide)

theorem Literal.isNumberByte_of_mem_text {l : Literal} (wellFormed : l.WellFormed) {b : UInt8}
    (h : b ∈ l.text) : IsNumberByte b := by
  obtain ⟨negative, whole, fraction?, exponent?⟩ := l
  simp only [text, List.mem_append] at h
  rcases h with ((h | h) | h) | h
  · exact isNumberByte_of_mem_sign h
  · exact .inl (wellFormed.whole b h)
  · cases fraction? with
    | none => cases h
    | some digits =>
      rcases List.mem_cons.1 h with rfl | h
      · exact .inr (by decide)
      · exact .inl (wellFormed.fraction digits rfl b h)
  · cases exponent? with
    | none => cases h
    | some exponent =>
      obtain ⟨below, digits⟩ := exponent
      rcases List.mem_cons.1 h with rfl | h
      · exact .inr (by decide)
      rcases List.mem_cons.1 h with rfl | h
      · exact .inr (by cases below <;> decide)
      · exact .inl ((wellFormed.exponent below digits rfl).2 b h)

theorem BinaryFormat.isNumberByte_of_mem_text {f : BinaryFormat} {bits : ℕ} {b : UInt8}
    (h : b ∈ f.text bits) : IsNumberByte b := by
  rw [text, ← Literal.sign, List.mem_append] at h
  rcases h with h | h
  · exact isNumberByte_of_mem_sign h
  cases magnitude : (f.decode bits).magnitude with
  | finite units =>
    rw [magnitude, Magnitude.text] at h
    have normal := Rounded.normal_ofFixed (Fixed.ofUnits units f.scale)
    refine Literal.isNumberByte_of_mem_text (Rounded.wellFormed_literal normal false) ?_
    rw [Rounded.text_literal]
    exact List.mem_append_right _ h
  | infinite =>
    have letters : ∀ b ∈ Bytes.ascii "inf", b ∈ Bytes.ascii "+-.eafin" := by decide +kernel
    exact .inr (letters b (by rwa [magnitude] at h))
  | nan =>
    have letters : ∀ b ∈ Bytes.ascii "nan", b ∈ Bytes.ascii "+-.eafin" := by decide +kernel
    exact .inr (letters b (by rwa [magnitude] at h))

end Numeral

open Numeral

theorem Numeric.isNumberByte_of_mem_text {u : Numeric} {b : UInt8} (h : b ∈ u.scalar.text) :
    IsNumberByte b := by
  cases whole : u.toInt? with
  | some i =>
    rw [Numeric.text_of_toInt? whole] at h
    exact isNumberByte_of_mem_integer h
  | none =>
    obtain n | c := u
    · cases n with
      | float32 bits => exact BinaryFormat.isNumberByte_of_mem_text h
      | float64 bits => exact BinaryFormat.isNumberByte_of_mem_text h
      | _ => cases whole
    · cases whole

/-! ## Plain text in markup -/

theorem render_fill_singleton (l : Layout) (c : Context) (n : Node) :
    render l (c.fill [n]) = c.opened l ++ Markup.ofNode l n ++ c.closed l := by
  rw [render_eq, c.ofNodes_fill, ← render_eq, render_singleton]

/-- What stands around some attributes of an element does not depend on them. -/
theorem exists_render_attributes (l : Layout) (c : Context) (e : Element Node)
    (before after : List (Attribute Node)) :
    ∃ opened closed, ∀ as, render l (c.fill [.element { e with attributes := before ++ (as ++ after) }]) =
      opened ++ Markup.ofAttributes l as ++ closed := by
  let tag := Bytes.lower e.name
  refine ⟨c.opened l ++ 60 :: tag ++ Markup.ofAttributes l before,
    Markup.ofAttributes l after ++ 62 :: l.lineEnd ++ Markup.ofNodes l e.children ++
      Markup.closeTag l tag ++ c.closed l, fun as => ?_⟩
  rw [render_fill_singleton, Markup.ofNode, Markup.ofElement, Markup.ofAttributes_append,
    Markup.ofAttributes_append]
  simp only [List.cons_append, List.append_assoc, tag]

namespace Scalar

/-- Written as it stands, whatever the surroundings and the layout. -/
structure Verbatim (v : Scalar) : Prop where
  write (w : Serializer) : w.write (.scalar v) = w.countNode.put v.text
  bytes_write (w : Serializer) : (w.write (.scalar v)).totals.bytes = w.totals.bytes + v.text.length
  writeValue (w : Serializer) : w.writeValue (.scalar v) = w.put v.text
  writeAttribute (w : Serializer) (name : Bytes) :
    w.writeAttribute ⟨name, .ofNode (.scalar v)⟩ =
      w.put (32 :: Bytes.lower name ++ [61, 34] ++ v.text ++ [34])
  bytes_writeAttribute (w : Serializer) (name : Bytes) :
    (w.writeAttribute ⟨name, .ofNode (.scalar v)⟩).totals.bytes =
      w.totals.bytes + (name.length + v.text.length + 4)
  render_child (l : Layout) (c : Context) :
    render l (c.fill [.scalar v]) = c.opened l ++ v.text ++ c.closed l
  render_attribute (l : Layout) (c : Context) (e : Element Node) (before after : List (Attribute Node)) :
    ∃ opened closed,
      render l (c.fill [.element { e with attributes := before ++ after }]) = opened ++ closed ∧
      ∀ name, render l
          (c.fill [.element { e with attributes := before ++ ⟨name, .ofNode (.scalar v)⟩ :: after }]) =
        opened ++ (32 :: Bytes.lower name ++ [61, 34] ++ v.text ++ [34]) ++ closed

variable {v : Scalar} (data : v.truth? = none) (plain : ∀ b ∈ v.text, Entity.replacement? b = none)

include plain in
theorem write_of_plain (w : Serializer) : w.write (.scalar v) = w.countNode.put v.text := by
  rw [Serializer.write, Serializer.putText_eq, Entity.encode_of_plain plain]

include data plain

/-- A scalar that is no truth value is no flag. -/
theorem ofAttribute_of_plain (l : Layout) (name : Bytes) :
    Markup.ofAttribute l ⟨name, .ofNode (.scalar v)⟩ =
      32 :: Bytes.lower name ++ [61, 34] ++ v.text ++ [34] := by
  have content : AttributeValue.ofNode (.scalar v) = .content (.scalar v) := by
    rw [AttributeValue.ofNode, Node.truth?, data]
  rw [content, Markup.ofAttribute, Markup.ofValue, Entity.encode_of_plain plain, Markup.assignment]
  simp

theorem writeAttribute_of_plain (w : Serializer) (name : Bytes) :
    w.writeAttribute ⟨name, .ofNode (.scalar v)⟩ =
      w.put (32 :: Bytes.lower name ++ [61, 34] ++ v.text ++ [34]) := by
  rw [w.writeAttribute_eq, ofAttribute_of_plain data plain, Serializer.put_eq]

theorem verbatim_of_plain : v.Verbatim where
  write := write_of_plain plain
  bytes_write w := by
    rw [write_of_plain plain]
    rfl
  writeValue w := by rw [Serializer.writeValue, Serializer.putText_eq, Entity.encode_of_plain plain]
  writeAttribute := writeAttribute_of_plain data plain
  bytes_writeAttribute w name := by
    rw [writeAttribute_of_plain data plain, Serializer.put]
    simp
    omega
  render_child l c := by rw [render_fill_singleton, Markup.ofNode, Entity.encode_of_plain plain]
  render_attribute l c e before after := by
    obtain ⟨opened, closed, around⟩ := exists_render_attributes l c e before after
    refine ⟨opened, closed, ?_, fun name => ?_⟩
    · simpa [Markup.ofAttributes] using around []
    · have one := around [⟨name, .ofNode (.scalar v)⟩]
      rwa [Markup.ofAttributes, Markup.ofAttributes, ofAttribute_of_plain data plain, List.append_nil,
        List.singleton_append] at one

end Scalar

/-- A whole number is printed as its one canonical numeral, so two of them are never printed alike. No byte of
a number is encoded, also of one that is not finite, and so its text stands in markup as it is. -/
theorem numbers_print_verbatim (u : Numeric) :
    (∀ i, u.toInt? = some i → IsCanonical u.scalar.text ∧ integer? u.scalar.text = some i ∧
      (u.scalar.text.head? = some 45 ↔ i < 0) ∧ (i = 0 → u.scalar.text = [48]) ∧
      (∀ s, IsCanonical s → integer? s = some i → s = u.scalar.text) ∧
      ∀ (m : Numeric) (j : ℤ), m.toInt? = some j → m.scalar.text = u.scalar.text → j = i) ∧
    (∀ b ∈ u.scalar.text, Entity.replacement? b = none) ∧ u.scalar.Verbatim := by
  have plain : ∀ b ∈ u.scalar.text, Entity.replacement? b = none :=
    fun b h => (Numeric.isNumberByte_of_mem_text h).plain
  refine ⟨fun i whole => ?_, plain, ?_⟩
  · obtain ⟨canonical, -, onto⟩ := integer_bijOn_canonical
    rw [Numeric.text_of_toInt? whole]
    refine ⟨canonical (Set.mem_univ i), integer?_integer i, head?_integer i, ?_, fun s shape read => ?_,
      fun m j other same => ?_⟩
    · rintro rfl
      rfl
    · obtain ⟨j, -, rfl⟩ := onto shape
      rw [integer?_integer] at read
      rw [Option.some.inj read]
    · rw [Numeric.text_of_toInt? other] at same
      exact integer_injective same
  · have data : u.scalar.truth? = none := by cases u <;> rfl
    exact Scalar.verbatim_of_plain data plain

theorem numbers_print_verbatim_signed :
    (Numeric.character 128).toInt? = some (-128) ∧
      (Numeric.character 128).scalar.text = Bytes.ascii "-128" ∧
      IsCanonical (Bytes.ascii "-128") ∧ integer? (Bytes.ascii "-128") = some (-128) ∧
      (Numeric.number (.float64 0xFFF0000000000000)).scalar.text = Bytes.ascii "-inf" ∧
      ∀ w : Serializer, w.writeAttribute
        ⟨Bytes.ascii "Min", .ofNode (.scalar (Numeric.number (.float64 0xFFF0000000000000)).scalar)⟩ =
          w.put (Bytes.ascii " min=\"-inf\"") := by
  obtain ⟨canonical, read, -⟩ := (numbers_print_verbatim (.character 128)).1 (-128) (by decide)
  have written := (numbers_print_verbatim (.number (.float64 0xFFF0000000000000))).2.2
  have low : (Numeric.character 128).scalar.text = Bytes.ascii "-128" := by decide
  rw [low] at canonical read
  have infinite : (Numeric.number (.float64 0xFFF0000000000000)).scalar.text = Bytes.ascii "-inf" := by
    decide +kernel
  refine ⟨by decide, low, canonical, read, infinite, fun w => ?_⟩
  rw [written.writeAttribute, infinite]
  rfl

end Hypertext
