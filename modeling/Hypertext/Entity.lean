import Hypertext.Sink

/-! # Character entities

Four bytes have a written form of their own in text and in attribute values; every other byte stands
for itself. There are three ways to write a text: as a new text, byte by byte behind what a buffer
holds, and in runs to a sink. They agree.
-/

namespace Hypertext.Entity

def replacement? (b : UInt8) : Option Bytes :=
  if b = 60 then some (Bytes.ascii "&lt;")
  else if b = 62 then some (Bytes.ascii "&gt;")
  else if b = 38 then some (Bytes.ascii "&amp;")
  else if b = 34 then some (Bytes.ascii "&quot;")
  else none

def encodeByte (b : UInt8) : Bytes := (replacement? b).getD [b]

def encode (s : Bytes) : Bytes := s.flatMap encodeByte

def needsEncoding (s : Bytes) : Bool := s.any fun b => (replacement? b).isSome

/-- Writes byte by byte behind what the buffer holds. -/
def appendTo (buffer : Array UInt8) (s : Bytes) : Array UInt8 :=
  s.foldl (fun buffer b => match replacement? b with
    | none => buffer.push b
    | some entity => buffer ++ entity) buffer

/-- A part of the written form: a run of the text itself, by its bounds, or an entity. -/
inductive Segment | run (start stop : Nat) | entity (written : Bytes) deriving DecidableEq

def Segment.bytes (text : Bytes) : Segment → Bytes
  | run start stop => (text.drop start).take (stop - start)
  | entity written => written

/-- Cuts the rest of a text, which begins at `here`, where the open run began at `start`. -/
def segmentsFrom (start here : Nat) : Bytes → List Segment
  | [] => [.run start here]
  | b :: rest => match replacement? b with
    | none => segmentsFrom start (here + 1) rest
    | some entity => .run start here :: .entity entity :: segmentsFrom (here + 1) (here + 1) rest

def segments (s : Bytes) : List Segment := segmentsFrom 0 0 s

/-- Copies the runs between the entities in one piece each. -/
def writeTo (sink : Sink) (s : Bytes) : Sink := sink.writeAll ((segments s).map (Segment.bytes s))

@[simp] theorem encode_nil : encode [] = [] := rfl

@[simp] theorem encode_cons (b : UInt8) (s : Bytes) : encode (b :: s) = encodeByte b ++ encode s := rfl

@[simp] theorem encode_append (s t : Bytes) : encode (s ++ t) = encode s ++ encode t :=
  List.flatMap_append

theorem encodeByte_of_replacement?_eq_none {b : UInt8} (h : replacement? b = none) :
    encodeByte b = [b] := by
  simp [encodeByte, h]

theorem encode_eq_self_of_needsEncoding_eq_false {s : Bytes} (h : needsEncoding s = false) :
    encode s = s := by
  induction s with
  | nil => rfl
  | cons b s ih =>
    simp only [needsEncoding, List.any_cons, Bool.or_eq_false_iff, Option.isSome_eq_false_iff,
      Option.isNone_iff_eq_none] at h
    rw [encode_cons, encodeByte_of_replacement?_eq_none h.1, ih h.2]
    rfl

theorem encode_of_plain {s : Bytes} (plain : ∀ b ∈ s, replacement? b = none) : encode s = s := by
  apply encode_eq_self_of_needsEncoding_eq_false
  rw [needsEncoding, List.any_eq_false]
  intro b hb
  rw [plain b hb]
  decide

theorem toList_appendTo (buffer : Array UInt8) (s : Bytes) :
    (appendTo buffer s).toList = buffer.toList ++ encode s := by
  unfold appendTo
  induction s generalizing buffer with
  | nil => simp
  | cons b s ih =>
    rw [List.foldl_cons, ih, encode_cons, encodeByte]
    cases replacement? b <;> simp

end Hypertext.Entity
