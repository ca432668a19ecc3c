import Hypertext.Entity
import Hypertext.Node.Census

/-! # Serializing trees

A serializer writes nodes to its sink in small chunks and keeps totals of all it was given to write,
whether or not the sink took it. Text is encoded; verbatim text and sentinels are not. Inside an
attribute value only verbatim text is exempt: an element or a sentinel there is first written on its own
and then encoded as a whole.
-/

namespace Hypertext

/-- Elements with void names have no close tag. The names are matched as they are with the lower-cased
name of an element, so one with a capital letter never matches. -/
structure Layout where
  lineBreaks : Bool := true
  newline : Bytes := [10]
  voidNames : List Bytes :=
    ["area", "base", "br", "col", "embed", "hr", "img", "input", "link", "meta", "param", "source",
      "track", "wbr"].map Bytes.ascii
  deriving DecidableEq

def Layout.isVoid (l : Layout) (name : Bytes) : Bool := l.voidNames.contains name

structure Totals extends Census where
  bytes : Nat := 0
  deriving DecidableEq

structure Serializer where
  layout : Layout := {}
  sink : Sink := {}
  totals : Totals := {}

namespace Serializer

/-- The bytes of a chunk are counted even if they are lost. -/
def put (w : Serializer) (chunk : Bytes) : Serializer :=
  { w with
    sink := w.sink.write chunk
    totals := { w.totals with bytes := w.totals.bytes + chunk.length } }

def putText (w : Serializer) (s : Bytes) : Serializer :=
  if Entity.needsEncoding s then w.put (Entity.encode s) else w.put s

def putLineBreak (w : Serializer) : Serializer :=
  if w.layout.lineBreaks then w.put w.layout.newline else w

def countNode (w : Serializer) : Serializer :=
  { w with totals := { w.totals with nodes := w.totals.nodes + 1 } }

def countElement (w : Serializer) : Serializer :=
  { w with totals := { w.totals with elements := w.totals.elements + 1 } }

mutual

def write : Serializer → Node → Serializer
  | w, .character b => w.countNode.putText [b]
  | w, .text s => w.countNode.putText s
  | w, .verbatim s => w.countNode.put s
  | w, .scalar v => w.countNode.putText v.text
  | w, .sentinel _ literal => w.countNode.put literal
  | w, .sequence members => w.countNode.writeAll members
  | w, .element e => w.countNode.writeElement e

def writeAll : Serializer → List Node → Serializer
  | w, [] => w
  | w, n :: ns => (w.write n).writeAll ns

def writeElement : Serializer → Element Node → Serializer
  | w, ⟨name, attributes, children, _⟩ =>
    let tag := Bytes.lower name
    let opened := (((w.countElement.put [60]).put tag).writeAttributes attributes).put [62]
    let filled := opened.putLineBreak.writeAll children
    if filled.layout.isVoid tag then filled
    else (((filled.put [60, 47]).put tag).put [62]).putLineBreak

def writeAttributes : Serializer → List (Attribute Node) → Serializer
  | w, [] => w
  | w, a :: rest => (w.writeAttribute a).writeAttributes rest

/-- A flag that is on has the lower-cased name of its attribute as its text. -/
def writeAttribute : Serializer → Attribute Node → Serializer
  | w, ⟨_, .flag false⟩ => w
  | w, ⟨name, .flag true⟩ =>
    ((((w.put [32]).put (Bytes.lower name)).put [61, 34]).putText (Bytes.lower name)).put [34]
  | w, ⟨name, .content value⟩ =>
    ((((w.put [32]).put (Bytes.lower name)).put [61, 34]).writeValue value).put [34]

def writeValue : Serializer → Node → Serializer
  | w, .character b => w.putText [b]
  | w, .text s => w.putText s
  | w, .verbatim s => w.put s
  | w, .scalar v => w.putText v.text
  | w, .sentinel _ literal => w.putText literal
  | w, .sequence members => w.writeValues members
  | w, .element e =>
    w.putText (countNode { layout := w.layout } |>.writeElement e).sink.contents

def writeValues : Serializer → List Node → Serializer
  | w, [] => w
  | w, n :: ns => (w.writeValue n).writeValues ns

end

theorem putText_eq (w : Serializer) (s : Bytes) : w.putText s = w.put (Entity.encode s) := by
  unfold putText
  split
  · rfl
  · rename_i h
    rw [Entity.encode_eq_self_of_needsEncoding_eq_false (by simpa using h)]

end Serializer

end Hypertext
