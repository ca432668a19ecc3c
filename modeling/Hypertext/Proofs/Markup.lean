import Hypertext.Render
import Mathlib.Algebra.Group.Defs

/-!
# The markup of trees

What a serializer writes for a tree depends on its layout alone, and a sink cannot tell a chunk from
the same bytes in several chunks. So whatever is written, a serializer advances by a census and a text
(`Serializer.write_eq`), and a render is the markup of its nodes (`render_eq`).
-/

namespace Hypertext

namespace Sink

@[simp] theorem write_nil (s : Sink) : s.write [] = s := by
  rw [write]
  split
  · rfl
  · rename_i good
    have room : s.room [] = 0 := by
      rw [room]
      split
      · rfl
      · split <;> simp
    cases s
    simp_all

/-- Chunks leave no trace of where they were cut. -/
theorem write_append (s : Sink) (a b : Bytes) : s.write (a ++ b) = (s.write a).write b := by
  cases failed : s.failed with
  | true => simp only [write_of_failed failed]
  | false =>
    obtain ⟨capacity, _, stored⟩ := s
    subst failed
    cases capacity with
    | none =>
      simp only [write, room, Bool.false_eq_true, if_false, List.take_length, Nat.lt_irrefl,
        decide_false, Sink.mk.injEq, true_and]
      exact Array.ext' (by simp)
    | some capacity =>
      by_cases fits : a.length ≤ capacity - stored.size
      · have whole : min a.length (capacity - stored.size) = a.length := Nat.min_eq_left fits
        have rest : min (a.length + b.length) (capacity - stored.size) =
            a.length + min b.length (capacity - (stored.size + a.length)) := by omega
        have size : (stored ++ a).size = stored.size + a.length := by
          rw [← Array.length_toList, Array.toList_appendList, List.length_append, Array.length_toList]
        simp only [write, room, Bool.false_eq_true, if_false, List.length_append, whole, rest, size,
          List.take_length, Nat.lt_irrefl, decide_false, Nat.add_lt_add_iff_left, Sink.mk.injEq,
          true_and]
        exact Array.ext' (by simp [List.take_length_add_append])
      · have cut : min a.length (capacity - stored.size) = capacity - stored.size := by omega
        have cut' : min (a.length + b.length) (capacity - stored.size) = capacity - stored.size := by
          omega
        have short : capacity - stored.size < a.length := by omega
        have short' : capacity - stored.size < a.length + b.length := by omega
        have spent : capacity - stored.size - a.length = 0 := by omega
        simp only [write, room, Bool.false_eq_true, if_false, List.length_append, cut, cut', short,
          short', decide_true, if_true, Sink.mk.injEq, true_and]
        exact Array.ext' (by simp [List.take_append, spent])

end Sink

namespace Census

instance : Zero Census := ⟨{}⟩

@[simp] theorem nodes_zero : (0 : Census).nodes = 0 := rfl

@[simp] theorem elements_zero : (0 : Census).elements = 0 := rfl

@[ext] theorem ext_counts {a b : Census} (nodes : a.nodes = b.nodes) (elements : a.elements = b.elements) :
    a = b := by
  cases a
  cases b
  simp_all

instance : AddCommMonoid Census where
  add_assoc a b c := by ext <;> simp [Nat.add_assoc]
  zero_add a := by ext <;> simp
  add_zero a := by ext <;> simp
  add_comm a b := by ext <;> simp [Nat.add_comm]
  nsmul := nsmulRec

end Census

def Layout.lineEnd (l : Layout) : Bytes := if l.lineBreaks then l.newline else []

namespace Markup

/-- An attribute with the text that stands between its quotes. -/
def assignment (name quoted : Bytes) : Bytes := 32 :: name ++ 61 :: 34 :: quoted ++ [34]

def closeTag (l : Layout) (tag : Bytes) : Bytes :=
  if l.isVoid tag then [] else 60 :: 47 :: tag ++ 62 :: l.lineEnd

mutual

def ofNode (l : Layout) : Node → Bytes
  | .character b => Entity.encode [b]
  | .text s => Entity.encode s
  | .verbatim s => s
  | .scalar v => Entity.encode v.text
  | .sentinel _ literal => literal
  | .sequence members => ofNodes l members
  | .element e => ofElement l e

def ofNodes (l : Layout) : List Node → Bytes
  | [] => []
  | n :: ns => ofNode l n ++ ofNodes l ns

def ofElement (l : Layout) : Element Node → Bytes
  | ⟨name, attributes, children, _⟩ =>
    60 :: Bytes.lower name ++ ofAttributes l attributes ++ 62 :: l.lineEnd ++ ofNodes l children ++
      closeTag l (Bytes.lower name)

def ofAttributes (l : Layout) : List (Attribute Node) → Bytes
  | [] => []
  | a :: rest => ofAttribute l a ++ ofAttributes l rest

def ofAttribute (l : Layout) : Attribute Node → Bytes
  | ⟨_, .flag false⟩ => []
  | ⟨name, .flag true⟩ => assignment (Bytes.lower name) (Entity.encode (Bytes.lower name))
  | ⟨name, .content value⟩ => assignment (Bytes.lower name) (ofValue l value)

/-- The text between the quotes: an element or a sentinel is encoded as a whole. -/
def ofValue (l : Layout) : Node → Bytes
  | .character b => Entity.encode [b]
  | .text s => Entity.encode s
  | .verbatim s => s
  | .scalar v => Entity.encode v.text
  | .sentinel _ literal => Entity.encode literal
  | .sequence members => ofValues l members
  | .element e => Entity.encode (ofElement l e)

def ofValues (l : Layout) : List Node → Bytes
  | [] => []
  | n :: ns => ofValue l n ++ ofValues l ns

end

end Markup

namespace Serializer

/-- What every writing step comes to: more nodes are counted, and more text is sent. -/
def advance (w : Serializer) (c : Census) (s : Bytes) : Serializer :=
  { w with
    sink := w.sink.write s
    totals := { toCensus := w.totals.toCensus + c, bytes := w.totals.bytes + s.length } }

@[simp] theorem layout_advance (w : Serializer) (c : Census) (s : Bytes) :
    (w.advance c s).layout = w.layout := rfl

@[simp] theorem advance_zero_nil (w : Serializer) : w.advance 0 [] = w := by
  simp [advance]

@[simp] theorem advance_advance (w : Serializer) (c d : Census) (s t : Bytes) :
    (w.advance c s).advance d t = w.advance (c + d) (s ++ t) := by
  have census : w.totals.toCensus + c + d = w.totals.toCensus + (c + d) := add_assoc _ c d
  have bytes : w.totals.bytes + s.length + t.length = w.totals.bytes + (s ++ t).length := by
    rw [List.length_append, Nat.add_assoc]
  simp only [advance, Sink.write_append, census, bytes]

theorem put_eq (w : Serializer) (s : Bytes) : w.put s = w.advance 0 s := by
  simp [put, advance]

theorem putText_eq_advance (w : Serializer) (s : Bytes) :
    w.putText s = w.advance 0 (Entity.encode s) := by
  rw [putText_eq, put_eq]

theorem putLineBreak_eq (w : Serializer) : w.putLineBreak = w.advance 0 w.layout.lineEnd := by
  rw [putLineBreak, Layout.lineEnd]
  split
  · exact put_eq w _
  · simp

theorem countNode_eq (w : Serializer) : w.countNode = w.advance ⟨1, 0⟩ [] := by
  simp only [countNode, advance, Sink.write_nil, List.length_nil, Nat.add_zero]
  rfl

/-- What is written by a serializer of its own stands alone in an unlimited sink. -/
theorem contents_advance (l : Layout) (c : Census) (s : Bytes) :
    (({ layout := l } : Serializer).advance c s).sink.contents = s := by
  simp [advance, Sink.contents_write_unlimited]
  rfl

theorem countElement_eq (w : Serializer) : w.countElement = w.advance ⟨0, 1⟩ [] := by
  simp only [countElement, advance, Sink.write_nil, List.length_nil, Nat.add_zero]
  rfl

attribute [local simp] countNode_eq countElement_eq putText_eq_advance put_eq putLineBreak_eq

theorem advance_assignment (w : Serializer) (name quoted : Bytes) :
    (((((w.put [32]).put name).put [61, 34]).advance 0 quoted).put [34]) =
      w.advance 0 (Markup.assignment name quoted) := by
  simp [Markup.assignment]

mutual

theorem write_eq (w : Serializer) :
    (n : Node) → w.write n = w.advance (Census.ofNode n) (Markup.ofNode w.layout n)
  | .character _ | .text _ | .verbatim _ | .scalar _ | .sentinel _ _ => by
    simp [write, Census.ofNode, Markup.ofNode]
  | .sequence members => by
    simp [write, Census.ofNode, Markup.ofNode, writeAll_eq _ members]
  | .element ⟨name, attributes, children, mark⟩ => by
    rw [write, writeElement_eq, countNode_eq, advance_advance, layout_advance, ← add_assoc]
    rfl

theorem writeAll_eq (w : Serializer) :
    (ns : List Node) → w.writeAll ns = w.advance (Census.ofNodes ns) (Markup.ofNodes w.layout ns)
  | [] => (advance_zero_nil w).symm
  | n :: ns => by
    simp only [writeAll, write_eq w n, writeAll_eq _ ns, advance_advance, layout_advance,
      Census.ofNodes, Markup.ofNodes]

theorem writeElement_eq (w : Serializer) : (e : Element Node) →
    w.writeElement e = w.advance (⟨0, 1⟩ + Census.ofNodes e.children) (Markup.ofElement w.layout e)
  | ⟨name, attributes, children, mark⟩ => by
    simp only [writeElement, writeAttributes_eq _ attributes, writeAll_eq _ children]
    by_cases void : w.layout.isVoid (Bytes.lower name) = true <;>
      simp [void, Markup.ofElement, Markup.closeTag]

theorem writeAttributes_eq (w : Serializer) : (attributes : List (Attribute Node)) →
    w.writeAttributes attributes = w.advance 0 (Markup.ofAttributes w.layout attributes)
  | [] => (advance_zero_nil w).symm
  | a :: rest => by
    simp [writeAttributes, Markup.ofAttributes, writeAttribute_eq _ a, writeAttributes_eq _ rest]

theorem writeAttribute_eq (w : Serializer) : (a : Attribute Node) →
    w.writeAttribute a = w.advance 0 (Markup.ofAttribute w.layout a)
  | ⟨_, .flag false⟩ => (advance_zero_nil w).symm
  | ⟨name, .flag true⟩ => by
    rw [writeAttribute, putText_eq_advance, advance_assignment, Markup.ofAttribute]
  | ⟨name, .content value⟩ => by
    rw [writeAttribute, writeValue_eq _ value, advance_assignment, Markup.ofAttribute]
    simp

theorem writeValue_eq (w : Serializer) :
    (n : Node) → w.writeValue n = w.advance 0 (Markup.ofValue w.layout n)
  | .character _ | .text _ | .verbatim _ | .scalar _ | .sentinel _ _ => by
    simp [writeValue, Markup.ofValue]
  | .sequence members => by
    simp [writeValue, Markup.ofValue, writeValues_eq _ members]
  | .element e => by
    rw [writeValue, writeElement_eq _ e, countNode_eq, advance_advance, contents_advance,
      putText_eq_advance]
    rfl

theorem writeValues_eq (w : Serializer) :
    (ns : List Node) → w.writeValues ns = w.advance 0 (Markup.ofValues w.layout ns)
  | [] => (advance_zero_nil w).symm
  | n :: ns => by
    simp [writeValues, Markup.ofValues, writeValue_eq _ n, writeValues_eq _ ns]

end

end Serializer

theorem render_eq (l : Layout) (ns : List Node) : render l ns = Markup.ofNodes l ns := by
  rw [render, Serializer.writeAll_eq, Serializer.contents_advance]

theorem Markup.ofNodes_append (l : Layout) (ns ms : List Node) :
    ofNodes l (ns ++ ms) = ofNodes l ns ++ ofNodes l ms := by
  induction ns with
  | nil => rfl
  | cons n ns ih => rw [List.cons_append, ofNodes, ih, ofNodes, List.append_assoc]

theorem Census.ofNodes_append (ns ms : List Node) :
    ofNodes (ns ++ ms) = ofNodes ns + ofNodes ms := by
  induction ns with
  | nil => exact (zero_add _).symm
  | cons n ns ih => rw [List.cons_append, ofNodes, ih, ofNodes, add_assoc]

theorem render_append (l : Layout) (ns ms : List Node) :
    render l (ns ++ ms) = render l ns ++ render l ms := by
  rw [render_eq, render_eq, render_eq, Markup.ofNodes_append]

theorem render_singleton (l : Layout) (n : Node) : render l [n] = Markup.ofNode l n := by
  rw [render_eq, Markup.ofNodes, Markup.ofNodes, List.append_nil]

/-- The totals tell what was written and not where. -/
theorem Serializer.totals_writeAll (l : Layout) (s : Sink) (ns : List Node) :
    (({ layout := l, sink := s } : Serializer).writeAll ns).totals =
      { toCensus := Census.ofNodes ns, bytes := (render l ns).length } := by
  rw [writeAll_eq, render_eq]
  simp only [advance, Nat.zero_add, Totals.mk.injEq, and_true]
  exact zero_add _

end Hypertext
