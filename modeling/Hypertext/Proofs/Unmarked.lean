import Hypertext.Node.Dump
import Hypertext.Proofs.Marks

/-!
# Trees apart from their marks

What a node shows of itself is all but its marks: neither a dump nor a render depends on them
(`Node.dump_unmarked`, `Markup.ofNode_unmarked`), and marking changes nothing else (`Node.unmarked_stamp`).
-/

namespace Hypertext

namespace Node

mutual

/-- All that a node shows of itself, which is all but its marks. -/
def unmarked : Node → Node
  | .element ⟨name, attributes, children, _⟩ =>
    .element ⟨name, unmarkedAttributes attributes, unmarkedAll children, none⟩
  | .sequence members => .sequence (unmarkedAll members)
  | .character b => .character b
  | .text s => .text s
  | .verbatim s => .verbatim s
  | .scalar v => .scalar v
  | .sentinel name literal => .sentinel name literal

def unmarkedAll : List Node → List Node
  | [] => []
  | n :: ns => n.unmarked :: unmarkedAll ns

def unmarkedAttributes : List (Attribute Node) → List (Attribute Node)
  | [] => []
  | ⟨name, value⟩ :: rest => ⟨name, unmarkedValue value⟩ :: unmarkedAttributes rest

def unmarkedValue : AttributeValue Node → AttributeValue Node
  | .flag on => .flag on
  | .content n => .content n.unmarked

end

mutual

theorem unmarked_stamp (next : Nat) : (n : Node) → (stamp next n).1.unmarked = n.unmarked
  | .element ⟨name, attributes, children, mark⟩ => by
    rw [stamp_element]
    simp only [unmarked]
    rw [unmarkedAttributes_stampAttributes _ attributes, unmarkedAll_stampAll _ children]
  | .sequence members => congrArg sequence (unmarkedAll_stampAll next members)
  | .character _ | .text _ | .verbatim _ | .scalar _ | .sentinel _ _ => rfl

theorem unmarkedAll_stampAll (next : Nat) :
    (ns : List Node) → unmarkedAll (stampAll next ns).1 = unmarkedAll ns
  | [] => rfl
  | n :: ns => by
    simp only [stampAll, unmarkedAll]
    rw [unmarked_stamp next n, unmarkedAll_stampAll _ ns]

theorem unmarkedAttributes_stampAttributes (next : Nat) : (as : List (Attribute Node)) →
    unmarkedAttributes (stampAttributes next as).1 = unmarkedAttributes as
  | [] => rfl
  | ⟨name, value⟩ :: rest => by
    simp only [stampAttributes, unmarkedAttributes]
    rw [unmarkedValue_stampValue next value, unmarkedAttributes_stampAttributes _ rest]

theorem unmarkedValue_stampValue (next : Nat) :
    (v : AttributeValue Node) → unmarkedValue (stampValue next v).1 = unmarkedValue v
  | .flag _ => rfl
  | .content n => congrArg AttributeValue.content (unmarked_stamp next n)

end

theorem isEmpty_unmarkedAll (ns : List Node) : (unmarkedAll ns).isEmpty = ns.isEmpty := by
  cases ns <;> rfl

mutual

theorem dump_unmarked : (n : Node) → n.unmarked.dump = n.dump
  | .element ⟨name, attributes, children, mark⟩ => by
    rw [unmarked, dump, dump, isEmpty_unmarkedAll, dumpAttributes_unmarkedAttributes attributes,
      dumpAll_unmarkedAll children]
  | .sequence members => by rw [unmarked, dump, dump, dumpAll_unmarkedAll members]
  | .character _ | .text _ | .verbatim _ | .scalar _ | .sentinel _ _ => rfl

theorem dumpAll_unmarkedAll : (ns : List Node) → dumpAll (unmarkedAll ns) = dumpAll ns
  | [] => rfl
  | n :: ns => by rw [unmarkedAll, dumpAll, dumpAll, dump_unmarked n, dumpAll_unmarkedAll ns]

theorem dumpAttributes_unmarkedAttributes :
    (as : List (Attribute Node)) → dumpAttributes (unmarkedAttributes as) = dumpAttributes as
  | [] => rfl
  | ⟨name, value⟩ :: rest => by
    rw [unmarkedAttributes, dumpAttributes, dumpAttributes, dumpValue_unmarkedValue value,
      dumpAttributes_unmarkedAttributes rest]

theorem dumpValue_unmarkedValue : (v : AttributeValue Node) → dumpValue (unmarkedValue v) = dumpValue v
  | .flag _ => rfl
  | .content n => dump_unmarked n

end

end Node

namespace Markup

open Node

mutual

theorem ofNode_unmarked (l : Layout) : (n : Node) → ofNode l n.unmarked = ofNode l n
  | .element ⟨name, attributes, children, mark⟩ => by
    rw [unmarked, ofNode, ofNode, ofElement, ofElement, ofAttributes_unmarked l attributes,
      ofNodes_unmarkedAll l children]
  | .sequence members => ofNodes_unmarkedAll l members
  | .character _ | .text _ | .verbatim _ | .scalar _ | .sentinel _ _ => rfl

theorem ofNodes_unmarkedAll (l : Layout) : (ns : List Node) → ofNodes l (unmarkedAll ns) = ofNodes l ns
  | [] => rfl
  | n :: ns => by rw [unmarkedAll, ofNodes, ofNodes, ofNode_unmarked l n, ofNodes_unmarkedAll l ns]

theorem ofAttributes_unmarked (l : Layout) :
    (as : List (Attribute Node)) → ofAttributes l (unmarkedAttributes as) = ofAttributes l as
  | [] => rfl
  | ⟨_, .flag false⟩ :: rest => ofAttributes_unmarked l rest
  | ⟨name, .flag true⟩ :: rest =>
    congrArg (ofAttribute l ⟨name, .flag true⟩ ++ ·) (ofAttributes_unmarked l rest)
  | ⟨name, .content v⟩ :: rest => by
    simp only [unmarkedAttributes, unmarkedValue, ofAttributes, ofAttributes_unmarked l rest, ofAttribute,
      ofValue_unmarked l v]

theorem ofValue_unmarked (l : Layout) : (n : Node) → ofValue l n.unmarked = ofValue l n
  | .element ⟨name, attributes, children, mark⟩ => by
    rw [unmarked, ofValue, ofValue, ofElement, ofElement, ofAttributes_unmarked l attributes,
      ofNodes_unmarkedAll l children]
  | .sequence members => ofValues_unmarkedAll l members
  | .character _ | .text _ | .verbatim _ | .scalar _ | .sentinel _ _ => rfl

theorem ofValues_unmarkedAll (l : Layout) : (ns : List Node) → ofValues l (unmarkedAll ns) = ofValues l ns
  | [] => rfl
  | n :: ns => by rw [unmarkedAll, ofValues, ofValues, ofValue_unmarked l n, ofValues_unmarkedAll l ns]

end

end Markup

namespace Node

variable {n m : Node}

theorem dump_eq_of_unmarked_eq (h : n.unmarked = m.unmarked) : n.dump = m.dump := by
  rw [← n.dump_unmarked, h, m.dump_unmarked]

theorem render_eq_of_unmarked_eq (h : n.unmarked = m.unmarked) (l : Layout) :
    render l [n] = render l [m] := by
  rw [render_eq, render_eq, ← Markup.ofNodes_unmarkedAll, unmarkedAll, h,
    ← Markup.ofNodes_unmarkedAll l [m]]
  rfl

end Node

end Hypertext
