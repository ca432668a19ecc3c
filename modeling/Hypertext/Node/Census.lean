import Hypertext.Node

/-! # Counting nodes

Only children and members count: what stands inside an attribute value is no node of the tree.
-/

namespace Hypertext

structure Census where
  nodes : Nat := 0
  elements : Nat := 0
  deriving DecidableEq

namespace Census

instance : Add Census := ⟨fun a b => ⟨a.nodes + b.nodes, a.elements + b.elements⟩⟩

mutual

def ofNode : Node → Census
  | .element ⟨_, _, children, _⟩ => ⟨1, 1⟩ + ofNodes children
  | .sequence members => ⟨1, 0⟩ + ofNodes members
  | .character _ | .text _ | .verbatim _ | .scalar _ | .sentinel _ _ => ⟨1, 0⟩

def ofNodes : List Node → Census
  | [] => {}
  | n :: ns => ofNode n + ofNodes ns

end

@[simp] theorem nodes_add (a b : Census) : (a + b).nodes = a.nodes + b.nodes := rfl

@[simp] theorem elements_add (a b : Census) : (a + b).elements = a.elements + b.elements := rfl

end Census

end Hypertext
