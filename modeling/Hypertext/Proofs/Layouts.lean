import Hypertext.Proofs.Markup

/-!
# What a layout decides

A layout says how lines end and which elements go without a close tag. Of the void names, a forest feels
only those that are tags of its elements, wherever these stand (`render_congr`).
-/

namespace Hypertext

namespace Node

mutual

/-- The tags of the elements among the children and members, in order. -/
def tags : Node → List Bytes
  | .sequence members => tagsAll members
  | .element ⟨name, _, children, _⟩ => Bytes.lower name :: tagsAll children
  | .character _ | .text _ | .verbatim _ | .scalar _ | .sentinel _ _ => []

def tagsAll : List Node → List Bytes
  | [] => []
  | n :: ns => tags n ++ tagsAll ns

end

mutual

theorem length_tags : (n : Node) → n.tags.length = (Census.ofNode n).elements
  | .sequence members => by
    rw [tags, Census.ofNode, Census.elements_add, length_tagsAll members, Nat.zero_add]
  | .element ⟨_, _, children, _⟩ => by
    rw [tags, Census.ofNode, Census.elements_add, List.length_cons, length_tagsAll children, Nat.add_comm]
  | .character _ | .text _ | .verbatim _ | .scalar _ | .sentinel _ _ => rfl

theorem length_tagsAll : (ns : List Node) → (tagsAll ns).length = (Census.ofNodes ns).elements
  | [] => rfl
  | n :: ns => by
    rw [tagsAll, Census.ofNodes, Census.elements_add, List.length_append, length_tags n, length_tagsAll ns]

end

mutual

/-- The tags of all elements, those within attribute values among them. -/
def allTags : Node → List Bytes
  | .sequence members => allTagsAll members
  | .element ⟨name, attributes, children, _⟩ =>
    Bytes.lower name :: (allTagsAttributes attributes ++ allTagsAll children)
  | .character _ | .text _ | .verbatim _ | .scalar _ | .sentinel _ _ => []

def allTagsAll : List Node → List Bytes
  | [] => []
  | n :: ns => allTags n ++ allTagsAll ns

def allTagsAttributes : List (Attribute Node) → List Bytes
  | [] => []
  | ⟨_, .flag _⟩ :: rest => allTagsAttributes rest
  | ⟨_, .content v⟩ :: rest => allTags v ++ allTagsAttributes rest

end

end Node

namespace Layout

/-- Two layouts end lines alike and make the same of some tags. -/
structure AgreeOn (l l' : Layout) (tags : List Bytes) : Prop where
  lineEnd : l.lineEnd = l'.lineEnd
  isVoid : ∀ tag ∈ tags, l.isVoid tag = l'.isVoid tag

namespace AgreeOn

variable {l l' : Layout} {tag : Bytes} {tags others : List Bytes}

theorem mono (h : AgreeOn l l' others) (fewer : tags ⊆ others) : AgreeOn l l' tags :=
  ⟨h.lineEnd, fun tag found => h.isVoid tag (fewer found)⟩

theorem tail (h : AgreeOn l l' (tag :: tags)) : AgreeOn l l' tags := h.mono (List.subset_cons_self _ _)

theorem left (h : AgreeOn l l' (tags ++ others)) : AgreeOn l l' tags :=
  h.mono (List.subset_append_left _ _)

theorem right (h : AgreeOn l l' (tags ++ others)) : AgreeOn l l' others :=
  h.mono (List.subset_append_right _ _)

end AgreeOn

end Layout

namespace Markup

open Node

variable {l l' : Layout}

theorem closeTag_congr {tag : Bytes} (ends : l.lineEnd = l'.lineEnd)
    (void : l.isVoid tag = l'.isVoid tag) : closeTag l tag = closeTag l' tag := by
  rw [closeTag, closeTag, ends, void]

mutual

theorem ofNode_congr : (n : Node) → l.AgreeOn l' n.allTags → ofNode l n = ofNode l' n
  | .sequence members, h => ofNodes_congr members h
  | .element e, h => ofElement_congr e h
  | .character _, _ | .text _, _ | .verbatim _, _ | .scalar _, _ | .sentinel _ _, _ => rfl

theorem ofNodes_congr : (ns : List Node) → l.AgreeOn l' (allTagsAll ns) → ofNodes l ns = ofNodes l' ns
  | [], _ => rfl
  | n :: ns, h => by rw [ofNodes, ofNodes, ofNode_congr n h.left, ofNodes_congr ns h.right]

theorem ofElement_congr : (e : Element Node) → l.AgreeOn l' (element e).allTags →
    ofElement l e = ofElement l' e
  | ⟨name, attributes, children, mark⟩, h => by
    have void : l.isVoid (Bytes.lower name) = l'.isVoid (Bytes.lower name) :=
      h.isVoid _ List.mem_cons_self
    rw [ofElement, ofElement, ofAttributes_congr attributes h.tail.left, h.lineEnd,
      ofNodes_congr children h.tail.right, closeTag_congr h.lineEnd void]

theorem ofAttributes_congr : (as : List (Attribute Node)) → l.AgreeOn l' (allTagsAttributes as) →
    ofAttributes l as = ofAttributes l' as
  | [], _ => rfl
  | ⟨_, .flag false⟩ :: rest, h => ofAttributes_congr rest h
  | ⟨_, .flag true⟩ :: rest, h => by
    rw [ofAttributes, ofAttributes, ofAttributes_congr rest h, ofAttribute, ofAttribute]
  | ⟨_, .content v⟩ :: rest, h => by
    rw [ofAttributes, ofAttributes, ofAttributes_congr rest h.right, ofAttribute, ofAttribute,
      ofValue_congr v h.left]

theorem ofValue_congr : (v : Node) → l.AgreeOn l' v.allTags → ofValue l v = ofValue l' v
  | .sequence members, h => ofValues_congr members h
  | .element e, h => congrArg Entity.encode (ofElement_congr e h)
  | .character _, _ | .text _, _ | .verbatim _, _ | .scalar _, _ | .sentinel _ _, _ => rfl

theorem ofValues_congr : (vs : List Node) → l.AgreeOn l' (allTagsAll vs) →
    ofValues l vs = ofValues l' vs
  | [], _ => rfl
  | v :: vs, h => by rw [ofValues, ofValues, ofValue_congr v h.left, ofValues_congr vs h.right]

end

end Markup

/-- Layouts that make the same of the tags in a forest, and end lines alike, render it the same. -/
theorem render_congr {l l' : Layout} {ns : List Node} (h : l.AgreeOn l' (Node.allTagsAll ns)) :
    render l ns = render l' ns := by
  rw [render_eq, render_eq, Markup.ofNodes_congr ns h]

end Hypertext
