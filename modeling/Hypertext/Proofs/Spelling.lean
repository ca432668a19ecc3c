import Hypertext.Proofs.Places

/-!
# The spelling of names

Names are kept as they are written, with small or capital letters, but nothing that is rendered, counted
or looked up depends on that: in lower case a tree is written the same (`Markup.ofNode_lowered`), has the
same places (`Node.reach?_lowered`) and the same attributes at each (`Element.answersAlike_of_lowered_eq`).
-/

namespace Hypertext

namespace Bytes

/-- The same byte, or one letter as a capital and as a small one. -/
def SameLetter (b c : UInt8) : Prop :=
  b = c ∨ (isUpper b = true ∧ c = b + 32) ∨ (isUpper c = true ∧ b = c + 32)

theorem lowerByte_of_isUpper {b : UInt8} (h : isUpper b = true) : lowerByte b = b + 32 := by
  rw [lowerByte, if_pos h]

theorem lowerByte_of_isUpper_eq_false {b : UInt8} (h : isUpper b = false) : lowerByte b = b := by
  simp [lowerByte, h]

theorem lowerByte_eq_lowerByte_iff {b c : UInt8} : lowerByte b = lowerByte c ↔ SameLetter b c := by
  have small {b : UInt8} (h : isUpper b = true) : lowerByte (b + 32) = b + 32 := by
    rw [← lowerByte_of_isUpper h, lowerByte_lowerByte]
  constructor
  · intro same
    cases hb : isUpper b <;> cases hc : isUpper c
    · rw [lowerByte_of_isUpper_eq_false hb, lowerByte_of_isUpper_eq_false hc] at same
      exact .inl same
    · rw [lowerByte_of_isUpper_eq_false hb, lowerByte_of_isUpper hc] at same
      exact .inr (.inr ⟨hc, same⟩)
    · rw [lowerByte_of_isUpper hb, lowerByte_of_isUpper_eq_false hc] at same
      exact .inr (.inl ⟨hb, same.symm⟩)
    · rw [lowerByte_of_isUpper hb, lowerByte_of_isUpper hc, UInt8.add_left_inj] at same
      exact .inl same
  · intro same
    rcases same with rfl | ⟨hb, rfl⟩ | ⟨hc, rfl⟩
    · rfl
    · rw [lowerByte_of_isUpper hb, small hb]
    · rw [lowerByte_of_isUpper hc, small hc]

/-- Texts that differ in the case of letters at most. -/
def SameSpelling (s t : Bytes) : Prop := List.Forall₂ SameLetter s t

theorem lower_eq_lower_iff {s t : Bytes} : lower s = lower t ↔ SameSpelling s t := by
  unfold SameSpelling
  rw [lower, lower, ← List.forall₂_eq_eq_eq, List.forall₂_map_left_iff, List.forall₂_map_right_iff]
  simp only [lowerByte_eq_lowerByte_iff]

/-- A byte that is no letter is spelled in one way only. -/
theorem SameLetter.eq {b c : UInt8} (h : SameLetter b c) (other : b < 65 ∨ 90 < b ∧ b < 97 ∨ 122 < b) :
    b = c := by
  have bounds {a : UInt8} (upper : isUpper a = true) :
      65 ≤ a.toNat ∧ a.toNat ≤ 90 ∧ (a + 32).toNat = a.toNat + 32 := by
    simp only [isUpper, Bool.and_eq_true, decide_eq_true_eq, UInt8.le_iff_toNat_le,
      UInt8.reduceToNat] at upper
    refine ⟨upper.1, upper.2, ?_⟩
    simp only [UInt8.toNat_add, UInt8.reduceToNat]
    omega
  simp only [UInt8.lt_iff_toNat_lt, UInt8.reduceToNat] at other
  rcases h with same | ⟨upper, rfl⟩ | ⟨upper, rfl⟩
  · exact same
  · have := bounds upper
    omega
  · have := bounds upper
    omega

end Bytes

namespace Node

mutual

/-- The node with all names in lower case. It stands for any node with names like these, so the marks
are gone. -/
def lowered : Node → Node
  | .element ⟨name, attributes, children, _⟩ =>
    .element ⟨Bytes.lower name, loweredAttributes attributes, loweredAll children, none⟩
  | .sequence members => .sequence (loweredAll members)
  | .sentinel name literal => .sentinel (Bytes.lower name) literal
  | .character b => .character b
  | .text s => .text s
  | .verbatim s => .verbatim s
  | .scalar v => .scalar v

def loweredAll : List Node → List Node
  | [] => []
  | n :: ns => n.lowered :: loweredAll ns

def loweredAttributes : List (Attribute Node) → List (Attribute Node)
  | [] => []
  | ⟨name, value⟩ :: rest => ⟨Bytes.lower name, loweredValue value⟩ :: loweredAttributes rest

def loweredValue : AttributeValue Node → AttributeValue Node
  | .flag on => .flag on
  | .content n => .content n.lowered

end

end Node

def Attribute.lowered (a : Attribute Node) : Attribute Node :=
  ⟨Bytes.lower a.name, Node.loweredValue a.value⟩

def Element.lowered (e : Element Node) : Element Node :=
  ⟨Bytes.lower e.name, Node.loweredAttributes e.attributes, Node.loweredAll e.children, none⟩

namespace Node

theorem lowered_element (e : Element Node) : (element e).lowered = element e.lowered := by
  cases e
  rfl

theorem loweredAll_eq_map (ns : List Node) : loweredAll ns = ns.map lowered := by
  induction ns with
  | nil => rfl
  | cons n ns ih => rw [loweredAll, ih, List.map_cons]

theorem loweredAttributes_eq_map (as : List (Attribute Node)) :
    loweredAttributes as = as.map Attribute.lowered := by
  induction as with
  | nil => rfl
  | cons a as ih =>
    rw [loweredAttributes, ih, List.map_cons]
    rfl

theorem truth?_lowered (n : Node) : n.lowered.truth? = n.truth? := by
  cases n <;> rfl

theorem loweredValue_ofNode (n : Node) :
    AttributeValue.ofNode n.lowered = loweredValue (AttributeValue.ofNode n) := by
  rw [AttributeValue.ofNode, AttributeValue.ofNode, truth?_lowered]
  cases n.truth? <;> rfl

theorem content?_loweredValue (v : AttributeValue Node) :
    (loweredValue v).content? = v.content?.map lowered := by
  cases v <;> rfl

/-- A node has the same places in every spelling. -/
theorem below?_lowered (n : Node) (step : Step) : n.lowered.below? step = (n.below? step).map lowered := by
  cases step with
  | held i =>
    cases n with
    | element e => simp [lowered_element, below?, held, Element.lowered, loweredAll_eq_map]
    | sequence members => simp [lowered, below?, held, loweredAll_eq_map]
    | _ => rfl
  | value i =>
    cases n with
    | element e =>
      simp only [lowered_element, below?, Element.lowered, loweredAttributes_eq_map, List.getElem?_map]
      cases e.attributes[i]? with
      | none => rfl
      | some a => exact content?_loweredValue a.value
    | _ => rfl

theorem reach?_lowered (n : Node) (path : List Step) :
    n.lowered.reach? path = (n.reach? path).map lowered := by
  induction path generalizing n with
  | nil => rfl
  | cons step path ih =>
    rw [reach?_cons, reach?_cons, below?_lowered]
    cases n.below? step with
    | none => rfl
    | some m => exact ih m

theorem eq_element_of_lowered {n : Node} {e : Element Node} (h : n.lowered = element e) :
    ∃ f : Element Node, n = element f ∧ f.lowered = e := by
  cases n with
  | element f => exact ⟨f, rfl, by rwa [lowered_element, element.injEq] at h⟩
  | _ => cases h

/-- Where one of two forests has an element, the other has it in its own spelling. -/
theorem reach?_of_loweredAll_eq {ns ms : List Node} (h : loweredAll ns = loweredAll ms) {i : Nat}
    {path : List Step} {n : Node} {e : Element Node} (tree : ns[i]? = some n)
    (found : n.reach? path = some (element e)) :
    ∃ m f, ms[i]? = some m ∧ m.reach? path = some (element f) ∧ f.lowered = e.lowered := by
  have trees : ms[i]?.map lowered = some n.lowered := by
    rw [← List.getElem?_map, ← loweredAll_eq_map, ← h, loweredAll_eq_map, List.getElem?_map, tree]
    rfl
  obtain ⟨m, hm, same⟩ := Option.map_eq_some_iff.1 trees
  have places : (m.reach? path).map lowered = some (element e.lowered) := by
    rw [← reach?_lowered, same, reach?_lowered, found, Option.map_some, lowered_element]
  obtain ⟨k, hk, spelled⟩ := Option.map_eq_some_iff.1 places
  obtain ⟨f, rfl, same⟩ := eq_element_of_lowered spelled
  exact ⟨m, f, hm, hk, same⟩

end Node

namespace Markup

open Node

mutual

theorem ofNode_lowered (l : Layout) : (n : Node) → ofNode l n.lowered = ofNode l n
  | .element ⟨name, attributes, children, mark⟩ => by
    rw [lowered, ofNode, ofNode, ofElement, ofElement, Bytes.lower_lower,
      ofAttributes_lowered l attributes, ofNodes_loweredAll l children]
  | .sequence members => ofNodes_loweredAll l members
  | .character _ | .text _ | .verbatim _ | .scalar _ | .sentinel _ _ => rfl

theorem ofNodes_loweredAll (l : Layout) : (ns : List Node) → ofNodes l (loweredAll ns) = ofNodes l ns
  | [] => rfl
  | n :: ns => by rw [loweredAll, ofNodes, ofNodes, ofNode_lowered l n, ofNodes_loweredAll l ns]

theorem ofAttributes_lowered (l : Layout) :
    (as : List (Attribute Node)) → ofAttributes l (loweredAttributes as) = ofAttributes l as
  | [] => rfl
  | ⟨_, .flag false⟩ :: rest => ofAttributes_lowered l rest
  | ⟨name, .flag true⟩ :: rest => by
    rw [loweredAttributes, loweredValue, ofAttributes, ofAttributes, ofAttributes_lowered l rest,
      ofAttribute, ofAttribute, Bytes.lower_lower]
  | ⟨name, .content v⟩ :: rest => by
    simp only [loweredAttributes, loweredValue, ofAttributes, ofAttributes_lowered l rest, ofAttribute,
      Bytes.lower_lower, ofValue_lowered l v]

theorem ofValue_lowered (l : Layout) : (n : Node) → ofValue l n.lowered = ofValue l n
  | .element ⟨name, attributes, children, mark⟩ => by
    rw [lowered, ofValue, ofValue, ofElement, ofElement, Bytes.lower_lower,
      ofAttributes_lowered l attributes, ofNodes_loweredAll l children]
  | .sequence members => ofValues_loweredAll l members
  | .character _ | .text _ | .verbatim _ | .scalar _ | .sentinel _ _ => rfl

theorem ofValues_loweredAll (l : Layout) : (ns : List Node) → ofValues l (loweredAll ns) = ofValues l ns
  | [] => rfl
  | n :: ns => by rw [loweredAll, ofValues, ofValues, ofValue_lowered l n, ofValues_loweredAll l ns]

end

end Markup

namespace Census

open Node

mutual

theorem ofNode_lowered : (n : Node) → ofNode n.lowered = ofNode n
  | .element ⟨_, _, children, _⟩ => by rw [lowered, ofNode, ofNode, ofNodes_loweredAll children]
  | .sequence members => by rw [lowered, ofNode, ofNode, ofNodes_loweredAll members]
  | .character _ | .text _ | .verbatim _ | .scalar _ | .sentinel _ _ => rfl

theorem ofNodes_loweredAll : (ns : List Node) → ofNodes (loweredAll ns) = ofNodes ns
  | [] => rfl
  | n :: ns => by rw [loweredAll, ofNodes, ofNodes, ofNode_lowered n, ofNodes_loweredAll ns]

end

end Census

namespace Element

/-- Where an attribute is found. -/
def position? {ν : Type} (e : Element ν) (name : Bytes) : Option Nat :=
  e.attributes.findIdx? fun a => Bytes.lower a.name == Bytes.lower name

theorem attribute?_eq_position? {ν : Type} (e : Element ν) (name : Bytes) :
    e.attribute? name = (e.position? name).bind fun i => e.attributes[i]?.map Attribute.value := by
  rw [attribute?, position?, List.find?_eq_bind_findIdx?_getElem?]
  cases List.findIdx? _ e.attributes <;> rfl

theorem position?_lowered (e : Element Node) (name : Bytes) :
    e.lowered.position? name = e.position? name := by
  rw [position?, position?, lowered, Node.loweredAttributes_eq_map, List.findIdx?_map]
  simp only [Function.comp_def, Attribute.lowered, Bytes.lower_lower]

/-- A name is asked for in any spelling. -/
theorem position?_congr {ν : Type} (e : Element ν) {name other : Bytes}
    (h : Bytes.lower name = Bytes.lower other) : e.position? name = e.position? other := by
  rw [position?, position?, h]

theorem hasAttribute_congr {ν : Type} (e : Element ν) {name other : Bytes}
    (h : Bytes.lower name = Bytes.lower other) : e.hasAttribute name = e.hasAttribute other := by
  rw [hasAttribute, hasAttribute, attribute?, attribute?, h]

theorem attribute?_lowered (e : Element Node) (name : Bytes) :
    e.lowered.attribute? name = (e.attribute? name).map Node.loweredValue := by
  rw [attribute?, attribute?, lowered, Node.loweredAttributes_eq_map, List.find?_map, Option.map_map,
    Option.map_map]
  simp only [Function.comp_def, Attribute.lowered, Bytes.lower_lower]

theorem hasAttribute_lowered (e : Element Node) (name : Bytes) :
    e.lowered.hasAttribute name = e.hasAttribute name := by
  rw [hasAttribute, attribute?_lowered, Option.isSome_map, hasAttribute]

/-- Two elements that have an attribute of a name at the same place or not at all, whichever spellings
of the name they are asked for. -/
def AnswersAlike (e f : Element Node) : Prop :=
  ∀ name other, Bytes.SameSpelling name other →
    e.hasAttribute name = f.hasAttribute other ∧ e.position? name = f.position? other

theorem answersAlike_of_lowered_eq {e f : Element Node} (h : e.lowered = f.lowered) : e.AnswersAlike f := by
  intro name other spelled
  have same := Bytes.lower_eq_lower_iff.2 spelled
  constructor
  · rw [← e.hasAttribute_lowered, h, f.hasAttribute_lowered, f.hasAttribute_congr same]
  · rw [← e.position?_lowered, h, f.position?_lowered, f.position?_congr same]

end Element

end Hypertext
