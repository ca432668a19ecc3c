import Hypertext.Proofs.Context
import Mathlib.Logic.Relation

/-!
# Simplifying trees

A tree can be written in simpler terms without changing what it is rendered to: sequences dissolve in the
list around them, characters and scalars are texts, neighbouring texts are one, flags are nothing or
texts, and a void element lets go of its children. Each of these can be done anywhere in a forest, within
attribute values too, and any number of them leave the text as it was (`render_of_rewrites`).
-/

namespace Hypertext

/-- How a list of nodes is written: node by node, or as what stands between quotes. -/
inductive Spot | content | quoted

mutual

/-- One change inside a node. A changed element is another element, so its mark is any. -/
inductive RewritesNode (l : Layout) : Spot → Node → Node → Prop
  | character (spot : Spot) (b : UInt8) : RewritesNode l spot (.character b) (.text [b])
  | scalar (spot : Spot) (v : Scalar) : RewritesNode l spot (.scalar v) (.text v.text)
  | members {spot : Spot} {ns ms : List Node} (h : RewritesNodes l spot ns ms) :
      RewritesNode l spot (.sequence ns) (.sequence ms)
  | attributes (spot : Spot) (mark mark' : Option Nat) {name : Bytes} {as bs : List (Attribute Node)}
      {children : List Node} (h : RewritesAttributes l as bs) :
      RewritesNode l spot (.element ⟨name, as, children, mark⟩) (.element ⟨name, bs, children, mark'⟩)
  | children (spot : Spot) (mark mark' : Option Nat) {name : Bytes} {as : List (Attribute Node)}
      {ns ms : List Node} (h : RewritesNodes l .content ns ms) :
      RewritesNode l spot (.element ⟨name, as, ns, mark⟩) (.element ⟨name, as, ms, mark'⟩)

/-- One change inside a list. Between quotes a void element keeps its children, as they are encoded
together with it. -/
inductive RewritesNodes (l : Layout) : Spot → List Node → List Node → Prop
  | splice (spot : Spot) (members : List Node) : RewritesNodes l spot [.sequence members] members
  | merge (spot : Spot) (s t : Bytes) : RewritesNodes l spot [.text s, .text t] [.text (s ++ t)]
  | drop (spot : Spot) : RewritesNodes l spot [.text []] []
  | release {name : Bytes} (as : List (Attribute Node)) (children : List Node) (mark mark' : Option Nat)
      (void : l.isVoid (Bytes.lower name) = true) :
      RewritesNodes l .content [.element ⟨name, as, children, mark⟩]
        (.element ⟨name, as, [], mark'⟩ :: children)
  | node {spot : Spot} {n m : Node} (h : RewritesNode l spot n m) : RewritesNodes l spot [n] [m]
  | amid {spot : Spot} {ns ms : List Node} (before after : List Node) (h : RewritesNodes l spot ns ms) :
      RewritesNodes l spot (before ++ ns ++ after) (before ++ ms ++ after)

/-- One change inside a list of attributes. -/
inductive RewritesAttributes (l : Layout) : List (Attribute Node) → List (Attribute Node) → Prop
  | absent (name : Bytes) : RewritesAttributes l [⟨name, .flag false⟩] []
  | present (name : Bytes) :
      RewritesAttributes l [⟨name, .flag true⟩] [⟨name, .content (.text (Bytes.lower name))⟩]
  | value (name : Bytes) {v w : Node} (h : RewritesNode l .quoted v w) :
      RewritesAttributes l [⟨name, .content v⟩] [⟨name, .content w⟩]
  | amid {as bs : List (Attribute Node)} (before after : List (Attribute Node))
      (h : RewritesAttributes l as bs) :
      RewritesAttributes l (before ++ as ++ after) (before ++ bs ++ after)

end

namespace Markup

theorem ofNodes_eq_flatMap (l : Layout) (ns : List Node) : ofNodes l ns = ns.flatMap (ofNode l) := by
  induction ns with
  | nil => rfl
  | cons n ns ih => rw [ofNodes, ih, List.flatMap_cons]

theorem ofValues_eq_flatMap (l : Layout) (ns : List Node) : ofValues l ns = ns.flatMap (ofValue l) := by
  induction ns with
  | nil => rfl
  | cons n ns ih => rw [ofValues, ih, List.flatMap_cons]

theorem ofAttributes_append (l : Layout) (as bs : List (Attribute Node)) :
    ofAttributes l (as ++ bs) = ofAttributes l as ++ ofAttributes l bs := by
  induction as with
  | nil => rfl
  | cons a as ih => rw [List.cons_append, ofAttributes, ih, ofAttributes, List.append_assoc]

end Markup

namespace Spot

open Markup

def ofNode (l : Layout) : Spot → Node → Bytes
  | content => Markup.ofNode l
  | quoted => ofValue l

def ofNodes (l : Layout) (spot : Spot) (ns : List Node) : Bytes := ns.flatMap (spot.ofNode l)

variable {l : Layout}

theorem ofNode_text (spot : Spot) (s : Bytes) : spot.ofNode l (.text s) = Entity.encode s := by
  cases spot <;> rfl

theorem ofNode_character (spot : Spot) (b : UInt8) :
    spot.ofNode l (.character b) = Entity.encode [b] := by
  cases spot <;> rfl

theorem ofNode_scalar (spot : Spot) (v : Scalar) :
    spot.ofNode l (.scalar v) = Entity.encode v.text := by
  cases spot <;> rfl

theorem ofNodes_content (ns : List Node) : content.ofNodes l ns = Markup.ofNodes l ns :=
  (ofNodes_eq_flatMap l ns).symm

theorem ofNode_sequence (spot : Spot) (members : List Node) :
    spot.ofNode l (.sequence members) = spot.ofNodes l members := by
  cases spot with
  | content => exact ofNodes_eq_flatMap l members
  | quoted => exact ofValues_eq_flatMap l members

/-- Elements that are written alike are encoded alike. -/
theorem ofNode_element_congr (spot : Spot) {e f : Element Node} (h : ofElement l e = ofElement l f) :
    spot.ofNode l (.element e) = spot.ofNode l (.element f) := by
  cases spot with
  | content => exact h
  | quoted => exact congrArg Entity.encode h

theorem ofNodes_singleton (spot : Spot) (n : Node) : spot.ofNodes l [n] = spot.ofNode l n := by
  rw [ofNodes, List.flatMap_singleton]

theorem ofNodes_append (spot : Spot) (ns ms : List Node) :
    spot.ofNodes l (ns ++ ms) = spot.ofNodes l ns ++ spot.ofNodes l ms :=
  List.flatMap_append

end Spot

namespace Markup

variable {l : Layout}

/-- An element without a close tag ends where its children begin. -/
theorem ofElement_of_isVoid {name : Bytes} (void : l.isVoid (Bytes.lower name) = true)
    (as : List (Attribute Node)) (children : List Node) (mark mark' : Option Nat) :
    ofElement l ⟨name, as, children, mark⟩ = ofElement l ⟨name, as, [], mark'⟩ ++ ofNodes l children := by
  have unclosed : closeTag l (Bytes.lower name) = [] := by rw [closeTag, if_pos void]
  simp [ofElement, ofNodes, unclosed]

mutual

theorem ofNode_of_rewrites {spot : Spot} {n m : Node} :
    RewritesNode l spot n m → spot.ofNode l n = spot.ofNode l m
  | .character spot b => by rw [spot.ofNode_character, spot.ofNode_text]
  | .scalar spot v => by rw [spot.ofNode_scalar, spot.ofNode_text]
  | .members h => by rw [spot.ofNode_sequence, spot.ofNode_sequence, ofNodes_of_rewrites h]
  | .attributes spot _ _ h => by
    apply spot.ofNode_element_congr
    rw [ofElement, ofElement, ofAttributes_of_rewrites h]
  | .children spot _ _ h => by
    have same := ofNodes_of_rewrites h
    rw [Spot.ofNodes_content, Spot.ofNodes_content] at same
    apply spot.ofNode_element_congr
    rw [ofElement, ofElement, same]

theorem ofNodes_of_rewrites {spot : Spot} {ns ms : List Node} :
    RewritesNodes l spot ns ms → spot.ofNodes l ns = spot.ofNodes l ms
  | .splice spot members => by rw [spot.ofNodes_singleton, spot.ofNode_sequence]
  | .merge spot s t => by
    simp only [Spot.ofNodes, List.flatMap_cons, List.flatMap_nil, spot.ofNode_text, List.append_nil,
      Entity.encode_append]
  | .drop spot => by rw [spot.ofNodes_singleton, spot.ofNode_text, Entity.encode_nil]; rfl
  | .release as children mark mark' void => by
    rw [Spot.ofNodes_content, Spot.ofNodes_content, ofNodes, ofNodes, ofNodes, ofNode, ofNode,
      ofElement_of_isVoid void as children mark mark', List.append_nil]
  | .node h => by rw [spot.ofNodes_singleton, spot.ofNodes_singleton, ofNode_of_rewrites h]
  | .amid before after h => by
    rw [spot.ofNodes_append, spot.ofNodes_append, ofNodes_of_rewrites h, spot.ofNodes_append,
      spot.ofNodes_append]

theorem ofAttributes_of_rewrites {as bs : List (Attribute Node)} :
    RewritesAttributes l as bs → ofAttributes l as = ofAttributes l bs
  | .absent name => rfl
  | .present name => rfl
  | .value name h => by
    have quoted : ofValue l _ = ofValue l _ := ofNode_of_rewrites h
    simp only [ofAttributes, ofAttribute, quoted]
  | .amid before after h => by
    rw [ofAttributes_append, ofAttributes_append, ofAttributes_of_rewrites h, ofAttributes_append,
      ofAttributes_append]

end

end Markup

theorem render_of_rewritesNodes {l : Layout} {ns ms : List Node} (h : RewritesNodes l .content ns ms) :
    render l ns = render l ms := by
  rw [render_eq, render_eq, ← Spot.ofNodes_content, ← Spot.ofNodes_content, Markup.ofNodes_of_rewrites h]

/-- However a forest is simplified, it is rendered to the same text, and a serializer with the layout
sends the same bytes to any sink and counts them alike. -/
theorem render_of_rewrites {l : Layout} {ns ms : List Node}
    (h : Relation.ReflTransGen (RewritesNodes l .content) ns ms) :
    render l ns = render l ms ∧ (Render.totals l ns).bytes = (Render.totals l ms).bytes ∧
      ∀ w : Serializer, w.layout = l → (w.writeAll ns).sink = (w.writeAll ms).sink ∧
        (w.writeAll ns).totals.bytes = (w.writeAll ms).totals.bytes := by
  have rendered : render l ns = render l ms := by
    induction h with
    | refl => rfl
    | tail _ last ih => rw [ih, render_of_rewritesNodes last]
  refine ⟨rendered, ?_, ?_⟩
  · rw [Render.totals_eq, Render.totals_eq, rendered]
  · rintro w rfl
    rw [render_eq, render_eq] at rendered
    rw [w.writeAll_eq, w.writeAll_eq, rendered]
    exact ⟨rfl, rfl⟩

/-- Between quotes a void element does not let go of its children. -/
example :
    let br (children : List Node) : Node := .element { name := Bytes.ascii "br", children }
    Spot.quoted.ofNodes {} [br [.verbatim [38]]] ≠ Spot.quoted.ofNodes {} [br [], .verbatim [38]] := by
  decide +kernel

/-- A void element with children, and another one within an attribute of it. -/
def Node.cluttered : Node :=
  .element
    { name := Bytes.ascii "BR"
      attributes :=
        [⟨[72], .flag true⟩, ⟨[73], .flag false⟩,
          ⟨[74], .content (.sequence [.character 60, .sequence [.element { name := [112], children :=
            [.element { name := Bytes.ascii "hr", children := [.verbatim [34]] }] }]])⟩]
      children := [.text [60], .text [38], .sequence [], .scalar (.ofTruth true)] }

def Node.tidied : List Node :=
  [.element
      { name := Bytes.ascii "BR"
        attributes :=
          [⟨[72], .content (.text [104])⟩,
            ⟨[74], .content (.sequence [.text [60], .element { name := [112], children :=
              [.element { name := Bytes.ascii "hr" }, .verbatim [34]] }])⟩] },
    .text [60, 38], .text (Bytes.ascii "true")]

theorem Node.rewrites_cluttered :
    Relation.ReflTransGen (RewritesNodes {} .content) [cluttered] tidied := by
  -- First the attributes from left to right, then the children.
  refine .head (.node (.attributes _ _ none (.amid [] [_, _] (.present [72])))) ?_
  refine .head (.node (.attributes _ _ none (.amid [_] [_] (.absent [73])))) ?_
  refine .head (.node (.attributes _ _ none (.amid [_] [] (.value [74] (.members
    (.amid [] [_] (.node (.character _ 60)))))))) ?_
  refine .head (.node (.attributes _ _ none (.amid [_] [] (.value [74] (.members
    (.amid [_] [] (.splice _ _))))))) ?_
  refine .head (.node (.attributes _ _ none (.amid [_] [] (.value [74] (.members
    (.amid [_] [] (.node (.children _ _ none (.release [] _ _ none (by decide)))))))))) ?_
  refine .head (.node (.children _ _ none (.amid [] [_, _] (.merge _ _ _)))) ?_
  refine .head (.node (.children _ _ none (.amid [_] [_] (.splice _ _)))) ?_
  refine .head (.node (.children _ _ none (.amid [_] [] (.node (.scalar _ _))))) ?_
  exact .single (.release _ _ _ none (by decide))

theorem render_of_rewrites_cluttered :
    Relation.ReflTransGen (RewritesNodes {} .content) [Node.cluttered] Node.tidied ∧
      render {} [Node.cluttered] = render {} Node.tidied ∧
      render {} Node.tidied = Bytes.ascii ("<br h=\"h\" j=\"&lt;&lt;p&gt;\n&lt;hr&gt;\n&quot;" ++
        "&lt;/p&gt;\n\">\n&lt;&amp;true") := by
  have rewritten := Node.rewrites_cluttered
  exact ⟨rewritten, (render_of_rewrites rewritten).1, by decide +kernel⟩

end Hypertext
