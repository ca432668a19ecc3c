import Hypertext.Scalar

/-! # Trees

A node is a piece of text, a scalar, a sentinel (a literal known by name), an element or a sequence.
Elements are generic in what they hold, so that descriptions of nodes can share their shape.
-/

namespace Hypertext

/-- A flag stands for the mere presence or absence of its attribute. -/
inductive AttributeValue (ν : Type) | flag (on : Bool) | content (value : ν)
  deriving DecidableEq

structure Attribute (ν : Type) where
  name : Bytes
  value : AttributeValue ν
  deriving DecidableEq

/-- Names keep their case, attributes their order and repetitions. Marks tell apart elements that are
made separately, whatever they hold; an element that nobody refers to has none. -/
structure Element (ν : Type) where
  name : Bytes
  attributes : List (Attribute ν) := []
  children : List ν := []
  mark : Option Nat := none
  deriving DecidableEq

inductive Node
  | character (byte : UInt8)
  | text (content : Bytes)
  | verbatim (content : Bytes)
  | element (element : Element Node)
  | sequence (members : List Node)
  | scalar (value : Scalar)
  | sentinel (name literal : Bytes)

def Node.truth? : Node → Option Bool
  | scalar v => v.truth?
  | _ => none

namespace AttributeValue

variable {ν : Type}

def isFlag : AttributeValue ν → Bool
  | flag _ => true
  | content _ => false

def isOn : AttributeValue ν → Bool
  | flag on => on
  | content _ => false

/-- Only a flag that is off is absent. -/
def present : AttributeValue ν → Bool
  | flag on => on
  | content _ => true

def value : AttributeValue Node → Node
  | flag _ => .sequence []
  | content node => node

/-- A truth value is a flag here, however it is worded. -/
def ofNode (n : Node) : AttributeValue Node :=
  match n.truth? with
  | some on => flag on
  | none => content n

end AttributeValue

namespace Element

variable {ν : Type}

/-- Attribute names are compared without regard to case, and the first one found counts. -/
def attribute? (e : Element ν) (name : Bytes) : Option (AttributeValue ν) :=
  (e.attributes.find? fun a => Bytes.lower a.name == Bytes.lower name).map Attribute.value

def hasAttribute (e : Element ν) (name : Bytes) : Bool := (e.attribute? name).isSome

def addAttribute (e : Element ν) (name : Bytes) (value : AttributeValue ν) : Element ν :=
  { e with attributes := e.attributes ++ [⟨name, value⟩] }

def addChildren (e : Element ν) (nodes : List ν) : Element ν :=
  { e with children := e.children ++ nodes }

theorem attribute?_eq_none_iff {e : Element ν} {name : Bytes} :
    e.attribute? name = none ↔ ∀ a ∈ e.attributes, Bytes.lower a.name ≠ Bytes.lower name := by
  simp [attribute?]

theorem attribute?_addAttribute (e : Element ν) (added name : Bytes) (value : AttributeValue ν) :
    (e.addAttribute added value).attribute? name = (e.attribute? name).or
      (if Bytes.lower added = Bytes.lower name then some value else none) := by
  simp only [attribute?, addAttribute, List.find?_append, Option.map_or]
  split <;> rename_i h <;> simp [h]

end Element

namespace Node

inductive Kind | character | text | verbatim | element | sequence | scalar | sentinel
  deriving DecidableEq

namespace Kind

def all : List Kind := [character, text, verbatim, element, sequence, scalar, sentinel]

def label : Kind → String
  | character => "character"
  | text => "text"
  | verbatim => "unsafe"
  | element => "element"
  | sequence => "sequence"
  | scalar => "opaque"
  | sentinel => "sentinel"

/-- The label of the kind that has the given place among all kinds. -/
def labelAt (place : Int32) : String := (place.toInt.toNat?.bind (all[·]?)).elim "unknown" label

end Kind

def kind : Node → Kind
  | character _ => .character
  | text _ => .text
  | verbatim _ => .verbatim
  | element _ => .element
  | sequence _ => .sequence
  | scalar _ => .scalar
  | sentinel _ _ => .sentinel

inductive AccessError
  | kind (found wanted : Kind)
  | noData (found : Kind)
  deriving DecidableEq

def AccessError.message : AccessError → Bytes
  | kind found wanted =>
    Bytes.ascii "node is " ++ Bytes.ascii found.label ++ Bytes.ascii ", not " ++ Bytes.ascii wanted.label
  | noData found =>
    Bytes.ascii "node is " ++ Bytes.ascii found.label ++ Bytes.ascii ", which carries no string data"

def asCharacter : Node → Except AccessError UInt8
  | character b => .ok b
  | n => .error (.kind n.kind .character)

/-- The data of a sentinel is its literal. -/
def asData : Node → Except AccessError Bytes
  | text s | verbatim s | sentinel _ s => .ok s
  | n => .error (.noData n.kind)

def asElement : Node → Except AccessError (Element Node)
  | element e => .ok e
  | n => .error (.kind n.kind .element)

def asMembers : Node → Except AccessError (List Node)
  | sequence ms => .ok ms
  | n => .error (.kind n.kind .sequence)

def asScalar : Node → Except AccessError Scalar
  | scalar v => .ok v
  | n => .error (.kind n.kind .scalar)

def asSentinelName : Node → Except AccessError Bytes
  | sentinel name _ => .ok name
  | n => .error (.kind n.kind .sentinel)

def ofTruth (b : Bool) : Node := scalar (.ofTruth b)

end Node

end Hypertext
