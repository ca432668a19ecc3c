import Hypertext.Failure

/-! # Drafts of nodes

A draft is a node in which some places refer to nodes that are kept under a name, or to a scalar that is
not there.
-/

namespace Hypertext

inductive Draft
  | character (byte : UInt8)
  | text (content : Bytes)
  | verbatim (content : Bytes)
  | element (element : Element Draft)
  | sequence (members : List Draft)
  | scalar (value : Scalar)
  | missingScalar
  | sentinel (name literal : Bytes)
  | kept (name : Bytes) (index : Nat)

namespace Draft

/-- What is kept under a name. -/
abbrev Scope := Bytes → Nat → Option Node

mutual

/-- An element of a draft is always a new one, so it has no mark yet. -/
def eval (scope : Scope) : Draft → Except Failure Node
  | .character b => .ok (.character b)
  | .text s => .ok (.text s)
  | .verbatim s => .ok (.verbatim s)
  | .element e => do return .element (← evalElement scope e)
  | .sequence members => do return .sequence (← evalAll scope members)
  | .scalar v => .ok (.scalar v)
  | .missingScalar => .error .missingScalar
  | .sentinel name literal => .ok (.sentinel name literal)
  | .kept name index => match scope name index with
    | some n => .ok n
    | none => .error (.unbound name)

def evalElement (scope : Scope) : Element Draft → Except Failure (Element Node)
  | ⟨name, attributes, children, _⟩ => do
    let attributes ← evalAttributes scope attributes
    let children ← evalAll scope children
    return ⟨name, attributes, children, none⟩

def evalAll (scope : Scope) : List Draft → Except Failure (List Node)
  | [] => .ok []
  | d :: ds => do
    let n ← eval scope d
    let ns ← evalAll scope ds
    return n :: ns

def evalAttributes (scope : Scope) : List (Attribute Draft) → Except Failure (List (Attribute Node))
  | [] => .ok []
  | ⟨name, value⟩ :: rest => do
    let value ← evalValue scope value
    let rest ← evalAttributes scope rest
    return ⟨name, value⟩ :: rest

def evalValue (scope : Scope) : AttributeValue Draft → Except Failure (AttributeValue Node)
  | .flag on => .ok (.flag on)
  | .content d => do return .ofNode (← eval scope d)

end

end Draft

end Hypertext
