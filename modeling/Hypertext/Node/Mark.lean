import Hypertext.Node

/-! # Marking elements

Every element without a mark receives a mark of its own, the marks in use being those below `next`.
An element that has a mark keeps it, and so stays the same element wherever it is placed.
-/

namespace Hypertext.Node

mutual

def stamp (next : Nat) : Node → Node × Nat
  | .element ⟨name, attributes, children, mark⟩ =>
    let (mark, next) := match mark with
      | some m => (m, next)
      | none => (next, next + 1)
    let (attributes, next) := stampAttributes next attributes
    let (children, next) := stampAll next children
    (.element ⟨name, attributes, children, some mark⟩, next)
  | .sequence members =>
    let (members, next) := stampAll next members
    (.sequence members, next)
  | .character b => (.character b, next)
  | .text s => (.text s, next)
  | .verbatim s => (.verbatim s, next)
  | .scalar v => (.scalar v, next)
  | .sentinel name literal => (.sentinel name literal, next)

def stampAll (next : Nat) : List Node → List Node × Nat
  | [] => ([], next)
  | n :: ns =>
    let (n, next) := stamp next n
    let (ns, next) := stampAll next ns
    (n :: ns, next)

def stampAttributes (next : Nat) : List (Attribute Node) → List (Attribute Node) × Nat
  | [] => ([], next)
  | ⟨name, value⟩ :: rest =>
    let (value, next) := stampValue next value
    let (rest, next) := stampAttributes next rest
    (⟨name, value⟩ :: rest, next)

def stampValue (next : Nat) : AttributeValue Node → AttributeValue Node × Nat
  | .flag on => (.flag on, next)
  | .content value =>
    let (value, next) := stamp next value
    (.content value, next)

end

/-- Whether two nodes are the same element. One without a mark is not the same as any other. -/
def sameElement (a b : Node) : Except AccessError Bool := do
  let a ← a.asElement
  let b ← b.asElement
  return a.mark.isSome && a.mark == b.mark

end Hypertext.Node
