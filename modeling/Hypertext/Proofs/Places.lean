import Hypertext.Proofs.Counting

/-!
# Places within trees

A place is found by steps down from a node, to what it holds or into the value of one of its attributes.
Unlike the places that are counted, those within attributes are places too.
-/

namespace Hypertext

def AttributeValue.content? {ν : Type} : AttributeValue ν → Option ν
  | flag _ => none
  | content n => some n

theorem AttributeValue.content?_eq_some_iff {ν : Type} {v : AttributeValue ν} {n : ν} :
    v.content? = some n ↔ v = content n := by
  cases v <;> simp [content?]

namespace Node

inductive Step | held (index : Nat) | value (index : Nat)
  deriving DecidableEq

/-- The node that one step leads to. -/
def below? : Node → Step → Option Node
  | n, .held i => n.held[i]?
  | .element e, .value i => e.attributes[i]?.bind (·.value.content?)
  | _, .value _ => none

def reach? : Node → List Step → Option Node
  | n, [] => some n
  | n, step :: path => (n.below? step).bind (reach? · path)

theorem reach?_cons (n : Node) (step : Step) (path : List Step) :
    n.reach? (step :: path) = (n.below? step).bind (reach? · path) := rfl

end Node

end Hypertext
