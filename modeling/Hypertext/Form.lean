import Hypertext.Bytes

/-! # Forms

A form describes a tree with nested lists: symbols, flags and atoms are its leaves. A list is a tag form
if it is headed by a symbol, or by a list that is headed by a symbol.
-/

namespace Hypertext

inductive Form (α : Type)
  | symbol (name : Bytes)
  | flag (on : Bool)
  | atom (value : α)
  | list (items : List (Form α))

namespace Form

variable {α β : Type}

inductive Kind | symbol | flag | atom | list deriving DecidableEq

namespace Kind

def all : List Kind := [symbol, flag, atom, list]

def label : Kind → String
  | symbol => "symbol"
  | flag => "flag"
  | atom => "atom"
  | list => "list"

/-- The label of the kind that has the given place among all kinds. -/
def labelAt (place : Int32) : String := (place.toInt.toNat?.bind (all[·]?)).elim "unknown" label

end Kind

def kind : Form α → Kind
  | symbol _ => .symbol
  | flag _ => .flag
  | atom _ => .atom
  | list _ => .list

structure AccessError where
  found : Kind
  wanted : Kind
  deriving DecidableEq

def AccessError.message (e : AccessError) : Bytes :=
  Bytes.ascii "description is a " ++ Bytes.ascii e.found.label ++ Bytes.ascii ", not a " ++
    Bytes.ascii e.wanted.label

def asSymbol : Form α → Except AccessError Bytes
  | symbol name => .ok name
  | f => .error ⟨f.kind, .symbol⟩

def asFlag : Form α → Except AccessError Bool
  | flag on => .ok on
  | f => .error ⟨f.kind, .flag⟩

def asAtom : Form α → Except AccessError α
  | atom value => .ok value
  | f => .error ⟨f.kind, .atom⟩

def asItems : Form α → Except AccessError (List (Form α))
  | list items => .ok items
  | f => .error ⟨f.kind, .list⟩

def isTagForm : Form α → Bool
  | list (symbol _ :: _) => true
  | list (list (symbol _ :: _) :: _) => true
  | _ => false

mutual

/-- Replaces each atom by what `f` makes of it; the first failure counts. -/
def mapAtoms {ε : Type} (f : α → Except ε β) : Form α → Except ε (Form β)
  | symbol name => .ok (.symbol name)
  | flag on => .ok (.flag on)
  | atom value => do return .atom (← f value)
  | list items => do return .list (← mapAtomsAll f items)

def mapAtomsAll {ε : Type} (f : α → Except ε β) : List (Form α) → Except ε (List (Form β))
  | [] => .ok []
  | i :: is => do
    let i ← mapAtoms f i
    let is ← mapAtomsAll f is
    return i :: is

end

end Form

end Hypertext
