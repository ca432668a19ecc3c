import Hypertext.Form.Fault
import Hypertext.Sentinels

/-! # Building trees from forms

An item is built as an element if it is a tag form and as data if not. Data never become elements: a
list of data is a sequence, whatever it holds, and a bare symbol must name a sentinel. The tree or the
first fault in reading order comes out.
-/

namespace Hypertext.Form

mutual

def data (s : Sentinels) : Form Node → Except Fault Node
  | .atom n => .ok n
  | .flag on => .ok (.ofTruth on)
  | .symbol name => match s.lookup? name with
    | some n => .ok n
    | none => .error (.bareSymbol name)
  | .list items => do return .sequence (← dataAll s items)

def dataAll (s : Sentinels) : List (Form Node) → Except Fault (List Node)
  | [] => .ok []
  | i :: is => do
    let n ← data s i
    let ns ← dataAll s is
    return n :: ns

end

/-- An attribute is named by a symbol or by a text. -/
def attributeName : Form Node → Except Fault Bytes
  | .symbol name | .atom (.text name) =>
    if name = [] then .error .emptyAttributeName else .ok name
  | f => .error (.attributeNameKind f.kind)

def attributeValue (s : Sentinels) (name : Bytes) : Form Node → Except Fault (AttributeValue Node)
  | .flag on => .ok (.flag on)
  | .atom n => .ok (.ofNode n)
  | .list items => do return .ofNode (← data s (.list items))
  | .symbol value => .error (.symbolValue name value)

/-- The entries two by two, if none is left over. -/
def pairs? {α : Type} : List α → Option (List (α × α))
  | [] => some []
  | [_] => none
  | a :: b :: rest => (pairs? rest).map ((a, b) :: ·)

def attributesOfPairs (s : Sentinels) :
    List (Form Node × Form Node) → Except Fault (List (Attribute Node))
  | [] => .ok []
  | (key, value) :: rest => do
    let name ← attributeName key
    let value ← attributeValue s name value
    let rest ← attributesOfPairs s rest
    return ⟨name, value⟩ :: rest

def attributes (s : Sentinels) (entries : List (Form Node)) : Except Fault (List (Attribute Node)) :=
  match pairs? entries with
  | none => .error (.oddAttributes entries.length)
  | some pairs => attributesOfPairs s pairs

mutual

/-- Builds a form that stands inside the elements named by `path`. -/
def item (s : Sentinels) (path : List Bytes) : Form Node → Except Malformed Node
  | .list (.symbol name :: rest) =>
    if name = [] then .error ⟨.emptyTagName, path⟩ else do
      let children ← items s (path ++ [name]) rest
      return .element ⟨name, [], children, none⟩
  | .list (.list (.symbol name :: entries) :: rest) =>
    if name = [] then .error ⟨.emptyTagName, path⟩ else do
      let attributes ← (attributes s entries).mapError (⟨·, path ++ [name]⟩)
      let children ← items s (path ++ [name]) rest
      return .element ⟨name, attributes, children, none⟩
  | other => (data s other).mapError (⟨·, path⟩)

def items (s : Sentinels) (path : List Bytes) : List (Form Node) → Except Malformed (List Node)
  | [] => .ok []
  | i :: is => do
    let n ← item s path i
    let ns ← items s path is
    return n :: ns

end

theorem item_of_isTagForm_eq_false {s : Sentinels} {f : Form Node} (plain : f.isTagForm = false)
    (path : List Bytes) : item s path f = (data s f).mapError (⟨·, path⟩) := by
  unfold item
  split
  · cases plain
  · cases plain
  · rfl

section Failing

variable {ε α β : Type} {x : Except ε α} {e : ε}

/-- What is made in two steps fails in the first or in the second. -/
theorem bind_eq_error_iff {f : α → Except ε β} :
    (x >>= f) = .error e ↔ x = .error e ∨ ∃ a, x = .ok a ∧ f a = .error e := by
  cases x with
  | error d =>
    constructor
    · intro h
      cases h
      exact .inl rfl
    · rintro (h | ⟨a, h, -⟩)
      · cases h
        rfl
      · cases h
  | ok a =>
    constructor
    · intro h
      exact .inr ⟨a, rfl, h⟩
    · rintro (h | ⟨b, h, failed⟩)
      · cases h
      · cases h
        exact failed

theorem bind_pure_eq_error_iff {f : α → β} : (do return f (← x)) = Except.error e ↔ x = .error e := by
  rw [bind_eq_error_iff]
  exact or_iff_left nofun

end Failing

section Inside

variable {s : Sentinels} {m : Malformed}

theorem inside_of_mapError {α : Type} {x : Except Fault α} {path : List Bytes}
    (h : x.mapError (⟨·, path⟩) = .error m) : m.Inside path := by
  cases x with
  | ok a => cases h
  | error fault =>
    cases h
    exact Malformed.inside_self fault path

mutual

/-- All names on the way to a fault are names of elements that are being built, so none is empty and the
place of a fault is told by joining them one by one (`Malformed.Inside.context_eq`). -/
theorem inside_of_item (path : List Bytes) :
    (f : Form Node) → item s path f = .error m → m.Inside path
  | .list (.symbol name :: rest), h => by
    rw [item] at h
    by_cases empty : name = []
    · rw [if_pos empty] at h
      cases h
      exact Malformed.inside_self .emptyTagName path
    · rw [if_neg empty, bind_pure_eq_error_iff] at h
      exact (inside_of_items _ rest h).of_snoc empty
  | .list (.list (.symbol name :: entries) :: rest), h => by
    rw [item] at h
    by_cases empty : name = []
    · rw [if_pos empty] at h
      cases h
      exact Malformed.inside_self .emptyTagName path
    · rw [if_neg empty] at h
      obtain failed | ⟨as, -, failed⟩ := bind_eq_error_iff.1 h
      · exact (inside_of_mapError failed).of_snoc empty
      · exact (inside_of_items _ rest (bind_pure_eq_error_iff.1 failed)).of_snoc empty
  | .symbol _, h | .flag _, h | .atom _, h | .list [], h | .list (.flag _ :: _), h
  | .list (.atom _ :: _), h | .list (.list [] :: _), h | .list (.list (.flag _ :: _) :: _), h
  | .list (.list (.atom _ :: _) :: _), h | .list (.list (.list _ :: _) :: _), h =>
    inside_of_mapError ((item_of_isTagForm_eq_false rfl path).symm.trans h)

theorem inside_of_items (path : List Bytes) :
    (fs : List (Form Node)) → items s path fs = .error m → m.Inside path
  | [], h => by cases h
  | f :: fs, h => by
    rw [items] at h
    obtain failed | ⟨n, -, failed⟩ := bind_eq_error_iff.1 h
    · exact inside_of_item path f failed
    · exact inside_of_items path fs (bind_pure_eq_error_iff.1 failed)

end

end Inside

end Hypertext.Form
