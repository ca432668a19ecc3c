import Hypertext.Form
import Hypertext.Numeral

/-! # Malformed forms

Each way in which a form can fail to describe a tree is a fault. A form is malformed by its first fault,
at the names of the elements around it from the outside in.
-/

namespace Hypertext.Form

inductive Fault
  | emptyTagName
  | oddAttributes (entries : Nat)
  | attributeNameKind (found : Kind)
  | emptyAttributeName
  | symbolValue (name value : Bytes)
  | bareSymbol (name : Bytes)
  deriving DecidableEq

namespace Fault

def stage : Fault → Bytes
  | emptyTagName => Bytes.ascii "tag"
  | oddAttributes _ | attributeNameKind _ | emptyAttributeName | symbolValue _ _ =>
    Bytes.ascii "attributes"
  | bareSymbol _ => Bytes.ascii "symbol"

def message : Fault → Bytes
  | emptyTagName => Bytes.ascii "empty tag name"
  | oddAttributes entries =>
    Bytes.ascii "odd attribute list: " ++ Numeral.natural entries ++
      Bytes.ascii " entries, expected name/value pairs"
  | attributeNameKind found =>
    Bytes.ascii "attribute name must be a symbol or text, got " ++ Bytes.ascii found.label
  | emptyAttributeName => Bytes.ascii "empty attribute name"
  | symbolValue name value =>
    Bytes.ascii "attribute '" ++ name ++ Bytes.ascii "' has a symbol value '" ++ value ++ [39]
  | bareSymbol name =>
    Bytes.ascii "bare symbol '" ++ name ++
      Bytes.ascii "' is neither a tag form nor a registered sentinel"

end Fault

structure Malformed where
  fault : Fault
  path : List Bytes
  deriving DecidableEq

namespace Malformed

def context (m : Malformed) : Bytes := (Bytes.ascii " > ").intercalate m.path

def message (m : Malformed) : Bytes :=
  if m.context = [] then m.fault.message
  else m.fault.message ++ Bytes.ascii " (in " ++ m.context ++ Bytes.ascii ")"

/-- One more name behind a text, with a separator between unless there is no text yet. -/
def join (text name : Bytes) : Bytes := (if text = [] then text else text ++ Bytes.ascii " > ") ++ name

/-- Once there is a text, a separator stands before each name. -/
theorem foldl_join {text : Bytes} (nonempty : text ≠ []) (path : List Bytes) :
    path.foldl join text = (Bytes.ascii " > ").intercalate (text :: path) := by
  induction path generalizing text with
  | nil => rw [List.foldl_nil, List.intercalate_singleton]
  | cons name path ih =>
    have joined : join text name = text ++ Bytes.ascii " > " ++ name := by rw [join, if_neg nonempty]
    rw [List.foldl_cons, joined, ih (by simp [nonempty])]
    cases path <;> simp [List.intercalate_cons_cons, List.intercalate_singleton]

/-- A fault inside the elements named by `path`, and maybe in more elements in there. Elements have names
that are not empty. -/
def Inside (m : Malformed) (path : List Bytes) : Prop := ∃ names, m.path = path ++ names ∧ [] ∉ names

theorem inside_self (fault : Fault) (path : List Bytes) : Inside ⟨fault, path⟩ path :=
  ⟨[], (List.append_nil path).symm, List.not_mem_nil⟩

theorem Inside.of_snoc {m : Malformed} {path : List Bytes} {name : Bytes} (nonempty : name ≠ [])
    (h : m.Inside (path ++ [name])) : m.Inside path := by
  obtain ⟨names, eq, named⟩ := h
  refine ⟨name :: names, by rw [eq, List.append_assoc, List.singleton_append], fun empty => ?_⟩
  rcases List.mem_cons.1 empty with rfl | empty
  · exact nonempty rfl
  · exact named empty

/-- Among names that are not empty, a separator stands before each but the first. -/
theorem Inside.context_eq {m : Malformed} (h : m.Inside []) : m.context = m.path.foldl join [] := by
  obtain ⟨names, path, named⟩ := h
  rw [context, path, List.nil_append]
  cases names with
  | nil => rfl
  | cons name names =>
    have nonempty : name ≠ [] := fun empty => named (empty ▸ List.mem_cons_self)
    exact (foldl_join nonempty names).symm

end Malformed

end Hypertext.Form
