import Hypertext.Table
import Hypertext.Node

/-! # Sentinels by name

Literals that a bare symbol may stand for. Names are kept in lower case and found in any case.
-/

namespace Hypertext

structure Sentinels where
  literals : Table Bytes := {}

namespace Sentinels

inductive AddError | emptyName deriving DecidableEq

def AddError.message : AddError → Bytes
  | emptyName => Bytes.ascii "sentinel name must not be empty"

def add (s : Sentinels) (name literal : Bytes) : Except AddError Sentinels :=
  if name = [] then .error .emptyName else .ok ⟨s.literals.put (Bytes.lower name) literal⟩

def addAll (s : Sentinels) : List (Bytes × Bytes) → Except AddError Sentinels
  | [] => .ok s
  | (name, literal) :: rest => do (← s.add name literal).addAll rest

def contains (s : Sentinels) (name : Bytes) : Bool := s.literals.contains (Bytes.lower name)

def size (s : Sentinels) : Nat := s.literals.size

/-- The name as it is kept, and the literal. -/
def entry? (s : Sentinels) (name : Bytes) : Option (Bytes × Bytes) :=
  (s.literals.get? (Bytes.lower name)).map (Bytes.lower name, ·)

def lookup? (s : Sentinels) (name : Bytes) : Option Node :=
  (s.entry? name).map fun e => .sentinel e.1 e.2

def doctypeName : Bytes := Bytes.ascii "doctype"

def doctypeLiteral : Bytes := Bytes.ascii "<!doctype html>\n"

def doctype : Node := .sentinel doctypeName doctypeLiteral

/-- The document type and nothing else. -/
def standard : Sentinels := ⟨({} : Table Bytes).put doctypeName doctypeLiteral⟩

theorem lookup?_standard_doctypeName : standard.lookup? doctypeName = some doctype := rfl

theorem add_eq_error_iff {s : Sentinels} {name literal : Bytes} :
    s.add name literal = .error .emptyName ↔ name = [] := by
  unfold add
  split <;> simp [*]

theorem contains_eq_isSome_lookup? (s : Sentinels) (name : Bytes) :
    s.contains name = (s.lookup? name).isSome := by
  simp [contains, lookup?, entry?, Table.contains]

theorem lookup?_of_add {s t : Sentinels} {name literal : Bytes} (h : s.add name literal = .ok t)
    (other : Bytes) :
    t.lookup? other = if Bytes.lower other = Bytes.lower name
      then some (.sentinel (Bytes.lower name) literal) else s.lookup? other := by
  unfold add at h
  split at h
  · cases h
  · cases h
    simp only [lookup?, entry?, Table.get?_put]
    split <;> simp [*]

end Sentinels

end Hypertext
