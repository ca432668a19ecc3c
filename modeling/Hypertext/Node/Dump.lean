import Hypertext.Node

/-! # One-line dumps

A dump shows the whole tree: kinds, names as written, attributes in order and flags. Marks and the
literals of sentinels are left out.
-/

namespace Hypertext.Node

def quoted (s : Bytes) : Bytes := 34 :: s ++ [34]

def spaced (parts : List Bytes) : Bytes := [32].intercalate parts

mutual

def dump : Node → Bytes
  | .character b => [39, b, 39]
  | .text s => quoted s
  | .verbatim s => Bytes.ascii "unsafe" ++ quoted s
  | .scalar v => Bytes.ascii "opaque(" ++ v.text ++ [41]
  | .sentinel name _ => 35 :: name
  | .sequence members => 40 :: spaced (dumpAll members) ++ [41]
  | .element ⟨name, attributes, children, _⟩ =>
    60 :: name ++ dumpAttributes attributes ++ [62] ++
      if children.isEmpty then [] else 91 :: spaced (dumpAll children) ++ [93]

def dumpAll : List Node → List Bytes
  | [] => []
  | n :: ns => n.dump :: dumpAll ns

def dumpAttributes : List (Attribute Node) → Bytes
  | [] => []
  | ⟨name, value⟩ :: rest => 32 :: name ++ 61 :: dumpValue value ++ dumpAttributes rest

def dumpValue : AttributeValue Node → Bytes
  | .flag on => Bytes.ascii (if on then "#t" else "#f")
  | .content value => value.dump

end

theorem dumpAll_eq_map (ns : List Node) : dumpAll ns = ns.map dump := by
  induction ns with
  | nil => rfl
  | cons n ns ih => simp [dumpAll, ih]

end Hypertext.Node
