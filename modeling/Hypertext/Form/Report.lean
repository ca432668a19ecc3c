import Hypertext.Form.Build
import Hypertext.Log
import Hypertext.Node.Census

/-! # Reported builds

A log that is given gets one report of each build of a list of items, of the tree or of the first fault,
and of an item built alone if it fails. The log has no influence on what is built.
-/

namespace Hypertext.Form

structure Built (α : Type) where
  outcome : Except Malformed α
  log : Option Log

def source : Bytes := Bytes.ascii "builder"

def summary (count : Nat) (nodes : List Node) : Event :=
  let census := Census.ofNodes nodes
  ⟨.info, source, Bytes.ascii "build",
    Bytes.ascii "built " ++ Numeral.natural count ++ Bytes.ascii " items into " ++
      Numeral.natural census.nodes ++ Bytes.ascii " nodes (" ++
      Numeral.natural census.elements ++ Bytes.ascii " elements)"⟩

def Malformed.report (m : Malformed) : Event := ⟨.error, source, m.fault.stage, m.message⟩

def build (s : Sentinels) (log : Option Log) (is : List (Form Node)) : Built (List Node) :=
  match items s [] is with
  | .ok nodes => ⟨.ok nodes, log.map (·.emit (summary is.length nodes))⟩
  | .error m => ⟨.error m, log.map (·.emit m.report)⟩

def buildItem (s : Sentinels) (log : Option Log) (i : Form Node) : Built Node :=
  match item s [] i with
  | .ok node => ⟨.ok node, log⟩
  | .error m => ⟨.error m, log.map (·.emit m.report)⟩

end Hypertext.Form
