import Hypertext.Proofs.Describing
import Hypertext.Proofs.Holdings
import Hypertext.Proofs.Unmarked

/-!
# Elements made step by step

An unfinished element is what its script says: what it was told to add since it was begun, and before that
what the element was told that it was copied from (`Workspace.elements_after`). Finishing it gives an element
that could have been described at once, by a tag form (`finishing_follows_scripts`).
-/

namespace Hypertext

namespace Addition

def assigned? : Addition → Option (Attribute Node)
  | assign given => some given
  | child _ => none

def child? : Addition → Option Node
  | assign _ => none
  | child n => some n

end Addition

/-- A name, and what is added one after the other. -/
structure Script where
  name : Bytes
  additions : List Addition := []

namespace Script

def attributes (s : Script) : List (Attribute Node) := s.additions.filterMap Addition.assigned?

def children (s : Script) : List Node := s.additions.filterMap Addition.child?

/-- The attributes and the children, each in the order in which they were added. -/
def element (s : Script) : Element Node where
  name := s.name
  attributes := s.attributes.map fun a => ⟨a.name, a.value.settled⟩
  children := s.children

/-- The tag form that describes the same, with flags as flags and all else as atoms. -/
def form (s : Script) : Form Node :=
  .list (.list (.symbol s.name :: s.attributes.flatMap Attribute.entries) :: s.children.map .atom)

def extend (s : Script) (additions : List Addition) : Script :=
  { s with additions := s.additions ++ additions }

theorem element_extend (s : Script) (additions : List Addition) :
    (s.extend additions).element = Addition.addAll additions s.element := by
  induction additions generalizing s with
  | nil =>
    rw [extend, List.append_nil]
    rfl
  | cons a additions ih =>
    have one : (s.extend [a]).element = Addition.addTo s.element a := by
      cases a <;> simp [element, extend, attributes, children, Addition.assigned?, Addition.child?,
        Addition.addTo, Element.addAttribute, Element.addChildren]
    have all : s.extend (a :: additions) = (s.extend [a]).extend additions := by
      rw [extend, extend, extend, List.append_assoc, List.singleton_append]
    rw [all, ih, one]
    rfl

theorem value_settled {s : Sentinels} (v : AttributeValue Node) : Form.Value s v.form v.settled := by
  have made : Form.attributeValue s [] v.form = .ok v.settled := by cases v <;> rfl
  exact Form.attributeValue_eq_ok_iff.1 made

theorem attributes_settled {s : Sentinels} {as : List (Attribute Node)} (named : ∀ a ∈ as, a.name ≠ []) :
    Form.Attributes s (as.flatMap Attribute.entries) (as.map fun a => ⟨a.name, a.value.settled⟩) := by
  induction as with
  | nil => exact .nil
  | cons a as ih =>
    obtain ⟨first, rest⟩ := List.forall_mem_cons.1 named
    exact .cons (.symbol first) (value_settled a.value) (ih rest)

theorem items_atoms {s : Sentinels} (ns : List Node) : List.Forall₂ (Form.Item s) (ns.map .atom) ns := by
  induction ns with
  | nil => exact .nil
  | cons n ns ih => exact .cons (.data rfl (.atom n)) ih

/-- Building the tag form of a script gives the element of the script, if it has the names that it needs. -/
theorem item_form {s : Sentinels} {sc : Script} (named : sc.name ≠ [])
    (attributes : ∀ a ∈ sc.attributes, a.name ≠ []) : Form.Item s sc.form (.element sc.element) :=
  .attributed named (attributes_settled attributes) (items_atoms sc.children)

end Script

namespace Workspace

/-- The script of the element under a key, looking back over the commands since `start` from the last one. -/
def script? (start : Workspace) : List Command → Bytes → Option Script
  | [], _ => none
  | .beginElement k name :: earlier, key => if key = k then some { name } else script? start earlier key
  | .copyElement k target :: earlier, key =>
    if key = target then (script? start earlier k).or (script? start earlier key)
    else script? start earlier key
  | c :: earlier, key =>
    (script? start earlier key).map (·.extend ((start.after earlier.reverse).additions key c))

theorem elements_after {start : Workspace} (nothing : ∀ key, start.elements.get? key = none)
    (cs : List Command) (key : Bytes) :
    (start.after cs).elements.get? key = (script? start cs.reverse key).map Script.element := by
  induction cs using List.reverseRecOn generalizing key with
  | nil => exact nothing key
  | append_singleton cs c ih =>
    have told : ((start.after cs).elements.get? key).map
          (Addition.addAll ((start.after cs).additions key c)) =
        ((script? start cs.reverse key).map
          (·.extend ((start.after cs.reverse.reverse).additions key c))).map Script.element := by
      rw [ih, Option.map_map, Option.map_map, List.reverse_reverse]
      exact congrArg (Option.map · _) (funext fun s => (s.element_extend _).symm)
    rw [after_concat, (effect_step _ c).elements, List.reverse_concat]
    cases c with
    | beginElement k name =>
      rw [elementAfter?, script?]
      split
      · rfl
      · exact ih key
    | copyElement k target =>
      rw [elementAfter?, script?, ih, ih]
      split
      · exact Option.map_or.symm
      · rfl
    | _ => exact told

/-- The key of the unfinished element that a command changes. -/
def changed? : Command → Option Bytes
  | .beginElement key _ | .addAttribute key _ _ | .addChildren key _ => some key
  | .copyElement _ target => some target
  | _ => none

theorem elementAfter?_of_ne {w : Workspace} {c : Command} {key : Bytes} (h : changed? c ≠ some key) :
    w.elementAfter? key c = w.elements.get? key := by
  have other {k : Bytes} (h : some k ≠ some key) : key ≠ k := fun same => h (congrArg some same.symm)
  cases c with
  | beginElement k name => exact if_neg (other h)
  | copyElement k target => exact if_neg (other h)
  | addAttribute k name value =>
    refine elementAfter?_of_additions rfl ?_
    cases value <;> exact if_neg (other h)
  | addChildren k drafts => exact elementAfter?_of_additions rfl (if_neg (other h))
  | _ => exact elementAfter?_of_additions rfl rfl

/-- What is done to other elements, and to copies, leaves an unfinished element alone. -/
theorem elements_after_of_ne {w : Workspace} {cs : List Command} {key : Bytes}
    (h : ∀ c ∈ cs, changed? c ≠ some key) : (w.after cs).elements.get? key = w.elements.get? key := by
  induction cs generalizing w with
  | nil => rfl
  | cons c cs ih =>
    obtain ⟨first, rest⟩ := List.forall_mem_cons.1 h
    refine (ih rest).trans ?_
    rw [(effect_step w c).elements, elementAfter?_of_ne first]

theorem kept_step_of_ne {w : Workspace} {c : Command} {name : Bytes} (h : target? c ≠ some name) :
    (w.step c).2.kept.get? name = w.kept.get? name := by
  cases result : (w.step c).1.result with
  | error e => rw [(effect_step w c).lost e result]
  | ok r =>
    rw [(effect_step w c).kept r result]
    cases told : target? c with
    | none => rfl
    | some other =>
      rw [Option.elim, Table.get?_put, if_neg]
      intro same
      exact h (told.trans (congrArg some same.symm))

/-- What is kept stays as it is until its name is taken anew. -/
theorem kept_after_of_ne {w : Workspace} {cs : List Command} {name : Bytes}
    (h : ∀ c ∈ cs, target? c ≠ some name) : (w.after cs).kept.get? name = w.kept.get? name := by
  induction cs generalizing w with
  | nil => rfl
  | cons c cs ih =>
    obtain ⟨first, rest⟩ := List.forall_mem_cons.1 h
    exact (ih rest).trans (kept_step_of_ne first)

/-- Finishing changes nothing in the element but that it has a mark. -/
theorem Identified.stamp_unfinished {w : Workspace} (h : w.Identified) {key : Bytes} {u : Element Node}
    (stored : w.elements.get? key = some u) :
    Node.stamp w.nextMark (.element { u with mark := none }) =
      (.element { u with mark := some w.nextMark }, w.nextMark + 1) := by
  have marked (step : Node.Step) (n : Node) (below : (Node.element u).below? step = some n) : n.Marked := by
    intro e within
    obtain ⟨m, -, marked⟩ := h.marked e (.unfinished stored below within)
    exact marked ▸ nofun
  have values := Node.stampAttributes_eq_self (w.nextMark + 1) u.attributes fun i => marked (.value i)
  have children := Node.stampAll_eq_self (w.nextMark + 1) u.children fun i => marked (.held i)
  rw [Node.stamp, values]
  simp only [children]

theorem step_finishElement_of_none {w : Workspace} {key : Bytes} (h : w.elements.get? key = none)
    (target : Option Bytes) : (w.step (.finishElement key target)).1.result = .error (.unbound key) ∧
      (w.step (.finishElement key target)).2 = w.forget := by
  have performed : w.forget.finishElement key target = (.error (.unbound key), w.forget) := by
    have absent : w.forget.elements.get? key = none := h
    rw [finishElement, absent]
  rw [step_eq, perform, performed]
  exact ⟨rfl, rfl⟩

theorem step_finishElement_of_some {w : Workspace} (identified : w.Identified) {key : Bytes}
    {u : Element Node} (h : w.elements.get? key = some u) (target : Option Bytes) :
    let made := Node.element { u with mark := some w.nextMark }
    (w.step (.finishElement key target)).1.result = .ok (.text made.dump) ∧
      (w.step (.finishElement key target)).2 = { w.forget with
        kept := target.elim w.kept (w.kept.put · [made]), nextMark := w.nextMark + 1 } := by
  intro made
  have stored : w.forget.elements.get? key = some u := h
  have stamped : Node.stamp w.forget.nextMark (.element { u with mark := none }) =
      (made, w.nextMark + 1) := identified.stamp_unfinished h
  have adopted : w.forget.adopt [.element { u with mark := none }] =
      ([made], { w.forget with nextMark := w.nextMark + 1 }) := by
    rw [adopt, Node.stampAll, stamped]
    rfl
  rw [step_eq, perform, finishElement, stored]
  simp only [adopted]
  refine ⟨rfl, ?_⟩
  cases target <;> rfl

end Workspace

open Workspace in
/-- In the course of a session: what is finished is the element that the script spells out, and nothing else
changes but what is kept under the target; what is kept stays as it is, and so does an unfinished element, a
copy too, whatever is done to others. A script with the names that it needs can be written as a tag form, and
building this gives the same element, whatever the sentinels are. -/
theorem finishing_follows_scripts (cs : List Command) :
    let now := Workspace.after {} cs
    (∀ key target, script? {} cs.reverse key = none →
      (now.step (.finishElement key target)).1.result = .error (.unbound key) ∧
        (now.step (.finishElement key target)).2 = now.forget) ∧
    (∀ key target sc, script? {} cs.reverse key = some sc →
      let made := Node.element { sc.element with mark := some now.nextMark }
      (now.step (.finishElement key target)).1.result = .ok (.text made.dump) ∧
        (now.step (.finishElement key target)).2 = { now.forget with
          kept := target.elim now.kept (now.kept.put · [made]), nextMark := now.nextMark + 1 } ∧
        (sc.name ≠ [] → (∀ a ∈ sc.attributes, a.name ≠ []) →
          ∀ s log, Form.buildItem s log sc.form = ⟨.ok (.element sc.element), log⟩) ∧
        (Node.element sc.element).dump = made.dump ∧
          ∀ l, render l [.element sc.element] = render l [made]) ∧
    (∀ key ds, (∀ d ∈ ds, changed? d ≠ some key) →
      (now.after ds).elements.get? key = now.elements.get? key) ∧
    (∀ key target ds, (∃ u, now.elements.get? key = some u) → (∀ d ∈ ds, changed? d ≠ some target) →
      ((now.step (.copyElement key target)).2.after ds).elements.get? target = now.elements.get? key) ∧
    ∀ name ds, (∀ d ∈ ds, target? d ≠ some name) → (now.after ds).kept.get? name = now.kept.get? name := by
  intro now
  have identified : now.Identified := identified_after identified_empty cs
  refine ⟨?_, ?_, fun key ds => elements_after_of_ne, ?_, fun name ds => kept_after_of_ne⟩
  · intro key target untold
    refine step_finishElement_of_none ?_ target
    rw [elements_after (fun _ => rfl), untold, Option.map_none]
  · intro key target sc told made
    have stored : now.elements.get? key = some sc.element := by
      rw [elements_after (fun _ => rfl), told, Option.map_some]
    obtain ⟨answer, state⟩ := step_finishElement_of_some identified stored target
    refine ⟨answer, state, fun named attributes s log => ?_, rfl, Node.render_eq_of_unmarked_eq rfl⟩
    have built := (Form.item_eq_ok_iff [] _ _).2 (Script.item_form (s := s) named attributes)
    rw [Form.buildItem, built]
  · intro key target ds known others
    obtain ⟨u, known⟩ := known
    rw [elements_after_of_ne others, (effect_step now _).elements, elementAfter?, if_pos rfl, known,
      Option.some_or]

end Hypertext
