import Hypertext.Proofs.Places
import Hypertext.Proofs.Registry

/-!
# What commands do to nodes

A command can bring new nodes in, keep them under a name or add them to an unfinished element, and it can
begin or copy an unfinished element. Beyond that it leaves all nodes alone (`Workspace.effect_step`).
-/

namespace Hypertext

theorem Node.stampValue_ofNode (next : Nat) (n : Node) :
    stampValue next (.ofNode n) = (.ofNode (stamp next n).1, (stamp next n).2) := by
  cases n with
  | scalar v =>
    simp only [AttributeValue.ofNode, truth?, stamp]
    cases v.truth? <;> rfl
  | _ => rfl

/-- The value that is stored, in which a truth value is a flag. -/
def AttributeValue.settled : AttributeValue Node → AttributeValue Node
  | flag on => flag on
  | content n => ofNode n

theorem AttributeValue.content?_of_settled {v : AttributeValue Node} {n : Node}
    (h : v.settled.content? = some n) : v.content? = some n := by
  cases v with
  | flag on => cases h
  | content m => rw [(Form.ofNode_eq_content_iff.1 (content?_eq_some_iff.1 h)).2, content?]

/-- What an unfinished element is told to add. -/
inductive Addition
  | assign (given : Attribute Node)
  | child (n : Node)

namespace Addition

def addTo (u : Element Node) : Addition → Element Node
  | assign given => u.addAttribute given.name given.value.settled
  | child n => u.addChildren [n]

def node? : Addition → Option Node
  | assign given => given.value.content?
  | child n => some n

def addAll (additions : List Addition) (u : Element Node) : Element Node := additions.foldl addTo u

theorem addAll_child (ns : List Node) (u : Element Node) : addAll (ns.map child) u = u.addChildren ns := by
  induction ns generalizing u with
  | nil => exact congrArg (Element.mk _ _ · _) (List.append_nil u.children).symm
  | cons n ns ih =>
    refine (ih _).trans ?_
    rw [addTo, Element.addChildren, Element.addChildren, Element.addChildren, List.append_assoc,
      List.singleton_append]

end Addition

namespace Workspace

/-- What comes to stay with a command, before it is marked. -/
def admitted (w : Workspace) : Command → List Node
  | .build forms _ => ((Form.mapAtomsAll (Draft.eval w.scope) forms).toOption.bind fun fs =>
      (Form.items (w.builder.getD .standard) [] fs).toOption).getD []
  | .keep _ draft | .addAttribute _ _ (.content draft) => (draft.eval w.scope).toOption.toList
  | .addChildren _ drafts => (Draft.evalAll w.scope drafts).toOption.getD []
  | .finishElement key _ => (w.elements.get? key).toList.map fun u => .element { u with mark := none }
  | _ => []

def arrived (w : Workspace) (c : Command) : List Node := (Node.stampAll w.nextMark (w.admitted c)).1

/-- The name under which a command keeps what it makes. -/
def target? : Command → Option Bytes
  | .build _ target | .finishElement _ target => target
  | .keep name _ => some name
  | _ => none

/-- What a command adds to the element under a key. -/
def additions (w : Workspace) (key : Bytes) (c : Command) : List Addition :=
  match c with
  | .addAttribute k name (.flag on) => if key = k then [.assign ⟨name, .flag on⟩] else []
  | .addAttribute k name (.content _) =>
    if key = k then (w.arrived c).map fun n => .assign ⟨name, .content n⟩ else []
  | .addChildren k _ => if key = k then (w.arrived c).map .child else []
  | _ => []

/-- The unfinished element under a key once a command is carried out. -/
def elementAfter? (w : Workspace) (key : Bytes) : Command → Option (Element Node)
  | .beginElement k name => if key = k then some { name } else w.elements.get? key
  | .copyElement k target =>
    if key = target then (w.elements.get? k).or (w.elements.get? key) else w.elements.get? key
  | c => (w.elements.get? key).map (Addition.addAll (w.additions key c))

structure Effect (w : Workspace) (c : Command) (result : Except Failure Reply) (v : Workspace) : Prop where
  nextMark : v.nextMark = (Node.stampAll w.nextMark (w.admitted c)).2
  kept : ∀ r, result = .ok r → v.kept = (target? c).elim w.kept (w.kept.put · (w.arrived c))
  lost : ∀ e, result = .error e → v.kept = w.kept
  elements : ∀ key, v.elements.get? key = w.elementAfter? key c

variable {w : Workspace}

/-- Nothing is done to nodes. -/
theorem Effect.of_unmoved {c : Command} {result : Except Failure Reply} {v : Workspace}
    (nothing : w.admitted c = []) (untold : target? c = none)
    (unadded : ∀ key, w.elementAfter? key c = w.elements.get? key)
    (kept : v.kept = w.kept) (elements : v.elements = w.elements) (nextMark : v.nextMark = w.nextMark) :
    w.Effect c result v where
  nextMark := by rw [nothing, nextMark, Node.stampAll]
  kept _ _ := by rw [kept, untold, Option.elim]
  lost _ _ := kept
  elements key := by rw [elements, unadded]

theorem Effect.of_error {c : Command} {error : Failure} {v : Workspace} (nothing : w.admitted c = [])
    (unadded : ∀ key, w.elementAfter? key c = w.elements.get? key)
    (kept : v.kept = w.kept) (elements : v.elements = w.elements) (nextMark : v.nextMark = w.nextMark) :
    w.Effect c (.error error) v where
  nextMark := by rw [nothing, nextMark, Node.stampAll]
  kept _ ok := by cases ok
  lost _ _ := kept
  elements key := by rw [elements, unadded]

theorem Effect.of_change {v : Workspace} {c : Command} {key : Bytes} {f : Element Node → Element Node}
    (nextMark : v.nextMark = (Node.stampAll w.nextMark (w.admitted c)).2) (untold : target? c = none)
    (kept : v.kept = w.kept) (elements : v.elements = w.elements)
    (adds : ∀ other, w.elementAfter? other c =
      if other = key then (w.elements.get? key).map f else w.elements.get? other) :
    w.Effect c (v.change key f).1 (v.change key f).2 := by
  rw [change, elements]
  cases stored : w.elements.get? key with
  | none =>
    refine ⟨nextMark, ?_, fun _ _ => kept, fun other => ?_⟩
    · intro r ok
      cases ok
    · rw [adds, stored, elements]
      split
      · rename_i same
        rw [same, stored]
        rfl
      · rfl
  | some u =>
    refine ⟨nextMark, fun _ _ => ?_, ?_, fun other => ?_⟩
    · rw [untold]
      exact kept
    · intro e error
      cases error
    · rw [adds, stored]
      exact Table.get?_put _ _ _ _

theorem Effect.of_put {c : Command} {r : Reply} {elements : Table (Element Node)}
    (nothing : w.admitted c = []) (untold : target? c = none)
    (puts : ∀ key, elements.get? key = w.elementAfter? key c) :
    w.Effect c (.ok r) { w with elements := elements } where
  nextMark := by rw [nothing, Node.stampAll]
  kept _ _ := by rw [untold, Option.elim]
  lost _ error := by cases error
  elements := puts

theorem Effect.of_adopt {v : Workspace} {c : Command} {r : Reply} {ns : List Node} {target : Option Bytes}
    (admits : w.admitted c = ns) (told : target? c = target)
    (unadded : ∀ key, w.elementAfter? key c = w.elements.get? key)
    (kept : v.kept = w.kept) (elements : v.elements = w.elements) (nextMark : v.nextMark = w.nextMark) :
    w.Effect c (.ok r) ((v.adopt ns).2.keepAs target (v.adopt ns).1) where
  nextMark := by
    rw [admits, ← nextMark]
    cases target <;> rfl
  kept _ _ := by
    rw [told, arrived, admits, ← kept, ← nextMark]
    cases target <;> rfl
  lost _ error := by cases error
  elements key := by
    rw [unadded, ← elements]
    cases target <;> rfl

theorem map_addAll_nil (u : Option (Element Node)) : u.map (Addition.addAll []) = u :=
  Option.map_id_fun ▸ rfl

/-- Most commands have nothing to add. -/
theorem elementAfter?_of_additions {c : Command} {key : Bytes}
    (after : w.elementAfter? key c = (w.elements.get? key).map (Addition.addAll (w.additions key c)))
    (nothing : w.additions key c = []) : w.elementAfter? key c = w.elements.get? key := by
  rw [after, nothing, map_addAll_nil]

theorem elementAfter?_of_addressed {c : Command} {key k : Bytes} {given : List Addition}
    (after : w.elementAfter? key c = (w.elements.get? key).map (Addition.addAll (w.additions key c)))
    (additions : w.additions key c = if key = k then given else []) : w.elementAfter? key c =
      if key = k then (w.elements.get? k).map (Addition.addAll given) else w.elements.get? key := by
  rw [after, additions]
  split
  · rename_i same
    rw [same]
  · exact map_addAll_nil _

theorem effect_build (w : Workspace) (forms : List (Form Draft)) (target : Option Bytes) :
    w.Effect (.build forms target) (w.build forms target).1 (w.build forms target).2 := by
  have seen : Draft.eval (scope { w with builder := some (w.builder.getD .standard) }) =
    Draft.eval w.scope := rfl
  have unadded (key : Bytes) : w.elementAfter? key (.build forms target) = w.elements.get? key :=
    elementAfter?_of_additions rfl rfl
  simp only [build, seen]
  cases read : Form.mapAtomsAll (Draft.eval w.scope) forms with
  | error e =>
    refine .of_error ?_ unadded rfl rfl rfl
    rw [admitted, read]
    rfl
  | ok fs =>
    simp only [Form.outcome_build]
    cases made : Form.items (w.builder.getD .standard) [] fs with
    | error m =>
      refine .of_error ?_ unadded rfl rfl rfl
      rw [admitted, read]
      simp only [Except.toOption, Option.bind_some, made, Option.getD_none]
    | ok ns =>
      refine .of_adopt ?_ rfl unadded rfl rfl rfl
      rw [admitted, read]
      simp only [Except.toOption, Option.bind_some, made, Option.getD_some]

theorem effect_addChildren (w : Workspace) (key : Bytes) (drafts : List Draft) :
    w.Effect (.addChildren key drafts) (w.addChildren key drafts).1 (w.addChildren key drafts).2 := by
  rw [addChildren]
  cases made : Draft.evalAll w.scope drafts with
  | error e =>
    have nothing : w.admitted (.addChildren key drafts) = [] := by
      rw [admitted, made]
      rfl
    refine .of_error nothing (fun other => elementAfter?_of_additions rfl ?_) rfl rfl rfl
    rw [additions, arrived, nothing, Node.stampAll, List.map_nil, ite_self]
  | ok ns =>
    have admits : w.admitted (.addChildren key drafts) = ns := by
      rw [admitted, made]
      rfl
    refine .of_change ?_ rfl rfl rfl fun other => ?_
    · rw [admits]
    · refine (elementAfter?_of_addressed rfl rfl).trans ?_
      rw [arrived, admits, funext (Addition.addAll_child _)]

theorem effect_addAttribute (w : Workspace) (key name : Bytes) (value : AttributeValue Draft) :
    w.Effect (.addAttribute key name value) (w.addAttribute key name value).1
      (w.addAttribute key name value).2 := by
  cases value with
  | flag on => exact .of_change rfl rfl rfl rfl fun other => (elementAfter?_of_addressed rfl rfl).trans rfl
  | content draft =>
    simp only [addAttribute, Draft.evalValue]
    cases made : draft.eval w.scope with
    | error e =>
      have nothing : w.admitted (.addAttribute key name (.content draft)) = [] := by
        rw [admitted, made]
        rfl
      refine .of_error nothing (fun other => elementAfter?_of_additions rfl ?_) rfl rfl rfl
      rw [additions, arrived, nothing, Node.stampAll, List.map_nil, ite_self]
    | ok n =>
      have admits : w.admitted (.addAttribute key name (.content draft)) = [n] := by
        rw [admitted, made]
        rfl
      have stamped := Node.stampValue_ofNode w.nextMark n
      simp only [bind, Except.bind, pure, Except.pure, stamped]
      refine .of_change ?_ rfl rfl rfl fun other => ?_
      · rw [admits]
        rfl
      · refine (elementAfter?_of_addressed rfl rfl).trans ?_
        rw [arrived, admits]
        rfl

/-- All that a command can do to nodes, to those under names and to those in unfinished elements. -/
theorem effect_perform (w : Workspace) (c : Command) : w.Effect c (w.perform c).1 (w.perform c).2 := by
  cases c with
  | build forms target => exact effect_build w forms target
  | keep name draft =>
    have unadded (key : Bytes) : w.elementAfter? key (.keep name draft) = w.elements.get? key :=
      elementAfter?_of_additions rfl rfl
    simp only [perform, keep]
    cases made : draft.eval w.scope with
    | error e => exact .of_error (by rw [admitted, made]; rfl) unadded rfl rfl rfl
    | ok n => exact .of_adopt (by rw [admitted, made]; rfl) rfl unadded rfl rfl rfl
  | finishElement key target =>
    have unadded (other : Bytes) :
        w.elementAfter? other (.finishElement key target) = w.elements.get? other :=
      elementAfter?_of_additions rfl rfl
    simp only [perform, finishElement]
    cases stored : w.elements.get? key with
    | none => exact .of_error (by rw [admitted, stored]; rfl) unadded rfl rfl rfl
    | some u => exact .of_adopt (by rw [admitted, stored]; rfl) rfl unadded rfl rfl rfl
  | beginElement key name => exact .of_put rfl rfl fun other => Table.get?_put _ _ _ _
  | copyElement key target =>
    simp only [perform, copyElement]
    cases stored : w.elements.get? key with
    | none =>
      refine .of_error rfl (fun other => ?_) rfl rfl rfl
      rw [elementAfter?, stored, Option.none_or, ite_self]
    | some u =>
      refine .of_put rfl rfl fun other => ?_
      rw [elementAfter?, stored, Option.some_or]
      exact Table.get?_put _ _ _ _
  | addChildren key drafts => exact effect_addChildren w key drafts
  | addAttribute key name value => exact effect_addAttribute w key name value
  | addSentinel name literal =>
    simp only [perform, addSentinel]
    split <;> exact .of_unmoved rfl rfl (fun _ => elementAfter?_of_additions rfl rfl) rfl rfl rfl
  | render layout drafts =>
    have unmoved (result : Except Failure Reply) (log : Log) :
        w.Effect (.render layout drafts) result { w with log := log } :=
      .of_unmoved rfl rfl (fun _ => elementAfter?_of_additions rfl rfl) rfl rfl rfl
    simp only [perform, render]
    split
    · exact unmoved _ w.log
    · split <;> exact unmoved _ _
  | write drafts =>
    simp only [perform, write]
    split <;> exact .of_unmoved rfl rfl (fun _ => elementAfter?_of_additions rfl rfl) rfl rfl rfl
  | _ => exact .of_unmoved rfl rfl (fun _ => elementAfter?_of_additions rfl rfl) rfl rfl rfl

theorem effect_step (w : Workspace) (c : Command) : w.Effect c (w.step c).1.result (w.step c).2 := by
  have performed := effect_perform w.forget c
  exact ⟨performed.nextMark, performed.kept, performed.lost, performed.elements⟩

/-- What is added to an unfinished element has arrived. -/
theorem mem_arrived {key : Bytes} {c : Command} {a : Addition} {n : Node} (h : a ∈ w.additions key c)
    (added : a.node? = some n) : n ∈ w.arrived c := by
  rw [additions.eq_def] at h
  split at h
  · split at h
    · cases List.mem_singleton.1 h
      cases added
    · cases h
  · split at h
    · obtain ⟨m, member, rfl⟩ := List.mem_map.1 h
      cases added
      exact member
    · cases h
  · split at h
    · obtain ⟨m, member, rfl⟩ := List.mem_map.1 h
      cases added
      exact member
    · cases h
  · cases h

/-- What is kept after a command was kept before, or has arrived. -/
theorem kept_step_cases {c : Command} {name : Bytes} {ns : List Node}
    (stored : (w.step c).2.kept.get? name = some ns) : w.kept.get? name = some ns ∨ ns = w.arrived c := by
  cases result : (w.step c).1.result with
  | error e => exact .inl ((effect_step w c).lost e result ▸ stored)
  | ok r =>
    rw [(effect_step w c).kept r result] at stored
    cases told : target? c with
    | none =>
      rw [told] at stored
      exact .inl stored
    | some target =>
      rw [told, Option.elim, Table.get?_put] at stored
      split at stored
      · exact .inr (Option.some.inj stored).symm
      · exact .inl stored

/-- What is unfinished after a command has been begun by it, or comes from what was unfinished before by
adding what has arrived. -/
theorem elements_step_cases {c : Command} {key : Bytes} {u : Element Node}
    (stored : (w.step c).2.elements.get? key = some u) : (∃ name, u = { name := name }) ∨
      ∃ k v additions, w.elements.get? k = some v ∧ u = Addition.addAll additions v ∧
        ∀ a ∈ additions, ∀ n, a.node? = some n → n ∈ w.arrived c := by
  have same {k : Bytes} (before : w.elements.get? k = some u) :
      ∃ k v additions, w.elements.get? k = some v ∧ u = Addition.addAll additions v ∧
        ∀ a ∈ additions, ∀ n, a.node? = some n → n ∈ w.arrived c :=
    ⟨k, u, [], before, rfl, fun _ member => by cases member⟩
  rw [(effect_step w c).elements, elementAfter?.eq_def] at stored
  split at stored
  · split at stored
    · exact .inl ⟨_, (Option.some.inj stored).symm⟩
    · exact .inr (same stored)
  · split at stored
    · rcases Option.or_eq_some_iff.1 stored with copied | ⟨-, own⟩
      · exact .inr (same copied)
      · exact .inr (same own)
    · exact .inr (same stored)
  · obtain ⟨v, before, eq⟩ := Option.map_eq_some_iff.1 stored
    exact .inr ⟨key, v, _, before, eq.symm, fun _ member _ => mem_arrived member⟩

end Workspace

end Hypertext
