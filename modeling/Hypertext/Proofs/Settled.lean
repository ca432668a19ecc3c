import Hypertext.Proofs.Origins

/-!
# Truth values among attributes

An attribute that holds a truth value is a flag. So it is in every node that a workspace comes to hold,
whatever it is told to do (`Workspace.settled_after`), and in every node that a draft then stands for.
-/

namespace Hypertext

namespace Node

mutual

/-- No content of an attribute is a truth value. -/
def Settled : Node → Prop
  | .element ⟨_, attributes, children, _⟩ => SettledAttributes attributes ∧ SettledAll children
  | .sequence members => SettledAll members
  | .character _ | .text _ | .verbatim _ | .scalar _ | .sentinel _ _ => True

def SettledAll : List Node → Prop
  | [] => True
  | n :: ns => n.Settled ∧ SettledAll ns

def SettledAttributes : List (Attribute Node) → Prop
  | [] => True
  | ⟨_, value⟩ :: rest => SettledValue value ∧ SettledAttributes rest

def SettledValue : AttributeValue Node → Prop
  | .flag _ => True
  | .content n => n.truth? = none ∧ n.Settled

end

theorem settledAll_iff {ns : List Node} : SettledAll ns ↔ ∀ n ∈ ns, n.Settled := by
  induction ns with
  | nil => simp [SettledAll]
  | cons n ns ih => rw [SettledAll, ih, List.forall_mem_cons]

theorem settledAll_append {ns ms : List Node} :
    SettledAll (ns ++ ms) ↔ SettledAll ns ∧ SettledAll ms := by
  simp only [settledAll_iff, List.forall_mem_append]

theorem settledAttributes_iff {as : List (Attribute Node)} :
    SettledAttributes as ↔ ∀ a ∈ as, SettledValue a.value := by
  induction as with
  | nil => simp [SettledAttributes]
  | cons a as ih => rw [SettledAttributes, ih, List.forall_mem_cons]

theorem settledAttributes_append {as bs : List (Attribute Node)} :
    SettledAttributes (as ++ bs) ↔ SettledAttributes as ∧ SettledAttributes bs := by
  simp only [settledAttributes_iff, List.forall_mem_append]

theorem settledValue_iff {v : AttributeValue Node} : SettledValue v ↔ ContentHas Settled v := by
  cases v <;> rfl

theorem inherited_settled : Inherited Settled where
  leaf n plain flat := by
    cases n with
    | element e => exact absurd rfl plain
    | sequence members => exact absurd rfl flat
    | _ => exact trivial
  sequence _ held := settledAll_iff.2 held
  element _ _ _ contents held :=
    ⟨settledAttributes_iff.2 fun a ha => settledValue_iff.2 (contents a ha), settledAll_iff.2 held⟩

theorem truth?_stamp (next : Nat) (n : Node) : (stamp next n).1.truth? = n.truth? := by
  cases n <;> rfl

mutual

theorem settled_stamp (next : Nat) : (n : Node) → n.Settled → (stamp next n).1.Settled
  | .element ⟨_, attributes, children, none⟩, h =>
    ⟨settled_stampAttributes _ attributes h.1, settled_stampAll _ children h.2⟩
  | .element ⟨_, attributes, children, some _⟩, h =>
    ⟨settled_stampAttributes _ attributes h.1, settled_stampAll _ children h.2⟩
  | .sequence members, h => settled_stampAll next members h
  | .character _, _ | .text _, _ | .verbatim _, _ | .scalar _, _ | .sentinel _ _, _ => trivial

theorem settled_stampAll (next : Nat) : (ns : List Node) → SettledAll ns → SettledAll (stampAll next ns).1
  | [], _ => trivial
  | n :: ns, h => ⟨settled_stamp next n h.1, settled_stampAll _ ns h.2⟩

theorem settled_stampAttributes (next : Nat) : (as : List (Attribute Node)) → SettledAttributes as →
    SettledAttributes (stampAttributes next as).1
  | [], _ => trivial
  | ⟨_, value⟩ :: rest, h => ⟨settled_stampValue next value h.1, settled_stampAttributes _ rest h.2⟩

theorem settled_stampValue (next : Nat) : (v : AttributeValue Node) → SettledValue v →
    SettledValue (stampValue next v).1
  | .flag _, _ => trivial
  | .content n, h => ⟨(truth?_stamp next n).trans h.1, settled_stamp next n h.2⟩

end

end Node

theorem Draft.settled_eval {scope : Draft.Scope}
    (known : ∀ name index n, scope name index = some n → n.Settled) (d : Draft) (n : Node)
    (h : d.eval scope = .ok n) : n.Settled :=
  inherits_eval Node.inherited_settled known d n h

namespace Addition

theorem settled_addTo {a : Addition} {u : Element Node} (new : ∀ n, a.node? = some n → n.Settled)
    (h : Node.Settled (.element u)) : Node.Settled (.element (addTo u a)) := by
  cases a with
  | child n => exact ⟨h.1, Node.settledAll_append.2 ⟨h.2, new n rfl, trivial⟩⟩
  | assign given =>
    refine ⟨Node.settledAttributes_append.2 ⟨h.1, ?_, trivial⟩, h.2⟩
    obtain ⟨name, value⟩ := given
    cases value with
    | flag on => exact trivial
    | content n => exact Node.settledValue_iff.2 (Node.contentHas_ofNode (new n rfl))

theorem settled_addAll {additions : List Addition} {u : Element Node}
    (new : ∀ a ∈ additions, ∀ n, a.node? = some n → n.Settled) (h : Node.Settled (.element u)) :
    Node.Settled (.element (addAll additions u)) := by
  induction additions generalizing u with
  | nil => exact h
  | cons a additions ih =>
    obtain ⟨first, rest⟩ := List.forall_mem_cons.1 new
    exact ih rest (settled_addTo first h)

end Addition

namespace Workspace

/-- All that is held under a name is settled. -/
structure Settled (w : Workspace) : Prop where
  kept : ∀ name ns, w.kept.get? name = some ns → Node.SettledAll ns
  elements : ∀ key e, w.elements.get? key = some e → Node.Settled (.element e)

variable {w : Workspace}

theorem settled_empty : Settled {} where
  kept _ _ h := by cases h
  elements _ _ h := by cases h

theorem Settled.scope (h : w.Settled) (name : Bytes) (index : Nat) (n : Node)
    (found : w.scope name index = some n) : n.Settled := by
  obtain ⟨ns, stored, member⟩ := Option.bind_eq_some_iff.1 found
  exact Node.settledAll_iff.1 (h.kept name ns stored) n (List.mem_of_getElem? member)

theorem Settled.arrived (h : w.Settled) (c : Command) : Node.SettledAll (w.arrived c) := by
  have admitted : ∀ n ∈ w.admitted c, n.Settled :=
    inherits_admitted Node.inherited_settled h.scope (fun key u stored => h.elements key u stored) c
  exact Node.settled_stampAll w.nextMark _ (Node.settledAll_iff.2 admitted)

theorem Settled.step (h : w.Settled) (c : Command) : (w.step c).2.Settled where
  kept name ns stored := by
    rcases kept_step_cases stored with before | rfl
    · exact h.kept name ns before
    · exact h.arrived c
  elements key u stored := by
    rcases elements_step_cases stored with ⟨name, rfl⟩ | ⟨k, v, additions, before, rfl, new⟩
    · exact ⟨trivial, trivial⟩
    · have arrived := Node.settledAll_iff.1 (h.arrived c)
      exact Addition.settled_addAll (fun a member n added => arrived n (new a member n added))
        (h.elements k v before)

theorem settled_after (h : w.Settled) (cs : List Command) : (w.after cs).Settled := by
  induction cs generalizing w with
  | nil => exact h
  | cons c cs ih => exact ih (h.step c)

end Workspace

end Hypertext
