import Hypertext.Proofs.Markup
import Hypertext.Proofs.Settled

/-!
# Describing trees

Every tree can be written as a form, and building the form gives the tree back (`build_describes`): an
element as a tag form with its attributes in the head, all else as an atom. The elements that are built
are new ones, so the marks on them are gone; nothing else differs.
-/

namespace Hypertext

/-- A settled value as it is written in a head. -/
def AttributeValue.form : AttributeValue Node → Form Node
  | flag on => .flag on
  | content n => .atom n

def Attribute.entries (a : Attribute Node) : List (Form Node) := [.symbol a.name, a.value.form]

/-- A form that spells a node out. An element without attributes has two. -/
inductive Describes : Form Node → Node → Prop
  | atom {n : Node} (h : n.kind ≠ .element) : Describes (.atom n) n
  | bare {name : Bytes} {children : List Node} {mark : Option Nat} {fs : List (Form Node)}
      (hfs : List.Forall₂ Describes fs children) :
      Describes (.list (.symbol name :: fs)) (.element ⟨name, [], children, mark⟩)
  | headed {name : Bytes} {attributes : List (Attribute Node)} {children : List Node}
      {mark : Option Nat} {fs : List (Form Node)} (hfs : List.Forall₂ Describes fs children) :
      Describes (.list (.list (.symbol name :: attributes.flatMap Attribute.entries) :: fs))
        (.element ⟨name, attributes, children, mark⟩)

namespace Node

mutual

/-- The elements that are reached through lists of children. -/
def elements : Node → List (Element Node)
  | .element ⟨name, attributes, children, mark⟩ =>
    ⟨name, attributes, children, mark⟩ :: elementsAll children
  | .character _ | .text _ | .verbatim _ | .sequence _ | .scalar _ | .sentinel _ _ => []

def elementsAll : List Node → List (Element Node)
  | [] => []
  | n :: ns => n.elements ++ elementsAll ns

end

/-- No value of these elements is a truth value where it could be a flag. -/
def Flagged (n : Node) : Prop :=
  ∀ e ∈ n.elements, ∀ a ∈ e.attributes, ∀ v, a.value = .content v → v.truth? = none

mutual

/-- The node with these elements made anew. -/
def renewed : Node → Node
  | .element ⟨name, attributes, children, _⟩ => .element ⟨name, attributes, renewedAll children, none⟩
  | .character b => .character b
  | .text s => .text s
  | .verbatim s => .verbatim s
  | .sequence members => .sequence members
  | .scalar v => .scalar v
  | .sentinel name literal => .sentinel name literal

def renewedAll : List Node → List Node
  | [] => []
  | n :: ns => n.renewed :: renewedAll ns

end

mutual

/-- Spells a node out, with or without empty lists of attributes. -/
def describe (short : Bool) : Node → Form Node
  | .element ⟨name, attributes, children, _⟩ =>
    .list ((if short ∧ attributes = [] then .symbol name
      else .list (.symbol name :: attributes.flatMap Attribute.entries)) :: describeAll short children)
  | n => .atom n

def describeAll (short : Bool) : List Node → List (Form Node)
  | [] => []
  | n :: ns => n.describe short :: describeAll short ns

end

mutual

theorem describes_describe (short : Bool) : (n : Node) → Describes (n.describe short) n
  | .element ⟨name, attributes, children, mark⟩ => by
    have hchildren := describes_describeAll short children
    rw [describe]
    split
    · rename_i h
      obtain ⟨-, rfl⟩ := h
      exact .bare hchildren
    · exact .headed hchildren
  | .character _ | .text _ | .verbatim _ | .sequence _ | .scalar _ | .sentinel _ _ => .atom nofun

theorem describes_describeAll (short : Bool) :
    (ns : List Node) → List.Forall₂ Describes (describeAll short ns) ns
  | [] => .nil
  | n :: ns => .cons (describes_describe short n) (describes_describeAll short ns)

end

mutual

theorem renewed_eq_self : (n : Node) → (∀ e ∈ n.elements, e.mark = none) → n.renewed = n
  | .element ⟨name, attributes, children, mark⟩, h => by
    have unmarked : mark = none := h _ List.mem_cons_self
    have same := renewedAll_eq_self children fun e he => h e (List.mem_cons_of_mem _ he)
    rw [renewed, same, unmarked]
  | .character _, _ | .text _, _ | .verbatim _, _ | .sequence _, _ | .scalar _, _ | .sentinel _ _, _ => rfl

theorem renewedAll_eq_self :
    (ns : List Node) → (∀ e ∈ elementsAll ns, e.mark = none) → renewedAll ns = ns
  | [], _ => rfl
  | n :: ns, h => by
    rw [renewedAll, renewed_eq_self n fun e he => h e (List.mem_append_left _ he),
      renewedAll_eq_self ns fun e he => h e (List.mem_append_right _ he)]

end

theorem isEmpty_renewedAll (ns : List Node) : (renewedAll ns).isEmpty = ns.isEmpty := by
  cases ns <;> rfl

mutual

theorem dump_renewed : (n : Node) → n.renewed.dump = n.dump
  | .element ⟨name, attributes, children, mark⟩ => by
    rw [renewed, dump, dump, isEmpty_renewedAll, dumpAll_renewedAll children]
  | .character _ | .text _ | .verbatim _ | .sequence _ | .scalar _ | .sentinel _ _ => rfl

theorem dumpAll_renewedAll : (ns : List Node) → dumpAll (renewedAll ns) = dumpAll ns
  | [] => rfl
  | n :: ns => by rw [renewedAll, dumpAll, dumpAll, dump_renewed n, dumpAll_renewedAll ns]

end

end Node

namespace Markup

open Node

mutual

theorem ofNode_renewed (l : Layout) : (n : Node) → ofNode l n.renewed = ofNode l n
  | .element ⟨name, attributes, children, mark⟩ => by
    rw [renewed, ofNode, ofNode, ofElement, ofElement, ofNodes_renewedAll l children]
  | .character _ | .text _ | .verbatim _ | .sequence _ | .scalar _ | .sentinel _ _ => rfl

theorem ofNodes_renewedAll (l : Layout) : (ns : List Node) → ofNodes l (renewedAll ns) = ofNodes l ns
  | [] => rfl
  | n :: ns => by rw [renewedAll, ofNodes, ofNodes, ofNode_renewed l n, ofNodes_renewedAll l ns]

end

end Markup

namespace Form

variable {s : Sentinels}

/-- What is asked of an element so that its head can be read back. -/
def Nameable (e : Element Node) : Prop :=
  e.name ≠ [] ∧ ∀ a ∈ e.attributes, a.name ≠ [] ∧ ∀ n, a.value = .content n → n.truth? = none

theorem value_form : (v : AttributeValue Node) → (∀ n, v = .content n → n.truth? = none) →
    Value s v.form v
  | .flag on, _ => .flag on
  | .content n, h => .atom (h n rfl)

theorem attributes_entries {as : List (Attribute Node)}
    (h : ∀ a ∈ as, a.name ≠ [] ∧ ∀ n, a.value = .content n → n.truth? = none) :
    Attributes s (as.flatMap Attribute.entries) as := by
  induction as with
  | nil => exact .nil
  | cons a as ih =>
    obtain ⟨⟨named, settled⟩, rest⟩ := List.forall_mem_cons.1 h
    exact .cons (.symbol named) (value_form a.value settled) (ih rest)

mutual

theorem item_of_describes : (n : Node) → (∀ e ∈ n.elements, Nameable e) → ∀ {f}, Describes f n →
    Item s f n.renewed
  | .element ⟨name, attributes, children, mark⟩, h, f, described => by
    obtain ⟨⟨named, heading⟩, rest⟩ := List.forall_mem_cons.1 h
    cases described with
    | atom h => exact absurd rfl h
    | bare hfs => exact .element named (items_of_describes children rest hfs)
    | headed hfs =>
      exact .attributed named (attributes_entries heading) (items_of_describes children rest hfs)
  | .character _, _, f, described | .text _, _, f, described | .verbatim _, _, f, described
  | .sequence _, _, f, described | .scalar _, _, f, described | .sentinel _ _, _, f, described => by
    cases described
    exact .data rfl (.atom _)

theorem items_of_describes : (ns : List Node) → (∀ e ∈ Node.elementsAll ns, Nameable e) →
    ∀ {fs}, List.Forall₂ Describes fs ns → List.Forall₂ (Item s) fs (Node.renewedAll ns)
  | [], _, fs, described => by
    cases described
    exact .nil
  | n :: ns, h, fs, described => by
    obtain ⟨first, rest⟩ := List.forall_mem_append.1 h
    cases described with
    | cons hf hfs => exact .cons (item_of_describes n first hf) (items_of_describes ns rest hfs)

end

end Form

mutual

theorem Node.flagged_of_settled : (n : Node) → n.Settled → n.Flagged
  | .element ⟨name, attributes, children, mark⟩, h => by
    refine List.forall_mem_cons.2 ⟨?_, flaggedAll_of_settledAll children h.2⟩
    intro a ha v hv
    have here := settledAttributes_iff.1 h.1 a ha
    rw [hv] at here
    exact here.1
  | .character _, _ | .text _, _ | .verbatim _, _ | .sequence _, _ | .scalar _, _ | .sentinel _ _, _ => nofun

theorem Node.flaggedAll_of_settledAll : (ns : List Node) → SettledAll ns →
    ∀ e ∈ elementsAll ns, ∀ a ∈ e.attributes, ∀ v, a.value = .content v → v.truth? = none
  | [], _ => nofun
  | n :: ns, h => List.forall_mem_append.2 ⟨flagged_of_settled n h.1, flaggedAll_of_settledAll ns h.2⟩

end

/-- Whatever the sentinels are, each form that spells a node out builds the node, and each node is spelled
out by `describe` in both styles. That truth values are flags is no restriction: so it is in every node
that a draft stands for after any commands. -/
theorem build_describes (s : Sentinels) (log : Option Log) :
    (∀ n : Node, (∀ e ∈ n.elements, e.name ≠ [] ∧ ∀ a ∈ e.attributes, a.name ≠ []) → n.Flagged →
      (∀ f, Describes f n → (Form.build s log [f]).outcome = .ok [n.renewed]) ∧
        ((∀ e ∈ n.elements, e.mark = none) → n.renewed = n) ∧ n.renewed.dump = n.dump ∧
          ∀ l, render l [n.renewed] = render l [n]) ∧
    (∀ short (n : Node), Describes (n.describe short) n) ∧
    ∀ (cs : List Command) (d : Draft) (n : Node),
      d.eval (Workspace.after {} cs).scope = .ok n → n.Flagged := by
  refine ⟨?_, Node.describes_describe, ?_⟩
  · intro n named flagged
    have nameable : ∀ e ∈ n.elements, Form.Nameable e := by
      intro e he
      exact ⟨(named e he).1, fun a ha => ⟨(named e he).2 a ha, flagged e he a ha⟩⟩
    refine ⟨?_, n.renewed_eq_self, n.dump_renewed, ?_⟩
    · intro f described
      rw [Form.outcome_build, Form.items_eq_ok_iff]
      exact .cons (Form.item_of_describes n nameable described) .nil
    · intro l
      rw [render_singleton, render_singleton, Markup.ofNode_renewed]
  · intro cs d n made
    have settled : (Workspace.after {} cs).Settled := Workspace.settled_after Workspace.settled_empty cs
    exact n.flagged_of_settled (Draft.settled_eval settled.scope d n made)

/-- Names that are sentinels too, one attribute three times, and elements without names where they are
not read. -/
def Draft.namesakes : Draft :=
  .element
    { name := Bytes.ascii "DocType"
      attributes :=
        [⟨[97], .flag false⟩, ⟨[65], .content (.scalar (.ofTruth true))⟩,
          ⟨[97], .content (.element { name := [] })⟩]
      children := [.element { name := Bytes.ascii "a", children := [.sequence [.element { name := [] }]] },
        .sentinel (Bytes.ascii "a") [60], .scalar (.ofTruth false)] }

def Node.namesakes : Node :=
  .element
    { name := Bytes.ascii "DocType"
      attributes :=
        [⟨[97], .flag false⟩, ⟨[65], .flag true⟩, ⟨[97], .content (.element { name := [] })⟩]
      children := [.element { name := Bytes.ascii "a", children := [.sequence [.element { name := [] }]] },
        .sentinel (Bytes.ascii "a") [60], .scalar (.ofTruth false)] }

/-- The names of `Node.namesakes`, registered. -/
def Sentinels.namesakes : Sentinels := ⟨Sentinels.standard.literals.put (Bytes.ascii "a") [60]⟩

theorem build_describes_namesakes :
    Draft.namesakes.eval (Workspace.after {} []).scope = .ok Node.namesakes ∧
      (∀ e ∈ Node.namesakes.elements, e.name ≠ [] ∧ ∀ a ∈ e.attributes, a.name ≠ []) ∧
      (∀ e ∈ Node.namesakes.elements, e.mark = none) ∧
      ∀ short, (Form.build .namesakes none [Node.namesakes.describe short]).outcome =
        .ok [Node.namesakes] := by
  have made : Draft.namesakes.eval (Workspace.after {} []).scope = .ok Node.namesakes := rfl
  have named : ∀ e ∈ Node.namesakes.elements, e.name ≠ [] ∧ ∀ a ∈ e.attributes, a.name ≠ [] := by
    simp [Node.namesakes, Node.elements, Node.elementsAll, Bytes.ascii]
  have unmarked : ∀ e ∈ Node.namesakes.elements, e.mark = none := by
    simp [Node.namesakes, Node.elements, Node.elementsAll]
  obtain ⟨built, described, flagged⟩ := build_describes .namesakes none
  obtain ⟨built, same, -⟩ := built Node.namesakes named (flagged [] _ _ made)
  refine ⟨made, named, unmarked, ?_⟩
  intro short
  rw [built _ (described short Node.namesakes), same unmarked]

end Hypertext
