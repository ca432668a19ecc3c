import Hypertext.Proofs.Registry

/-!
# Properties that new trees inherit

Drafts and forms put trees together from leaves and from nodes that are at hand, and the elements that
they add are new. A property of nodes that holds of the leaves and passes to a new element, or to a
sequence, from all that it holds is therefore had by whatever is made (`Draft.inherits_eval`,
`Form.Item.inherits`).
-/

namespace Hypertext

namespace Node

/-- The content of an attribute has a property. It is never a truth value, as that would be a flag. -/
def ContentHas (P : Node → Prop) : AttributeValue Node → Prop
  | .flag _ => True
  | .content n => n.truth? = none ∧ P n

structure Inherited (P : Node → Prop) : Prop where
  leaf : ∀ n : Node, n.kind ≠ .element → n.kind ≠ .sequence → P n
  sequence : ∀ members, (∀ n ∈ members, P n) → P (.sequence members)
  element : ∀ name attributes children, (∀ a ∈ attributes, ContentHas P a.value) →
    (∀ n ∈ children, P n) → P (.element ⟨name, attributes, children, none⟩)

theorem contentHas_ofNode {P : Node → Prop} {n : Node} (h : P n) : ContentHas P (.ofNode n) := by
  cases truth : n.truth? with
  | some on =>
    rw [Form.ofNode_eq_flag_iff.2 truth]
    exact trivial
  | none =>
    rw [Form.ofNode_eq_content_iff.2 ⟨truth, rfl⟩]
    exact ⟨truth, h⟩

end Node

variable {P : Node → Prop}

namespace Draft

variable {scope : Scope}

mutual

theorem inherits_eval (inherited : Node.Inherited P)
    (known : ∀ name index n, scope name index = some n → P n) :
    (d : Draft) → ∀ n, d.eval scope = .ok n → P n
  | .character _, n, h | .text _, n, h | .verbatim _, n, h | .scalar _, n, h | .sentinel _ _, n, h => by
    cases h
    exact inherited.leaf _ nofun nofun
  | .missingScalar, n, h => by cases h
  | .kept name index, n, h => by
    rw [eval] at h
    split at h
    · rename_i found
      cases h
      exact known name index n found
    · cases h
  | .sequence members, n, h => by
    obtain ⟨ns, made, eq⟩ := Form.bind_eq_ok_iff.1 h
    cases eq
    exact inherited.sequence ns (inherits_evalAll inherited known members ns made)
  | .element ⟨name, attributes, children, _⟩, n, h => by
    obtain ⟨e, made, eq⟩ := Form.bind_eq_ok_iff.1 h
    cases eq
    rw [evalElement] at made
    obtain ⟨as, hattributes, made⟩ := Form.bind_eq_ok_iff.1 made
    obtain ⟨ns, hchildren, eq⟩ := Form.bind_eq_ok_iff.1 made
    cases eq
    exact inherited.element name as ns (inherits_evalAttributes inherited known attributes as hattributes)
      (inherits_evalAll inherited known children ns hchildren)

theorem inherits_evalAll (inherited : Node.Inherited P)
    (known : ∀ name index n, scope name index = some n → P n) :
    (ds : List Draft) → ∀ ns, evalAll scope ds = .ok ns → ∀ n ∈ ns, P n
  | [], ns, h => by
    cases h
    exact List.forall_mem_nil _
  | d :: ds, ns, h => by
    obtain ⟨n, ns, hn, hns, rfl⟩ := Form.cons_eq_ok_iff.1 h
    exact List.forall_mem_cons.2 ⟨inherits_eval inherited known d n hn,
      inherits_evalAll inherited known ds ns hns⟩

theorem inherits_evalAttributes (inherited : Node.Inherited P)
    (known : ∀ name index n, scope name index = some n → P n) :
    (as : List (Attribute Draft)) → ∀ made, evalAttributes scope as = .ok made →
      ∀ a ∈ made, Node.ContentHas P a.value
  | [], made, h => by
    cases h
    exact List.forall_mem_nil _
  | ⟨_, value⟩ :: rest, made, h => by
    rw [evalAttributes] at h
    obtain ⟨v, hv, h⟩ := Form.bind_eq_ok_iff.1 h
    obtain ⟨others, hothers, eq⟩ := Form.bind_eq_ok_iff.1 h
    cases eq
    exact List.forall_mem_cons.2 ⟨inherits_evalValue inherited known value v hv,
      inherits_evalAttributes inherited known rest others hothers⟩

theorem inherits_evalValue (inherited : Node.Inherited P)
    (known : ∀ name index n, scope name index = some n → P n) :
    (value : AttributeValue Draft) → ∀ v, evalValue scope value = .ok v → Node.ContentHas P v
  | .flag _, v, h => by
    cases h
    exact trivial
  | .content d, v, h => by
    obtain ⟨n, made, eq⟩ := Form.bind_eq_ok_iff.1 h
    cases eq
    exact Node.contentHas_ofNode (inherits_eval inherited known d n made)

end

end Draft

namespace Form

mutual

/-- Every atom has a property. -/
def Every {α : Type} (p : α → Prop) : Form α → Prop
  | .atom a => p a
  | .list fs => EveryAll p fs
  | .symbol _ | .flag _ => True

def EveryAll {α : Type} (p : α → Prop) : List (Form α) → Prop
  | [] => True
  | f :: fs => Every p f ∧ EveryAll p fs

end

section

variable {α β ε : Type} {p : β → Prop} {make : α → Except ε β}

mutual

theorem every_mapAtoms (h : ∀ a b, make a = .ok b → p b) :
    (f : Form α) → ∀ g, mapAtoms make f = .ok g → Every p g
  | .symbol _, g, made | .flag _, g, made => by
    cases made
    exact trivial
  | .atom a, g, made => by
    rw [mapAtoms] at made
    obtain ⟨b, hb, eq⟩ := bind_eq_ok_iff.1 made
    cases eq
    exact h a b hb
  | .list fs, g, made => by
    rw [mapAtoms] at made
    obtain ⟨gs, hgs, eq⟩ := bind_eq_ok_iff.1 made
    cases eq
    exact every_mapAtomsAll h fs gs hgs

theorem every_mapAtomsAll (h : ∀ a b, make a = .ok b → p b) :
    (fs : List (Form α)) → ∀ gs, mapAtomsAll make fs = .ok gs → EveryAll p gs
  | [], gs, made => by
    cases made
    exact trivial
  | f :: fs, gs, made => by
    obtain ⟨g, gs, hg, hgs, rfl⟩ := cons_eq_ok_iff.1 made
    exact ⟨every_mapAtoms h f g hg, every_mapAtomsAll h fs gs hgs⟩

end

end

variable {s : Sentinels}

mutual

theorem Data.inherits (inherited : Node.Inherited P) :
    (f : Form Node) → Every P f → ∀ {n}, Data s f n → P n
  | .atom m, known, n, h => by
    cases h
    exact known
  | .flag _, _, n, h | .symbol _, _, n, h => by
    cases h
    exact inherited.leaf _ nofun nofun
  | .list fs, known, n, h => by
    cases h with
    | list members => exact inherited.sequence _ (Data.inheritsAll inherited fs known members)

theorem Data.inheritsAll (inherited : Node.Inherited P) : (fs : List (Form Node)) → EveryAll P fs →
    ∀ {ns}, List.Forall₂ (Data s) fs ns → ∀ n ∈ ns, P n
  | [], _, ns, h => by
    cases h
    exact List.forall_mem_nil _
  | f :: fs, known, ns, h => by
    cases h with
    | cons first rest =>
      exact List.forall_mem_cons.2 ⟨Data.inherits inherited f known.1 first,
        Data.inheritsAll inherited fs known.2 rest⟩

end

theorem Value.inherits (inherited : Node.Inherited P) {f : Form Node} (known : Every P f)
    {v : AttributeValue Node} (h : Value s f v) : Node.ContentHas P v := by
  cases h with
  | flag | truth => exact trivial
  | atom truth => exact ⟨truth, known⟩
  | list made => exact ⟨truth?_of_data_list made, made.inherits inherited _ known⟩

theorem Attributes.inherits (inherited : Node.Inherited P) {entries : List (Form Node)}
    (known : EveryAll P entries) {as : List (Attribute Node)} (h : Attributes s entries as) :
    ∀ a ∈ as, Node.ContentHas P a.value := by
  induction h with
  | nil => exact List.forall_mem_nil _
  | cons hkey hvalue hrest ih =>
    exact List.forall_mem_cons.2 ⟨hvalue.inherits inherited known.2.1, ih known.2.2⟩

mutual

theorem Item.inherits (inherited : Node.Inherited P) :
    (f : Form Node) → Every P f → ∀ {n}, Item s f n → P n
  | .list (.symbol name :: rest), known, n, h => by
    cases h with
    | element _ made =>
      exact inherited.element _ _ _ (List.forall_mem_nil _) (Item.inheritsAll inherited rest known.2 made)
    | data plain _ => cases plain
  | .list (.list (.symbol name :: entries) :: rest), known, n, h => by
    cases h with
    | attributed _ hentries made =>
      exact inherited.element _ _ _ (hentries.inherits inherited known.1.2)
        (Item.inheritsAll inherited rest known.2 made)
    | data plain _ => cases plain
  | .symbol _, known, n, h | .flag _, known, n, h | .atom _, known, n, h | .list [], known, n, h
  | .list (.flag _ :: _), known, n, h | .list (.atom _ :: _), known, n, h
  | .list (.list [] :: _), known, n, h | .list (.list (.flag _ :: _) :: _), known, n, h
  | .list (.list (.atom _ :: _) :: _), known, n, h
  | .list (.list (.list _ :: _) :: _), known, n, h => by
    cases h with
    | data _ made => exact made.inherits inherited _ known

theorem Item.inheritsAll (inherited : Node.Inherited P) : (fs : List (Form Node)) → EveryAll P fs →
    ∀ {ns}, List.Forall₂ (Item s) fs ns → ∀ n ∈ ns, P n
  | [], _, ns, h => by
    cases h
    exact List.forall_mem_nil _
  | f :: fs, known, ns, h => by
    cases h with
    | cons first rest =>
      exact List.forall_mem_cons.2 ⟨Item.inherits inherited f known.1 first,
        Item.inheritsAll inherited fs known.2 rest⟩

end

end Form

end Hypertext
