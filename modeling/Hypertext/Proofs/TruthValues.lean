import Hypertext.Proofs.Holdings
import Hypertext.Proofs.Settled
import Hypertext.Proofs.Telling
import Hypertext.Proofs.ValuePlaces

/-!
# Truth values and flags

As the value of an attribute a truth value is a flag, however it is worded and whichever way it comes there,
and anywhere else it is a scalar like any other (`truth_values_are_flags`).
-/

namespace Hypertext

namespace Node

theorem Settled.of_below {n m : Node} {step : Step} (h : n.Settled) (below : n.below? step = some m) :
    m.Settled := by
  cases n with
  | element e =>
    cases step with
    | held i => exact settledAll_iff.1 h.2 m (List.mem_of_getElem? below)
    | value i =>
      obtain ⟨a, stored, content⟩ := Option.bind_eq_some_iff.1 below
      have value := settledAttributes_iff.1 h.1 a (List.mem_of_getElem? stored)
      rw [AttributeValue.content?_eq_some_iff.1 content] at value
      exact value.2
  | sequence members =>
    cases step with
    | held i => exact settledAll_iff.1 h m (List.mem_of_getElem? below)
    | value i => cases below
  | _ => cases step <;> cases below

theorem Settled.of_within {e : Element Node} {n : Node} (h : n.Settled) (within : Within e n) :
    (element e).Settled := by
  obtain ⟨path, found⟩ := within
  induction path generalizing n with
  | nil =>
    cases found
    exact h
  | cons step path ih =>
    obtain ⟨m, below, found⟩ := Option.bind_eq_some_iff.1 found
    exact ih (h.of_below below) found

end Node

namespace Workspace

/-- An element that a workspace holds or has begun, or that can be made with what it holds. -/
inductive Obtains (w : Workspace) (e : Element Node) : Prop
  | held (held : w.Holds e)
  | unfinished {key : Bytes} (stored : w.elements.get? key = some e)
  | drafted {d : Draft} {n : Node} (made : d.eval w.scope = .ok n) (within : Node.Within e n)
  | built {s : Sentinels} {log : Option Log} {forms : List (Form Draft)} {fs : List (Form Node)}
      {ns : List Node} {n : Node} (read : Form.mapAtomsAll (Draft.eval w.scope) forms = .ok fs)
      (made : (Form.build s log fs).outcome = .ok ns) (member : n ∈ ns) (within : Node.Within e n)
  | builtAlone {s : Sentinels} {log : Option Log} {form : Form Draft} {f : Form Node} {n : Node}
      (read : form.mapAtoms (Draft.eval w.scope) = .ok f)
      (made : (Form.buildItem s log f).outcome = .ok n) (within : Node.Within e n)

variable {w : Workspace}

theorem Settled.of_obtains (h : w.Settled) {e : Element Node} (obtained : w.Obtains e) :
    Node.Settled (.element e) := by
  cases obtained with
  | held held =>
    cases held with
    | kept stored member within =>
      exact (Node.settledAll_iff.1 (h.kept _ _ stored) _ member).of_within within
    | unfinished stored below within => exact ((h.elements _ _ stored).of_below below).of_within within
  | unfinished stored => exact h.elements _ e stored
  | drafted made within => exact (Draft.settled_eval h.scope _ _ made).of_within within
  | built read made member within =>
    rw [Form.outcome_build, Form.items_eq_ok_iff] at made
    have atoms := Form.every_mapAtomsAll (Draft.settled_eval h.scope) _ _ read
    exact (Form.Item.inheritsAll Node.inherited_settled _ atoms made _ member).of_within within
  | builtAlone read made within =>
    rw [Form.outcome_buildItem, Form.item_eq_ok_iff] at made
    have atoms := Form.every_mapAtoms (Draft.settled_eval h.scope) _ _ read
    exact (Form.Item.inherits Node.inherited_settled _ atoms made).of_within within

theorem step_addAttribute_congr {value value' : AttributeValue Draft}
    (same : Draft.evalValue w.scope value = Draft.evalValue w.scope value') (key name : Bytes) :
    w.step (.addAttribute key name value) = w.step (.addAttribute key name value') := by
  have performed : w.forget.addAttribute key name value = w.forget.addAttribute key name value' := by
    have seen : w.forget.scope = w.scope := rfl
    simp only [addAttribute, seen, same]
  rw [step_eq, step_eq, perform, perform, performed]

end Workspace

namespace Form

variable (s : Sentinels) (log : Option Log)

/-- What is built tells forms in the place of a value apart by the values alone. -/
theorem build_value_congr (place : ValuePlace) {f g : Form Node}
    (same : ∀ name, attributeValue s name f = attributeValue s name g) :
    build s log (place.fill f) = build s log (place.fill g) := by
  obtain ⟨name, reads⟩ := reads_value (s := s) [] place
  rw [build, build, reads.congr (same name), place.length_fill f g]

theorem build_inlet (place : ValuePlace) (inlet : Inlet) :
    (∃ m, ∀ n, (build s log (place.fill (inlet.fill n))).outcome = .error m) ∨
      ∃ (c : Socket) (seat : Seat), ∀ n, (build s log (place.fill (inlet.fill n))).outcome =
        .ok (c.fill (.content (seat.fill n))) := by
  simp only [outcome_build]
  obtain ⟨name, reads⟩ := reads_value (s := s) [] place
  rcases inlet.data_fill (s := s) with ⟨fault, failed⟩ | ⟨seat, filled⟩
  · have wrong (n : Node) : attributeValue s name (inlet.fill n) = .error fault := by
      rw [inlet.attributeValue_fill, failed]
      rfl
    exact .inl (reads.of_error wrong)
  · have value (n : Node) : attributeValue s name (inlet.fill n) = .ok (.content (seat.fill n)) := by
      rw [inlet.attributeValue_fill, filled, ← seat.ofNode_fill]
      rfl
    rcases reads.of_ok value with failed | ⟨-, ⟨c, rfl⟩, filled⟩
    · exact .inl failed
    · exact .inr ⟨c, seat, filled⟩

end Form

/-- In whatever a workspace can come to hold, or to make of that, an attribute that is no flag has no truth
value as its value, and so is what its value makes of it again. A truth value that is given as the value of
an attribute is the same as its flag. Where a node stands among others, as a child or in the value of an
attribute, a truth value stays a scalar and is written as its text. -/
theorem truth_values_are_flags (cs : List Command) (s : Sentinels) (log : Option Log) :
    let now := Workspace.after {} cs
    (∀ e, now.Obtains e → ∀ a ∈ e.attributes,
      (a.value.isFlag = true → a.value.value = .sequence []) ∧
      (a.value.isFlag = false → a.value.value.truth? = none ∧
        AttributeValue.ofNode a.value.value = a.value)) ∧
    (∀ d u on, d.eval now.scope = .ok (.scalar u) → u.truth? = some on →
      Draft.evalValue now.scope (.content d) = Draft.evalValue now.scope (.flag on) ∧
      ∀ key name, now.step (.addAttribute key name (.content d)) =
        now.step (.addAttribute key name (.flag on))) ∧
    (∀ (place : Form.ValuePlace) u on, u.truth? = some on →
      Form.build s log (place.fill (.atom (.scalar u))) = Form.build s log (place.fill (.flag on))) ∧
    (∀ place : Form.Place,
      (∃ m, ∀ u, (Form.build s log (place.fill (.scalar u))).outcome = .error m) ∨
      ∃ c : Context, ∀ u,
        (Form.build s log (place.fill (.scalar u))).outcome = .ok (c.fill [.scalar u]) ∧
        ∀ l, render l (c.fill [.scalar u]) = c.opened l ++ Entity.encode u.text ++ c.closed l) ∧
    ∀ (place : Form.ValuePlace) (inlet : Form.Inlet),
      (∃ m, ∀ u, (Form.build s log (place.fill (inlet.fill (.scalar u)))).outcome = .error m) ∨
      ∃ (c : Socket) (seat : Seat), ∀ u,
        (Form.build s log (place.fill (inlet.fill (.scalar u)))).outcome =
          .ok (c.fill (.content (seat.fill (.scalar u)))) ∧
        ∀ l, render l (c.fill (.content (seat.fill (.scalar u)))) =
          c.opened l ++ (seat.opened l ++ Entity.encode u.text ++ seat.closed l) ++ c.closed l := by
  intro now
  have settled : now.Settled := Workspace.settled_after Workspace.settled_empty cs
  have flag_of_truth {u : Scalar} {on : Bool} (truth : u.truth? = some on) :
      AttributeValue.ofNode (.scalar u) = .flag on := Form.ofNode_eq_flag_iff.2 truth
  refine ⟨?_, ?_, ?_, ?_, ?_⟩
  · intro e obtained a member
    have value := Node.settledAttributes_iff.1 (settled.of_obtains obtained).1 a member
    cases given : a.value with
    | flag on => exact ⟨fun _ => rfl, nofun⟩
    | content n =>
      rw [given] at value
      exact ⟨nofun, fun _ => ⟨value.1, Form.ofNode_eq_content_iff.2 ⟨value.1, rfl⟩⟩⟩
  · intro d u on made truth
    have value : Draft.evalValue now.scope (.content d) = Draft.evalValue now.scope (.flag on) := by
      rw [Draft.evalValue, Draft.evalValue, made, ← flag_of_truth truth]
      rfl
    exact ⟨value, Workspace.step_addAttribute_congr value⟩
  · intro place u on truth
    refine Form.build_value_congr s log place fun name => ?_
    rw [Form.attributeValue, Form.attributeValue, flag_of_truth truth]
  · intro place
    simp only [Form.outcome_build]
    rcases Form.uniform_items (s := s) [] place with ⟨m, failed⟩ | ⟨c, filled⟩
    · exact .inl ⟨m, fun u => failed _⟩
    · refine .inr ⟨c, fun u => ⟨filled _, fun l => ?_⟩⟩
      rw [render_eq, c.ofNodes_fill, Markup.ofNodes, Markup.ofNodes, List.append_nil]
      rfl
  · intro place inlet
    rcases Form.build_inlet s log place inlet with ⟨m, failed⟩ | ⟨c, seat, filled⟩
    · exact .inl ⟨m, fun u => failed _⟩
    · refine .inr ⟨c, seat, fun u => ⟨filled _, fun l => ?_⟩⟩
      rw [c.render_fill_content, seat.ofValue_fill]
      rfl

/-- A truth value in words that look like markup. -/
def Scalar.shouted : Scalar := .worded true (Bytes.ascii "<YES>")

/-- One attribute that is the truth value, and one that holds it in a sequence. -/
def Draft.shouted : Draft :=
  .element
    { name := [105]
      attributes := [⟨[97], .content (.scalar .shouted)⟩, ⟨[98], .content (.sequence [.scalar .shouted])⟩] }

def Form.ValuePlace.nested : Form.ValuePlace :=
  .child [] [] (.bare [112]) (.here [.flag true] [] [105] [(.symbol [97], .flag false)] (.symbol [98]) [] [])

theorem truth_values_are_flags_shouted :
    let now := Workspace.after {} [.keep [] .shouted]
    let e : Element Node := ⟨[105], [⟨[97], .flag true⟩, ⟨[98], .content (.sequence [.scalar .shouted])⟩],
      [], some 0⟩
    let place := Form.ValuePlace.nested
    let listed := Form.build {} none (place.fill (.list [.atom (.scalar .shouted)]))
    now.Obtains e ∧ AttributeValue.ofNode (.sequence [.scalar .shouted]) =
        .content (.sequence [.scalar .shouted]) ∧
      Form.build {} none (place.fill (.atom (.scalar .shouted))) =
        Form.build {} none (place.fill (.flag true)) ∧
      ∃ ns, listed.outcome = .ok ns ∧ render { lineBreaks := false } ns =
        Bytes.ascii "<p>true<i b=\"&lt;YES&gt;\"></i></p>" := by
  intro now e place listed
  have stored : now.kept.get? [] = some [.element e] := rfl
  have obtained : now.Obtains e := .held (.kept stored List.mem_cons_self ⟨[], rfl⟩)
  obtain ⟨values, -, same, -, -⟩ := truth_values_are_flags [.keep [] .shouted] {} none
  have kept := (values e obtained _ (List.mem_cons_of_mem _ List.mem_cons_self)).2 rfl
  exact ⟨obtained, kept.2, same place .shouted true rfl, _, rfl, by decide +kernel⟩

end Hypertext
