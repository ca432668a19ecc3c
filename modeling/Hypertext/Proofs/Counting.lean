import Hypertext.Proofs.Context
import Hypertext.Proofs.Outcome
import Hypertext.Proofs.Quotation
import Mathlib.Data.Set.Card

/-!
# Counting what is built and what is written

A build counts the nodes that it made in a walk of its own, and a serializer counts while it writes.
Both come to the number of places that a forest has, where a place leads through children and members
only (`counts_agree`). What stands inside an attribute is no place, but adds to the bytes.
-/

namespace Hypertext

namespace Node

/-- The children of an element and the members of a sequence. -/
def held : Node → List Node
  | .element e => e.children
  | .sequence members => members
  | _ => []

/-- The node that is reached from another through children and members, by their indices. -/
def at? : Node → List Nat → Option Node
  | n, [] => some n
  | n, i :: path => n.held[i]?.bind (at? · path)

/-- The paths from a node to the nodes of some sort. -/
def paths (P : Node → Prop) (n : Node) : Set (List Nat) := {path | ∃ m, n.at? path = some m ∧ P m}

/-- The places of a forest where there are nodes of some sort. -/
def places (P : Node → Prop) (ns : List Node) : Set (Nat × List Nat) :=
  {place | ∃ n, ns[place.1]? = some n ∧ place.2 ∈ n.paths P}

section Places

variable (P : Node → Prop)

theorem places_nil : places P [] = ∅ := by
  ext place
  simp [places]

/-- The places of a forest are those of its first tree, and those of the others moved up by one. -/
theorem places_cons (n : Node) (ns : List Node) : places P (n :: ns) =
    (fun path => (0, path)) '' n.paths P ∪ (fun place => (place.1 + 1, place.2)) '' places P ns := by
  ext ⟨i, path⟩
  cases i with
  | zero => simp [places]
  | succ i => simp [places]

theorem paths_eq (n : Node) : n.paths P =
    {path | path = [] ∧ P n} ∪ (fun place => place.1 :: place.2) '' places P n.held := by
  ext path
  cases path with
  | nil => simp [paths, at?]
  | cons i path =>
    have step : n.at? (i :: path) = n.held[i]?.bind (at? · path) := rfl
    cases below : n.held[i]? with
    | none => simp [paths, places, step, below]
    | some m => simp [paths, places, step, below]

theorem encard_places_cons (n : Node) (ns : List Node) :
    (places P (n :: ns)).encard = (n.paths P).encard + (places P ns).encard := by
  have first : Function.Injective fun path : List Nat => (0, path) := fun _ _ h => (Prod.mk.inj h).2
  have others : Function.Injective fun place : Nat × List Nat => (place.1 + 1, place.2) := by
    rintro ⟨i, path⟩ ⟨j, path'⟩ h
    simpa using h
  have apart : Disjoint ((fun path => (0, path)) '' n.paths P)
      ((fun place => (place.1 + 1, place.2)) '' places P ns) := by
    rw [Set.disjoint_left]
    rintro place ⟨path, -, rfl⟩ ⟨other, -, same⟩
    simp at same
  rw [places_cons, Set.encard_union_eq apart, first.encard_image, others.encard_image]

theorem encard_paths [DecidablePred P] (n : Node) :
    (n.paths P).encard = ((if P n then 1 else 0 : Nat) : ℕ∞) + (places P n.held).encard := by
  have below : Function.Injective fun place : Nat × List Nat => place.1 :: place.2 := by
    rintro ⟨i, path⟩ ⟨j, path'⟩ h
    simpa using h
  have apart : Disjoint {path | path = [] ∧ P n}
      ((fun place => place.1 :: place.2) '' places P n.held) := by
    rw [Set.disjoint_left]
    rintro path ⟨rfl, -⟩ ⟨place, -, same⟩
    cases same
  have itself : {path : List Nat | path = [] ∧ P n}.encard = ((if P n then 1 else 0 : Nat) : ℕ∞) := by
    by_cases h : P n
    · simp [h]
    · simp [h]
  rw [paths_eq, Set.encard_union_eq apart, below.encard_image, itself]

end Places

end Node

namespace Census

/-- A measure that adds up and finds each node of some sort once. -/
structure Tallies (P : Node → Prop) [DecidablePred P] (f : Census → Nat) : Prop where
  zero : f 0 = 0
  add : ∀ a b, f (a + b) = f a + f b
  head : ∀ n, f (ofNode n) = (if P n then 1 else 0) + f (ofNodes n.held)

theorem tallies_nodes : Tallies (fun _ => True) nodes where
  zero := rfl
  add _ _ := rfl
  head n := by cases n <;> rfl

theorem tallies_elements : Tallies (fun n => n.kind = .element) elements where
  zero := rfl
  add _ _ := rfl
  head n := by cases n <;> rfl

namespace Tallies

variable {P : Node → Prop} [DecidablePred P] {f : Census → Nat}

theorem encard_paths_of_held (tallies : Tallies P f) {n : Node}
    (inside : (Node.places P n.held).encard = f (ofNodes n.held)) :
    (n.paths P).encard = f (ofNode n) := by
  rw [Node.encard_paths, tallies.head, Nat.cast_add, inside]

theorem encard_places_nil (tallies : Tallies P f) : (Node.places P []).encard = f (ofNodes []) := by
  have none : f (ofNodes []) = 0 := tallies.zero
  rw [Node.places_nil, Set.encard_empty, none, Nat.cast_zero]

mutual

theorem encard_paths (tallies : Tallies P f) : (n : Node) → (n.paths P).encard = f (ofNode n)
  | .element ⟨_, _, children, _⟩ => tallies.encard_paths_of_held (tallies.encard_places children)
  | .sequence members => tallies.encard_paths_of_held (tallies.encard_places members)
  | .character _ | .text _ | .verbatim _ | .scalar _ | .sentinel _ _ =>
    tallies.encard_paths_of_held tallies.encard_places_nil

theorem encard_places (tallies : Tallies P f) :
    (ns : List Node) → (Node.places P ns).encard = f (ofNodes ns)
  | [] => tallies.encard_places_nil
  | n :: ns => by
    rw [Node.encard_places_cons, tallies.encard_paths n, tallies.encard_places ns, ofNodes,
      tallies.add, Nat.cast_add]

end

end Tallies

end Census

namespace Attribute

/-- How many bytes an attribute adds to an open tag: an element in it as many as it has when it is
encoded, whatever is counted while it is written. -/
def width (l : Layout) : Attribute Node → Nat
  | ⟨_, .flag false⟩ => 0
  | ⟨name, .flag true⟩ => name.length + (Entity.encode (Bytes.lower name)).length + 4
  | ⟨name, .content v⟩ =>
    name.length + (v.leaves.map fun leaf => (Node.betweenQuotes l leaf).length).sum + 4

theorem length_ofAttribute (l : Layout) (a : Attribute Node) :
    (Markup.ofAttribute l a).length = a.width l := by
  obtain ⟨name, value⟩ := a
  cases value with
  | flag on =>
    cases on with
    | false => rfl
    | true =>
      simp only [Markup.ofAttribute, Markup.assignment, width, List.length_cons, List.length_append,
        List.length_nil, Bytes.length_lower]
      omega
  | content v =>
    simp only [Markup.ofAttribute, Markup.assignment, width, Markup.ofValue_eq_flatMap_leaves,
      List.length_cons, List.length_append, List.length_nil, Bytes.length_lower, List.length_flatMap]
    omega

theorem length_ofAttributes (l : Layout) (as : List (Attribute Node)) :
    (Markup.ofAttributes l as).length = (as.map (width l)).sum := by
  induction as with
  | nil => rfl
  | cons a as ih =>
    rw [Markup.ofAttributes, List.length_append, length_ofAttribute, ih, List.map_cons, List.sum_cons]

end Attribute

/-- Wherever an element stands, its attributes count for nothing but their bytes. -/
theorem totals_fill_element (l : Layout) (c : Context) (name : Bytes) (as : List (Attribute Node))
    (children : List Node) (mark : Option Nat) :
    Render.totals l (c.fill [.element ⟨name, as, children, mark⟩]) =
      let bare := Render.totals l (c.fill [.element ⟨name, [], children, mark⟩])
      { bare with bytes := bare.bytes + (as.map (Attribute.width l)).sum } := by
  have census : Census.ofNodes (c.fill [.element ⟨name, as, children, mark⟩]) =
      Census.ofNodes (c.fill [.element ⟨name, [], children, mark⟩]) := by
    rw [c.census_fill, c.census_fill]
    rfl
  have bytes : (render l (c.fill [.element ⟨name, as, children, mark⟩])).length =
      (render l (c.fill [.element ⟨name, [], children, mark⟩])).length +
        (as.map (Attribute.width l)).sum := by
    rw [render_eq, render_eq, c.ofNodes_fill, c.ofNodes_fill, ← Attribute.length_ofAttributes]
    simp only [Markup.ofNodes, Markup.ofNode, Markup.ofElement, Markup.ofAttributes,
      List.length_append, List.length_cons, List.length_nil]
    omega
  rw [Render.totals_eq, Render.totals_eq, census, bytes]

namespace Serializer

theorem totals_call (w : Serializer) (c : Call) : (w.call c).totals =
    { toCensus := w.totals.toCensus + Census.ofNodes c.content
      bytes := w.totals.bytes + (render w.layout c.content).length } := by
  rw [call_eq]
  rfl

/-- What one request to write adds to the totals of any serializer with the layout. -/
def share (l : Layout) (c : Call) : Totals := (({ layout := l } : Serializer).call c).totals

theorem share_eq (l : Layout) (c : Call) :
    share l c = { toCensus := Census.ofNodes c.content, bytes := (render l c.content).length } := by
  rw [share, totals_call]
  simp only [Nat.zero_add, Totals.mk.injEq, and_true]
  exact zero_add _

theorem totals_calls (w : Serializer) (cs : List Call) :
    (w.calls cs).totals.nodes = w.totals.nodes + (cs.map fun c => (share w.layout c).nodes).sum ∧
      (w.calls cs).totals.elements =
        w.totals.elements + (cs.map fun c => (share w.layout c).elements).sum ∧
      (w.calls cs).totals.bytes = w.totals.bytes + (cs.map fun c => (share w.layout c).bytes).sum := by
  induction cs generalizing w with
  | nil => exact ⟨rfl, rfl, rfl⟩
  | cons c cs ih =>
    have layout : (w.call c).layout = w.layout := by rw [call_eq, layout_advance]
    obtain ⟨nodes, elements, bytes⟩ := ih (w.call c)
    rw [layout, totals_call] at nodes elements bytes
    simp only [List.map_cons, List.sum_cons, share_eq] at nodes elements bytes ⊢
    refine ⟨nodes.trans ?_, elements.trans ?_, bytes.trans ?_⟩
    · rw [Census.nodes_add, Nat.add_assoc]
    · rw [Census.elements_add, Nat.add_assoc]
    · rw [Nat.add_assoc]

end Serializer

/-- Told of a build that succeeded. -/
def Form.builtEvent (items : Nat) (census : Census) : Event :=
  ⟨.info, Bytes.ascii "builder", Bytes.ascii "build",
    Bytes.ascii "built " ++ Numeral.natural items ++ Bytes.ascii " items into " ++
      Numeral.natural census.nodes ++ Bytes.ascii " nodes (" ++ Numeral.natural census.elements ++
      Bytes.ascii " elements)"⟩

/-- The numbers that a build reports are those that a serializer comes to, and reports, when it writes
what was built. In any forest they are the numbers of places, and of places of elements, so that an
attribute adds to the bytes alone. Whatever is written in whatever requests adds up. -/
theorem counts_agree (l : Layout) (sink : Sink) (s : Sentinels) (log : Option Log) :
    (∀ fs ns, (Form.build s log fs).outcome = .ok ns → ∃ census,
      (Form.build s log fs).log = log.map (·.emit (Form.builtEvent fs.length census)) ∧
        (({ layout := l, sink } : Serializer).writeAll ns).totals =
          { toCensus := census, bytes := (render l ns).length } ∧
        ∀ given, (Render.toSink l sink given ns).outcome = .ok () →
          (Render.toSink l sink given ns).log =
            given.map (·.emit (Render.summaryEvent census (render l ns).length))) ∧
    (∀ ns, let w := ({ layout := l, sink } : Serializer).writeAll ns
      (Node.places (fun _ => True) ns).encard = (Census.ofNodes ns).nodes ∧
        (Node.places (fun _ => True) ns).encard = w.totals.nodes ∧
        (Node.places (fun n => n.kind = .element) ns).encard = (Census.ofNodes ns).elements ∧
        (Node.places (fun n => n.kind = .element) ns).encard = w.totals.elements) ∧
    (∀ (c : Context) (name : Bytes) (as : List (Attribute Node)) (children : List Node)
        (mark : Option Nat),
      let full := Render.totals l (c.fill [.element ⟨name, as, children, mark⟩])
      let bare := Render.totals l (c.fill [.element ⟨name, [], children, mark⟩])
      full.nodes = bare.nodes ∧ full.elements = bare.elements ∧
        full.bytes = bare.bytes + (as.map (Attribute.width l)).sum) ∧
    ∀ (w : Serializer) (cs : List Call),
      (w.calls cs).totals.nodes =
          w.totals.nodes + (cs.map fun c => (Serializer.share w.layout c).nodes).sum ∧
        (w.calls cs).totals.elements =
          w.totals.elements + (cs.map fun c => (Serializer.share w.layout c).elements).sum ∧
        (w.calls cs).totals.bytes =
          w.totals.bytes + (cs.map fun c => (Serializer.share w.layout c).bytes).sum := by
  refine ⟨?_, ?_, ?_, Serializer.totals_calls⟩
  · intro fs ns built
    refine ⟨Census.ofNodes ns, ?_, Serializer.totals_writeAll l sink ns, ?_⟩
    · rw [Form.outcome_build] at built
      rw [Form.build, built]
      rfl
    · intro given succeeded
      have fits : ¬(sink.write (render l ns)).failed = true := by
        rw [sink.failed_write_iff]
        exact (Render.outcome_toSink_eq_ok_iff l sink given ns).1 succeeded
      rw [Render.log_toSink, if_neg fits]
  · intro ns w
    have counted : w.totals = { toCensus := Census.ofNodes ns, bytes := (render l ns).length } :=
      Serializer.totals_writeAll l sink ns
    have nodes := Census.tallies_nodes.encard_places ns
    have elements := Census.tallies_elements.encard_places ns
    rw [counted]
    exact ⟨nodes, nodes, elements, elements⟩
  · intro c name as children mark full bare
    have same : full = { bare with bytes := bare.bytes + (as.map (Attribute.width l)).sum } :=
      totals_fill_element l c name as children mark
    rw [same]
    exact ⟨rfl, rfl, rfl⟩

/-- An element with another in its attribute and a void one in it, beside data and a sentinel. -/
def Form.assorted : List (Form Node) :=
  [.list [.list [.symbol [65], .symbol [116], .atom (.element { name := [98], children := [.text [60]] })],
    .list [.symbol (Bytes.ascii "BR")], .atom (.sequence [.text [38]])],
    .list [.flag true, .list []], .symbol (Bytes.ascii "DocType")]

def Form.assembled : List Node :=
  [.element
      { name := [65]
        attributes := [⟨[116], .content (.element { name := [98], children := [.text [60]] })⟩]
        children := [.element { name := Bytes.ascii "BR" }, .sequence [.text [38]]] },
    .sequence [.ofTruth true, .sequence []], Sentinels.doctype]

/-- The sink has room for just what is written. -/
theorem counts_agree_assorted :
    (Form.build .standard (some .attended) Form.assorted).outcome = .ok Form.assembled ∧
      (Form.build .standard (some .attended) Form.assorted).log =
        some (Log.attended.emit (Form.builtEvent 3 ⟨8, 2⟩)) ∧
      (Render.toSink {} { capacity := some 73 } (some .attended) Form.assembled).outcome = .ok () ∧
      (Render.toSink {} { capacity := some 73 } (some .attended) Form.assembled).log =
        some (Log.attended.emit (Render.summaryEvent ⟨8, 2⟩ 73)) ∧
      (Node.places (fun n => n.kind = .element) Form.assembled).encard = 2 := by
  have built : (Form.build .standard (some .attended) Form.assorted).outcome = .ok Form.assembled := rfl
  have size : (render {} Form.assembled).length = 73 := by decide +kernel
  have succeeded : (Render.toSink {} { capacity := some 73 } (some .attended) Form.assembled).outcome =
      .ok () := by
    decide +kernel
  obtain ⟨agree, places, -⟩ := counts_agree {} { capacity := some 73 } .standard (some .attended)
  obtain ⟨census, told, counted, reported⟩ := agree Form.assorted Form.assembled built
  have same : census = ⟨8, 2⟩ := (congrArg Totals.toCensus counted).symm.trans (by decide)
  subst same
  have written := reported (some .attended) succeeded
  rw [size] at written
  exact ⟨built, told, succeeded, written, (places Form.assembled).2.2.1⟩

end Hypertext
