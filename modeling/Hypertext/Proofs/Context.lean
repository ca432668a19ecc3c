import Hypertext.Form.Report
import Hypertext.Proofs.Grammar
import Hypertext.Proofs.Markup
import Mathlib.Algebra.GroupWithZero.Nat

/-!
# Trees with a hole

A context is a forest with one hole, among the children of an element, the members of a sequence or at
the top. What a render makes of the surroundings does not depend on what fills the hole, and what it makes
of that does not depend on the surroundings (`render_fill`). The contexts of forms in which an atom
stands for a node that is at hand are read as contexts of trees (`Form.uniform_items`).
-/

namespace Hypertext

/-- A node without the nodes that it holds. -/
inductive Shell
  | sequence
  | element (name : Bytes) (attributes : List (Attribute Node)) (mark : Option Nat)

def Shell.enclose : Shell → List Node → Node
  | .sequence, ns => .sequence ns
  | .element name attributes mark, ns => .element ⟨name, attributes, ns, mark⟩

inductive Context
  | hole (before after : List Node)
  | within (before after : List Node) (shell : Shell) (inner : Context)

/-- The nodes that fill the hole stand beside each other in it. -/
def Context.fill : Context → List Node → List Node
  | .hole before after, ns => before ++ (ns ++ after)
  | .within before after shell inner, ns => before ++ shell.enclose (inner.fill ns) :: after

namespace Shell

def opened (l : Layout) : Shell → Bytes
  | sequence => []
  | element name attributes _ =>
    60 :: Bytes.lower name ++ Markup.ofAttributes l attributes ++ 62 :: l.lineEnd

def closed (l : Layout) : Shell → Bytes
  | sequence => []
  | element name _ _ => Markup.closeTag l (Bytes.lower name)

def census : Shell → Census
  | sequence => ⟨1, 0⟩
  | element _ _ _ => ⟨1, 1⟩

theorem ofNode_enclose (l : Layout) (shell : Shell) (ns : List Node) :
    Markup.ofNode l (shell.enclose ns) = shell.opened l ++ Markup.ofNodes l ns ++ shell.closed l := by
  cases shell with
  | sequence => simp [enclose, opened, closed, Markup.ofNode]
  | element name attributes mark =>
    simp [enclose, opened, closed, Markup.ofNode, Markup.ofElement]

theorem census_enclose (shell : Shell) (ns : List Node) :
    Census.ofNode (shell.enclose ns) = shell.census + Census.ofNodes ns := by
  cases shell <;> rfl

end Shell

namespace Context

/-- What stands before the hole. -/
def opened (l : Layout) : Context → Bytes
  | hole before _ => render l before
  | within before _ shell inner => render l before ++ shell.opened l ++ inner.opened l

/-- What stands behind the hole. -/
def closed (l : Layout) : Context → Bytes
  | hole _ after => render l after
  | within _ after shell inner => inner.closed l ++ shell.closed l ++ render l after

/-- The nodes around the hole. -/
def census : Context → Census
  | hole before after => Census.ofNodes before + Census.ofNodes after
  | within before after shell inner =>
    Census.ofNodes before + (shell.census + inner.census) + Census.ofNodes after

theorem ofNodes_fill (l : Layout) (c : Context) (ns : List Node) :
    Markup.ofNodes l (c.fill ns) = c.opened l ++ Markup.ofNodes l ns ++ c.closed l := by
  induction c with
  | hole before after =>
    simp only [fill, opened, closed, Markup.ofNodes_append, render_eq, List.append_assoc]
  | within before after shell inner ih =>
    simp only [fill, opened, closed, Markup.ofNodes_append, Markup.ofNodes, Shell.ofNode_enclose, ih,
      render_eq, List.append_assoc]

theorem census_fill (c : Context) (ns : List Node) :
    Census.ofNodes (c.fill ns) = c.census + Census.ofNodes ns := by
  induction c with
  | hole before after =>
    rw [fill, census, Census.ofNodes_append, Census.ofNodes_append, add_assoc,
      add_comm (Census.ofNodes ns)]
  | within before after shell inner ih =>
    rw [fill, census, Census.ofNodes_append, Census.ofNodes, Shell.census_enclose, ih]
    simp only [add_assoc, add_comm (Census.ofNodes ns)]

end Context

namespace Render

/-- The totals of a serializer that is given some nodes and nothing else. -/
def totals (l : Layout) (ns : List Node) : Totals := (({ layout := l } : Serializer).writeAll ns).totals

theorem totals_eq (l : Layout) (ns : List Node) :
    totals l ns = { toCensus := Census.ofNodes ns, bytes := (render l ns).length } :=
  Serializer.totals_writeAll l {} ns

end Render

theorem render_eq_flatMap (l : Layout) (ns : List Node) :
    render l ns = ns.flatMap fun n => render l [n] := by
  induction ns with
  | nil => rfl
  | cons n ns ih => rw [List.flatMap_cons, ← ih, ← render_append, List.singleton_append]

/-- Whatever adds up over two forests adds up over the nodes of one. -/
theorem measure_ofNodes {f : Census → Nat} (zero : f 0 = 0) (add : ∀ a b, f (a + b) = f a + f b)
    (ns : List Node) : f (Census.ofNodes ns) = (ns.map fun n => f (Census.ofNodes [n])).sum := by
  induction ns with
  | nil => exact zero
  | cons n ns ih =>
    rw [List.map_cons, List.sum_cons, ← ih, ← add, ← Census.ofNodes_append, List.singleton_append]

namespace Form

/-- Where a node is made, it is an error whatever the node, or it fills one context. -/
def Uniform {ε : Type} (make : Node → Except ε (List Node)) : Prop :=
  (∃ e, ∀ n, make n = .error e) ∨ ∃ c : Context, ∀ n, make n = .ok (c.fill [n])

/-- The head of a tag form. -/
inductive Heading
  | bare (name : Bytes)
  | attributed (name : Bytes) (entries : List (Form Node))

namespace Heading

def form : Heading → Form Node
  | bare name => .symbol name
  | attributed name entries => .list (.symbol name :: entries)

def name : Heading → Bytes
  | bare name | attributed name _ => name

def attributes (s : Sentinels) : Heading → Except Fault (List (Attribute Node))
  | bare _ => .ok []
  | attributed _ entries => Form.attributes s entries

end Heading

/-- A place for an atom in a list of data. -/
inductive DataPlace
  | here (before after : List (Form Node))
  | within (before after : List (Form Node)) (inner : DataPlace)

def DataPlace.fill : DataPlace → Node → List (Form Node)
  | here before after, n => before ++ .atom n :: after
  | within before after inner, n => before ++ .list (inner.fill n) :: after

/-- A place for an atom in a list of items: an item, or inside a child of an element, or inside data.
The entries of an attribute list are no places, as values are written in a way of their own. -/
inductive Place
  | here (before after : List (Form Node))
  | child (before after : List (Form Node)) (heading : Heading) (inner : Place)
  | data (before after : List (Form Node)) (inner : DataPlace)
    (plain : ∀ n, (Form.list (inner.fill n)).isTagForm = false)

def Place.fill : Place → Node → List (Form Node)
  | here before after, n => before ++ .atom n :: after
  | child before after heading inner, n => before ++ .list (heading.form :: inner.fill n) :: after
  | data before after inner _, n => before ++ .list (inner.fill n) :: after

section Reads

variable {ι φ ε α β γ δ κ : Type}

/-- Each `i` is read, and only what is read is used, in one way for all of them. -/
def Reads (read : ι → Except φ β) (shape : (β → α) → Prop) (make : ι → Except ε α) : Prop :=
  (∃ e, ∀ i, make i = .error e) ∨
    ∃ (fail : φ → ε) (next : β → Except ε α), (∀ i, make i = (read i).mapError fail >>= next) ∧
      ((∃ e, ∀ b, next b = .error e) ∨ ∃ use, shape use ∧ ∀ b, next b = .ok (use b))

namespace Reads

variable {read : ι → Except φ β} {shape : (β → α) → Prop} {make : ι → Except ε α}

theorem self (read : ι → Except φ β) : Reads read (· = id) read := by
  refine .inr ⟨id, .ok, fun i => ?_, .inr ⟨id, rfl, fun _ => rfl⟩⟩
  cases read i <;> rfl

theorem mapError (h : Reads read shape make) (g : ε → κ) : Reads read shape fun i => (make i).mapError g := by
  rcases h with ⟨e, failed⟩ | ⟨fail, next, made, used⟩
  · exact .inl ⟨g e, fun i => congrArg (Except.mapError g) (failed i)⟩
  · refine .inr ⟨g ∘ fail, fun b => (next b).mapError g, fun i => ?_, ?_⟩
    · simp only [made]
      cases read i <;> rfl
    · rcases used with ⟨e, failed⟩ | ⟨use, shaped, used⟩
      · exact .inl ⟨g e, fun b => congrArg (Except.mapError g) (failed b)⟩
      · exact .inr ⟨use, shaped, fun b => congrArg (Except.mapError g) (used b)⟩

/-- What is made before and after it is made once for all. -/
theorem frame {shape' : (β → κ) → Prop} (h : Reads read shape make) (x : Except ε γ) (y : Except ε δ)
    (put : γ → α → δ → κ) (shapes : ∀ c use d, shape use → shape' fun b => put c (use b) d) :
    Reads read shape' fun i => do
      let c ← x
      let a ← make i
      let d ← y
      return put c a d := by
  cases x with
  | error e => exact .inl ⟨e, fun i => rfl⟩
  | ok c =>
    rcases h with ⟨e, failed⟩ | ⟨fail, next, made, used⟩
    · refine .inl ⟨e, fun i => ?_⟩
      simp only [failed]
      rfl
    · refine .inr ⟨fail, fun b => do return put c (← next b) (← y), fun i => ?_, ?_⟩
      · simp only [made]
        cases read i <;> rfl
      · rcases used with ⟨e, failed⟩ | ⟨use, shaped, used⟩
        · refine .inl ⟨e, fun b => ?_⟩
          simp only [failed]
          rfl
        · simp only [used]
          cases y with
          | error e => exact .inl ⟨e, fun b => rfl⟩
          | ok d => exact .inr ⟨_, shapes c use d shaped, fun b => rfl⟩

theorem congr (h : Reads read shape make) {i j : ι} (same : read i = read j) : make i = make j := by
  rcases h with ⟨e, failed⟩ | ⟨fail, next, made, -⟩
  · rw [failed, failed]
  · rw [made, made, same]

theorem of_error (h : Reads read shape make) {pick : κ → ι} {fault : φ}
    (wrong : ∀ k, read (pick k) = .error fault) : ∃ e, ∀ k, make (pick k) = .error e := by
  rcases h with ⟨e, failed⟩ | ⟨fail, next, made, -⟩
  · exact ⟨e, fun k => failed (pick k)⟩
  · refine ⟨fail fault, fun k => ?_⟩
    rw [made, wrong]
    rfl

theorem of_ok (h : Reads read shape make) {pick : κ → ι} {found : κ → β}
    (right : ∀ k, read (pick k) = .ok (found k)) :
    (∃ e, ∀ k, make (pick k) = .error e) ∨ ∃ use, shape use ∧ ∀ k, make (pick k) = .ok (use (found k)) := by
  rcases h with ⟨e, failed⟩ | ⟨fail, next, made, ⟨e, failed⟩ | ⟨use, shaped, used⟩⟩
  · exact .inl ⟨e, fun k => failed (pick k)⟩
  · refine .inl ⟨e, fun k => ?_⟩
    rw [made, right, ← failed (found k)]
    rfl
  · refine .inr ⟨use, shaped, fun k => ?_⟩
    rw [made, right, ← used (found k)]
    rfl

end Reads

end Reads

variable {s : Sentinels}

theorem item_heading (path : List Bytes) (heading : Heading) (rest : List (Form Node)) :
    item s path (.list (heading.form :: rest)) =
      if heading.name = [] then .error ⟨.emptyTagName, path⟩ else do
        let attributes ← (heading.attributes s).mapError (⟨·, path ++ [heading.name]⟩)
        let children ← items s (path ++ [heading.name]) rest
        return .element ⟨heading.name, attributes, children, none⟩ := by
  cases heading <;> rfl

theorem items_eq_mapM (path : List Bytes) (fs : List (Form Node)) :
    items s path fs = fs.mapM (item s path) := by
  induction fs with
  | nil => rfl
  | cons f fs ih => rw [items, ih, List.mapM_cons]

theorem dataAll_eq_mapM (fs : List (Form Node)) : dataAll s fs = fs.mapM (data s) := by
  induction fs with
  | nil => rfl
  | cons f fs ih => rw [dataAll, ih, List.mapM_cons]

/-- If one item depends on what is read and on nothing else, so does a list of items around it. -/
theorem Reads.among {ι φ β : Type} {read : ι → Except φ β} {shape : (β → List Node) → Prop}
    {hole : ι → Form Node} {path : List Bytes} (before after : List (Form Node))
    (h : Reads read (fun use => ∀ ls rs, shape fun b => ls ++ use b :: rs) fun i =>
      item s path (hole i)) :
    Reads read shape fun i => items s path (before ++ hole i :: after) := by
  simp only [items_eq_mapM, List.mapM_append, List.mapM_cons, bind_assoc, pure_bind]
  exact h.frame (before.mapM (item s path)) (after.mapM (item s path)) (fun ls n rs => ls ++ n :: rs)
    fun ls use rs placed => placed ls rs

theorem reads_dataAll (place : DataPlace) : Reads (.ok : Node → Except Fault Node)
    (fun use => ∃ c : Context, use = (c.fill [·])) fun n => dataAll s (place.fill n) := by
  induction place with
  | here before after =>
    simp only [DataPlace.fill, dataAll_eq_mapM, data, List.mapM_append, List.mapM_cons, bind_assoc,
      pure_bind]
    refine (Reads.self _).frame (before.mapM (data s)) (after.mapM (data s))
      (fun ls n rs => ls ++ n :: rs) ?_
    rintro ls - rs rfl
    exact ⟨.hole ls rs, rfl⟩
  | within before after inner ih =>
    simp only [DataPlace.fill, dataAll_eq_mapM, data, List.mapM_append, List.mapM_cons, bind_assoc,
      pure_bind] at ih ⊢
    refine ih.frame (before.mapM (data s)) (after.mapM (data s))
      (fun ls ns rs => ls ++ Node.sequence ns :: rs) ?_
    rintro ls - rs ⟨c, rfl⟩
    exact ⟨.within ls rs .sequence c, rfl⟩

theorem reads_items (path : List Bytes) (place : Place) : Reads (.ok : Node → Except Fault Node)
    (fun use => ∃ c : Context, use = (c.fill [·])) fun n => items s path (place.fill n) := by
  induction place generalizing path with
  | here before after =>
    refine Reads.among before after ?_
    refine .inr ⟨(⟨·, path⟩), .ok, fun n => rfl, .inr ⟨id, fun ls rs => ?_, fun n => rfl⟩⟩
    exact ⟨.hole ls rs, rfl⟩
  | data before after inner plain =>
    refine Reads.among before after ?_
    simp only [item_of_isTagForm_eq_false (plain _), data]
    refine Reads.mapError ?_ _
    refine (reads_dataAll inner).frame (.ok ()) (.ok ()) (fun _ ns _ => Node.sequence ns) ?_
    rintro - - - ⟨c, rfl⟩ ls rs
    exact ⟨.within ls rs .sequence c, rfl⟩
  | child before after heading inner ih =>
    refine Reads.among before after ?_
    simp only [item_heading]
    by_cases empty : heading.name = []
    · exact .inl ⟨⟨.emptyTagName, path⟩, fun n => if_pos empty⟩
    · simp only [if_neg empty]
      refine (ih (path ++ [heading.name])).frame
        ((heading.attributes s).mapError (⟨·, path ++ [heading.name]⟩)) (.ok ())
        (fun as ns _ => Node.element ⟨heading.name, as, ns, none⟩) ?_
      rintro as - - ⟨c, rfl⟩ ls rs
      exact ⟨.within ls rs (.element heading.name as none) c, rfl⟩

/-- An atom has no influence on what is built around it, and is not changed itself. -/
theorem uniform_items (path : List Bytes) (place : Place) :
    Uniform fun n => items s path (place.fill n) := by
  rcases (reads_items path place).of_ok fun n => rfl with failed | ⟨_, ⟨c, rfl⟩, filled⟩
  · exact .inl failed
  · exact .inr ⟨c, filled⟩

end Form

/-- Whatever fills the hole is rendered and counted as if it stood alone, node by node, and what stands
around it is rendered and counted the same whatever fills the hole. So is a node that stands as an atom
somewhere in a form, if the form can be built at all. -/
theorem render_fill (l : Layout) (c : Context) (ns : List Node) :
    render l (c.fill ns) = c.opened l ++ (ns.flatMap fun n => render l [n]) ++ c.closed l ∧
      (Render.totals l (c.fill ns)).nodes =
        c.census.nodes + (ns.map fun n => (Render.totals l [n]).nodes).sum ∧
      (Render.totals l (c.fill ns)).elements =
        c.census.elements + (ns.map fun n => (Render.totals l [n]).elements).sum ∧
      (Render.totals l (c.fill ns)).bytes = (c.opened l).length + (c.closed l).length +
        (ns.map fun n => (Render.totals l [n]).bytes).sum ∧
      render l ns = (ns.flatMap fun n => render l [n]) ∧
      render l [.sequence ns] = (ns.flatMap fun n => render l [n]) ∧
      ∀ (s : Sentinels) (log : Option Log) (place : Form.Place),
        (∃ m, ∀ n, (Form.build s log (place.fill n)).outcome = .error m) ∨
          ∃ d : Context, ∀ n, (Form.build s log (place.fill n)).outcome = .ok (d.fill [n]) ∧
            render l (d.fill [n]) = d.opened l ++ render l [n] ++ d.closed l := by
  have rendered (c : Context) (ns : List Node) : render l (c.fill ns) =
      c.opened l ++ (ns.flatMap fun n => render l [n]) ++ c.closed l := by
    rw [← render_eq_flatMap, render_eq, render_eq, c.ofNodes_fill]
  refine ⟨rendered c ns, ?_, ?_, ?_, render_eq_flatMap l ns, ?_, ?_⟩
  · simp only [Render.totals_eq, c.census_fill, Census.nodes_add]
    rw [measure_ofNodes (f := Census.nodes) rfl fun _ _ => rfl]
  · simp only [Render.totals_eq, c.census_fill, Census.elements_add]
    rw [measure_ofNodes (f := Census.elements) rfl fun _ _ => rfl]
  · simp only [Render.totals_eq, rendered, List.length_append, List.length_flatMap]
    omega
  · rw [← render_eq_flatMap, render_eq, render_eq, Markup.ofNodes, Markup.ofNode, Markup.ofNodes,
      List.append_nil]
  · intro s log place
    simp only [Form.outcome_build]
    rcases Form.uniform_items (s := s) [] place with ⟨m, failed⟩ | ⟨d, filled⟩
    · exact .inl ⟨m, failed⟩
    · refine .inr ⟨d, fun n => ⟨filled n, ?_⟩⟩
      rw [rendered, List.flatMap_cons, List.flatMap_nil, List.append_nil]

/-- A void element is not closed behind its hole. -/
example :
    let c : Context := .within [] [.text [97]] (.element [66, 82] [] none) (.hole [] [])
    c.opened {} = Bytes.ascii "<br>\n" ∧ c.closed {} = [97] ∧ c.census = ⟨2, 1⟩ := by
  decide

end Hypertext
