import Hypertext.Proofs.Simplification

/-!
# Attributes with a hole

The value of an attribute is made by itself: what is built around it depends on no more than which value it
is (`Form.reads_value`). A node that stands in the value, inside lists and sequences only, is neither looked
at nor changed (`Form.Inlet.data_fill`).
-/

namespace Hypertext

/-- A forest in which one attribute waits for its value. -/
structure Socket where
  outer : Context
  tag : Bytes
  before : List (Attribute Node)
  name : Bytes
  after : List (Attribute Node)
  children : List Node

namespace Socket

def element (c : Socket) (v : AttributeValue Node) : Node :=
  .element ⟨c.tag, c.before ++ ⟨c.name, v⟩ :: c.after, c.children, none⟩

def fill (c : Socket) (v : AttributeValue Node) : List Node := c.outer.fill [c.element v]

/-- What stands before the value, its first quote included. -/
def opened (l : Layout) (c : Socket) : Bytes :=
  c.outer.opened l ++ 60 :: Bytes.lower c.tag ++ Markup.ofAttributes l c.before ++
    32 :: Bytes.lower c.name ++ [61, 34]

def closed (l : Layout) (c : Socket) : Bytes :=
  34 :: Markup.ofAttributes l c.after ++ 62 :: l.lineEnd ++ Markup.ofNodes l c.children ++
    Markup.closeTag l (Bytes.lower c.tag) ++ c.outer.closed l

theorem render_fill_content (l : Layout) (c : Socket) (v : Node) :
    render l (c.fill (.content v)) = c.opened l ++ Markup.ofValue l v ++ c.closed l := by
  rw [render_eq, fill, Context.ofNodes_fill]
  simp only [element, Markup.ofNodes, Markup.ofNode, Markup.ofElement, Markup.ofAttributes_append,
    Markup.ofAttributes, Markup.ofAttribute, Markup.assignment, opened, closed, List.append_assoc,
    List.cons_append, List.nil_append, List.append_nil]

end Socket

/-- A place in a sequence, inside sequences only. -/
inductive Seat
  | here (before after : List Node)
  | within (before after : List Node) (inner : Seat)

namespace Seat

def fill : Seat → Node → Node
  | here before after, n => .sequence (before ++ n :: after)
  | within before after inner, n => .sequence (before ++ inner.fill n :: after)

/-- What stands between the opening quote and the node. -/
def opened (l : Layout) : Seat → Bytes
  | here before _ => Markup.ofValues l before
  | within before _ inner => Markup.ofValues l before ++ inner.opened l

def closed (l : Layout) : Seat → Bytes
  | here _ after => Markup.ofValues l after
  | within _ after inner => inner.closed l ++ Markup.ofValues l after

theorem ofValue_fill (l : Layout) (seat : Seat) (n : Node) :
    Markup.ofValue l (seat.fill n) = seat.opened l ++ Markup.ofValue l n ++ seat.closed l := by
  induction seat with
  | here before after =>
    simp only [fill, opened, closed, Markup.ofValue, Markup.ofValues_eq_flatMap, List.flatMap_append,
      List.flatMap_cons, List.append_assoc]
  | within before after inner ih =>
    simp only [fill, opened, closed, Markup.ofValue, Markup.ofValues_eq_flatMap, List.flatMap_append,
      List.flatMap_cons, List.append_assoc] at ih ⊢
    simp only [ih, List.append_assoc]

/-- A sequence is no truth value, whatever stands in it. -/
theorem ofNode_fill (seat : Seat) (n : Node) :
    AttributeValue.ofNode (seat.fill n) = .content (seat.fill n) := by
  cases seat <;> rfl

end Seat

namespace Form

/-- A place for the value of an attribute in a list of items. -/
inductive ValuePlace
  | here (before after : List (Form Node)) (tag : Bytes) (given : List (Form Node × Form Node))
    (key : Form Node) (others rest : List (Form Node))
  | child (before after : List (Form Node)) (heading : Heading) (inner : ValuePlace)

def ValuePlace.fill : ValuePlace → Form Node → List (Form Node)
  | here before after tag given key others rest, f =>
    let entries := (given.flatMap fun p => [p.1, p.2]) ++ key :: f :: others
    before ++ .list (.list (.symbol tag :: entries) :: rest) :: after
  | child before after heading inner, f => before ++ .list (heading.form :: inner.fill f) :: after

theorem ValuePlace.length_fill (place : ValuePlace) (f g : Form Node) :
    (place.fill f).length = (place.fill g).length := by
  cases place <;> simp only [fill, List.length_append, List.length_cons]

/-- A place for a node in the value of an attribute, inside lists and sequences only. -/
inductive Inlet
  | member (seat : Seat)
  | entry (before after : List (Form Node))
  | within (before after : List (Form Node)) (inner : Inlet)

def Inlet.fill : Inlet → Node → Form Node
  | member seat, n => .atom (seat.fill n)
  | entry before after, n => .list (before ++ .atom n :: after)
  | within before after inner, n => .list (before ++ inner.fill n :: after)

section

variable {s : Sentinels}

theorem pairs?_append (given : List (Form Node × Form Node)) (key f : Form Node)
    (others : List (Form Node)) :
    pairs? ((given.flatMap fun p => [p.1, p.2]) ++ key :: f :: others) =
      (pairs? others).map fun pairs => given ++ (key, f) :: pairs := by
  induction given with
  | nil => rfl
  | cons p given ih =>
    rw [List.flatMap_cons, List.append_assoc]
    refine (congrArg (Option.map _) ih).trans ?_
    rw [Option.map_map]
    rfl

theorem attributesOfPairs_append (given : List (Form Node × Form Node)) (key f : Form Node)
    (others : List (Form Node × Form Node)) :
    attributesOfPairs s (given ++ (key, f) :: others) = do
      let before ← attributesOfPairs s given
      let name ← attributeName key
      let v ← attributeValue s name f
      let after ← attributesOfPairs s others
      return before ++ ⟨name, v⟩ :: after := by
  induction given with
  | nil => rfl
  | cons p given ih => simp only [List.cons_append, attributesOfPairs, ih, bind_assoc, pure_bind]

theorem reads_attributes (given : List (Form Node × Form Node)) (key : Form Node)
    (others : List (Form Node)) : ∃ name, Reads (attributeValue s name)
      (fun use => ∃ before name after, use = fun v => before ++ ⟨name, v⟩ :: after) fun f =>
        attributes s ((given.flatMap fun p => [p.1, p.2]) ++ key :: f :: others) := by
  simp only [attributes, pairs?_append]
  cases pairs? others with
  | none =>
    simp only [Option.map_none, List.length_append, List.length_cons]
    exact ⟨[], .inl ⟨_, fun f => rfl⟩⟩
  | some pairs =>
    simp only [Option.map_some, attributesOfPairs_append]
    cases attributesOfPairs s given with
    | error e => exact ⟨[], .inl ⟨e, fun f => rfl⟩⟩
    | ok before =>
      cases attributeName key with
      | error e => exact ⟨[], .inl ⟨e, fun f => rfl⟩⟩
      | ok name =>
        refine ⟨name, (Reads.self _).frame (.ok before) (attributesOfPairs s pairs)
          (fun before v after => before ++ ⟨name, v⟩ :: after) ?_⟩
        rintro before - after rfl
        exact ⟨before, name, after, rfl⟩

/-- Nothing around an attribute depends on the form of its value. -/
theorem reads_value (path : List Bytes) (place : ValuePlace) :
    ∃ name, Reads (attributeValue s name) (fun use => ∃ c : Socket, use = c.fill) fun f =>
      items s path (place.fill f) := by
  induction place generalizing path with
  | here before after tag given key others rest =>
    obtain ⟨name, made⟩ := reads_attributes (s := s) given key others
    refine ⟨name, Reads.among before after ?_⟩
    simp only [item]
    by_cases empty : tag = []
    · exact .inl ⟨⟨.emptyTagName, path⟩, fun f => if_pos empty⟩
    · simp only [if_neg empty]
      refine (made.mapError (⟨·, path ++ [tag]⟩)).frame (.ok ()) (items s (path ++ [tag]) rest)
        (fun _ as ns => Node.element ⟨tag, as, ns, none⟩) ?_
      rintro - - ns ⟨as, name, bs, rfl⟩ ls rs
      exact ⟨⟨.hole ls rs, tag, as, name, bs, ns⟩, rfl⟩
  | child before after heading inner ih =>
    obtain ⟨name, made⟩ := ih (path ++ [heading.name])
    refine ⟨name, Reads.among before after ?_⟩
    simp only [item_heading]
    by_cases empty : heading.name = []
    · exact .inl ⟨⟨.emptyTagName, path⟩, fun f => if_pos empty⟩
    · simp only [if_neg empty]
      refine made.frame ((heading.attributes s).mapError (⟨·, path ++ [heading.name]⟩)) (.ok ())
        (fun as ns _ => Node.element ⟨heading.name, as, ns, none⟩) ?_
      rintro as - - ⟨c, rfl⟩ ls rs
      exact ⟨{ c with outer := .within ls rs (.element heading.name as none) c.outer }, rfl⟩

/-- A node is put into the sequence that a list is made into, whatever node it is. -/
theorem Inlet.reads_data (inlet : Inlet) :
    Reads (.ok : Node → Except Fault Node) (fun use => ∃ seat : Seat, use = seat.fill) fun n =>
      data s (inlet.fill n) := by
  induction inlet with
  | member seat =>
    exact .inr ⟨id, fun n => .ok (seat.fill n), fun n => rfl, .inr ⟨_, ⟨seat, rfl⟩, fun _ => rfl⟩⟩
  | entry before after =>
    simp only [fill, data, dataAll_eq_mapM, List.mapM_append, List.mapM_cons, bind_assoc, pure_bind]
    refine (Reads.self _).frame (before.mapM (data s)) (after.mapM (data s))
      (fun ls n rs => Node.sequence (ls ++ n :: rs)) ?_
    rintro ls - rs rfl
    exact ⟨.here ls rs, rfl⟩
  | within before after inner ih =>
    simp only [fill, data, dataAll_eq_mapM, List.mapM_append, List.mapM_cons, bind_assoc, pure_bind]
    refine ih.frame (before.mapM (data s)) (after.mapM (data s))
      (fun ls n rs => Node.sequence (ls ++ n :: rs)) ?_
    rintro ls - rs ⟨seat, rfl⟩
    exact ⟨.within ls rs seat, rfl⟩

theorem Inlet.data_fill (inlet : Inlet) : (∃ e, ∀ n, data s (inlet.fill n) = .error e) ∨
    ∃ seat : Seat, ∀ n, data s (inlet.fill n) = .ok (seat.fill n) := by
  rcases (inlet.reads_data (s := s)).of_ok fun n => rfl with failed | ⟨_, ⟨seat, rfl⟩, filled⟩
  · exact .inl failed
  · exact .inr ⟨seat, filled⟩

theorem Inlet.attributeValue_fill (inlet : Inlet) (name : Bytes) (n : Node) :
    attributeValue s name (inlet.fill n) = do return .ofNode (← data s (inlet.fill n)) := by
  cases inlet <;> rfl

end

end Form

end Hypertext
