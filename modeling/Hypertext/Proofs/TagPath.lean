import Hypertext.Proofs.Telling

/-!
# The path of a build

A build that keeps one path for all of its items. The name of an element is put behind the others when the
element is begun and taken off when it is finished, and a failure leaves the path as it is. So an item that
is built leaves the path as it found it, and stands at the path that `Form.item` is given
(`Walk.runFrom_item`). A failed build leaves the path of its first fault (`walk_ends_at_first_fault`).
-/

namespace Hypertext.Form

/-- Making something while a listener is told of events, with the names of the elements that are begun at
hand. -/
abbrev Walk (σ α : Type) : Type := Telling (List Bytes × σ) α

namespace Walk

open Telling (raise runFrom_bind)

variable {σ α β : Type}

/-- What looks at the path and leaves it alone. -/
def reading (t : List Bytes → Telling σ α) : Walk σ α :=
  ExceptT.mk fun (path, st) =>
    let (x, st') := (t path).runFrom st
    (x, (path, st'))

def enter (name : Bytes) : Walk σ Unit := modify fun (path, st) => (path ++ [name], st)

def leave : Walk σ Unit := modify fun (path, st) => (path.dropLast, st)

/-- An element is left only if all that belongs to it is made. -/
def inside (name : Bytes) (t : Walk σ α) : Walk σ α := do
  enter name
  let a ← t
  leave
  return a

section Making

variable (tell : Event → σ → σ) (s : Sentinels)

mutual

def item : Form Node → Walk σ Node
  | .list (.symbol name :: rest) =>
    if name = [] then reading (raise tell · .emptyTagName) else
      inside name do
        let children ← items rest
        return .element ⟨name, [], children, none⟩
  | .list (.list (.symbol name :: entries) :: rest) =>
    if name = [] then reading (raise tell · .emptyTagName) else
      inside name do
        let attributes ← reading (Telling.attributes tell s · entries)
        let children ← items rest
        return .element ⟨name, attributes, children, none⟩
  | other => reading (Telling.data tell s · other)

def items : List (Form Node) → Walk σ (List Node)
  | [] => return []
  | f :: fs => do
    let n ← item f
    let ns ← items fs
    return n :: ns

end

def build (fs : List (Form Node)) : Walk σ (List Node) := do
  let ns ← items tell s fs
  modify fun (path, st) => (path, tell (summary fs.length ns) st)
  return ns

end Making

/-- From any path, makes what is said for that path. A success leaves all as it was, and a failure is told
and leaves its own path. -/
def Makes (tell : Event → σ → σ) (t : Walk σ α) (x : List Bytes → Except Malformed α) : Prop :=
  ∀ path st, t.runFrom (path, st) =
    (x path, (failure? (x path)).elim (path, st) fun m => (m.path, tell m.report st))

section

variable {tell : Event → σ → σ} {s : Sentinels} {t : Walk σ α} {x : List Bytes → Except Malformed α}

theorem makes_pure (a : α) : Makes tell (pure a : Walk σ α) fun _ => .ok a := fun _ _ => rfl

/-- A fault that is found while the path is only looked at has the path that is there. -/
theorem makes_reading {t : List Bytes → Telling σ α} {x : Except Fault α}
    (h : ∀ path, Telling.Makes tell (t path) (x.mapError (⟨·, path⟩))) :
    Makes tell (reading t) fun path => x.mapError (⟨·, path⟩) := by
  intro path st
  change ((t path |>.runFrom st).1, (path, (t path |>.runFrom st).2)) = _
  rw [h path st]
  cases x with
  | error fault => rfl
  | ok a => rfl

/-- As a success leaves the path alone, what comes next begins at the same path. -/
theorem Makes.bind (h : Makes tell t x) {f : α → Walk σ β} {g : α → List Bytes → Except Malformed β}
    (next : ∀ a, Makes tell (f a) (g a)) : Makes tell (t >>= f) fun path => x path >>= (g · path) := by
  intro path st
  rw [runFrom_bind, h path st]
  dsimp only
  cases x path with
  | error m => rfl
  | ok a => exact next a path st

theorem Makes.bind_pure (h : Makes tell t x) (f : α → β) :
    Makes tell (do return f (← t)) fun path => do return f (← x path) :=
  h.bind fun a => makes_pure (f a)

/-- The name is taken off again just if nothing failed behind it. -/
theorem Makes.inside (h : Makes tell t x) (name : Bytes) :
    Makes tell (inside name t) fun path => x (path ++ [name]) := by
  intro path st
  have entered : (enter name).runFrom (path, st) = (.ok (), (path ++ [name], st)) := rfl
  have left : leave.runFrom (path ++ [name], st) = (.ok (), (path, st)) := by
    change (Except.ok (), ((path ++ [name]).dropLast, st)) = _
    rw [List.dropLast_concat]
  rw [Walk.inside, runFrom_bind, entered]
  dsimp only
  rw [runFrom_bind, h (path ++ [name]) st]
  cases x (path ++ [name]) with
  | error m => rfl
  | ok a =>
    change Telling.runFrom (leave >>= fun _ => pure a) (path ++ [name], st) = _
    rw [runFrom_bind, left]
    rfl

end

section

variable (tell : Event → σ → σ) (s : Sentinels)

theorem makes_emptyTagName : Makes tell (reading (raise tell · .emptyTagName) : Walk σ α)
    fun path => .error ⟨.emptyTagName, path⟩ :=
  makes_reading (x := .error .emptyTagName) fun _ => Telling.makes_raise .emptyTagName

theorem makes_item_of_plain {f : Form Node} (plain : f.isTagForm = false) :
    Makes tell (item tell s f) fun path => Form.item s path f := by
  have read : item tell s f = reading (Telling.data tell s · f) := by
    rw [item.eq_def]
    split
    · cases plain
    · cases plain
    · rfl
  simp only [read, item_of_isTagForm_eq_false plain]
  exact makes_reading fun path => Telling.makes_data tell s path f

mutual

theorem makes_item : (f : Form Node) → Makes tell (item tell s f) fun path => Form.item s path f
  | .list (.symbol name :: rest) => by
    simp only [item, Form.item]
    by_cases empty : name = []
    · simp only [if_pos empty]
      exact makes_emptyTagName tell
    · simp only [if_neg empty]
      exact ((makes_items rest).bind_pure fun children =>
        Node.element ⟨name, [], children, none⟩).inside name
  | .list (.list (.symbol name :: entries) :: rest) => by
    simp only [item, Form.item]
    by_cases empty : name = []
    · simp only [if_pos empty]
      exact makes_emptyTagName tell
    · simp only [if_neg empty]
      have attributed := makes_reading fun path => Telling.makes_attributes tell s path entries
      have filled (attributes : List (Attribute Node)) := (makes_items rest).bind_pure fun children =>
        Node.element ⟨name, attributes, children, none⟩
      exact (attributed.bind filled).inside name
  | .symbol _ | .flag _ | .atom _ | .list [] | .list (.flag _ :: _) | .list (.atom _ :: _)
  | .list (.list [] :: _) | .list (.list (.flag _ :: _) :: _) | .list (.list (.atom _ :: _) :: _)
  | .list (.list (.list _ :: _) :: _) => makes_item_of_plain tell s rfl

theorem makes_items :
    (fs : List (Form Node)) → Makes tell (items tell s fs) fun path => Form.items s path fs
  | [] => makes_pure []
  | f :: fs => by
    simp only [items, Form.items]
    apply (makes_item f).bind
    intro n
    exact (makes_items fs).bind_pure (n :: ·)

end

theorem runFrom_item (f : Form Node) (path : List Bytes) (st : σ) :
    (item tell s f).runFrom (path, st) = (Form.item s path f,
      (failure? (Form.item s path f)).elim (path, st) fun m => (m.path, tell m.report st)) :=
  makes_item tell s f path st

theorem runFrom_items (fs : List (Form Node)) (path : List Bytes) (st : σ) :
    (items tell s fs).runFrom (path, st) = (Form.items s path fs,
      (failure? (Form.items s path fs)).elim (path, st) fun m => (m.path, tell m.report st)) :=
  makes_items tell s fs path st

/-- What is built and told is the same whether the path is given or at hand. -/
theorem runFrom_item_eq_telling (f : Form Node) (path : List Bytes) (st : σ) :
    ((item tell s f).runFrom (path, st)).1 = ((Telling.item tell s path f).runFrom st).1 ∧
      ((item tell s f).runFrom (path, st)).2.2 = ((Telling.item tell s path f).runFrom st).2 := by
  rw [runFrom_item, Telling.runFrom_item]
  cases Form.item s path f with
  | error m => exact ⟨rfl, rfl⟩
  | ok n => exact ⟨rfl, rfl⟩

end

end Walk

/-- A build ends at its first fault, with the path of that fault left, or at no path when there is none. The
place of a fault is told by joining the path name by name. -/
theorem walk_ends_at_first_fault {σ : Type} (tell : Event → σ → σ) (s : Sentinels)
    (fs : List (Form Node)) (st : σ) :
    (∀ m, (fs.flatMap (faults s [])).head? = some m →
      (Walk.build tell s fs).runFrom ([], st) = (.error m, (m.path, tell m.report st)) ∧
        m.context = m.path.foldl Malformed.join []) ∧
    (fs.flatMap (faults s []) = [] → ∃ ns, (build s none fs).outcome = .ok ns ∧
      (Walk.build tell s fs).runFrom ([], st) = (.ok ns, ([], tell (summary fs.length ns) st))) := by
  have first := failure?_outcome_build s none fs
  rw [outcome_build] at first ⊢
  have run := Walk.runFrom_items tell s fs [] st
  constructor
  · intro m fault
    rw [fault, failure?_eq_some_iff] at first
    rw [first] at run
    refine ⟨?_, (inside_of_items [] fs first).context_eq⟩
    rw [Walk.build, Telling.runFrom_bind, run]
    rfl
  · intro none
    rw [none, List.head?_nil, failure?_eq_none_iff] at first
    obtain ⟨ns, made⟩ := first
    rw [made] at run
    refine ⟨ns, made, ?_⟩
    rw [Walk.build, Telling.runFrom_bind, run]
    rfl

/-- The second element is still begun when its child fails, and the first is finished. -/
example : (Walk.build (fun _ told => told + 1) {} [.list [.symbol [97], .flag true],
    .list [.symbol [98], .symbol [99]]]).runFrom ([], 0) =
      (.error ⟨.bareSymbol [99], [[98]]⟩, ([[98]], 1)) :=
  rfl

end Hypertext.Form
