import Hypertext.Proofs.Effects
import Hypertext.Proofs.Hereditary

/-!
# Where the parts of a tree come from

What a command is given has places of its own, and the tree that is made of it has these places too
(`Source.Makes.reach`). At such a place there is a new element, if the command spells one out, or the very
node that the command refers to.
-/

namespace Hypertext

namespace Draft

def below? : Draft → Node.Step → Option Draft
  | .element e, .held i => e.children[i]?
  | .element e, .value i => e.attributes[i]?.bind (·.value.content?)
  | .sequence members, .held i => members[i]?
  | _, _ => none

variable {scope : Scope}

theorem evalAll_eq_ok_iff {ds : List Draft} {ns : List Node} :
    evalAll scope ds = .ok ns ↔ List.Forall₂ (fun d n => d.eval scope = .ok n) ds ns := by
  induction ds generalizing ns with
  | nil => rw [evalAll, Except.ok.injEq, List.forall₂_nil_left_iff, eq_comm]
  | cons d ds ih => simp only [evalAll, Form.cons_eq_ok_iff, ih, List.forall₂_cons_left_iff]

theorem evalValue_eq_ok {value : AttributeValue Draft} {v : AttributeValue Node} {d : Draft}
    (made : evalValue scope value = .ok v) (content : value.content? = some d) :
    ∃ n, d.eval scope = .ok n ∧ v = .ofNode n := by
  cases value with
  | flag on => cases content
  | content d =>
    cases content
    obtain ⟨n, evaluated, eq⟩ := Form.bind_eq_ok_iff.1 made
    cases eq
    exact ⟨n, evaluated, rfl⟩

theorem getElem?_evalAttributes {as : List (Attribute Draft)} {made : List (Attribute Node)}
    (h : evalAttributes scope as = .ok made) {i : Nat} {a : Attribute Draft} (found : as[i]? = some a) :
    ∃ v, evalValue scope a.value = .ok v ∧ made[i]? = some ⟨a.name, v⟩ := by
  induction as generalizing made i with
  | nil => cases found
  | cons b as ih =>
    rw [evalAttributes] at h
    obtain ⟨v, hv, h⟩ := Form.bind_eq_ok_iff.1 h
    obtain ⟨others, hothers, eq⟩ := Form.bind_eq_ok_iff.1 h
    cases eq
    cases i with
    | zero =>
      cases found
      exact ⟨v, hv, rfl⟩
    | succ i => exact ih hothers found

end Draft

theorem forall₂_getElem? {α β : Type} {r : α → β → Prop} {as : List α} {bs : List β}
    (h : List.Forall₂ r as bs) {i : Nat} {a : α} (found : as[i]? = some a) :
    ∃ b, bs[i]? = some b ∧ r a b := by
  induction h generalizing i with
  | nil => cases found
  | cons first rest ih =>
    cases i with
    | zero =>
      cases found
      exact ⟨_, rfl, first⟩
    | succ i => exact ih found

theorem forall₂_trans {α β γ : Type} {r : α → β → Prop} {q : β → γ → Prop} {as : List α} {bs : List β}
    {cs : List γ} (h : List.Forall₂ r as bs) (h' : List.Forall₂ q bs cs) :
    List.Forall₂ (fun a c => ∃ b, r a b ∧ q b c) as cs := by
  induction h generalizing cs with
  | nil =>
    cases h'
    exact .nil
  | cons first rest ih =>
    cases h' with
    | cons first' rest' => exact .cons ⟨_, first, first'⟩ (ih rest')

/-- What a command is given, or a part of it. An unfinished element holds nodes that are at hand. -/
inductive Source
  | draft (d : Draft)
  | item (f : Form Draft)
  | data (f : Form Draft)
  | unfinished (u : Element Node)
  | placed (n : Node)

namespace Source

/-- The entries of the head and the forms of the children, in a tag form. -/
def tag? : Form Draft → Option (List (Form Draft) × List (Form Draft))
  | .list (.symbol _ :: rest) => some ([], rest)
  | .list (.list (.symbol _ :: entries) :: rest) => some (entries, rest)
  | _ => none

def belowData? : Form Draft → Node.Step → Option Source
  | .atom d, step => (d.below? step).map draft
  | .list fs, .held i => fs[i]?.map data
  | _, _ => none

/-- Every other entry of a head is the value of an attribute. -/
def belowTag? (entries rest : List (Form Draft)) : Node.Step → Option Source
  | .held i => rest[i]?.map item
  | .value i => entries[2 * i + 1]?.map data

def below? : Source → Node.Step → Option Source
  | draft d, step => (d.below? step).map draft
  | data f, step => belowData? f step
  | item f, step => match tag? f with
    | some (entries, rest) => belowTag? entries rest step
    | none => belowData? f step
  | unfinished u, step => ((Node.element u).below? step).map placed
  | placed _, _ => none

def reach? : Source → List Node.Step → Option Source
  | src, [] => some src
  | src, step :: path => (src.below? step).bind (reach? · path)

def draft? : Source → Option Draft
  | draft d | item (.atom d) | data (.atom d) => some d
  | _ => none

/-- An element is spelled out here. -/
def New : Source → Prop
  | unfinished _ => True
  | item (.list fs) => (Form.list fs).isTagForm = true
  | src => ∃ e, src.draft? = some (.element e)

/-- The node that is referred to here. -/
def copied? (scope : Draft.Scope) : Source → Option Node
  | placed n => some n
  | src => match src.draft? with
    | some (.kept name index) => scope name index
    | _ => none

def Makes (scope : Draft.Scope) (s : Sentinels) : Source → Node → Prop
  | draft d, n => d.eval scope = .ok n
  | item f, n => ∃ g, f.mapAtoms (Draft.eval scope) = .ok g ∧ Form.Item s g n
  | data f, n => ∃ g, f.mapAtoms (Draft.eval scope) = .ok g ∧ Form.Data s g n
  | unfinished u, n => n = .element { u with mark := none }
  | placed m, n => n = m

variable {scope : Draft.Scope} {s : Sentinels} {n : Node}

theorem mapAtomsAll_eq_ok_iff {α β ε : Type} {make : α → Except ε β} {fs : List (Form α)}
    {gs : List (Form β)} : Form.mapAtomsAll make fs = .ok gs ↔
      List.Forall₂ (fun f g => f.mapAtoms make = .ok g) fs gs := by
  induction fs generalizing gs with
  | nil => rw [Form.mapAtomsAll, Except.ok.injEq, List.forall₂_nil_left_iff, eq_comm]
  | cons f fs ih => simp only [Form.mapAtomsAll, Form.cons_eq_ok_iff, ih, List.forall₂_cons_left_iff]

theorem mapAtoms_list {α β ε : Type} {make : α → Except ε β} {fs : List (Form α)} {g : Form β}
    (h : (Form.list fs).mapAtoms make = .ok g) :
    ∃ gs, g = .list gs ∧ List.Forall₂ (fun f g => f.mapAtoms make = .ok g) fs gs := by
  obtain ⟨gs, read, eq⟩ := Form.bind_eq_ok_iff.1 h
  cases eq
  exact ⟨gs, rfl, mapAtomsAll_eq_ok_iff.1 read⟩

/-- A form keeps its shape when its atoms are replaced. -/
theorem mapAtoms_cases {α β ε : Type} {make : α → Except ε β} {f : Form α} {g : Form β}
    (h : f.mapAtoms make = .ok g) :
    (∃ name, f = .symbol name ∧ g = .symbol name) ∨ (∃ on, f = .flag on ∧ g = .flag on) ∨
      (∃ a b, f = .atom a ∧ g = .atom b) ∨
      ∃ fs gs, f = .list fs ∧ g = .list gs ∧ List.Forall₂ (fun f g => f.mapAtoms make = .ok g) fs gs := by
  cases f with
  | symbol name =>
    cases h
    exact .inl ⟨name, rfl, rfl⟩
  | flag on =>
    cases h
    exact .inr (.inl ⟨on, rfl, rfl⟩)
  | atom a =>
    obtain ⟨b, -, eq⟩ := Form.bind_eq_ok_iff.1 h
    cases eq
    exact .inr (.inr (.inl ⟨a, b, rfl, rfl⟩))
  | list fs =>
    obtain ⟨gs, rfl, read⟩ := mapAtoms_list h
    exact .inr (.inr (.inr ⟨fs, gs, rfl, rfl, read⟩))

theorem isTagForm_mapAtoms {α β ε : Type} {make : α → Except ε β} {f : Form α} {g : Form β}
    (h : f.mapAtoms make = .ok g) : g.isTagForm = f.isTagForm := by
  rcases mapAtoms_cases h with ⟨_, rfl, rfl⟩ | ⟨_, rfl, rfl⟩ | ⟨_, _, rfl, rfl⟩ | ⟨_, _, rfl, rfl, read⟩
  · rfl
  · rfl
  · rfl
  -- A tag form is told from the first form in it, and from the first one in that.
  cases read with
  | nil => rfl
  | cons head _ =>
    rcases mapAtoms_cases head with
      ⟨_, rfl, rfl⟩ | ⟨_, rfl, rfl⟩ | ⟨_, _, rfl, rfl⟩ | ⟨_, _, rfl, rfl, inner⟩
    · rfl
    · rfl
    · rfl
    cases inner with
    | nil => rfl
    | cons first _ =>
      rcases mapAtoms_cases first with
        ⟨_, rfl, rfl⟩ | ⟨_, rfl, rfl⟩ | ⟨_, _, rfl, rfl⟩ | ⟨_, _, rfl, rfl, -⟩ <;> rfl

theorem isTagForm_eq_isSome_tag? (f : Form Draft) : f.isTagForm = (tag? f).isSome := by
  unfold Form.isTagForm
  split
  · rfl
  · rfl
  · rename_i bare headed
    rw [tag?]
    · rfl
    · exact bare
    · exact headed

theorem makes_data_of_item {f : Form Draft} (plain : tag? f = none) (h : (item f).Makes scope s n) :
    (data f).Makes scope s n := by
  obtain ⟨g, read, made⟩ := h
  have shape : g.isTagForm = false := by
    rw [isTagForm_mapAtoms read, isTagForm_eq_isSome_tag?, plain]
    rfl
  refine ⟨g, read, ?_⟩
  cases made with
  | data _ made => exact made
  | element | attributed => cases shape

/-- What a tag form makes. -/
theorem makes_element {f : Form Draft} {entries rest : List (Form Draft)}
    (h : (item f).Makes scope s n) (tag : tag? f = some (entries, rest)) :
    ∃ e gs hs, n = .element e ∧ e.mark = none ∧
      List.Forall₂ (fun f g => f.mapAtoms (Draft.eval scope) = .ok g) entries gs ∧
      Form.Attributes s gs e.attributes ∧
      List.Forall₂ (fun f g => f.mapAtoms (Draft.eval scope) = .ok g) rest hs ∧
      List.Forall₂ (Form.Item s) hs e.children := by
  obtain ⟨g, read, made⟩ := h
  rw [tag?.eq_def] at tag
  split at tag
  · cases tag
    obtain ⟨gs, rfl, parts⟩ := mapAtoms_list read
    cases parts with
    | cons head held =>
      cases head
      cases made with
      | element _ made => exact ⟨_, [], _, rfl, rfl, .nil, .nil, held, made⟩
      | data plain => cases plain
  · cases tag
    obtain ⟨gs, rfl, parts⟩ := mapAtoms_list read
    cases parts with
    | cons head held =>
      obtain ⟨ys, rfl, inner⟩ := mapAtoms_list head
      cases inner with
      | cons name values =>
        cases name
        cases made with
        | attributed _ attributes made => exact ⟨_, _, _, rfl, rfl, values, attributes, held, made⟩
        | data plain => cases plain
  · cases tag

theorem makes_draft? {src : Source} {d : Draft} (h : src.Makes scope s n) (same : src.draft? = some d) :
    d.eval scope = .ok n := by
  have atom (h : (data (.atom d)).Makes scope s n) : d.eval scope = .ok n := by
    obtain ⟨g, read, made⟩ := h
    obtain ⟨m, evaluated, eq⟩ := Form.bind_eq_ok_iff.1 read
    cases eq
    cases made
    exact evaluated
  rw [draft?.eq_def] at same
  split at same
  · cases same
    exact h
  · cases same
    exact atom (makes_data_of_item rfl h)
  · cases same
    exact atom h
  · cases same

/-- Data that stand for the value of an attribute. -/
theorem exists_data_of_value {g : Form Node} {v : AttributeValue Node} (h : Form.Value s g v) :
    ∃ m, Form.Data s g m ∧ (m.truth? = none → v.content? = some m) := by
  cases h with
  | flag on => exact ⟨_, .flag on, fun truth => by cases on <;> cases truth⟩
  | truth truth => exact ⟨_, .atom _, fun other => by rw [truth] at other; cases other⟩
  | atom truth => exact ⟨_, .atom _, fun _ => rfl⟩
  | list made => exact ⟨_, made, fun _ => rfl⟩

theorem getElem?_attributes {gs : List (Form Node)} {as : List (Attribute Node)}
    (h : Form.Attributes s gs as) {i : Nat} {g : Form Node} (found : gs[2 * i + 1]? = some g) :
    ∃ a, as[i]? = some a ∧ Form.Value s g a.value := by
  induction h generalizing i with
  | nil => cases found
  | cons hkey hvalue hrest ih =>
    cases i with
    | zero =>
      cases found
      exact ⟨_, rfl, hvalue⟩
    | succ i => exact ih found

theorem Makes.belowDraft {d d' : Draft} {step : Node.Step} (h : d.eval scope = .ok n)
    (below : d.below? step = some d') :
    ∃ m, d'.eval scope = .ok m ∧ (m.truth? = none → n.below? step = some m) := by
  cases d with
  | element e =>
    obtain ⟨name, attributes, children, mark⟩ := e
    obtain ⟨e, made, eq⟩ := Form.bind_eq_ok_iff.1 h
    cases eq
    rw [Draft.evalElement] at made
    obtain ⟨as, hattributes, made⟩ := Form.bind_eq_ok_iff.1 made
    obtain ⟨ns, hchildren, eq⟩ := Form.bind_eq_ok_iff.1 made
    cases eq
    cases step with
    | held i =>
      obtain ⟨m, stored, evaluated⟩ := forall₂_getElem? (Draft.evalAll_eq_ok_iff.1 hchildren) below
      exact ⟨m, evaluated, fun _ => stored⟩
    | value i =>
      obtain ⟨a, found, content⟩ := Option.bind_eq_some_iff.1 below
      obtain ⟨v, value, stored⟩ := Draft.getElem?_evalAttributes hattributes found
      obtain ⟨m, evaluated, rfl⟩ := Draft.evalValue_eq_ok value content
      refine ⟨m, evaluated, fun truth => ?_⟩
      have content := AttributeValue.content?_eq_some_iff.2 (Form.ofNode_eq_content_iff.2 ⟨truth, rfl⟩)
      exact Option.bind_eq_some_iff.2 ⟨_, stored, content⟩
  | sequence members =>
    obtain ⟨ns, made, eq⟩ := Form.bind_eq_ok_iff.1 h
    cases eq
    cases step with
    | held i =>
      obtain ⟨m, stored, evaluated⟩ := forall₂_getElem? (Draft.evalAll_eq_ok_iff.1 made) below
      exact ⟨m, evaluated, fun _ => stored⟩
    | value i => cases below
  | _ => cases step <;> cases below

theorem Makes.belowData {f : Form Draft} {src : Source} {step : Node.Step}
    (h : (data f).Makes scope s n) (below : belowData? f step = some src) :
    ∃ m, src.Makes scope s m ∧ (m.truth? = none → n.below? step = some m) := by
  cases f with
  | atom d =>
    obtain ⟨d', found, rfl⟩ := Option.map_eq_some_iff.1 below
    exact Makes.belowDraft (makes_draft? h rfl) found
  | list fs =>
    cases step with
    | held i =>
      obtain ⟨f, found, rfl⟩ := Option.map_eq_some_iff.1 below
      obtain ⟨g, read, made⟩ := h
      obtain ⟨gs, rfl, parts⟩ := mapAtoms_list read
      obtain ⟨g, here, read⟩ := forall₂_getElem? parts found
      cases made with
      | list members =>
        obtain ⟨m, stored, made⟩ := forall₂_getElem? members here
        exact ⟨m, ⟨g, read, made⟩, fun _ => stored⟩
    | value i => cases below
  | symbol | flag => cases step <;> cases below

theorem Makes.below {src src' : Source} {step : Node.Step} (h : src.Makes scope s n)
    (below : src.below? step = some src') :
    ∃ m, src'.Makes scope s m ∧ (m.truth? = none → n.below? step = some m) := by
  cases src with
  | draft d =>
    obtain ⟨d', found, rfl⟩ := Option.map_eq_some_iff.1 below
    exact Makes.belowDraft h found
  | data f => exact h.belowData below
  | item f =>
    cases tag : tag? f with
    | none =>
      rw [below?, tag] at below
      exact (makes_data_of_item tag h).belowData below
    | some parts =>
      obtain ⟨entries, rest⟩ := parts
      obtain ⟨e, gs, hs, rfl, -, hentries, attributes, hrest, children⟩ := makes_element h tag
      rw [below?, tag] at below
      cases step with
      | held i =>
        obtain ⟨f, found, rfl⟩ := Option.map_eq_some_iff.1 below
        obtain ⟨g, here, read⟩ := forall₂_getElem? hrest found
        obtain ⟨m, stored, made⟩ := forall₂_getElem? children here
        exact ⟨m, ⟨g, read, made⟩, fun _ => stored⟩
      | value i =>
        obtain ⟨f, found, rfl⟩ := Option.map_eq_some_iff.1 below
        obtain ⟨g, here, read⟩ := forall₂_getElem? hentries found
        obtain ⟨a, stored, value⟩ := getElem?_attributes attributes here
        obtain ⟨m, made, content⟩ := exists_data_of_value value
        refine ⟨m, ⟨g, read, made⟩, fun truth => ?_⟩
        exact Option.bind_eq_some_iff.2 ⟨a, stored, content truth⟩
  | unfinished u =>
    obtain ⟨m, found, rfl⟩ := Option.map_eq_some_iff.1 below
    cases h
    refine ⟨m, rfl, fun _ => ?_⟩
    cases step <;> exact found
  | placed m => cases below

theorem truth?_of_below? {m : Node} {step : Node.Step} (h : n.below? step = some m) : n.truth? = none := by
  cases n with
  | scalar v => cases step <;> cases h
  | _ => rfl

/-- Places of a source are places of what is made of it, except where a truth value becomes a flag. -/
theorem Makes.reach {src src' : Source} {path : List Node.Step} (h : src.Makes scope s n)
    (reached : src.reach? path = some src') :
    ∃ m, src'.Makes scope s m ∧ (m.truth? = none → n.reach? path = some m) := by
  induction path generalizing src n with
  | nil =>
    cases reached
    exact ⟨n, h, fun _ => rfl⟩
  | cons step path ih =>
    obtain ⟨next, below, reached⟩ := Option.bind_eq_some_iff.1 reached
    obtain ⟨m, made, stored⟩ := h.below below
    obtain ⟨m', made', stored'⟩ := ih made reached
    refine ⟨m', made', fun truth => ?_⟩
    have inside := stored' truth
    have plain : m.truth? = none := by
      cases path with
      | nil =>
        cases inside
        exact truth
      | cons step' path =>
        obtain ⟨_, further, -⟩ := Option.bind_eq_some_iff.1 inside
        exact truth?_of_below? further
    exact Option.bind_eq_some_iff.2 ⟨m, stored plain, inside⟩

theorem Makes.new {src : Source} (h : src.Makes scope s n) (new : src.New) :
    ∃ e, n = .element e ∧ e.mark = none := by
  have spelled (e : Element Draft) (same : src.draft? = some (.element e)) :
      ∃ e, n = .element e ∧ e.mark = none := by
    obtain ⟨e, made, eq⟩ := Form.bind_eq_ok_iff.1 (makes_draft? h same)
    cases eq
    rw [Draft.evalElement] at made
    obtain ⟨as, -, made⟩ := Form.bind_eq_ok_iff.1 made
    obtain ⟨ns, -, eq⟩ := Form.bind_eq_ok_iff.1 made
    cases eq
    exact ⟨_, rfl, rfl⟩
  rw [New.eq_def] at new
  split at new
  · exact ⟨_, h, rfl⟩
  · rename_i fs
    rw [isTagForm_eq_isSome_tag?] at new
    obtain ⟨⟨entries, rest⟩, tag⟩ := Option.isSome_iff_exists.1 new
    obtain ⟨e, -, -, made, unmarked, -⟩ := makes_element h tag
    exact ⟨e, made, unmarked⟩
  · obtain ⟨e, same⟩ := new
    exact spelled e same

theorem Makes.copied {src : Source} {m : Node} (h : src.Makes scope s n)
    (copied : src.copied? scope = some m) : n = m := by
  rw [copied?.eq_def] at copied
  split at copied
  · cases copied
    exact h
  · split at copied
    · rename_i name index same
      have evaluated := makes_draft? h same
      rw [Draft.eval, copied] at evaluated
      exact (Except.ok.inj evaluated).symm
    · cases copied

theorem Makes.unique {src : Source} {m : Node} (h : src.Makes scope s n) (h' : src.Makes scope s m) :
    n = m := by
  cases src with
  | draft d => exact Except.ok.inj (Eq.trans (Eq.symm h) h')
  | item f =>
    obtain ⟨g, read, made⟩ := h
    obtain ⟨g', read', made'⟩ := h'
    cases read.symm.trans read'
    exact made.unique made'
  | data f =>
    obtain ⟨g, read, made⟩ := h
    obtain ⟨g', read', made'⟩ := h'
    cases read.symm.trans read'
    exact Except.ok.inj (((Form.data_eq_ok_iff g n).2 made).symm.trans ((Form.data_eq_ok_iff g m).2 made'))
  | unfinished u => exact Eq.trans h (Eq.symm h')
  | placed k => exact Eq.trans h (Eq.symm h')

theorem Makes.inherits {P : Node → Prop} (inherited : Node.Inherited P)
    (known : ∀ name index m, scope name index = some m → P m) {src : Source} (h : src.Makes scope s n)
    (unfinished : ∀ u, src = .unfinished u → P (.element { u with mark := none }))
    (placed : ∀ m, src = .placed m → P m) : P n := by
  have evaluated (d : Draft) (m : Node) (h : d.eval scope = .ok m) : P m :=
    Draft.inherits_eval inherited known d m h
  cases src with
  | draft d => exact evaluated d n h
  | item f =>
    obtain ⟨g, read, made⟩ := h
    exact Form.Item.inherits inherited g (Form.every_mapAtoms evaluated f g read) made
  | data f =>
    obtain ⟨g, read, made⟩ := h
    exact Form.Data.inherits inherited g (Form.every_mapAtoms evaluated f g read) made
  | unfinished u =>
    cases h
    exact unfinished u rfl
  | placed m =>
    cases h
    exact placed _ rfl

end Source

namespace Workspace

/-- What a command is given of that which comes to stay. -/
def sources (w : Workspace) : Command → List Source
  | .build forms _ => forms.map .item
  | .keep _ draft | .addAttribute _ _ (.content draft) => [.draft draft]
  | .addChildren _ drafts => drafts.map .draft
  | .finishElement key _ => (w.elements.get? key).toList.map .unfinished
  | _ => []

def Makes (w : Workspace) (src : Source) (n : Node) : Prop :=
  src.Makes w.scope (w.builder.getD .standard) n

theorem makes_of_perform (w : Workspace) (c : Command) :
    List.Forall₂ w.Makes (w.sources c) (w.admitted c) ∨
      w.admitted c = [] ∧ ∃ e, (w.perform c).1 = .error e := by
  cases c with
  | build forms target =>
    simp only [sources, admitted, perform, build]
    have seen : Draft.eval (scope { w with builder := some (w.builder.getD .standard) }) =
      Draft.eval w.scope := rfl
    rw [seen]
    cases read : Form.mapAtomsAll (Draft.eval w.scope) forms with
    | error e => exact .inr ⟨rfl, e, rfl⟩
    | ok fs =>
      simp only [Form.outcome_build, Except.toOption, Option.bind_some]
      cases made : Form.items (w.builder.getD .standard) [] fs with
      | error m => exact .inr ⟨rfl, _, rfl⟩
      | ok ns =>
        left
        rw [List.forall₂_map_left_iff]
        exact forall₂_trans (Source.mapAtomsAll_eq_ok_iff.1 read) ((Form.items_eq_ok_iff _ fs ns).1 made)
  | keep name draft =>
    simp only [sources, admitted, perform, keep]
    cases made : draft.eval w.scope with
    | error e => exact .inr ⟨rfl, e, rfl⟩
    | ok n => exact .inl (.cons made .nil)
  | addAttribute key name value =>
    cases value with
    | flag on => exact .inl .nil
    | content draft =>
      simp only [sources, admitted, perform, addAttribute, Draft.evalValue]
      cases made : draft.eval w.scope with
      | error e => exact .inr ⟨rfl, e, rfl⟩
      | ok n => exact .inl (.cons made .nil)
  | addChildren key drafts =>
    simp only [sources, admitted, perform, addChildren]
    cases made : Draft.evalAll w.scope drafts with
    | error e => exact .inr ⟨rfl, e, rfl⟩
    | ok ns =>
      left
      rw [List.forall₂_map_left_iff]
      exact Draft.evalAll_eq_ok_iff.1 made
  | finishElement key target =>
    simp only [sources, admitted]
    cases w.elements.get? key with
    | none => exact .inl .nil
    | some u => exact .inl (.cons rfl .nil)
  | _ => exact .inl .nil

theorem makes_of_step (w : Workspace) (c : Command) :
    List.Forall₂ w.Makes (w.sources c) (w.admitted c) ∨
      w.admitted c = [] ∧ ∃ e, (w.step c).1.result = .error e := makes_of_perform w.forget c

variable {w : Workspace}

theorem mem_sources {c : Command} {src : Source} (h : src ∈ w.sources c) :
    (∀ n, src ≠ .placed n) ∧ ∀ u, src = .unfinished u → ∃ key, w.elements.get? key = some u := by
  cases c with
  | build forms target =>
    obtain ⟨f, -, rfl⟩ := List.mem_map.1 h
    exact ⟨nofun, nofun⟩
  | addChildren key drafts =>
    obtain ⟨d, -, rfl⟩ := List.mem_map.1 h
    exact ⟨nofun, nofun⟩
  | keep name draft =>
    cases List.mem_singleton.1 h
    exact ⟨nofun, nofun⟩
  | addAttribute key name value =>
    cases value with
    | flag on => cases h
    | content draft =>
      cases List.mem_singleton.1 h
      exact ⟨nofun, nofun⟩
  | finishElement key target =>
    obtain ⟨u, stored, rfl⟩ := List.mem_map.1 h
    refine ⟨nofun, fun u' same => ⟨key, ?_⟩⟩
    cases same
    exact Option.mem_toList.1 stored
  | _ => cases h

/-- What is admitted inherits from what is kept under names and from unfinished elements. -/
theorem inherits_admitted {P : Node → Prop} (inherited : Node.Inherited P)
    (known : ∀ name index n, w.scope name index = some n → P n)
    (unfinished : ∀ key u, w.elements.get? key = some u → P (.element { u with mark := none }))
    (c : Command) : ∀ n ∈ w.admitted c, P n := by
  intro n member
  rcases makes_of_step w c with made | ⟨nothing, -⟩
  · obtain ⟨i, stored⟩ := List.mem_iff_getElem?.1 member
    obtain ⟨src, given, made⟩ := forall₂_getElem? made.flip stored
    obtain ⟨unplaced, stored⟩ := mem_sources (List.mem_of_getElem? given)
    refine Source.Makes.inherits inherited known made (fun u same => ?_) fun m same => absurd same (unplaced m)
    obtain ⟨key, stored⟩ := stored u same
    exact unfinished key u stored
  · rw [nothing] at member
    cases member

end Workspace

end Hypertext
