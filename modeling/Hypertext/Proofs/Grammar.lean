import Hypertext.Form.Report
import Mathlib.Data.List.Forall2

/-!
# The grammar of forms

Which forms describe a node, and which node, said by rules and without regard to the order in which a
form is read. `Item s f n` says that `f` stands where an item may stand and denotes `n`. Building
accepts just the forms that denote something, and makes what they denote (`build_eq_ok_iff`).
-/

namespace Hypertext

theorem Table.mem_entries_iff {α : Type} (t : Table α) {key : Bytes} {value : α} :
    (key, value) ∈ t.entries ↔ t.get? key = some value := by
  obtain ⟨entries, nodup⟩ := t
  simp only [get?]
  induction entries with
  | nil => simp
  | cons e es ih =>
    obtain ⟨fresh, nodup⟩ := List.nodup_cons.1 nodup
    by_cases h : e.1 = key
    · have absent : (key, value) ∉ es := fun found => fresh (h ▸ List.mem_map_of_mem found)
      subst h
      simp only [List.mem_cons, absent, or_false, List.find?_cons_of_pos, decide_true, Option.map_some,
        Option.some.injEq]
      exact ⟨fun eq => (congrArg Prod.snd eq).symm, fun eq => by rw [← eq]⟩
    · have other : (key, value) ≠ e := fun eq => h (congrArg Prod.fst eq).symm
      simp only [List.mem_cons, other, false_or, h, decide_false, Bool.false_eq_true, not_false_eq_true,
        List.find?_cons_of_neg]
      exact ih nodup

namespace Form

/-- Data become leaves and sequences, and never elements. -/
inductive Data (s : Sentinels) : Form Node → Node → Prop
  | atom (n : Node) : Data s (.atom n) n
  | flag (on : Bool) : Data s (.flag on) (.ofTruth on)
  | symbol {name literal : Bytes} (known : (Bytes.lower name, literal) ∈ s.literals.entries) :
      Data s (.symbol name) (.sentinel (Bytes.lower name) literal)
  | list {fs : List (Form Node)} {ns : List Node} (members : List.Forall₂ (Data s) fs ns) :
      Data s (.list fs) (.sequence ns)

inductive Key : Form Node → Bytes → Prop
  | symbol {name : Bytes} (nonempty : name ≠ []) : Key (.symbol name) name
  | text {name : Bytes} (nonempty : name ≠ []) : Key (.atom (.text name)) name

/-- A truth value is a flag here, and a list is data. -/
inductive Value (s : Sentinels) : Form Node → AttributeValue Node → Prop
  | flag (on : Bool) : Value s (.flag on) (.flag on)
  | truth {n : Node} {on : Bool} (h : n.truth? = some on) : Value s (.atom n) (.flag on)
  | atom {n : Node} (h : n.truth? = none) : Value s (.atom n) (.content n)
  | list {fs : List (Form Node)} {n : Node} (h : Data s (.list fs) n) : Value s (.list fs) (.content n)

inductive Attributes (s : Sentinels) : List (Form Node) → List (Attribute Node) → Prop
  | nil : Attributes s [] []
  | cons {key value : Form Node} {rest : List (Form Node)} {name : Bytes} {v : AttributeValue Node}
      {others : List (Attribute Node)} (hkey : Key key name) (hvalue : Value s value v)
      (hrest : Attributes s rest others) : Attributes s (key :: value :: rest) (⟨name, v⟩ :: others)

/-- Only a form that is no tag form is read as data. -/
inductive Item (s : Sentinels) : Form Node → Node → Prop
  | element {name : Bytes} {rest : List (Form Node)} {children : List Node} (nonempty : name ≠ [])
      (hrest : List.Forall₂ (Item s) rest children) :
      Item s (.list (.symbol name :: rest)) (.element { name, children })
  | attributed {name : Bytes} {entries rest : List (Form Node)} {attributes : List (Attribute Node)}
      {children : List Node} (nonempty : name ≠ []) (hentries : Attributes s entries attributes)
      (hrest : List.Forall₂ (Item s) rest children) :
      Item s (.list (.list (.symbol name :: entries) :: rest)) (.element { name, attributes, children })
  | data {f : Form Node} {n : Node} (plain : f.isTagForm = false) (h : Data s f n) : Item s f n

section

variable {ε α β : Type}

theorem bind_eq_ok_iff {x : Except ε α} {f : α → Except ε β} {b : β} :
    (x >>= f) = .ok b ↔ ∃ a, x = .ok a ∧ f a = .ok b := by
  cases x with
  | error e =>
    constructor
    · intro h
      cases h
    · intro h
      obtain ⟨_, ⟨⟩, _⟩ := h
  | ok a =>
    constructor
    · intro h
      exact ⟨a, rfl, h⟩
    · intro h
      obtain ⟨_, ⟨⟩, h⟩ := h
      exact h

theorem pure_eq_ok_iff {a b : α} : (pure a : Except ε α) = .ok b ↔ a = b :=
  ⟨Except.ok.inj, congrArg Except.ok⟩

theorem mapError_eq_ok_iff {ε' : Type} {x : Except ε α} {f : ε → ε'} {a : α} :
    x.mapError f = .ok a ↔ x = .ok a := by
  cases x <;> simp [Except.mapError]

/-- Making a list succeeds if its head and its tail can be made. -/
theorem cons_eq_ok_iff {x : Except ε α} {xs : Except ε (List α)} {l : List α} :
    (do let a ← x; let as ← xs; return a :: as) = .ok l ↔
      ∃ a as, x = .ok a ∧ xs = .ok as ∧ l = a :: as := by
  simp only [bind_eq_ok_iff, pure_eq_ok_iff]
  constructor
  · intro h
    obtain ⟨a, ha, as, has, rfl⟩ := h
    exact ⟨a, as, ha, has, rfl⟩
  · intro h
    obtain ⟨a, as, ha, has, rfl⟩ := h
    exact ⟨a, ha, as, has, rfl⟩

end

variable {s : Sentinels}

theorem lookup?_eq_some_iff {name : Bytes} {n : Node} :
    s.lookup? name = some n ↔ ∃ literal, (Bytes.lower name, literal) ∈ s.literals.entries ∧
      n = .sentinel (Bytes.lower name) literal := by
  simp only [Sentinels.lookup?, Sentinels.entry?, Table.mem_entries_iff, Option.map_eq_some_iff]
  constructor
  · intro h
    obtain ⟨_, ⟨literal, known, rfl⟩, rfl⟩ := h
    exact ⟨literal, known, rfl⟩
  · intro h
    obtain ⟨literal, known, rfl⟩ := h
    exact ⟨_, ⟨literal, known, rfl⟩, rfl⟩

mutual

theorem data_eq_ok_iff : (f : Form Node) → ∀ n, data s f = .ok n ↔ Data s f n
  | .atom m, n => by
    rw [data, Except.ok.injEq]
    constructor
    · intro h
      subst h
      exact .atom m
    · intro h
      cases h
      rfl
  | .flag on, n => by
    rw [data, Except.ok.injEq]
    constructor
    · intro h
      subst h
      exact .flag on
    · intro h
      cases h
      rfl
  | .symbol name, n => by
    have known : s.lookup? name = some n ↔ _ := lookup?_eq_some_iff
    constructor
    · intro h
      rw [data] at h
      split at h
      · rename_i found
        cases h
        obtain ⟨literal, hmem, rfl⟩ := known.1 found
        exact .symbol hmem
      · cases h
    · intro h
      cases h with
      | symbol hmem => rw [data, known.2 ⟨_, hmem, rfl⟩]
  | .list fs, n => by
    rw [data, bind_eq_ok_iff]
    constructor
    · intro h
      obtain ⟨ns, h, eq⟩ := h
      cases eq
      exact .list ((dataAll_eq_ok_iff fs ns).1 h)
    · intro h
      cases h with
      | list members => exact ⟨_, (dataAll_eq_ok_iff fs _).2 members, rfl⟩

theorem dataAll_eq_ok_iff :
    (fs : List (Form Node)) → ∀ ns, dataAll s fs = .ok ns ↔ List.Forall₂ (Data s) fs ns
  | [], ns => by
    rw [dataAll, Except.ok.injEq, List.forall₂_nil_left_iff, eq_comm]
  | f :: fs, ns => by
    simp only [dataAll, cons_eq_ok_iff, data_eq_ok_iff f, dataAll_eq_ok_iff fs,
      List.forall₂_cons_left_iff]

end

theorem attributeName_eq_ok_iff {f : Form Node} {name : Bytes} :
    attributeName f = .ok name ↔ Key f name := by
  have named (given : Bytes) : (if given = [] then Except.error Fault.emptyAttributeName else .ok given) =
      .ok name ↔ given ≠ [] ∧ given = name := by
    by_cases empty : given = [] <;> simp [empty]
  constructor
  · intro h
    rw [attributeName.eq_def] at h
    split at h
    · obtain ⟨nonempty, rfl⟩ := (named _).1 h
      exact .symbol nonempty
    · obtain ⟨nonempty, rfl⟩ := (named _).1 h
      exact .text nonempty
    · cases h
  · intro h
    cases h with
    | symbol nonempty => exact (named name).2 ⟨nonempty, rfl⟩
    | text nonempty => exact (named name).2 ⟨nonempty, rfl⟩

theorem ofNode_eq_flag_iff {n : Node} {on : Bool} :
    AttributeValue.ofNode n = .flag on ↔ n.truth? = some on := by
  cases h : n.truth? <;> simp [AttributeValue.ofNode, h]

theorem ofNode_eq_content_iff {n m : Node} :
    AttributeValue.ofNode n = .content m ↔ n.truth? = none ∧ n = m := by
  cases h : n.truth? <;> simp [AttributeValue.ofNode, h]

/-- A list of data is a sequence, and so never a truth value. -/
theorem truth?_of_data_list {fs : List (Form Node)} {n : Node} (h : Data s (.list fs) n) :
    n.truth? = none := by
  cases h
  rfl

theorem attributeValue_eq_ok_iff {name : Bytes} {f : Form Node} {v : AttributeValue Node} :
    attributeValue s name f = .ok v ↔ Value s f v := by
  cases f with
  | symbol value =>
    constructor
    · intro h
      cases h
    · intro h
      cases h
  | flag on =>
    rw [attributeValue, Except.ok.injEq]
    constructor
    · intro h
      subst h
      exact .flag on
    · intro h
      cases h
      rfl
  | atom n =>
    rw [attributeValue, Except.ok.injEq]
    cases v with
    | flag on =>
      rw [ofNode_eq_flag_iff]
      constructor
      · exact .truth
      · intro h
        cases h with
        | truth h => exact h
    | content m =>
      rw [ofNode_eq_content_iff]
      constructor
      · intro h
        obtain ⟨h, rfl⟩ := h
        exact .atom h
      · intro h
        cases h with
        | atom h => exact ⟨h, rfl⟩
  | list fs =>
    rw [attributeValue, bind_eq_ok_iff]
    simp only [pure_eq_ok_iff, data_eq_ok_iff]
    constructor
    · intro h
      obtain ⟨n, h, rfl⟩ := h
      rw [ofNode_eq_content_iff.2 ⟨truth?_of_data_list h, rfl⟩]
      exact .list h
    · intro h
      cases h with
      | list h => exact ⟨_, h, ofNode_eq_content_iff.2 ⟨truth?_of_data_list h, rfl⟩⟩

theorem attributes_eq_ok_iff_pairs {entries : List (Form Node)} {as : List (Attribute Node)} :
    attributes s entries = .ok as ↔
      ∃ pairs, pairs? entries = some pairs ∧ attributesOfPairs s pairs = .ok as := by
  rw [attributes]
  split
  · rename_i odd
    simp [odd]
  · rename_i pairs even
    simp [even]

theorem attributes_eq_ok_iff {entries : List (Form Node)} {as : List (Attribute Node)} :
    attributes s entries = .ok as ↔ Attributes s entries as := by
  rw [attributes_eq_ok_iff_pairs]
  induction entries using pairs?.induct generalizing as with
  | case1 =>
    constructor
    · intro h
      obtain ⟨_, ⟨⟩, ⟨⟩⟩ := h
      exact .nil
    · intro h
      cases h
      exact ⟨[], rfl, rfl⟩
  | case2 entry =>
    constructor
    · intro h
      obtain ⟨_, ⟨⟩, _⟩ := h
    · intro h
      cases h
  | case3 key value rest ih =>
    constructor
    · intro h
      obtain ⟨_, even, made⟩ := h
      obtain ⟨pairs, hpairs, rfl⟩ := Option.map_eq_some_iff.1 even
      simp only [attributesOfPairs, bind_eq_ok_iff, pure_eq_ok_iff, attributeName_eq_ok_iff,
        attributeValue_eq_ok_iff] at made
      obtain ⟨name, hname, v, hv, others, hothers, rfl⟩ := made
      exact .cons hname hv (ih.1 ⟨pairs, hpairs, hothers⟩)
    · intro h
      cases h with
      | cons hname hv hrest =>
        obtain ⟨pairs, hpairs, hothers⟩ := ih.2 hrest
        refine ⟨(key, value) :: pairs, by rw [pairs?, hpairs]; rfl, ?_⟩
        simp only [attributesOfPairs, bind_eq_ok_iff, pure_eq_ok_iff, attributeName_eq_ok_iff,
          attributeValue_eq_ok_iff]
        exact ⟨_, hname, _, hv, _, hothers, rfl⟩

theorem item_eq_ok_iff_of_plain {f : Form Node} (plain : f.isTagForm = false) {path : List Bytes}
    {n : Node} : item s path f = .ok n ↔ Item s f n := by
  rw [item_of_isTagForm_eq_false plain, mapError_eq_ok_iff, data_eq_ok_iff]
  constructor
  · exact .data plain
  · intro h
    cases h with
    | element nonempty hrest => cases plain
    | attributed nonempty hentries hrest => cases plain
    | data _ h => exact h

mutual

theorem item_eq_ok_iff (path : List Bytes) :
    (f : Form Node) → ∀ n, item s path f = .ok n ↔ Item s f n
  | .list (.symbol name :: rest), n => by
    rw [item]
    split
    · rename_i empty
      constructor
      · intro h
        cases h
      · intro h
        cases h with
        | element nonempty hrest => exact absurd empty nonempty
        | data plain h => cases plain
    · rename_i nonempty
      simp only [bind_eq_ok_iff, pure_eq_ok_iff, items_eq_ok_iff _ rest]
      constructor
      · intro h
        obtain ⟨children, hrest, rfl⟩ := h
        exact .element nonempty hrest
      · intro h
        cases h with
        | element _ hrest => exact ⟨_, hrest, rfl⟩
        | data plain h => cases plain
  | .list (.list (.symbol name :: entries) :: rest), n => by
    rw [item]
    split
    · rename_i empty
      constructor
      · intro h
        cases h
      · intro h
        cases h with
        | attributed nonempty hentries hrest => exact absurd empty nonempty
        | data plain h => cases plain
    · rename_i nonempty
      simp only [bind_eq_ok_iff, pure_eq_ok_iff, mapError_eq_ok_iff, attributes_eq_ok_iff,
        items_eq_ok_iff _ rest]
      constructor
      · intro h
        obtain ⟨attributes, hentries, children, hrest, rfl⟩ := h
        exact .attributed nonempty hentries hrest
      · intro h
        cases h with
        | attributed _ hentries hrest => exact ⟨_, hentries, _, hrest, rfl⟩
        | data plain h => cases plain
  | .symbol _, _ | .flag _, _ | .atom _, _ | .list [], _ | .list (.flag _ :: _), _
  | .list (.atom _ :: _), _ | .list (.list [] :: _), _ | .list (.list (.flag _ :: _) :: _), _
  | .list (.list (.atom _ :: _) :: _), _ | .list (.list (.list _ :: _) :: _), _ =>
    item_eq_ok_iff_of_plain rfl

theorem items_eq_ok_iff (path : List Bytes) :
    (fs : List (Form Node)) → ∀ ns, items s path fs = .ok ns ↔ List.Forall₂ (Item s) fs ns
  | [], ns => by
    rw [items, Except.ok.injEq, List.forall₂_nil_left_iff, eq_comm]
  | f :: fs, ns => by
    simp only [items, cons_eq_ok_iff, item_eq_ok_iff path f, items_eq_ok_iff path fs,
      List.forall₂_cons_left_iff]

end

theorem outcome_build (s : Sentinels) (log : Option Log) (fs : List (Form Node)) :
    (build s log fs).outcome = items s [] fs := by
  rw [build]
  split <;> simp [*]

theorem exists_forall₂_iff {α β : Type} {r : α → β → Prop} {as : List α} :
    (∃ bs, List.Forall₂ r as bs) ↔ ∀ a ∈ as, ∃ b, r a b := by
  induction as with
  | nil => simp
  | cons a as ih =>
    rw [List.forall_mem_cons, ← ih]
    constructor
    · intro h
      obtain ⟨_, (_ | ⟨h, hs⟩)⟩ := h
      exact ⟨⟨_, h⟩, _, hs⟩
    · intro h
      obtain ⟨⟨b, h⟩, bs, hs⟩ := h
      exact ⟨b :: bs, .cons h hs⟩

theorem Item.unique {f : Form Node} {n m : Node} (hn : Item s f n) (hm : Item s f m) : n = m := by
  have made := (item_eq_ok_iff [] f n).2 hn
  rw [(item_eq_ok_iff [] f m).2 hm] at made
  exact (Except.ok.inj made).symm

/-- A build succeeds if every form denotes a node, and then gives what they denote, form by form. -/
theorem build_eq_ok_iff (s : Sentinels) (log : Option Log) (fs : List (Form Node)) :
    ((∃ ns, (build s log fs).outcome = .ok ns) ↔ ∀ f ∈ fs, ∃ n, Item s f n) ∧
      (∀ ns, (build s log fs).outcome = .ok ns ↔ List.Forall₂ (Item s) fs ns) ∧
      ∀ f n m, Item s f n → Item s f m → n = m := by
  have accepts (ns : List Node) :
      (build s log fs).outcome = .ok ns ↔ List.Forall₂ (Item s) fs ns := by
    rw [outcome_build, items_eq_ok_iff]
  refine ⟨?_, accepts, fun f n m => Item.unique⟩
  simp only [accepts, exists_forall₂_iff]

end Form

end Hypertext
