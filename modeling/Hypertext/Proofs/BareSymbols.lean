import Hypertext.Proofs.DumpReadability
import Hypertext.Proofs.Grammar

/-!
# The symbols that a build looks up

A symbol is bare where data stand. The sentinels are asked for bare symbols and for nothing else, so a name
that is also a tag, an attribute or a value there is not looked up for that (`build_consults_bare_symbols`).
The same computation is followed with two choices of sentinels, from its parts to the whole (`Consults`).
-/

namespace Hypertext.Form

mutual

/-- The symbols in data, at any depth. -/
def dataSymbols : Form Node → List Bytes
  | .symbol name => [name]
  | .list fs => dataSymbolsAll fs
  | .flag _ | .atom _ => []

def dataSymbolsAll : List (Form Node) → List Bytes
  | [] => []
  | f :: fs => dataSymbols f ++ dataSymbolsAll fs

end

/-- A list that is the value of an attribute is data, but a symbol there is not. -/
def valueSymbols : Form Node → List Bytes
  | .list fs => dataSymbolsAll fs
  | .symbol _ | .flag _ | .atom _ => []

/-- Names and values take turns. -/
def entrySymbols : List (Form Node) → List Bytes
  | _ :: value :: rest => valueSymbols value ++ entrySymbols rest
  | _ => []

mutual

/-- The bare symbols of an item, in reading order. -/
def bareSymbols : Form Node → List Bytes
  | .list (.symbol _ :: rest) => bareSymbolsAll rest
  | .list (.list (.symbol _ :: entries) :: rest) => entrySymbols entries ++ bareSymbolsAll rest
  | other => dataSymbols other

def bareSymbolsAll : List (Form Node) → List Bytes
  | [] => []
  | f :: fs => bareSymbols f ++ bareSymbolsAll fs

end

/-- A computation that looks some names up, with two choices of sentinels. It succeeds only if all of them
are found, and then its result holds what was found, so that two results differ in no more than that. -/
structure Consults (s t : Sentinels) (names : List Bytes) {ε α β : Type} (view : α → β)
    (x y : Except ε α) : Prop where
  congr : (∀ name ∈ names, s.lookup? name = t.lookup? name) → x = y
  known : ∀ a, x = .ok a → ∀ name ∈ names, s.contains name = true
  alike : ∀ a b, x = .ok a → y = .ok b → view a = view b
  agree : ∀ a, x = .ok a → y = .ok a → ∀ name ∈ names, s.lookup? name = t.lookup? name

namespace Consults

variable {s t : Sentinels} {xs ys : List Bytes} {ε α β γ α' β' γ' : Type}

theorem of_error (names : List Bytes) (view : α → α') (e : ε) :
    Consults s t names view (.error e) (.error e) where
  congr _ := rfl
  known _ made := by cases made
  alike _ _ made := by cases made
  agree _ made := by cases made

theorem of_ok (view : α → α') (a : α) : Consults s t [] view (.ok a : Except ε α) (.ok a) where
  congr _ := rfl
  known _ _ _ member := by cases member
  alike b c made made' := by
    cases made
    cases made'
    rfl
  agree _ _ _ _ member := by cases member

theorem mapError {view : α → α'} {x y : Except ε α} (h : Consults s t xs view x y) {ε' : Type}
    (f : ε → ε') : Consults s t xs view (x.mapError f) (y.mapError f) where
  congr same := by rw [h.congr same]
  known a made := h.known a (mapError_eq_ok_iff.1 made)
  alike a b made made' := h.alike a b (mapError_eq_ok_iff.1 made) (mapError_eq_ok_iff.1 made')
  agree a made made' := h.agree a (mapError_eq_ok_iff.1 made) (mapError_eq_ok_iff.1 made')

theorem map {view : α → α'} {view' : β → β'} {x y : Except ε α} (h : Consults s t xs view x y)
    {make : α → β} (injective : ∀ {a b}, make a = make b → a = b)
    (views : ∀ {a b}, view a = view b → view' (make a) = view' (make b)) :
    Consults s t xs view' (do return make (← x)) (do return make (← y)) where
  congr same := by rw [h.congr same]
  known _ made := by
    obtain ⟨a, ha, -⟩ := bind_eq_ok_iff.1 made
    exact h.known a ha
  alike _ _ made made' := by
    obtain ⟨a, ha, eq⟩ := bind_eq_ok_iff.1 made
    obtain ⟨b, hb, eq'⟩ := bind_eq_ok_iff.1 made'
    cases eq
    cases eq'
    exact views (h.alike a b ha hb)
  agree _ made made' := by
    obtain ⟨a, ha, eq⟩ := bind_eq_ok_iff.1 made
    obtain ⟨b, hb, eq'⟩ := bind_eq_ok_iff.1 made'
    cases eq
    cases injective (Except.ok.inj eq')
    exact h.agree _ ha hb

/-- Two parts one after the other, both of them kept in the result. -/
theorem both {view : α → α'} {view' : β → β'} {view'' : γ → γ'} {x x' : Except ε α} {y y' : Except ε β}
    (hx : Consults s t xs view x x') (hy : Consults s t ys view' y y') {make : α → β → γ}
    (injective : ∀ {a a' b b'}, make a b = make a' b' → a = a' ∧ b = b')
    (views : ∀ {a a' b b'}, view a = view a' → view' b = view' b' →
      view'' (make a b) = view'' (make a' b')) :
    Consults s t (xs ++ ys) view'' (do let a ← x; let b ← y; return make a b)
      (do let a ← x'; let b ← y'; return make a b) where
  congr same := by
    obtain ⟨first, rest⟩ := List.forall_mem_append.1 same
    rw [hx.congr first, hy.congr rest]
  known _ made := by
    obtain ⟨a, ha, made⟩ := bind_eq_ok_iff.1 made
    obtain ⟨b, hb, -⟩ := bind_eq_ok_iff.1 made
    exact List.forall_mem_append.2 ⟨hx.known a ha, hy.known b hb⟩
  alike _ _ made made' := by
    obtain ⟨a, ha, made⟩ := bind_eq_ok_iff.1 made
    obtain ⟨b, hb, eq⟩ := bind_eq_ok_iff.1 made
    obtain ⟨a', ha', made'⟩ := bind_eq_ok_iff.1 made'
    obtain ⟨b', hb', eq'⟩ := bind_eq_ok_iff.1 made'
    cases eq
    cases eq'
    exact views (hx.alike a a' ha ha') (hy.alike b b' hb hb')
  agree _ made made' := by
    obtain ⟨a, ha, made⟩ := bind_eq_ok_iff.1 made
    obtain ⟨b, hb, eq⟩ := bind_eq_ok_iff.1 made
    obtain ⟨a', ha', made'⟩ := bind_eq_ok_iff.1 made'
    obtain ⟨b', hb', eq'⟩ := bind_eq_ok_iff.1 made'
    cases eq
    obtain ⟨rfl, rfl⟩ := injective (Except.ok.inj eq')
    exact List.forall_mem_append.2 ⟨hx.agree _ ha ha', hy.agree _ hb hb'⟩

end Consults

section

open Node

variable (s t : Sentinels)

/-- What is found for a name has that name, whatever stands under it. -/
theorem shown_of_lookup? {name : Bytes} {n : Node} (h : s.lookup? name = some n) :
    n.shown = .sentinel (Bytes.lower name) [] := by
  obtain ⟨literal, -, rfl⟩ := lookup?_eq_some_iff.1 h
  rfl

theorem consults_symbol (name : Bytes) :
    Consults s t [name] shown (data s (.symbol name)) (data t (.symbol name)) := by
  have found (u : Sentinels) (n : Node) : data u (.symbol name) = .ok n ↔ u.lookup? name = some n := by
    rw [data]
    cases u.lookup? name <;> simp
  refine ⟨fun same => ?_, fun n made => ?_, fun n m made made' => ?_, fun n made made' => ?_⟩
  · rw [data, data, same name (List.mem_singleton_self name)]
  · intro other member
    rw [List.mem_singleton.1 member, Sentinels.contains_eq_isSome_lookup?, (found s n).1 made]
    rfl
  · rw [shown_of_lookup? s ((found s n).1 made), shown_of_lookup? t ((found t m).1 made')]
  · intro other member
    rw [List.mem_singleton.1 member, (found s n).1 made, (found t n).1 made']

mutual

theorem consults_data : (f : Form Node) → Consults s t (dataSymbols f) shown (data s f) (data t f)
  | .atom n => .of_ok shown n
  | .flag on => .of_ok shown (.ofTruth on)
  | .symbol name => consults_symbol s t name
  | .list fs => (consults_dataAll fs).map Node.sequence.inj fun h => by rw [shown, shown, h]

theorem consults_dataAll : (fs : List (Form Node)) →
    Consults s t (dataSymbolsAll fs) shownAll (dataAll s fs) (dataAll t fs)
  | [] => .of_ok shownAll []
  | f :: fs => (consults_data f).both (consults_dataAll fs) List.cons.inj fun h h' => by
    rw [shownAll, shownAll, h, h']

end

/-- A list is a sequence of data, and so stays what it is in an attribute. -/
theorem attributeValue_list (name : Bytes) (fs : List (Form Node)) : attributeValue s name (.list fs) = do
    return .content (.sequence (← dataAll s fs)) := by
  rw [attributeValue, data]
  cases dataAll s fs <;> rfl

theorem consults_attributeValue (name : Bytes) (f : Form Node) :
    Consults s t (valueSymbols f) shownValue (attributeValue s name f) (attributeValue t name f) := by
  cases f with
  | flag on => exact .of_ok shownValue (.flag on)
  | atom n => exact .of_ok shownValue (.ofNode n)
  | symbol value => exact .of_error [] shownValue (Fault.symbolValue name value)
  | list fs =>
    rw [attributeValue_list, attributeValue_list]
    refine (consults_dataAll s t fs).map (fun h => ?_) fun h => ?_
    · exact Node.sequence.inj (AttributeValue.content.inj h)
    · rw [shownValue, shownValue, shown, shown, h]

theorem consults_attributesOfPairs {entries : List (Form Node)} {pairs : List (Form Node × Form Node)}
    (h : pairs? entries = some pairs) : Consults s t (entrySymbols entries) shownAttributes
      (attributesOfPairs s pairs) (attributesOfPairs t pairs) := by
  induction entries using pairs?.induct generalizing pairs with
  | case1 =>
    cases h
    exact .of_ok shownAttributes []
  | case2 entry => cases h
  | case3 key value rest ih =>
    obtain ⟨others, hothers, rfl⟩ := Option.map_eq_some_iff.1 h
    rw [attributesOfPairs, attributesOfPairs]
    cases attributeName key with
    | error e => exact .of_error _ shownAttributes e
    | ok name =>
      refine (consults_attributeValue s t name value).both (ih hothers) (fun h => ?_) fun h h' => ?_
      · obtain ⟨first, rest⟩ := List.cons.inj h
        exact ⟨(Attribute.mk.inj first).2, rest⟩
      · rw [shownAttributes, shownAttributes, h, h']

theorem consults_attributes (entries : List (Form Node)) : Consults s t (entrySymbols entries)
    shownAttributes (attributes s entries) (attributes t entries) := by
  rw [attributes, attributes]
  cases even : pairs? entries with
  | none => exact .of_error _ shownAttributes _
  | some pairs => exact consults_attributesOfPairs s t even

theorem bareSymbols_of_isTagForm_eq_false {f : Form Node} (plain : f.isTagForm = false) :
    bareSymbols f = dataSymbols f := by
  unfold bareSymbols
  split
  · cases plain
  · cases plain
  · rfl

theorem consults_item_of_plain {f : Form Node} (plain : f.isTagForm = false) (path : List Bytes) :
    Consults s t (bareSymbols f) shown (item s path f) (item t path f) := by
  rw [bareSymbols_of_isTagForm_eq_false plain, item_of_isTagForm_eq_false plain,
    item_of_isTagForm_eq_false plain]
  exact (consults_data s t f).mapError _

mutual

theorem consults_item (path : List Bytes) :
    (f : Form Node) → Consults s t (bareSymbols f) shown (item s path f) (item t path f)
  | .list (.symbol name :: rest) => by
    rw [item, item]
    by_cases empty : name = []
    · rw [if_pos empty, if_pos empty]
      exact .of_error _ shown _
    · rw [if_neg empty, if_neg empty]
      refine (consults_items (path ++ [name]) rest).map (fun h => ?_) fun h => ?_
      · exact (Element.mk.inj (Node.element.inj h)).2.2.1
      · rw [shown, shown, h]
  | .list (.list (.symbol name :: entries) :: rest) => by
    rw [item, item]
    by_cases empty : name = []
    · rw [if_pos empty, if_pos empty]
      exact .of_error _ shown _
    · rw [if_neg empty, if_neg empty]
      refine ((consults_attributes s t entries).mapError _).both
        (consults_items (path ++ [name]) rest) (fun h => ?_) fun h h' => ?_
      · obtain ⟨-, attributes, children, -⟩ := Element.mk.inj (Node.element.inj h)
        exact ⟨attributes, children⟩
      · rw [shown, shown, h, h']
  | .symbol _ | .flag _ | .atom _ | .list [] | .list (.flag _ :: _) | .list (.atom _ :: _)
  | .list (.list [] :: _) | .list (.list (.flag _ :: _) :: _) | .list (.list (.atom _ :: _) :: _)
  | .list (.list (.list _ :: _) :: _) => consults_item_of_plain s t rfl path

theorem consults_items (path : List Bytes) : (fs : List (Form Node)) →
    Consults s t (bareSymbolsAll fs) shownAll (items s path fs) (items t path fs)
  | [] => .of_ok shownAll []
  | f :: fs => (consults_item path f).both (consults_items path fs) List.cons.inj fun h h' => by
    rw [shownAll, shownAll, h, h']

end

end

/-- The symbols that a build asks its sentinels for are the bare ones. With more sentinels it gives what it
gave before, unless it failed; with others under names that are not asked for, it gives the same tree or the
same failure. Once it has succeeded, it gives the same trees with just those sentinels that answer alike, and
all that others can change is the literal of a bare symbol. -/
theorem build_consults_bare_symbols (s t : Sentinels) (log : Option Log) (fs : List (Form Node)) :
    ((∀ name n, s.lookup? name = some n → t.lookup? name = some n) → ∀ ns,
      (build s log fs).outcome = .ok ns → (build t log fs).outcome = .ok ns) ∧
    ((∀ name ∈ bareSymbolsAll fs, s.lookup? name = t.lookup? name) →
      build s log fs = build t log fs) ∧
    (∀ name literal, s.add name literal = .ok t →
      (∀ bare ∈ bareSymbolsAll fs, Bytes.lower bare ≠ Bytes.lower name) →
        build s log fs = build t log fs) ∧
    ∀ ns, (build s log fs).outcome = .ok ns →
      (∀ name ∈ bareSymbolsAll fs, s.contains name = true) ∧
      ((build t log fs).outcome = .ok ns ↔
        ∀ name ∈ bareSymbolsAll fs, s.lookup? name = t.lookup? name) ∧
      ∀ ms, (build t log fs).outcome = .ok ms → Node.shownAll ns = Node.shownAll ms := by
  have asked := consults_items s t [] fs
  have unseen (same : ∀ name ∈ bareSymbolsAll fs, s.lookup? name = t.lookup? name) :
      build s log fs = build t log fs := by
    rw [build, build, asked.congr same]
  simp only [outcome_build]
  refine ⟨?_, unseen, ?_, ?_⟩
  · intro more ns made
    have same : ∀ name ∈ bareSymbolsAll fs, s.lookup? name = t.lookup? name := by
      intro name bare
      have known := asked.known ns made name bare
      rw [Sentinels.contains_eq_isSome_lookup?] at known
      obtain ⟨n, found⟩ := Option.isSome_iff_exists.1 known
      rw [found, more name n found]
    rw [← asked.congr same, made]
  · intro name literal added others
    refine unseen fun bare member => ?_
    rw [Sentinels.lookup?_of_add added, if_neg (others bare member)]
  · intro ns made
    refine ⟨asked.known ns made, ⟨asked.agree ns made, fun same => ?_⟩, fun ms made' => ?_⟩
    · rw [← asked.congr same, made]
    · exact asked.alike ns ms made made'

/-- One name as a tag and as an attribute, and another one bare: as a child, and in lists at two places. -/
def roles : List (Form Node) :=
  [.list [.list [.symbol [98], .symbol [98], .flag true, .symbol [99], .list [.symbol [120]]],
    .list [.symbol [98]], .symbol [88]], .list [.flag true, .list [.symbol [120]]]]

/-- The name of the tag can stand for anything, and the other one for anything else. -/
theorem build_consults_bare_symbols_roles :
    let s : Sentinels := ⟨Sentinels.standard.literals.put [120] [60]⟩
    let t : Sentinels := ⟨s.literals.put [98] [62]⟩
    let u : Sentinels := ⟨t.literals.put [120] [38]⟩
    bareSymbolsAll roles = [[120], [88], [120]] ∧ s.add [66] [62] = .ok t ∧
      build s none roles = build t none roles ∧
      ∃ ns ms, (build t none roles).outcome = .ok ns ∧ (build u none roles).outcome = .ok ms ∧
        (build u none roles).outcome ≠ .ok ns ∧ Node.shownAll ns = Node.shownAll ms := by
  intro s t u
  have bare : bareSymbolsAll roles = [[120], [88], [120]] := rfl
  have added : s.add [66] [62] = .ok t := rfl
  have others : ∀ name ∈ bareSymbolsAll roles, Bytes.lower name ≠ Bytes.lower [66] := by
    rw [bare]
    decide
  have unseen := (build_consults_bare_symbols s t none roles).2.2.1 [66] [62] added others
  obtain ⟨-, exactly, alike⟩ := (build_consults_bare_symbols t u none roles).2.2.2 _ rfl
  refine ⟨bare, added, unseen, _, _, rfl, rfl, fun same => ?_, alike _ rfl⟩
  have answers := exactly.1 same [120] (by rw [bare]; decide)
  cases answers

end Hypertext.Form
