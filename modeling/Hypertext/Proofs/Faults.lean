import Hypertext.Proofs.Grammar
import Hypertext.Workspace

/-!
# The faults of forms

All faults that a form has, in reading order and with the names of the elements around each, collected
without stopping at the first. Building has no other way to fail than at the first of them
(`build_fails_first`).
-/

namespace Hypertext

def failure? {ε α : Type} : Except ε α → Option ε
  | .error e => some e
  | .ok _ => none

section

variable {ε α β : Type}

theorem failure?_eq_none_iff {x : Except ε α} : failure? x = none ↔ ∃ a, x = .ok a := by
  cases x <;> simp [failure?]

theorem failure?_eq_some_iff {x : Except ε α} {e : ε} : failure? x = some e ↔ x = .error e := by
  cases x <;> simp [failure?]

theorem failure?_mapError {ε' : Type} (x : Except ε α) (f : ε → ε') :
    failure? (x.mapError f) = (failure? x).map f := by
  cases x <;> rfl

theorem failure?_bind_pure (x : Except ε α) (f : α → β) :
    failure? (do return f (← x)) = failure? x := by
  cases x <;> rfl

/-- A part that fails on its own account fails only if all parts before it succeed. -/
theorem failure?_bind {x : Except ε α} {f : α → Except ε β} {later : Option ε}
    (h : ∀ a, failure? (f a) = later) : failure? (x >>= f) = (failure? x).or later := by
  cases x with
  | error e => rfl
  | ok a => exact h a

end

namespace Form

mutual

/-- Bare symbols that name no sentinel, at any depth. -/
def dataFaults (s : Sentinels) : Form Node → List Fault
  | .atom _ | .flag _ => []
  | .symbol name => if s.contains name then [] else [.bareSymbol name]
  | .list fs => dataFaultsAll s fs

def dataFaultsAll (s : Sentinels) : List (Form Node) → List Fault
  | [] => []
  | f :: fs => dataFaults s f ++ dataFaultsAll s fs

end

def valueFaults (s : Sentinels) (name : Bytes) : Form Node → List Fault
  | .flag _ | .atom _ => []
  | .symbol value => [.symbolValue name value]
  | .list fs => dataFaultsAll s fs

/-- An attribute that has no name has no other fault. -/
def pairFaults (s : Sentinels) : Form Node → Form Node → List Fault
  | .symbol name, value | .atom (.text name), value =>
    if name = [] then [.emptyAttributeName] else valueFaults s name value
  | key, _ => [.attributeNameKind key.kind]

def pairsFaults (s : Sentinels) : List (Form Node) → List Fault
  | key :: value :: rest => pairFaults s key value ++ pairsFaults s rest
  | _ => []

/-- Entries that cannot be paired are not looked at. -/
def attributeFaults (s : Sentinels) (entries : List (Form Node)) : List Fault :=
  if entries.length % 2 = 0 then pairsFaults s entries else [.oddAttributes entries.length]

mutual

/-- The faults of a form that stands inside the elements named by `path`. -/
def faults (s : Sentinels) (path : List Bytes) : Form Node → List Malformed
  | .list (.symbol name :: rest) =>
    if name = [] then [⟨.emptyTagName, path⟩] else faultsAll s (path ++ [name]) rest
  | .list (.list (.symbol name :: entries) :: rest) =>
    if name = [] then [⟨.emptyTagName, path⟩] else
      (attributeFaults s entries).map (⟨·, path ++ [name]⟩) ++ faultsAll s (path ++ [name]) rest
  | other => (dataFaults s other).map (⟨·, path⟩)

def faultsAll (s : Sentinels) (path : List Bytes) : List (Form Node) → List Malformed
  | [] => []
  | f :: fs => faults s path f ++ faultsAll s path fs

end

variable {s : Sentinels}

mutual

theorem failure?_data : (f : Form Node) → failure? (data s f) = (dataFaults s f).head?
  | .atom _ | .flag _ => rfl
  | .symbol name => by
    cases h : s.lookup? name <;>
      simp [data, dataFaults, Sentinels.contains_eq_isSome_lookup?, h, failure?]
  | .list fs => by
    rw [data, failure?_bind_pure, failure?_dataAll fs, dataFaults]

theorem failure?_dataAll :
    (fs : List (Form Node)) → failure? (dataAll s fs) = (dataFaultsAll s fs).head?
  | [] => rfl
  | f :: fs => by
    rw [dataAll, failure?_bind fun _ => failure?_bind_pure _ _, failure?_data f, failure?_dataAll fs,
      dataFaultsAll, List.head?_append]

end

theorem failure?_attributeValue (name : Bytes) (f : Form Node) :
    failure? (attributeValue s name f) = (valueFaults s name f).head? := by
  cases f with
  | flag on => rfl
  | atom n => rfl
  | symbol value => rfl
  | list fs => rw [attributeValue, failure?_bind_pure, failure?_data, dataFaults, valueFaults]

/-- The name of an attribute is looked at before its value. -/
theorem head?_pairFaults (key value : Form Node) : (pairFaults s key value).head? =
    failure? (do let name ← attributeName key; attributeValue s name value) := by
  have named (name : Bytes) (h : attributeName key = if name = [] then .error .emptyAttributeName else
      .ok name) : (if name = [] then [Fault.emptyAttributeName] else valueFaults s name value).head? =
      failure? (do let name ← attributeName key; attributeValue s name value) := by
    rw [h]
    by_cases empty : name = []
    · rw [if_pos empty, if_pos empty]
      rfl
    · rw [if_neg empty, if_neg empty]
      exact (failure?_attributeValue name value).symm
  rw [pairFaults.eq_def]
  split
  · exact named _ rfl
  · exact named _ rfl
  · rename_i symbol text
    have unnamed : attributeName key = .error (.attributeNameKind key.kind) := by
      rw [attributeName.eq_def]
      split
      · exact absurd rfl (symbol _)
      · exact absurd rfl (text _)
      · rfl
    rw [unnamed]
    rfl

theorem pairs?_eq_none_iff {α : Type} (l : List α) : pairs? l = none ↔ l.length % 2 ≠ 0 := by
  induction l using pairs?.induct with
  | case1 => simp [pairs?]
  | case2 a => simp [pairs?]
  | case3 a b rest ih =>
    rw [pairs?, Option.map_eq_none_iff, ih, List.length_cons, List.length_cons]
    omega

theorem failure?_attributesOfPairs {entries : List (Form Node)} {pairs : List (Form Node × Form Node)}
    (h : pairs? entries = some pairs) :
    failure? (attributesOfPairs s pairs) = (pairsFaults s entries).head? := by
  induction entries using pairs?.induct generalizing pairs with
  | case1 => cases h; rfl
  | case2 entry => cases h
  | case3 key value rest ih =>
    obtain ⟨others, hothers, rfl⟩ := Option.map_eq_some_iff.1 h
    rw [pairsFaults, List.head?_append, ← ih hothers, head?_pairFaults, attributesOfPairs]
    cases attributeName key with
    | error e => rfl
    | ok name =>
      change failure? (attributeValue s name value >>= _) = (failure? (attributeValue s name value)).or _
      exact failure?_bind fun v => failure?_bind_pure _ _

theorem failure?_attributes (entries : List (Form Node)) :
    failure? (attributes s entries) = (attributeFaults s entries).head? := by
  rw [attributes, attributeFaults]
  cases h : pairs? entries with
  | none => rw [if_neg ((pairs?_eq_none_iff entries).1 h)]; rfl
  | some pairs =>
    have even : entries.length % 2 = 0 := by
      by_contra odd
      rw [(pairs?_eq_none_iff entries).2 odd] at h
      cases h
    rw [if_pos even]
    exact failure?_attributesOfPairs h

theorem head?_faults_of_isTagForm_eq_false {f : Form Node} (plain : f.isTagForm = false)
    (path : List Bytes) : failure? (item s path f) = (faults s path f).head? := by
  have collected : faults s path f = (dataFaults s f).map (⟨·, path⟩) := by
    rw [faults.eq_def]
    split
    · cases plain
    · cases plain
    · rfl
  rw [item_of_isTagForm_eq_false plain, failure?_mapError, failure?_data, collected, List.head?_map]

mutual

theorem failure?_item (path : List Bytes) :
    (f : Form Node) → failure? (item s path f) = (faults s path f).head?
  | .list (.symbol name :: rest) => by
    rw [item, faults]
    by_cases empty : name = []
    · simp only [empty, if_true, List.head?_cons, failure?]
    · rw [if_neg empty, if_neg empty, failure?_bind_pure, failure?_items _ rest]
  | .list (.list (.symbol name :: entries) :: rest) => by
    rw [item, faults]
    by_cases empty : name = []
    · simp only [empty, if_true, List.head?_cons, failure?]
    · rw [if_neg empty, if_neg empty, failure?_bind fun _ => failure?_bind_pure _ _,
        failure?_mapError, failure?_attributes, failure?_items _ rest, List.head?_append,
        List.head?_map]
  | .symbol _ | .flag _ | .atom _ | .list [] | .list (.flag _ :: _) | .list (.atom _ :: _)
  | .list (.list [] :: _) | .list (.list (.flag _ :: _) :: _) | .list (.list (.atom _ :: _) :: _)
  | .list (.list (.list _ :: _) :: _) => head?_faults_of_isTagForm_eq_false rfl path

theorem failure?_items (path : List Bytes) :
    (fs : List (Form Node)) → failure? (items s path fs) = (faultsAll s path fs).head?
  | [] => rfl
  | f :: fs => by
    rw [items, failure?_bind fun _ => failure?_bind_pure _ _, failure?_item path f,
      failure?_items path fs, faultsAll, List.head?_append]

end

theorem faultsAll_eq_flatMap (path : List Bytes) (fs : List (Form Node)) :
    faultsAll s path fs = fs.flatMap (faults s path) := by
  induction fs with
  | nil => rfl
  | cons f fs ih => rw [faultsAll, ih, List.flatMap_cons]

theorem failure?_outcome_build (s : Sentinels) (log : Option Log) (fs : List (Form Node)) :
    failure? (build s log fs).outcome = (fs.flatMap (faults s [])).head? := by
  rw [outcome_build, failure?_items, faultsAll_eq_flatMap]

theorem log_build_of_outcome_eq_error {log : Option Log} {fs : List (Form Node)} {m : Malformed}
    (h : (build s log fs).outcome = .error m) : (build s log fs).log = log.map (·.emit m.report) := by
  rw [outcome_build] at h
  rw [build, h]

theorem failure?_workspace_build (w : Workspace) {drafts : List (Form Draft)}
    {fs : List (Form Node)} (h : mapAtomsAll (Draft.eval w.scope) drafts = .ok fs)
    (target : Option Bytes) : failure? (w.build drafts target).1 =
      (fs.flatMap (faults (w.builder.getD .standard) [])).head?.map .malformed := by
  have fault := failure?_outcome_build (w.builder.getD .standard) (some w.log) fs
  have same : ({ w with builder := some (w.builder.getD .standard) } : Workspace).scope = w.scope := rfl
  rw [← fault, Workspace.build]
  simp only [same, h]
  split
  · rename_i m failed
    rw [failed]
    rfl
  · rename_i ns made
    rw [made]
    rfl

/-- A build fails just if there is a fault, with the first one, and reports that one alone. Also where
other failures could be told, a build of forms that are all at hand has none but this. -/
theorem build_fails_first (s : Sentinels) (log : Option Log) (fs : List (Form Node)) :
    ((∃ ns, (build s log fs).outcome = .ok ns) ↔ fs.flatMap (faults s []) = []) ∧
      (∀ m, (build s log fs).outcome = .error m ↔ (fs.flatMap (faults s [])).head? = some m) ∧
      (∀ m, (fs.flatMap (faults s [])).head? = some m →
        (build s log fs).log = log.map (·.emit ⟨.error, source, m.fault.stage, m.message⟩)) ∧
      ∀ (w : Workspace) (drafts : List (Form Draft)) (target : Option Bytes),
        w.builder.getD .standard = s → mapAtomsAll (Draft.eval w.scope) drafts = .ok fs →
          failure? (w.build drafts target).1 = (fs.flatMap (faults s [])).head?.map .malformed := by
  have first := failure?_outcome_build s log fs
  have fails (m : Malformed) :
      (build s log fs).outcome = .error m ↔ (fs.flatMap (faults s [])).head? = some m := by
    rw [← failure?_eq_some_iff, first]
  refine ⟨?_, fails, ?_, ?_⟩
  · rw [← failure?_eq_none_iff, first, List.head?_eq_none_iff]
  · intro m h
    exact log_build_of_outcome_eq_error ((fails m).2 h)
  · intro w drafts target chosen h
    rw [failure?_workspace_build w h target, chosen]

/-- Behind a sound sibling, the attributes of an element are faulted before its children, all inside it. -/
example : faults {} [] (.list [.symbol [97], .list [.symbol [98]], .list [.list [.symbol [99],
    .symbol [], .flag true, .flag true, .symbol [100]], .symbol [101]]]) =
    [⟨.emptyAttributeName, [[97], [99]]⟩, ⟨.attributeNameKind .flag, [[97], [99]]⟩,
      ⟨.bareSymbol [101], [[97], [99]]⟩] := by
  decide

end Form

end Hypertext
