import Hypertext.Proofs.Simplification
import Hypertext.Proofs.Spelling

/-!
# Attributes that are found and attributes that are shown

A lookup stops at the first attribute of a name, whatever its value; a tag shows every attribute that is
present. They agree on a name unless the first attribute of that name is a flag that is off, and then the
tag may show a later one (`Element.attribute?_agrees_with_tag`).
-/

namespace Hypertext

/-- What stands between the quotes when an attribute of the given name is shown. -/
def AttributeValue.quoted (l : Layout) (name : Bytes) : AttributeValue Node → Bytes
  | .flag _ => Entity.encode (Bytes.lower name)
  | .content v => (({ layout := l } : Serializer).writeValue v).sink.contents

theorem AttributeValue.quoted_content (l : Layout) (name : Bytes) (v : Node) :
    quoted l name (.content v) = Markup.ofValue l v := by
  rw [quoted, Serializer.writeValue_eq, Serializer.contents_advance]

/-- A name is shown in lower case, and so is a flag. -/
theorem AttributeValue.quoted_congr (l : Layout) {name other : Bytes}
    (h : Bytes.lower name = Bytes.lower other) (v : AttributeValue Node) :
    v.quoted l name = v.quoted l other := by
  cases v with
  | flag on => rw [quoted, quoted, h]
  | content v => rfl

namespace Markup

/-- The names and the texts that a tag shows, in order. -/
def assignments (l : Layout) (as : List (Attribute Node)) : List (Bytes × Bytes) :=
  (as.filter (·.value.present)).map fun a => (Bytes.lower a.name, a.value.quoted l a.name)

variable {l : Layout}

/-- An attribute is shown once or not at all, at its place among the others. -/
theorem assignments_split (before : List (Attribute Node)) (a : Attribute Node)
    (after : List (Attribute Node)) : assignments l (before ++ a :: after) =
      assignments l before ++
        (if a.value.present then [(Bytes.lower a.name, a.value.quoted l a.name)] else []) ++
          assignments l after := by
  simp only [assignments, List.filter_append, List.map_append, List.append_assoc]
  cases shown : a.value.present with
  | true => simp [List.filter_cons_of_pos, shown]
  | false => simp [List.filter_cons_of_neg, shown]

theorem ofAttributes_eq_flatMap_assignments (as : List (Attribute Node)) :
    ofAttributes l as = (assignments l as).flatMap fun p => assignment p.1 p.2 := by
  induction as with
  | nil => rfl
  | cons a as ih =>
    have split := assignments_split (l := l) [] a as
    rw [List.nil_append] at split
    rw [split, List.flatMap_append, ← ih, ofAttributes]
    obtain ⟨name, value⟩ := a
    cases value with
    | flag on => cases on <;> simp [assignments, AttributeValue.present, AttributeValue.quoted, ofAttribute]
    | content v =>
      simp [assignments, AttributeValue.present, AttributeValue.quoted_content, ofAttribute]

theorem ne_of_mem_assignments {as : List (Attribute Node)} {name : Bytes}
    (others : ∀ a ∈ as, Bytes.lower a.name ≠ Bytes.lower name) :
    ∀ p ∈ assignments l as, p.1 ≠ Bytes.lower name := by
  intro p shown
  obtain ⟨a, found, rfl⟩ := List.mem_map.1 shown
  exact others a (List.mem_filter.1 found).1

/-- What a tag shows first under a name is the first attribute of that name, or comes after it. -/
theorem find?_assignments {before : List (Attribute Node)} {a : Attribute Node} {name : Bytes}
    (same : Bytes.lower a.name = Bytes.lower name)
    (first : ∀ b ∈ before, Bytes.lower b.name ≠ Bytes.lower name) (after : List (Attribute Node)) :
    (assignments l (before ++ a :: after)).find? (·.1 = Bytes.lower name) =
      if a.value.present then some (Bytes.lower name, a.value.quoted l name)
      else (assignments l after).find? (·.1 = Bytes.lower name) := by
  have none_before : (assignments l before).find? (·.1 = Bytes.lower name) = none :=
    List.find?_eq_none.2 fun p shown => by simpa using ne_of_mem_assignments first p shown
  rw [assignments_split, List.append_assoc, List.find?_append, none_before, Option.none_or]
  cases a.value.present with
  | true =>
    rw [if_pos rfl, if_pos rfl, List.singleton_append, List.find?_cons_of_pos (by simpa using same), same,
      AttributeValue.quoted_congr l same]
  | false => rw [if_neg (by simp), if_neg (by simp), List.nil_append]

end Markup

namespace Element

theorem attribute?_eq_some_iff {ν : Type} {e : Element ν} {name : Bytes} {v : AttributeValue ν} :
    e.attribute? name = some v ↔ ∃ before a after, e.attributes = before ++ a :: after ∧
      Bytes.lower a.name = Bytes.lower name ∧ a.value = v ∧
        ∀ b ∈ before, Bytes.lower b.name ≠ Bytes.lower name := by
  rw [attribute?, Option.map_eq_some_iff]
  constructor
  · intro h
    obtain ⟨a, found, value⟩ := h
    obtain ⟨same, before, after, split, first⟩ := List.find?_eq_some_iff_append.1 found
    exact ⟨before, a, after, split, by simpa using same, value, fun b hb => by simpa using first b hb⟩
  · intro h
    obtain ⟨before, a, after, split, same, value, first⟩ := h
    refine ⟨a, List.find?_eq_some_iff_append.2 ⟨by simpa using same, before, after, split, ?_⟩, value⟩
    intro b hb
    simpa using first b hb

theorem hasAttribute_eq_false_iff {ν : Type} {e : Element ν} {name : Bytes} :
    e.hasAttribute name = false ↔ e.attribute? name = none := by
  rw [hasAttribute, ← Option.not_isSome_iff_eq_none, Bool.not_eq_true]

theorem foldl_addAttribute {ν : Type} (e : Element ν) (more : List (Attribute ν)) :
    more.foldl (fun f a => f.addAttribute a.name a.value) e =
      { e with attributes := e.attributes ++ more } := by
  induction more generalizing e with
  | nil => rw [List.append_nil, List.foldl_nil]
  | cons a more ih => rw [List.foldl_cons, ih, addAttribute, List.append_assoc, List.singleton_append]

theorem attribute?_foldl_addAttribute {ν : Type} (e : Element ν) (more : List (Attribute ν))
    (name : Bytes) : (more.foldl (fun f a => f.addAttribute a.name a.value) e).attribute? name =
      (e.attribute? name).or (({ e with attributes := more } : Element ν).attribute? name) := by
  simp only [foldl_addAttribute, attribute?, List.find?_append, Option.map_or]

theorem exists_render_eq (l : Layout) (e : Element Node) : ∃ rest, render l [.element e] =
    60 :: Bytes.lower e.name ++ (Markup.assignments l e.attributes).flatMap
      (fun p => Markup.assignment p.1 p.2) ++ 62 :: rest := by
  refine ⟨l.lineEnd ++ Markup.ofNodes l e.children ++ Markup.closeTag l (Bytes.lower e.name), ?_⟩
  rw [render_singleton, Markup.ofNode, Markup.ofElement, Markup.ofAttributes_eq_flatMap_assignments]
  simp only [List.cons_append, List.append_assoc]

/-- Lookup finds the first attribute of a name, in whatever case, and no later one changes that. A tag shows
all attributes that are present, one after the other: if the one that is found is among them, it is the first
that is shown under its name, and if none is found, none is shown. If the one that is found is off, what is
shown under its name comes from the attributes behind it. -/
theorem attribute?_agrees_with_tag (e : Element Node) (name : Bytes) :
    (e.attribute? name = none ↔ ∀ a ∈ e.attributes, ¬ Bytes.SameSpelling a.name name) ∧
    (e.attribute? name = none ↔ e.hasAttribute name = false) ∧
    (∀ v, e.attribute? name = some v ↔ ∃ before a after, e.attributes = before ++ a :: after ∧
      Bytes.SameSpelling a.name name ∧ a.value = v ∧
        ∀ b ∈ before, ¬ Bytes.SameSpelling b.name name) ∧
    (∀ l, let shown := Markup.assignments l e.attributes
      (∀ w : Serializer, w.layout = l → w.writeAttributes e.attributes =
        w.put (shown.flatMap fun p => Markup.assignment p.1 p.2)) ∧
      (∃ rest, render l [.element e] = 60 :: Bytes.lower e.name ++
        shown.flatMap (fun p => Markup.assignment p.1 p.2) ++ 62 :: rest) ∧
      (∀ before a after, e.attributes = before ++ a :: after → shown = Markup.assignments l before ++
        (if a.value.present then [(Bytes.lower a.name, a.value.quoted l a.name)] else []) ++
          Markup.assignments l after) ∧
      (∀ v, e.attribute? name = some v → v.present = true →
        shown.find? (·.1 = Bytes.lower name) = some (Bytes.lower name, v.quoted l name)) ∧
      (e.attribute? name = none → ∀ p ∈ shown, p.1 ≠ Bytes.lower name) ∧
      (∀ before a after, e.attributes = before ++ a :: after → Bytes.SameSpelling a.name name →
        (∀ b ∈ before, ¬ Bytes.SameSpelling b.name name) → a.value = .flag false →
          shown.find? (·.1 = Bytes.lower name) =
            (Markup.assignments l after).find? (·.1 = Bytes.lower name))) ∧
    ∀ more : List (Attribute Node),
      let longer := more.foldl (fun f a => f.addAttribute a.name a.value) e
      longer = { e with attributes := e.attributes ++ more } ∧
        ∀ v, e.attribute? name = some v → longer.attribute? name = some v := by
  simp only [← Bytes.lower_eq_lower_iff]
  refine ⟨attribute?_eq_none_iff, hasAttribute_eq_false_iff.symm, fun v => attribute?_eq_some_iff, ?_, ?_⟩
  · intro l
    refine ⟨?_, e.exists_render_eq l, ?_, ?_, ?_, ?_⟩
    · intro w layout
      rw [Serializer.writeAttributes_eq, layout, Markup.ofAttributes_eq_flatMap_assignments,
        Serializer.put_eq]
    · intro before a after split
      rw [split, Markup.assignments_split]
    · intro v found on
      obtain ⟨before, a, after, split, same, rfl, first⟩ := attribute?_eq_some_iff.1 found
      rw [split, Markup.find?_assignments same first, if_pos on]
    · intro missing
      exact Markup.ne_of_mem_assignments (attribute?_eq_none_iff.1 missing)
    · intro before a after split same first off
      rw [split, Markup.find?_assignments same first, off, if_neg (by simp [AttributeValue.present])]
  · intro more
    refine ⟨foldl_addAttribute e more, fun v found => ?_⟩
    rw [attribute?_foldl_addAttribute, found, Option.some_or]

/-- One name three times, off to begin with, and another name once. -/
def doubled : Element Node where
  name := [66]
  attributes := [⟨[73, 68], .flag false⟩, ⟨[105, 68], .content (.sequence [.text [60], .character 38])⟩,
    ⟨[105, 100], .flag true⟩, ⟨[78], .flag true⟩]

/-- The flag that is off is what is found, and the text behind it is what is shown. -/
theorem attribute?_agrees_with_tag_doubled :
    let shown := Markup.assignments {} doubled.attributes
    doubled.attribute? [73, 100] = some (.flag false) ∧
      shown.find? (·.1 = [105, 100]) = some ([105, 100], Entity.encode [60, 38]) ∧
      doubled.attribute? [110] = some (.flag true) ∧
      shown.find? (·.1 = [110]) = some ([110], Entity.encode [110]) ∧
      doubled.attribute? [120] = none ∧ ∀ p ∈ shown, p.1 ≠ [120] := by
  have found : doubled.attribute? [110] = some (.flag true) := rfl
  have missing : doubled.attribute? [120] = none := rfl
  obtain ⟨-, -, -, tag, -⟩ := doubled.attribute?_agrees_with_tag [73, 100]
  obtain ⟨-, -, -, tag', -⟩ := doubled.attribute?_agrees_with_tag [110]
  obtain ⟨-, -, -, tag'', -⟩ := doubled.attribute?_agrees_with_tag [120]
  obtain ⟨-, -, -, -, -, behind⟩ := tag {}
  obtain ⟨-, -, -, first, -⟩ := tag' {}
  obtain ⟨-, -, -, -, none_shown, -⟩ := tag'' {}
  refine ⟨rfl, ?_, found, first _ found rfl, missing, none_shown missing⟩
  have same : Bytes.SameSpelling [73, 68] [73, 100] := Bytes.lower_eq_lower_iff.1 rfl
  exact (behind [] _ _ rfl same (by simp) rfl).trans rfl

end Element

end Hypertext
