import Hypertext.Bytes

/-! # Tables

A table has at most one value for each key. The last value put under a key counts.
-/

namespace Hypertext

structure Table (α : Type) where
  entries : List (Bytes × α) := []
  nodup : (entries.map Prod.fst).Nodup := by simp

namespace Table

variable {α : Type}

def keys (t : Table α) : List Bytes := t.entries.map Prod.fst

def size (t : Table α) : Nat := t.entries.length

def get? (t : Table α) (key : Bytes) : Option α := (t.entries.find? (·.1 = key)).map Prod.snd

def contains (t : Table α) (key : Bytes) : Bool := (t.get? key).isSome

private theorem keys_replace (entries : List (Bytes × α)) (key : Bytes) (value : α) :
    (entries.map fun e => if e.1 = key then (key, value) else e).map Prod.fst =
      entries.map Prod.fst := by
  rw [List.map_map]
  refine List.map_congr_left fun e _ => ?_
  by_cases h : e.1 = key <;> simp [h]

/-- A key that is there keeps its place. -/
def put (t : Table α) (key : Bytes) (value : α) : Table α :=
  if h : key ∈ t.keys then
    { entries := t.entries.map fun e => if e.1 = key then (key, value) else e
      nodup := by rw [keys_replace]; exact t.nodup }
  else
    { entries := t.entries ++ [(key, value)]
      nodup := by
        rw [List.map_append, List.nodup_append]
        refine ⟨t.nodup, by simp, ?_⟩
        intro a ha b hb same
        simp only [List.map_cons, List.map_nil, List.mem_singleton] at hb
        exact h (hb ▸ same ▸ ha) }

theorem get?_eq_none_iff {t : Table α} {key : Bytes} : t.get? key = none ↔ key ∉ t.keys := by
  simp only [get?, keys, Option.map_eq_none_iff, List.find?_eq_none, decide_eq_true_eq, List.mem_map,
    not_exists, not_and]

@[simp] theorem get?_empty (key : Bytes) : ({} : Table α).get? key = none := rfl

private theorem find?_replace_self (entries : List (Bytes × α)) (key : Bytes) (value : α)
    (h : key ∈ entries.map Prod.fst) :
    ((entries.map fun e => if e.1 = key then (key, value) else e).find? (·.1 = key)) =
      some (key, value) := by
  induction entries with
  | nil => simp at h
  | cons e es ih =>
    by_cases he : e.1 = key
    · simp [he]
    · have : key ∈ es.map Prod.fst := by
        rcases List.mem_cons.1 h with h | h
        · exact absurd h.symm he
        · exact h
      simpa [he] using ih this

private theorem find?_replace_of_ne (entries : List (Bytes × α)) {key other : Bytes} (value : α)
    (h : other ≠ key) :
    ((entries.map fun e => if e.1 = key then (key, value) else e).find? (·.1 = other)) =
      entries.find? (·.1 = other) := by
  induction entries with
  | nil => rfl
  | cons e es ih =>
    by_cases he : e.1 = key
    · simp [he, h.symm, ih]
    · by_cases ho : e.1 = other <;> simp [he, ho, h, ih]

theorem get?_put (t : Table α) (key other : Bytes) (value : α) :
    (t.put key value).get? other = if other = key then some value else t.get? other := by
  by_cases same : other = key
  · subst same
    simp only [if_true, put]
    split
    · rename_i h
      simp only [get?, find?_replace_self _ _ _ h, Option.map_some]
    · rename_i h
      have : t.entries.find? (·.1 = other) = none := by
        simpa [get?] using get?_eq_none_iff.2 h
      simp [get?, List.find?_append, this]
  · simp only [same, if_false, put]
    split
    · simp only [get?, find?_replace_of_ne _ _ same]
    · simp [get?, List.find?_append, Ne.symm same]

theorem size_put (t : Table α) (key : Bytes) (value : α) :
    (t.put key value).size = if t.contains key then t.size else t.size + 1 := by
  have present : t.contains key = true ↔ key ∈ t.keys := by
    rw [contains, Option.isSome_iff_ne_none, ne_eq, get?_eq_none_iff, Classical.not_not]
  by_cases h : key ∈ t.keys
  · simp [put, h, size, present.2 h]
  · simp [put, h, size, mt present.1 h]

end Table

end Hypertext
