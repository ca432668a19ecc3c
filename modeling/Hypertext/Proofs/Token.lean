import Hypertext.Proofs.Markup
import Mathlib.Tactic.SplitIfs

/-!
# Tokens of markup

A strict tokenizer: names, quotes and brackets must stand just where they are written, and a byte with a
written form of its own must never stand bare in text or in a value. It reads every written list of
tokens back, with its runs of texts collected (`Token.tokenize_written`).
-/

namespace Hypertext

namespace Entity

/-- Undoes the encoding from left to right, and refuses what is never written. -/
def decode : Bytes → Option Bytes
  | [] => some []
  | 38 :: 108 :: 116 :: 59 :: rest => (decode rest).map (60 :: ·)
  | 38 :: 103 :: 116 :: 59 :: rest => (decode rest).map (62 :: ·)
  | 38 :: 97 :: 109 :: 112 :: 59 :: rest => (decode rest).map (38 :: ·)
  | 38 :: 113 :: 117 :: 111 :: 116 :: 59 :: rest => (decode rest).map (34 :: ·)
  | b :: rest => if (replacement? b).isSome then none else (decode rest).map (b :: ·)

theorem replacement?_eq_none_iff {b : UInt8} :
    replacement? b = none ↔ b ≠ 60 ∧ b ≠ 62 ∧ b ≠ 38 ∧ b ≠ 34 := by
  rw [replacement?]
  split_ifs <;> simp_all

/-- The four entities, each with the byte it stands for. -/
theorem of_replacement?_eq_some {b : UInt8} {entity : Bytes} (h : replacement? b = some entity) :
    b = 60 ∧ entity = [38, 108, 116, 59] ∨ b = 62 ∧ entity = [38, 103, 116, 59] ∨
      b = 38 ∧ entity = [38, 97, 109, 112, 59] ∨ b = 34 ∧ entity = [38, 113, 117, 111, 116, 59] := by
  rw [replacement?] at h
  split_ifs at h <;> cases h <;> subst b <;> decide

theorem decode_encodeByte_append (b : UInt8) (s : Bytes) :
    decode (encodeByte b ++ s) = (decode s).map (b :: ·) := by
  cases h : replacement? b with
  | none =>
    have bare := replacement?_eq_none_iff.1 h
    rw [encodeByte_of_replacement?_eq_none h, List.singleton_append, decode.eq_def]
    split <;> simp_all
  | some entity =>
    rw [encodeByte, h, Option.getD_some]
    rcases of_replacement?_eq_some h with
      ⟨rfl, rfl⟩ | ⟨rfl, rfl⟩ | ⟨rfl, rfl⟩ | ⟨rfl, rfl⟩ <;> rfl

theorem decode_encode (s : Bytes) : decode (encode s) = some s := by
  induction s with
  | nil => rfl
  | cons b s ih => rw [encode_cons, decode_encodeByte_append, ih, Option.map_some]

/-- Brackets and quotes are never written bare. -/
theorem bare_of_mem_encode {b : UInt8} {s : Bytes} (h : b ∈ encode s) : b ≠ 60 ∧ b ≠ 62 ∧ b ≠ 34 := by
  obtain ⟨c, -, hc⟩ := List.mem_flatMap.1 h
  cases written : replacement? c with
  | none =>
    rw [encodeByte_of_replacement?_eq_none written, List.mem_singleton] at hc
    subst hc
    have bare := replacement?_eq_none_iff.1 written
    exact ⟨bare.1, bare.2.1, bare.2.2.2⟩
  | some entity =>
    have bare : ∀ d ∈ entity, d ≠ 60 ∧ d ≠ 62 ∧ d ≠ 34 := by
      rcases of_replacement?_eq_some written with
        ⟨-, rfl⟩ | ⟨-, rfl⟩ | ⟨-, rfl⟩ | ⟨-, rfl⟩ <;> simp
    rw [encodeByte, written, Option.getD_some] at hc
    exact bare b hc

theorem encode_eq_nil_iff {s : Bytes} : encode s = [] ↔ s = [] := by
  constructor
  · intro h
    have back := decode_encode s
    rw [h] at back
    exact (Option.some.inj back).symm
  · rintro rfl
    rfl

end Entity

inductive Token
  | text (content : Bytes)
  | opening (name : Bytes) (attributes : List (Bytes × Bytes))
  | closing (name : Bytes)
  deriving DecidableEq

namespace Token

/-- The blank, the quote, the stroke, the brackets and the equality sign. -/
def delimiters : Bytes := [32, 34, 47, 60, 61, 62]

def isNameByte (b : UInt8) : Bool := !delimiters.contains b

/-- Splits off a name, which is not empty. -/
def name? (s : Bytes) : Option (Bytes × Bytes) :=
  match s.takeWhile isNameByte with
  | [] => none
  | b :: name => some (b :: name, s.dropWhile isNameByte)

/-- Splits off a quoted value behind its equality sign. -/
def value? : Bytes → Option (Bytes × Bytes)
  | 61 :: 34 :: s => match s.dropWhile (· != 34) with
    | [] => none
    | _ :: rest => (Entity.decode (s.takeWhile (· != 34))).map (·, rest)
  | _ => none

def attribute? (s : Bytes) : Option ((Bytes × Bytes) × Bytes) := do
  let (name, s) ← name? s
  let (value, s) ← value? s
  return ((name, value), s)

theorem length_of_name? {s name rest : Bytes} (h : name? s = some (name, rest)) :
    rest.length ≤ s.length := by
  rw [name?] at h
  split at h <;> cases h
  exact (List.dropWhile_suffix _).length_le

theorem length_of_value? {s value rest : Bytes} (h : value? s = some (value, rest)) :
    rest.length < s.length := by
  unfold value? at h
  split at h
  · rename_i s
    split at h
    · cases h
    · rename_i quote tail found
      obtain ⟨v, -, eq⟩ := Option.map_eq_some_iff.1 h
      cases eq
      have le := (List.dropWhile_suffix (l := s) (· != 34)).length_le
      rw [found, List.length_cons] at le
      simp only [List.length_cons]
      omega
  · cases h

theorem length_of_attribute? {s rest : Bytes} {a : Bytes × Bytes}
    (h : attribute? s = some (a, rest)) : rest.length < s.length := by
  obtain ⟨⟨name, middle⟩, hname, h⟩ := Option.bind_eq_some_iff.1 h
  obtain ⟨⟨value, tail⟩, hvalue, h⟩ := Option.bind_eq_some_iff.1 h
  cases h
  have := length_of_name? hname
  have := length_of_value? hvalue
  omega

/-- Splits off the attributes up to the end of an open tag. -/
def attributes? : Bytes → Option (List (Bytes × Bytes) × Bytes)
  | 62 :: rest => some ([], rest)
  | 32 :: s => match _h : attribute? s with
    | none => none
    | some (a, rest) => (attributes? rest).map fun p => (a :: p.1, p.2)
  | _ => none
termination_by s => s.length
decreasing_by
  have := length_of_attribute? ‹_›
  simp only [List.length_cons]
  omega

/-- Splits off a tag behind its opening bracket. -/
def tag? : Bytes → Option (Token × Bytes)
  | 47 :: s => match name? s with
    | some (name, 62 :: rest) => some (closing name, rest)
    | _ => none
  | s => do
    let (name, s) ← name? s
    let (attributes, s) ← attributes? s
    return (opening name attributes, s)

theorem length_of_attributes? {s rest : Bytes} {attributes : List (Bytes × Bytes)}
    (h : attributes? s = some (attributes, rest)) : rest.length < s.length := by
  fun_induction attributes? s generalizing attributes with
  | case1 rest =>
    cases h
    simp
  | case2 s hnone => cases h
  | case3 s a tail hsome ih =>
    obtain ⟨others, hrest, eq⟩ := Option.map_eq_some_iff.1 h
    cases eq
    have := ih hrest
    have := length_of_attribute? hsome
    simp only [List.length_cons]
    omega
  | case4 s => cases h

theorem length_of_tag? {s rest : Bytes} {t : Token} (h : tag? s = some (t, rest)) :
    rest.length < s.length := by
  unfold tag? at h
  split at h
  · rename_i s
    split at h
    · rename_i name tail found
      cases h
      have := length_of_name? found
      simp only [List.length_cons] at this ⊢
      omega
    · cases h
  · obtain ⟨⟨name, middle⟩, hname, h⟩ := Option.bind_eq_some_iff.1 h
    obtain ⟨⟨attributes, tail⟩, hattributes, h⟩ := Option.bind_eq_some_iff.1 h
    cases h
    have := length_of_name? hname
    have := length_of_attributes? hattributes
    omega

/-- Text runs as far as there is no opening bracket. -/
def tokenize : Bytes → Option (List Token)
  | [] => some []
  | b :: s =>
    if b = 60 then match _h : tag? s with
      | none => none
      | some (t, rest) => (tokenize rest).map (t :: ·)
    else match Entity.decode (b :: s.takeWhile (· != 60)) with
      | none => none
      | some content => (tokenize (s.dropWhile (· != 60))).map (text content :: ·)
termination_by s => s.length
decreasing_by
  · have := length_of_tag? ‹_›
    simp only [List.length_cons]
    omega
  · have := (List.dropWhile_suffix (l := s) (· != 60)).length_le
    simp only [List.length_cons]
    omega

/-- The written form of a token. -/
def written : Token → Bytes
  | text content => Entity.encode content
  | opening name attributes =>
    60 :: name ++ attributes.flatMap (fun a => Markup.assignment a.1 (Entity.encode a.2)) ++ [62]
  | closing name => 60 :: 47 :: name ++ [62]

def IsName (s : Bytes) : Prop := s ≠ [] ∧ ∀ b ∈ s, isNameByte b = true

instance : DecidablePred IsName := fun s =>
  decidable_of_iff (s ≠ [] ∧ s.all isNameByte = true) (by rw [List.all_eq_true, IsName])

def Named : Token → Prop
  | text _ => True
  | opening name attributes => IsName name ∧ ∀ a ∈ attributes, IsName a.1
  | closing name => IsName name

def ofText (s : Bytes) : List Token := if s = [] then [] else [text s]

/-- Collects each run of texts behind `s` into one text, and leaves out what is empty. -/
def collectFrom (s : Bytes) : List Token → List Token
  | [] => ofText s
  | text t :: ts => collectFrom (s ++ t) ts
  | t :: ts => ofText s ++ t :: collectFrom [] ts

def collect (ts : List Token) : List Token := collectFrom [] ts

theorem name?_append {name : Bytes} (h : IsName name) {b : UInt8} (stop : isNameByte b = false)
    (rest : Bytes) : name? (name ++ b :: rest) = some (name, b :: rest) := by
  obtain ⟨nonempty, bytes⟩ := h
  have taken : (name ++ b :: rest).takeWhile isNameByte = name := by
    rw [List.takeWhile_append_of_pos bytes, List.takeWhile_cons_of_neg (by simp [stop]),
      List.append_nil]
  have dropped : (name ++ b :: rest).dropWhile isNameByte = b :: rest := by
    rw [List.dropWhile_append_of_pos bytes, List.dropWhile_cons_of_neg (by simp [stop])]
  rw [name?]
  rw [taken, dropped]
  cases name with
  | nil => exact absurd rfl nonempty
  | cons c name => rfl

theorem value?_append (value rest : Bytes) :
    value? (61 :: 34 :: Entity.encode value ++ 34 :: rest) = some (value, rest) := by
  have bare : ∀ b ∈ Entity.encode value, (b != 34) = true := fun b h => by
    simpa using (Entity.bare_of_mem_encode h).2.2
  simp only [List.cons_append, value?, List.dropWhile_append_of_pos bare,
    List.takeWhile_append_of_pos bare]
  simp [Entity.decode_encode]

theorem attribute?_append {a : Bytes × Bytes} (h : IsName a.1) (rest : Bytes) :
    attribute? (a.1 ++ 61 :: 34 :: Entity.encode a.2 ++ 34 :: rest) = some (a, rest) := by
  have name := name?_append h (b := 61) rfl (34 :: Entity.encode a.2 ++ 34 :: rest)
  have value := value?_append a.2 rest
  simp only [List.cons_append, List.append_assoc] at name value ⊢
  simp only [attribute?, name, value, Option.bind_eq_bind, Option.bind_some, Option.pure_def]

theorem attributes?_cons {s rest : Bytes} {a : Bytes × Bytes} (h : attribute? s = some (a, rest)) :
    attributes? (32 :: s) = (attributes? rest).map fun p => (a :: p.1, p.2) := by
  rw [attributes?]
  split
  · rename_i failed
    rw [h] at failed
    cases failed
  · rename_i found
    rw [h] at found
    cases found
    rfl

theorem attributes?_append {attributes : List (Bytes × Bytes)} (h : ∀ a ∈ attributes, IsName a.1)
    (rest : Bytes) :
    attributes? (attributes.flatMap (fun a => Markup.assignment a.1 (Entity.encode a.2)) ++
      62 :: rest) = some (attributes, rest) := by
  induction attributes with
  | nil => simp [attributes?]
  | cons a attributes ih =>
    obtain ⟨ha, others⟩ := List.forall_mem_cons.1 h
    have first := attribute?_append ha
      (attributes.flatMap (fun a => Markup.assignment a.1 (Entity.encode a.2)) ++ 62 :: rest)
    have split : ((a :: attributes).flatMap fun a => Markup.assignment a.1 (Entity.encode a.2)) ++
        62 :: rest = 32 :: (a.1 ++ 61 :: 34 :: Entity.encode a.2 ++ 34 ::
          (attributes.flatMap (fun a => Markup.assignment a.1 (Entity.encode a.2)) ++ 62 :: rest)) := by
      simp [Markup.assignment]
    rw [split, attributes?_cons first, ih others, Option.map_some]

theorem tag?_closing {name : Bytes} (h : IsName name) (rest : Bytes) :
    tag? (47 :: name ++ 62 :: rest) = some (closing name, rest) := by
  simp only [List.cons_append, tag?, name?_append h (b := 62) rfl rest]

/-- A name does not begin with the stroke of a close tag. -/
theorem tag?_opening {name : Bytes} {attributes : List (Bytes × Bytes)} (h : IsName name)
    (others : ∀ a ∈ attributes, IsName a.1) (rest : Bytes) :
    tag? (name ++ attributes.flatMap (fun a => Markup.assignment a.1 (Entity.encode a.2)) ++
      62 :: rest) = some (opening name attributes, rest) := by
  have read := attributes?_append others rest
  obtain ⟨b, tail, stop, follows⟩ : ∃ b tail, isNameByte b = false ∧
      attributes.flatMap (fun a => Markup.assignment a.1 (Entity.encode a.2)) ++ 62 :: rest =
        b :: tail := by
    cases attributes with
    | nil => exact ⟨62, rest, rfl, rfl⟩
    | cons a attributes => exact ⟨32, _, rfl, by simp [Markup.assignment]; rfl⟩
  rw [follows] at read
  have start := name?_append h stop tail
  rw [List.append_assoc, follows]
  obtain ⟨nonempty, bytes⟩ := h
  cases name with
  | nil => exact absurd rfl nonempty
  | cons c name =>
    have slash : c ≠ 47 := by
      rintro rfl
      exact absurd (bytes 47 List.mem_cons_self) (by decide)
    rw [List.cons_append] at start ⊢
    unfold tag?
    split
    · rename_i eq
      exact absurd (List.cons.inj eq).1 slash
    · simp only [start, read, Option.bind_eq_bind, Option.bind_some, Option.pure_def]

theorem tokenize_tag {s rest : Bytes} {t : Token} (h : tag? s = some (t, rest)) :
    tokenize (60 :: s) = (tokenize rest).map (t :: ·) := by
  rw [tokenize]
  simp only [if_true]
  split
  · rename_i failed
    rw [h] at failed
    cases failed
  · rename_i found
    rw [h] at found
    cases found
    rfl

/-- A tag is read as far as it goes. -/
theorem tokenize_written_append {t : Token} (h : t.Named) (tag : ∀ s, t ≠ text s) (rest : Bytes) :
    tokenize (t.written ++ rest) = (tokenize rest).map (t :: ·) := by
  cases t with
  | text s => exact absurd rfl (tag s)
  | opening name attributes =>
    have read := tokenize_tag (tag?_opening h.1 h.2 rest)
    simpa [written] using read
  | closing name =>
    have read := tokenize_tag (tag?_closing h rest)
    simpa [written] using read

/-- A text is read up to the next tag or to the end. -/
theorem tokenize_encode_append (s : Bytes) {rest : Bytes} (next : ∀ b ∈ rest.head?, b = 60) :
    tokenize (Entity.encode s ++ rest) = (tokenize rest).map (ofText s ++ ·) := by
  have bare : ∀ b ∈ Entity.encode s, (b != 60) = true := fun b h => by
    simpa using (Entity.bare_of_mem_encode h).1
  have stops : rest.takeWhile (· != 60) = [] ∧ rest.dropWhile (· != 60) = rest := by
    cases rest with
    | nil => exact ⟨rfl, rfl⟩
    | cons b rest =>
      have : b = 60 := next b rfl
      subst this
      exact ⟨rfl, rfl⟩
  cases written : Entity.encode s with
  | nil => simp [ofText, Entity.encode_eq_nil_iff.1 written]
  | cons b t =>
    rw [written] at bare
    obtain ⟨hb, ht⟩ := List.forall_mem_cons.1 bare
    have lt : b ≠ 60 := by simpa using hb
    have nonempty : s ≠ [] := fun empty => by
      rw [empty] at written
      cases written
    have back := Entity.decode_encode s
    rw [List.cons_append, tokenize, if_neg lt, List.takeWhile_append_of_pos ht,
      List.dropWhile_append_of_pos ht, stops.1, stops.2, List.append_nil, ← written, back]
    simp only [ofText, nonempty, if_false, List.singleton_append]

theorem collectFrom_tag {t : Token} (tag : ∀ s, t ≠ text s) (s : Bytes) (ts : List Token) :
    collectFrom s (t :: ts) = ofText s ++ t :: collectFrom [] ts := by
  cases t with
  | text s => exact absurd rfl (tag s)
  | opening name attributes => rfl
  | closing name => rfl

theorem head?_written {t : Token} (tag : ∀ s, t ≠ text s) (rest : Bytes) :
    (t.written ++ rest).head? = some 60 := by
  cases t with
  | text s => exact absurd rfl (tag s)
  | opening name attributes => rfl
  | closing name => rfl

/-- Reading undoes writing, but for the borders between texts; `s` is the run of texts so far. -/
theorem tokenize_encode_written {ts : List Token} (h : ∀ t ∈ ts, t.Named) (s : Bytes) :
    tokenize (Entity.encode s ++ ts.flatMap written) = some (collectFrom s ts) := by
  induction ts generalizing s with
  | nil =>
    rw [List.flatMap_nil, tokenize_encode_append s (by simp), tokenize, collectFrom]
    simp
  | cons t ts ih =>
    obtain ⟨ht, hts⟩ := List.forall_mem_cons.1 h
    rw [List.flatMap_cons]
    by_cases tag : ∀ s, t ≠ text s
    · have rest := ih hts []
      rw [Entity.encode_nil, List.nil_append] at rest
      rw [tokenize_encode_append s (by simp [head?_written tag]), tokenize_written_append ht tag, rest,
        collectFrom_tag tag]
      rfl
    · obtain ⟨content, rfl⟩ : ∃ content, t = text content := by simpa using tag
      rw [written, ← List.append_assoc, ← Entity.encode_append, ih hts, collectFrom]

theorem tokenize_written {ts : List Token} (h : ∀ t ∈ ts, t.Named) :
    tokenize (ts.flatMap written) = some (collect ts) :=
  tokenize_encode_written h []

end Token

end Hypertext
