import Hypertext.Proofs.Token

/-!
# Reading a render back

Trees without verbatim text and sentinels, whose elements and attributes have proper names, render to
text that the tokenizer reads, and it finds the tokens that the tree itself spells, whatever bytes the
texts and values hold (`tokenize_render`). Elements inside attribute values may be of any kind.
-/

namespace Hypertext

namespace Node

mutual

/-- What a value says before it is encoded. -/
def plain (l : Layout) : Node → Bytes
  | .character b => [b]
  | .text s | .verbatim s => s
  | .scalar v => v.text
  | .sentinel _ literal => literal
  | .sequence members => plainAll l members
  | .element e => render l [.element e]

def plainAll (l : Layout) : List Node → Bytes
  | [] => []
  | n :: ns => plain l n ++ plainAll l ns

end

mutual

/-- No verbatim text and no sentinel is the value or one of its members. -/
def Encoded : Node → Prop
  | .verbatim _ | .sentinel _ _ => False
  | .sequence members => EncodedAll members
  | .character _ | .text _ | .scalar _ | .element _ => True

def EncodedAll : List Node → Prop
  | [] => True
  | n :: ns => Encoded n ∧ EncodedAll ns

end

mutual

/-- No verbatim text and no sentinel is a child or an attribute value, and names are proper. -/
def Readable : Node → Prop
  | .verbatim _ | .sentinel _ _ => False
  | .sequence members => ReadableAll members
  | .element ⟨name, attributes, children, _⟩ =>
    Token.IsName name ∧
      (∀ a ∈ attributes, Token.IsName a.name ∧ ∀ v, a.value = .content v → Encoded v) ∧
      ReadableAll children
  | .character _ | .text _ | .scalar _ => True

def ReadableAll : List Node → Prop
  | [] => True
  | n :: ns => Readable n ∧ ReadableAll ns

end

end Node

namespace Token

/-- The name and the value of an attribute that is present. -/
def ofAttribute? (l : Layout) : Attribute Node → Option (Bytes × Bytes)
  | ⟨_, .flag false⟩ => none
  | ⟨name, .flag true⟩ => some (Bytes.lower name, Bytes.lower name)
  | ⟨name, .content value⟩ => some (Bytes.lower name, value.plain l)

def closeTag (l : Layout) (tag : Bytes) : List Token :=
  if l.isVoid tag then [] else [closing tag, text l.lineEnd]

mutual

/-- The tokens that a tree spells. -/
def ofNode (l : Layout) : Node → List Token
  | .character b => [text [b]]
  | .text s => [text s]
  | .scalar v => [text v.text]
  | .verbatim _ | .sentinel _ _ => []
  | .sequence members => ofNodes l members
  | .element ⟨name, attributes, children, _⟩ =>
    opening (Bytes.lower name) (attributes.filterMap (ofAttribute? l)) :: text l.lineEnd ::
      ofNodes l children ++ closeTag l (Bytes.lower name)

def ofNodes (l : Layout) : List Node → List Token
  | [] => []
  | n :: ns => ofNode l n ++ ofNodes l ns

end

/-- Lower-casing makes letters only. -/
theorem eq_of_lowerByte_lt {b : UInt8} (h : Bytes.lowerByte b < 97) : Bytes.lowerByte b = b := by
  rw [Bytes.lowerByte] at h ⊢
  split at h
  · rename_i upper
    simp only [Bytes.isUpper, Bool.and_eq_true, decide_eq_true_eq, UInt8.le_iff_toNat_le,
      UInt8.lt_iff_toNat_lt, UInt8.toNat_add, UInt8.reduceToNat] at upper h
    omega
  · rename_i other
    rw [if_neg other]

theorem isNameByte_lowerByte {b : UInt8} (h : isNameByte b = true) :
    isNameByte (Bytes.lowerByte b) = true := by
  have low : ∀ c ∈ delimiters, c < 97 := by simp [delimiters]
  simp only [isNameByte, Bool.not_eq_true', List.contains_eq_mem, decide_eq_false_iff_not] at h ⊢
  intro found
  rw [eq_of_lowerByte_lt (low _ found)] at found
  exact h found

theorem IsName.lower {s : Bytes} (h : IsName s) : IsName (Bytes.lower s) := by
  refine ⟨mt Bytes.lower_eq_nil_iff.1 h.1, ?_⟩
  intro b hb
  obtain ⟨c, hc, rfl⟩ := List.mem_map.1 hb
  exact isNameByte_lowerByte (h.2 c hc)

end Token

namespace Markup

mutual

/-- A value is written as the encoding of what it says. -/
theorem ofValue_eq_encode_plain (l : Layout) :
    (n : Node) → n.Encoded → ofValue l n = Entity.encode (n.plain l)
  | .character _, _ | .text _, _ | .scalar _, _ => rfl
  | .verbatim _, h | .sentinel _ _, h => False.elim h
  | .sequence members, h => ofValues_eq_encode_plain l members h
  | .element e, _ => by
    rw [ofValue, Node.plain, render_eq, ofNodes, ofNodes, ofNode, List.append_nil]

theorem ofValues_eq_encode_plain (l : Layout) : (ns : List Node) → Node.EncodedAll ns →
    ofValues l ns = Entity.encode (Node.plainAll l ns)
  | [], _ => rfl
  | n :: ns, h => by
    rw [ofValues, ofValue_eq_encode_plain l n h.1, ofValues_eq_encode_plain l ns h.2, Node.plainAll,
      Entity.encode_append]

end

theorem ofAttributes_eq_flatMap {l : Layout} {attributes : List (Attribute Node)}
    (h : ∀ a ∈ attributes, ∀ v, a.value = .content v → v.Encoded) :
    ofAttributes l attributes = (attributes.filterMap (Token.ofAttribute? l)).flatMap
      fun a => assignment a.1 (Entity.encode a.2) := by
  induction attributes with
  | nil => rfl
  | cons a attributes ih =>
    obtain ⟨ha, others⟩ := List.forall_mem_cons.1 h
    rw [ofAttributes, ih others]
    obtain ⟨name, value⟩ := a
    cases value with
    | flag on => cases on <;> rfl
    | content v =>
      rw [ofAttribute, ofValue_eq_encode_plain l v (ha v rfl)]
      rfl

end Markup

namespace Token

variable {l : Layout}

theorem encode_lineEnd (h : ∀ b ∈ l.lineEnd, b ≠ 60 ∧ b ≠ 62 ∧ b ≠ 38 ∧ b ≠ 34) :
    Entity.encode l.lineEnd = l.lineEnd :=
  Entity.encode_of_plain fun b hb => Entity.replacement?_eq_none_iff.2 (h b hb)

theorem named_of_attribute {attributes : List (Attribute Node)}
    (h : ∀ a ∈ attributes, IsName a.name) :
    ∀ a ∈ attributes.filterMap (ofAttribute? l), IsName a.1 := by
  intro pair hpair
  obtain ⟨⟨name, value⟩, ha, made⟩ := List.mem_filterMap.1 hpair
  have lowered := (h _ ha).lower
  cases value with
  | flag on => cases on <;> cases made; exact lowered
  | content v => cases made; exact lowered

theorem written_closeTag (bare : Entity.encode l.lineEnd = l.lineEnd) (tag : Bytes) :
    (closeTag l tag).flatMap written = Markup.closeTag l tag := by
  by_cases void : l.isVoid tag = true <;> simp [closeTag, Markup.closeTag, void, written, bare]

theorem named_closeTag {tag : Bytes} (h : IsName tag) : ∀ t ∈ closeTag l tag, t.Named := by
  by_cases void : l.isVoid tag = true <;> simp [closeTag, void, Named, h]

mutual

/-- The tokens that a tree spells are what it is written with. -/
theorem written_ofNode (bare : Entity.encode l.lineEnd = l.lineEnd) : (n : Node) → n.Readable →
    (ofNode l n).flatMap written = Markup.ofNode l n ∧ ∀ t ∈ ofNode l n, t.Named
  | .character _, _ | .text _, _ | .scalar _, _ => by
    simp [ofNode, Markup.ofNode, written, Named]
  | .verbatim _, h | .sentinel _ _, h => False.elim h
  | .sequence members, h => written_ofNodes bare members h
  | .element ⟨name, attributes, children, mark⟩, ⟨hname, hattributes, hchildren⟩ => by
    obtain ⟨same, named⟩ := written_ofNodes bare children hchildren
    have values := Markup.ofAttributes_eq_flatMap (l := l) fun a ha => (hattributes a ha).2
    have names := named_of_attribute (l := l) fun a ha => (hattributes a ha).1
    constructor
    · simp [ofNode, Markup.ofNode, Markup.ofElement, written, written_closeTag bare, values, same, bare]
    · intro t ht
      rw [ofNode, List.mem_append, List.mem_cons, List.mem_cons] at ht
      rcases ht with (rfl | rfl | ht) | ht
      · exact ⟨hname.lower, names⟩
      · trivial
      · exact named t ht
      · exact named_closeTag hname.lower t ht

theorem written_ofNodes (bare : Entity.encode l.lineEnd = l.lineEnd) : (ns : List Node) →
    Node.ReadableAll ns →
      (ofNodes l ns).flatMap written = Markup.ofNodes l ns ∧ ∀ t ∈ ofNodes l ns, t.Named
  | [], _ => by simp [ofNodes, Markup.ofNodes]
  | n :: ns, h => by
    obtain ⟨first, firstNamed⟩ := written_ofNode bare n h.1
    obtain ⟨rest, restNamed⟩ := written_ofNodes bare ns h.2
    constructor
    · rw [ofNodes, List.flatMap_append, first, rest, Markup.ofNodes]
    · intro t ht
      rcases List.mem_append.1 ht with ht | ht
      · exact firstNamed t ht
      · exact restNamed t ht

end

theorem written_collectFrom (ts : List Token) (s : Bytes) :
    (collectFrom s ts).flatMap written = Entity.encode s ++ ts.flatMap written := by
  have ofText_written (s : Bytes) : (ofText s).flatMap written = Entity.encode s := by
    by_cases empty : s = [] <;> simp [ofText, empty, written]
  induction ts generalizing s with
  | nil => simp [collectFrom, ofText_written]
  | cons t ts ih =>
    by_cases tag : ∀ s, t ≠ text s
    · simp [collectFrom_tag tag, ofText_written, ih]
    · obtain ⟨content, rfl⟩ : ∃ content, t = text content := by simpa using tag
      simp [collectFrom, ih, written]

end Token

/-- A render can be read back, and two of them are the same only if they spell the same tokens. -/
theorem tokenize_render (l : Layout)
    (bare : l.lineBreaks = true → ∀ b ∈ l.newline, b ≠ 60 ∧ b ≠ 62 ∧ b ≠ 38 ∧ b ≠ 34)
    (ns : List Node) (h : Node.ReadableAll ns) :
    Token.tokenize (render l ns) = some (Token.collect (Token.ofNodes l ns)) ∧
      ∀ ms, Node.ReadableAll ms → (render l ms = render l ns ↔
        Token.collect (Token.ofNodes l ms) = Token.collect (Token.ofNodes l ns)) := by
  have lineEnd : Entity.encode l.lineEnd = l.lineEnd := by
    apply Token.encode_lineEnd
    intro b hb
    rw [Layout.lineEnd] at hb
    split at hb
    · rename_i on
      exact bare on b hb
    · cases hb
  have read : ∀ ms, Node.ReadableAll ms →
      Token.tokenize (render l ms) = some (Token.collect (Token.ofNodes l ms)) := by
    intro ms hms
    obtain ⟨same, named⟩ := Token.written_ofNodes lineEnd ms hms
    rw [render_eq, ← same, Token.tokenize_written named]
  have respelt : ∀ ms, Node.ReadableAll ms →
      render l ms = (Token.collect (Token.ofNodes l ms)).flatMap Token.written := by
    intro ms hms
    rw [render_eq, ← (Token.written_ofNodes lineEnd ms hms).1, Token.collect,
      Token.written_collectFrom]
    rfl
  refine ⟨read ns h, fun ms hms => ⟨fun same => ?_, fun same => ?_⟩⟩
  · have both := read ms hms
    rw [same, read ns h] at both
    exact (Option.some.inj both).symm
  · rw [respelt ms hms, respelt ns h, same]

/-- Texts and a value that look like markup, also around a void element that has a child. -/
def Node.lookalike : Node :=
  .element
    { name := Bytes.ascii "P"
      attributes := [⟨Bytes.ascii "Title", .content (.sequence [.text (Bytes.ascii "\"></p>"),
        .element { name := Bytes.ascii "<", children := [.verbatim (Bytes.ascii "&")] }])⟩,
        ⟨Bytes.ascii "Hidden", .flag true⟩, ⟨Bytes.ascii "id", .flag false⟩]
      children := [.text (Bytes.ascii "</p>"), .sequence [.character 38, .text (Bytes.ascii "lt;")],
        .element { name := Bytes.ascii "br", children := [.text (Bytes.ascii "<")] }] }

theorem tokenize_render_lookalike :
    Node.ReadableAll [Node.lookalike] ∧ Token.tokenize (render {} [Node.lookalike]) = some
      [.opening (Bytes.ascii "p") [(Bytes.ascii "title", Bytes.ascii "\"></p><<>\n&</<>\n"),
        (Bytes.ascii "hidden", Bytes.ascii "hidden")], .text (Bytes.ascii "\n</p>&lt;"),
        .opening (Bytes.ascii "br") [], .text (Bytes.ascii "\n<"), .closing (Bytes.ascii "p"),
        .text (Bytes.ascii "\n")] := by
  have readable : Node.ReadableAll [Node.lookalike] := by
    simp only [Node.lookalike, Node.ReadableAll, Node.Readable, List.forall_mem_cons]
    simp [Node.Encoded, Node.EncodedAll]
    decide
  have bare : ∀ b ∈ ({} : Layout).newline, b ≠ 60 ∧ b ≠ 62 ∧ b ≠ 38 ∧ b ≠ 34 := by simp
  have read := (tokenize_render {} (fun _ => bare) [Node.lookalike] readable).1
  exact ⟨readable, read.trans (by decide)⟩

end Hypertext
