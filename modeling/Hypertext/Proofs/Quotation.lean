import Hypertext.Proofs.Token

/-!
# Values between quotes

What stands between the quotes of an attribute is what the leaves of its value are rendered to one by
one, an element or a sentinel being encoded once more (`writeAttribute_leaves`). As nothing inside an
element escapes that, only verbatim text among the leaves themselves can hold a quote.
-/

namespace Hypertext

namespace Node

mutual

/-- What is reached through sequences only, in order. -/
def leaves : Node → List Node
  | .sequence members => leavesAll members
  | leaf => [leaf]

def leavesAll : List Node → List Node
  | [] => []
  | n :: ns => leaves n ++ leavesAll ns

end

mutual

theorem sequence_notMem_leaves : (v : Node) → ∀ members, .sequence members ∉ v.leaves
  | .character _, _ | .text _, _ | .verbatim _, _ | .scalar _, _ | .sentinel _ _, _
  | .element _, _ => by simp [leaves]
  | .sequence vs, members => sequence_notMem_leavesAll vs members

theorem sequence_notMem_leavesAll : (vs : List Node) → ∀ members, .sequence members ∉ leavesAll vs
  | [], _ => List.not_mem_nil
  | v :: vs, members => fun found => by
    rcases List.mem_append.1 found with found | found
    · exact sequence_notMem_leaves v members found
    · exact sequence_notMem_leavesAll vs members found

end

/-- How a leaf stands between quotes. -/
def betweenQuotes (l : Layout) (leaf : Node) : Bytes :=
  match leaf with
  | .element _ | .sentinel _ _ => Entity.encode (render l [leaf])
  | _ => render l [leaf]

end Node

/-- Without brackets and quotes. -/
def Bytes.Unmarked (s : Bytes) : Prop := ∀ b ∈ s, b ≠ 60 ∧ b ≠ 62 ∧ b ≠ 34

theorem Bytes.Unmarked.append {s t : Bytes} (hs : s.Unmarked) (ht : t.Unmarked) :
    Bytes.Unmarked (s ++ t) := by
  intro b h
  rcases List.mem_append.1 h with h | h
  · exact hs b h
  · exact ht b h

theorem Entity.unmarked_encode (s : Bytes) : (encode s).Unmarked := fun _ => bare_of_mem_encode

/-- A text without quotes is read back up to the quote behind it. -/
theorem Bytes.Unmarked.takeWhile_append {s : Bytes} (h : s.Unmarked) (rest : Bytes) :
    (s ++ 34 :: rest).takeWhile (· != 34) = s := by
  have whole : ∀ b ∈ s, (b != 34) = true := fun b hb => by simpa using (h b hb).2.2
  rw [List.takeWhile_append_of_pos whole]
  simp

namespace Markup

mutual

theorem ofValue_eq_flatMap_leaves (l : Layout) :
    (v : Node) → ofValue l v = v.leaves.flatMap (Node.betweenQuotes l)
  | .character _ | .text _ | .verbatim _ | .scalar _ | .sentinel _ _ | .element _ => by
    simp [ofValue, ofNode, Node.leaves, Node.betweenQuotes, render_singleton]
  | .sequence members => ofValues_eq_flatMap_leaves l members

theorem ofValues_eq_flatMap_leaves (l : Layout) :
    (vs : List Node) → ofValues l vs = (Node.leavesAll vs).flatMap (Node.betweenQuotes l)
  | [] => rfl
  | v :: vs => by
    rw [ofValues, ofValue_eq_flatMap_leaves l v, ofValues_eq_flatMap_leaves l vs, Node.leavesAll,
      List.flatMap_append]

end

mutual

/-- Only verbatim leaves are not encoded, so only they bring brackets and quotes in. -/
theorem unmarked_ofValue (l : Layout) : (v : Node) → (∀ s, .verbatim s ∈ v.leaves → s.Unmarked) →
    (ofValue l v).Unmarked
  | .character _, _ | .text _, _ | .scalar _, _ | .sentinel _ _, _ | .element _, _ =>
    Entity.unmarked_encode _
  | .verbatim s, verbatim => verbatim s List.mem_cons_self
  | .sequence members, verbatim => unmarked_ofValues l members verbatim

theorem unmarked_ofValues (l : Layout) : (vs : List Node) →
    (∀ s, .verbatim s ∈ Node.leavesAll vs → s.Unmarked) → (ofValues l vs).Unmarked
  | [], _ => fun _ h => absurd h List.not_mem_nil
  | v :: vs, verbatim => by
    have first := unmarked_ofValue l v fun s h => verbatim s (List.mem_append_left _ h)
    have rest := unmarked_ofValues l vs fun s h => verbatim s (List.mem_append_right _ h)
    exact first.append rest

end

end Markup

/-- The leaves of a value stand between the quotes as they are rendered alone, but for elements and
sentinels, which are quoted as text. Unless a verbatim leaf holds the quote itself, the next quote
is the one that ends the attribute, whatever elements the value holds. -/
theorem writeAttribute_leaves (w : Serializer) (name : Bytes) (v : Node) :
    let between := v.leaves.flatMap (Node.betweenQuotes w.layout)
    w.writeValue v = w.put between ∧
      w.writeAttribute ⟨name, .content v⟩ =
        w.put (32 :: Bytes.lower name ++ [61, 34] ++ between ++ [34]) ∧
      (∀ leaf ∈ v.leaves, Node.betweenQuotes w.layout leaf = match leaf with
        | .character b => Entity.encode [b]
        | .text s => Entity.encode s
        | .scalar u => Entity.encode u.text
        | .verbatim s => s
        | .sentinel _ literal => Entity.encode literal
        | .element e => Entity.encode (render w.layout [.element e])
        | .sequence _ => []) ∧
      ((∀ s, .verbatim s ∈ v.leaves → ∀ b ∈ s, b ≠ 60 ∧ b ≠ 62 ∧ b ≠ 34) →
        (∀ b ∈ between, b ≠ 60 ∧ b ≠ 62 ∧ b ≠ 34) ∧
        ∀ rest, (between ++ 34 :: rest).takeWhile (· != 34) = between) := by
  intro between
  have same : Markup.ofValue w.layout v = between := Markup.ofValue_eq_flatMap_leaves w.layout v
  refine ⟨?_, ?_, ?_, ?_⟩
  · rw [Serializer.writeValue_eq, same, Serializer.put_eq]
  · rw [Serializer.writeAttribute_eq, Markup.ofAttribute, same, Serializer.put_eq]
    simp [Markup.assignment]
  · intro leaf found
    cases leaf with
    | sequence members => exact absurd found (Node.sequence_notMem_leaves v members)
    | _ => simp only [Node.betweenQuotes, render_singleton, Markup.ofNode]
  · intro verbatim
    have unmarked := Markup.unmarked_ofValue w.layout v verbatim
    rw [same] at unmarked
    exact ⟨unmarked, unmarked.takeWhile_append⟩

/-- An element with a bad name, whose attribute holds another element, beside a sentinel. -/
def Node.contraband : Node :=
  .sequence [.verbatim [38], .sequence [.sentinel [] [34, 62]], .element
    { name := [60]
      attributes := [⟨[34], .content (.element { name := [66], children := [.verbatim [34]] })⟩]
      children := [.verbatim [34, 62]] }]

/-- Its line breaks would end every attribute. -/
def Layout.quoting : Layout := { newline := [34], voidNames := [[98]] }

theorem writeAttribute_leaves_contraband :
    (∀ s, .verbatim s ∈ Node.contraband.leaves → ∀ b ∈ s, b ≠ 60 ∧ b ≠ 62 ∧ b ≠ 34) ∧
      (Node.contraband.leaves.flatMap (Node.betweenQuotes .quoting) ++ [34, 62, 34]).takeWhile
        (· != 34) = Bytes.ascii ("&&quot;&gt;&lt;&lt; &quot;=&quot;&amp;lt;b&amp;gt;&amp;quot;" ++
          "&amp;quot;&quot;&gt;&quot;&quot;&gt;&lt;/&lt;&gt;&quot;") := by
  have verbatim : ∀ s, .verbatim s ∈ Node.contraband.leaves → ∀ b ∈ s, b ≠ 60 ∧ b ≠ 62 ∧ b ≠ 34 := by
    intro s found
    simp only [Node.contraband, Node.leaves, Node.leavesAll, List.append_nil, List.cons_append,
      List.nil_append, List.mem_cons, List.not_mem_nil, or_false, reduceCtorEq,
      Node.verbatim.injEq] at found
    subst found
    simp
  have written : Node.contraband.leaves.flatMap (Node.betweenQuotes .quoting) = Bytes.ascii
      ("&&quot;&gt;&lt;&lt; &quot;=&quot;&amp;lt;b&amp;gt;&amp;quot;" ++
        "&amp;quot;&quot;&gt;&quot;&quot;&gt;&lt;/&lt;&gt;&quot;") := by
    decide +kernel
  have ends := ((writeAttribute_leaves { layout := .quoting } [] Node.contraband).2.2.2 verbatim).2
  exact ⟨verbatim, (ends [62, 34]).trans written⟩

end Hypertext
