import Hypertext.Proofs.LineBreaks

/-!
# Void names

A void name acts on the elements that have it as their tag and on nothing else. To add one is to take the
close tags of these elements out of a render, each with its line break (`void_names_act_on_tags`). So the
render is cut at these close tags first, whatever is to stand there (`Lines.text_cutNodes`).
-/

namespace Hypertext

namespace Bytes

theorem isUpper_eq_false_of_mem_lower {s : Bytes} : ∀ b ∈ lower s, isUpper b = false := by
  intro b found
  obtain ⟨c, -, rfl⟩ := List.mem_map.1 found
  exact isUpper_lowerByte c

end Bytes

namespace Node

mutual

/-- Tags have no capital letters. -/
theorem isUpper_eq_false_of_mem_allTags :
    (n : Node) → ∀ tag ∈ n.allTags, ∀ b ∈ tag, Bytes.isUpper b = false
  | .sequence members => isUpper_eq_false_of_mem_allTagsAll members
  | .element ⟨name, attributes, children, _⟩ => by
    refine List.forall_mem_cons.2 ⟨fun _ => Bytes.isUpper_eq_false_of_mem_lower _, ?_⟩
    exact List.forall_mem_append.2 ⟨isUpper_eq_false_of_mem_allTagsAttributes attributes,
      isUpper_eq_false_of_mem_allTagsAll children⟩
  | .character _ | .text _ | .verbatim _ | .scalar _ | .sentinel _ _ => List.forall_mem_nil _

theorem isUpper_eq_false_of_mem_allTagsAll :
    (ns : List Node) → ∀ tag ∈ allTagsAll ns, ∀ b ∈ tag, Bytes.isUpper b = false
  | [] => List.forall_mem_nil _
  | n :: ns => List.forall_mem_append.2 ⟨isUpper_eq_false_of_mem_allTags n,
    isUpper_eq_false_of_mem_allTagsAll ns⟩

theorem isUpper_eq_false_of_mem_allTagsAttributes :
    (as : List (Attribute Node)) → ∀ tag ∈ allTagsAttributes as, ∀ b ∈ tag, Bytes.isUpper b = false
  | [] => List.forall_mem_nil _
  | ⟨_, .flag _⟩ :: rest => isUpper_eq_false_of_mem_allTagsAttributes rest
  | ⟨_, .content v⟩ :: rest => List.forall_mem_append.2 ⟨isUpper_eq_false_of_mem_allTags v,
    isUpper_eq_false_of_mem_allTagsAttributes rest⟩

end

end Node

theorem Node.unnestedAll_append {ns ms : List Node} :
    UnnestedAll (ns ++ ms) ↔ UnnestedAll ns ∧ UnnestedAll ms := by
  induction ns with
  | nil => simp [UnnestedAll]
  | cons n ns ih => rw [List.cons_append, UnnestedAll, ih, UnnestedAll, and_assoc]

theorem Layout.agreeOn_of_mem_iff {l l' : Layout} {tags : List Bytes} (ends : l.lineEnd = l'.lineEnd)
    (same : ∀ tag ∈ tags, tag ∈ l.voidNames ↔ tag ∈ l'.voidNames) : l.AgreeOn l' tags where
  lineEnd := ends
  isVoid tag found := by simp only [isVoid, List.contains_eq_mem, same tag found]

/-- Where the second layout closes an `x` in its own way, it is like the first in all else. -/
structure Layout.Recloses (l l' : Layout) (x closing : Bytes) : Prop where
  lineEnd : l'.lineEnd = l.lineEnd
  closeTag : ∀ tag, Markup.closeTag l' tag = if tag = x then closing else Markup.closeTag l tag

namespace Layout.Recloses

variable {l : Layout} {x : Bytes}

theorem self (absent : x ∉ l.voidNames) : l.Recloses l x (60 :: 47 :: x ++ 62 :: l.lineEnd) where
  lineEnd := rfl
  closeTag tag := by
    split
    · rename_i same
      rw [same, Markup.closeTag, if_neg (by simpa [isVoid] using absent)]
    · rfl

/-- With one more void name, an element of that name is closed by nothing. -/
theorem of_added {voidNames : List Bytes} (added : ∀ name, name ∈ voidNames ↔ name = x ∨ name ∈ l.voidNames) :
    l.Recloses { l with voidNames } x [] where
  lineEnd := rfl
  closeTag tag := by
    have void : isVoid { l with voidNames } tag = (decide (tag = x) || l.isVoid tag) := by
      simp only [isVoid, List.contains_eq_mem, added, Bool.decide_or]
    rw [Markup.closeTag, void, Markup.closeTag]
    by_cases same : tag = x
    · simp [same]
    · simp only [same, decide_false, Bool.false_or, if_false]
      rfl

end Layout.Recloses

theorem Render.toSink_congr {l l' : Layout} {ns : List Node} (h : l.AgreeOn l' (Node.allTagsAll ns))
    (sink : Sink) (log : Option Log) : toSink l sink log ns = toSink l' sink log ns := by
  simp only [toSink, Serializer.writeAll_eq, Markup.ofNodes_congr ns h]
  rfl

theorem Render.totals_congr {l l' : Layout} {ns : List Node} (h : l.AgreeOn l' (Node.allTagsAll ns)) :
    totals l ns = totals l' ns := by
  rw [totals_eq, totals_eq, render_congr h]

namespace Lines

theorem append_assoc (t u v : Lines) : t ++ u ++ v = t ++ (u ++ v) := by
  obtain ⟨_ | ⟨line, others⟩, last⟩ := v
  · obtain ⟨_ | ⟨line, others⟩, last'⟩ := u
    · exact congrArg (mk t.ended) (List.append_assoc ..)
    · rfl
  · obtain ⟨_ | ⟨line', others'⟩, last'⟩ := u
    · exact congrArg (fun s => mk (t.ended ++ s :: others) last) (List.append_assoc ..)
    · exact congrArg (mk · last) (List.append_assoc ..)

theorem nil_append (t : Lines) : {} ++ t = t := by
  obtain ⟨_ | ⟨line, others⟩, last⟩ := t <;> rfl

/-- The pieces that the newline stands between. -/
def pieces (t : Lines) : List Bytes := t.ended ++ [t.last]

theorem pieces_ne_nil (t : Lines) : t.pieces ≠ [] := List.concat_ne_nil _ _

theorem pieces_append_ofLine_nil (t u : Lines) : (t ++ ofLine [] ++ u).pieces = t.pieces ++ u.pieces := by
  have cut : t ++ ofLine [] = ⟨t.pieces, []⟩ := by
    rw [ofLine, append_cons, List.append_nil, pieces]
  rw [cut]
  obtain ⟨_ | ⟨line, others⟩, last⟩ := u
  · rfl
  · exact List.append_assoc ..

section Cut

variable (l : Layout) (x : Bytes)

/-- The close tag of an element, cut out if the element is an `x`. -/
def cutTag (tag : Bytes) : Lines := if tag = x then ofLine [] else ofText (Markup.closeTag l tag)

mutual

/-- What is written for a tree, cut where an `x` is closed. -/
def cutNode : Node → Lines
  | .sequence members => cutNodes members
  | .element ⟨name, attributes, children, _⟩ =>
    ofText (60 :: Bytes.lower name ++ Markup.ofAttributes l attributes ++ 62 :: l.lineEnd) ++
      cutNodes children ++ cutTag l x (Bytes.lower name)
  | leaf => ofText (Markup.ofNode l leaf)

def cutNodes : List Node → Lines
  | [] => {}
  | n :: ns => cutNode n ++ cutNodes ns

end

theorem cutNodes_append (ns ms : List Node) :
    cutNodes l x (ns ++ ms) = cutNodes l x ns ++ cutNodes l x ms := by
  induction ns with
  | nil => exact (nil_append _).symm
  | cons n ns ih => rw [List.cons_append, cutNodes, ih, cutNodes, append_assoc]

mutual

/-- There is one cut for each `x`. -/
theorem length_ended_cutNode : (n : Node) → (cutNode l x n).ended.length = n.tags.count x
  | .sequence members => length_ended_cutNodes members
  | .element ⟨name, attributes, children, mark⟩ => by
    have closing (tag : Bytes) : (cutTag l x tag).ended.length = if tag == x then 1 else 0 := by
      rw [cutTag]
      by_cases same : tag = x <;> simp [same, ofLine, ofText]
    have opening (s : Bytes) : (ofText s).ended.length = 0 := rfl
    rw [cutNode, length_ended_append, length_ended_append, opening, closing,
      length_ended_cutNodes children, Node.tags, List.count_cons, Nat.zero_add]
  | .character _ | .text _ | .verbatim _ | .scalar _ | .sentinel _ _ => rfl

theorem length_ended_cutNodes :
    (ns : List Node) → (cutNodes l x ns).ended.length = (Node.tagsAll ns).count x
  | [] => rfl
  | n :: ns => by
    rw [cutNodes, length_ended_append, length_ended_cutNode n, length_ended_cutNodes ns, Node.tagsAll,
      List.count_append]

end

/-- What is behind the hole of a context, cut in the same way. -/
def cutClosed : Context → Lines
  | .hole _ after => cutNodes l x after
  | .within _ after .sequence inner => cutClosed inner ++ cutNodes l x after
  | .within _ after (.element name _ _) inner =>
    cutClosed inner ++ cutTag l x (Bytes.lower name) ++ cutNodes l x after

/-- One of the cuts is where an `x` is closed that stands in a context. -/
theorem exists_cutNodes_fill (c : Context) {e : Element Node} (tag : Bytes.lower e.name = x) :
    ∃ t, cutNodes l x (c.fill [.element e]) = t ++ ofLine [] ++ cutClosed l x c := by
  induction c with
  | hole before after =>
    obtain ⟨name, attributes, children, mark⟩ := e
    refine ⟨cutNodes l x before ++ (ofText (60 :: Bytes.lower name ++ Markup.ofAttributes l attributes ++
      62 :: l.lineEnd) ++ cutNodes l x children), ?_⟩
    rw [Context.fill, cutNodes_append, List.singleton_append, cutNodes, cutNode, cutTag, if_pos tag,
      cutClosed]
    simp only [append_assoc]
  | within before after shell inner ih =>
    obtain ⟨t, cut⟩ := ih
    cases shell with
    | sequence =>
      refine ⟨cutNodes l x before ++ t, ?_⟩
      rw [Context.fill, cutNodes_append, cutNodes, Shell.enclose, cutNode, cut, cutClosed]
      simp only [append_assoc]
    | element name attributes mark =>
      refine ⟨cutNodes l x before ++ (ofText (60 :: Bytes.lower name ++
        Markup.ofAttributes l attributes ++ 62 :: l.lineEnd) ++ t), ?_⟩
      rw [Context.fill, cutNodes_append, cutNodes, Shell.enclose, cutNode, cut, cutClosed]
      simp only [append_assoc]

end Cut

section Text

variable {l l' : Layout} {x closing : Bytes}

theorem text_cutTag (h : l.Recloses l' x closing) (tag : Bytes) :
    (cutTag l x tag).text closing = Markup.closeTag l' tag := by
  rw [h.closeTag, cutTag]
  split
  · rw [text_ofLine, List.nil_append]
  · rw [text_ofText]

mutual

theorem text_cutNode (h : l.Recloses l' x closing) :
    (n : Node) → n.Unnested → (cutNode l x n).text closing = Markup.ofNode l' n
  | .sequence members, unnested => text_cutNodes h members unnested
  | .element ⟨name, attributes, children, mark⟩, ⟨hattributes, hchildren⟩ => by
    rw [cutNode, text_append, text_append, text_ofText, text_cutNodes h children hchildren, text_cutTag h,
      Markup.ofAttributes_of_unnested hattributes l l', ← h.lineEnd, Markup.ofNode, Markup.ofElement]
  | .character _, _ | .text _, _ | .verbatim _, _ | .scalar _, _ | .sentinel _ _, _ => rfl

theorem text_cutNodes (h : l.Recloses l' x closing) : (ns : List Node) → Node.UnnestedAll ns →
    (cutNodes l x ns).text closing = Markup.ofNodes l' ns
  | [], _ => rfl
  | n :: ns, ⟨first, others⟩ => by
    rw [cutNodes, text_append, text_cutNode h n first, text_cutNodes h ns others, Markup.ofNodes]

end

theorem render_eq_text_cutNodes (h : l.Recloses l' x closing) {ns : List Node}
    (unnested : Node.UnnestedAll ns) : render l' ns = (cutNodes l x ns).text closing := by
  rw [render_eq, text_cutNodes h ns unnested]

theorem text_cutClosed (h : l.Recloses l' x closing) (c : Context) {ns : List Node}
    (unnested : Node.UnnestedAll (c.fill ns)) : (cutClosed l x c).text closing = c.closed l' := by
  induction c with
  | hole before after =>
    rw [Context.fill, Node.unnestedAll_append, Node.unnestedAll_append] at unnested
    rw [cutClosed, Context.closed, render_eq_text_cutNodes h unnested.2.2]
  | within before after shell inner ih =>
    rw [Context.fill, Node.unnestedAll_append, Node.UnnestedAll] at unnested
    obtain ⟨-, around, others⟩ := unnested
    rw [Context.closed, render_eq_text_cutNodes h others]
    cases shell with
    | sequence => rw [cutClosed, text_append, ih around, Shell.closed, List.append_nil]
    | element name attributes mark =>
      rw [cutClosed, text_append, text_append, ih around.2, text_cutTag h, Shell.closed]

end Text

end Lines

/-- Only those void names matter that are tags in the forest, in children or in attribute values, and so none
with a capital letter. One more void name takes out one close tag with its line break for each element of
that name, behind the children of that element, and nothing else; here attribute values hold no elements, as
these would be encoded. -/
theorem void_names_act_on_tags (ns : List Node) (l : Layout) :
    (∀ l' : Layout, l'.lineBreaks = l.lineBreaks → l'.newline = l.newline →
      (∀ tag ∈ Node.allTagsAll ns, tag ∈ l.voidNames ↔ tag ∈ l'.voidNames) →
        render l ns = render l' ns ∧ Render.totals l ns = Render.totals l' ns ∧
          ∀ sink log, Render.toSink l sink log ns = Render.toSink l' sink log ns) ∧
    (∀ voidNames, (∀ name, (∀ b ∈ name, Bytes.isUpper b = false) →
      (name ∈ l.voidNames ↔ name ∈ voidNames)) →
        render l ns = render { l with voidNames } ns ∧
          Render.totals l ns = Render.totals { l with voidNames } ns) ∧
    ∀ x voidNames, x ∉ l.voidNames → (∀ name, name ∈ voidNames ↔ name = x ∨ name ∈ l.voidNames) →
      Node.UnnestedAll ns →
        let l' : Layout := { l with voidNames }
        let closing := 60 :: 47 :: x ++ 62 :: l.lineEnd
        let count := (Node.tagsAll ns).count x
        ∃ pieces : List Bytes, pieces.length = count + 1 ∧
          render l ns = closing.intercalate pieces ∧ render l' ns = pieces.flatten ∧
          (Render.totals l ns).nodes = (Render.totals l' ns).nodes ∧
          (Render.totals l ns).elements = (Render.totals l' ns).elements ∧
          (Render.totals l ns).bytes =
            (Render.totals l' ns).bytes + count * (x.length + 3 + l.lineEnd.length) ∧
          ∀ c e, ns = Context.fill c [.element e] → Bytes.lower e.name = x →
            ∃ p q : List Bytes, pieces = p ++ q ∧ p ≠ [] ∧ q ≠ [] ∧
              closing.intercalate q = c.closed l ∧ q.flatten = c.closed l' := by
  refine ⟨?_, ?_, ?_⟩
  · intro l' breaks newline same
    have ends : l.lineEnd = l'.lineEnd := by rw [Layout.lineEnd, Layout.lineEnd, breaks, newline]
    have h := Layout.agreeOn_of_mem_iff ends same
    exact ⟨render_congr h, Render.totals_congr h, Render.toSink_congr h⟩
  · intro voidNames same
    have h : l.AgreeOn { l with voidNames } (Node.allTagsAll ns) := Layout.agreeOn_of_mem_iff rfl
      fun tag found => same tag (Node.isUpper_eq_false_of_mem_allTagsAll ns tag found)
    exact ⟨render_congr h, Render.totals_congr h⟩
  · intro x voidNames absent added unnested l' closing count
    have before : l.Recloses l x closing := .self absent
    have after : l.Recloses l' x [] := .of_added added
    let lines := Lines.cutNodes l x ns
    have old : render l ns = lines.text closing := Lines.render_eq_text_cutNodes before unnested
    have new : render l' ns = lines.text [] := Lines.render_eq_text_cutNodes after unnested
    have size : lines.ended.length = count := Lines.length_ended_cutNodes l x ns
    refine ⟨lines.pieces, ?_, ?_, ?_, ?_, ?_, ?_, ?_⟩
    · rw [Lines.pieces, List.length_append, size, List.length_singleton]
    · rw [old, Lines.text_eq_intercalate, Lines.pieces]
    · rw [new, Lines.text_nil, Lines.pieces]
    · rw [Render.totals_eq, Render.totals_eq]
    · rw [Render.totals_eq, Render.totals_eq]
    · have length : closing.length = x.length + 3 + l.lineEnd.length := by
        simp only [closing, List.length_append, List.length_cons]
        omega
      rw [Render.totals_eq, Render.totals_eq, old, new, ← size, ← length]
      exact lines.length_text closing
    · rintro c e rfl tag
      obtain ⟨t, cut⟩ := Lines.exists_cutNodes_fill l x c tag
      refine ⟨t.pieces, (Lines.cutClosed l x c).pieces, ?_, t.pieces_ne_nil, Lines.pieces_ne_nil _, ?_, ?_⟩
      · rw [← Lines.pieces_append_ofLine_nil, ← cut]
      · rw [Lines.pieces, ← Lines.text_eq_intercalate, Lines.text_cutClosed before c unnested]
      · rw [Lines.pieces, ← Lines.text_nil, Lines.text_cutClosed after c unnested]

/-- One `x` in another, beside texts that look like its close tag. -/
def Node.crossed : Node :=
  .element
    { name := [88]
      attributes := [⟨[97], .content (.text (Bytes.ascii "</x>"))⟩]
      children := [.verbatim (Bytes.ascii "</x>\n"), .sequence [.element { name := [120] }]] }

theorem void_names_act_on_tags_crossed :
    let l : Layout := {}
    let l' : Layout := { voidNames := [120] :: l.voidNames }
    [120] ∉ l.voidNames ∧ Node.UnnestedAll [Node.crossed] ∧
      render l [Node.crossed] = render { voidNames := [88] :: l.voidNames } [Node.crossed] ∧
      (∃ pieces : List Bytes, pieces.length = 3 ∧
        render l [Node.crossed] = (Bytes.ascii "</x>\n").intercalate pieces ∧
        render l' [Node.crossed] = pieces.flatten) ∧
      render l' [Node.crossed] = Bytes.ascii "<x a=\"&lt;/x&gt;\">\n</x>\n<x>\n" := by
  intro l l'
  have absent : [120] ∉ l.voidNames := by decide
  have unnested : Node.UnnestedAll [Node.crossed] := by
    simp [Node.crossed, Node.UnnestedAll, Node.Unnested, Node.leaves]
  obtain ⟨-, capital, more⟩ := void_names_act_on_tags [Node.crossed] l
  obtain ⟨pieces, size, old, new, -⟩ := more [120] _ absent (fun _ => List.mem_cons) unnested
  have small (name : Bytes) (h : ∀ b ∈ name, Bytes.isUpper b = false) :
      name ∈ l.voidNames ↔ name ∈ [88] :: l.voidNames := by
    have other : name ≠ [88] := by
      rintro rfl
      cases h 88 List.mem_cons_self
    rw [List.mem_cons, or_iff_right other]
  exact ⟨absent, unnested, (capital _ small).1, ⟨pieces, size.trans rfl, old, new⟩, by decide +kernel⟩

end Hypertext
