import Hypertext.Proofs.Context
import Hypertext.Proofs.Layouts
import Hypertext.Proofs.Quotation

/-!
# Line breaks

A line ends behind each tag and nowhere else, so the lines of a tree can be told without knowing what ends
them (`Lines.text_ofNodes`), and a render has the newline between them (`render_breaks_behind_tags`). An
element inside an attribute value would be encoded with its line breaks, so the values hold none here.
-/

namespace Hypertext

/-- A text in lines, all of them ended but the last. -/
structure Lines where
  ended : List Bytes := []
  last : Bytes := []

namespace Lines

/-- The whole text, where every ended line ends with the newline. -/
def text (newline : Bytes) (t : Lines) : Bytes := t.ended.flatMap (· ++ newline) ++ t.last

/-- The first line of the second text continues the last of the first. -/
def append (t u : Lines) : Lines :=
  match u.ended with
  | [] => ⟨t.ended, t.last ++ u.last⟩
  | line :: others => ⟨t.ended ++ (t.last ++ line) :: others, u.last⟩

instance : Append Lines := ⟨append⟩

def ofText (s : Bytes) : Lines := { last := s }

def ofLine (s : Bytes) : Lines := { ended := [s] }

/-- Whatever ends the lines, a byte stands before it. -/
def EndWith (b : UInt8) (t : Lines) : Prop := ∀ line ∈ t.ended, line.getLast? = some b

variable (t : Lines) (newline : Bytes)

theorem append_cons (line : Bytes) (others : List Bytes) (last : Bytes) :
    t ++ ⟨line :: others, last⟩ = ⟨t.ended ++ (t.last ++ line) :: others, last⟩ := rfl

@[simp] theorem text_ofText (s : Bytes) : (ofText s).text newline = s := rfl

@[simp] theorem text_ofLine (s : Bytes) : (ofLine s).text newline = s ++ newline := by
  simp [ofLine, text]

@[simp] theorem text_append (u : Lines) : (t ++ u).text newline = t.text newline ++ u.text newline := by
  obtain ⟨_ | ⟨line, others⟩, last⟩ := u
  · exact (List.append_assoc ..).symm
  · simp [append_cons, text]

@[simp] theorem length_ended_append (u : Lines) :
    (t ++ u).ended.length = t.ended.length + u.ended.length := by
  obtain ⟨_ | ⟨line, others⟩, last⟩ := u
  · rfl
  · exact List.length_append

theorem EndWith.append {b : UInt8} {t u : Lines} (ht : t.EndWith b) (hu : u.EndWith b) :
    (t ++ u).EndWith b := by
  obtain ⟨_ | ⟨line, others⟩, last⟩ := u
  · exact ht
  · obtain ⟨first, rest⟩ := List.forall_mem_cons.1 hu
    refine List.forall_mem_append.2 ⟨ht, List.forall_mem_cons.2 ⟨?_, rest⟩⟩
    rw [List.getLast?_append, first, Option.some_or]

/-- The newline stands between the lines. -/
theorem text_eq_intercalate : t.text newline = newline.intercalate (t.ended ++ [t.last]) := by
  obtain ⟨ended, last⟩ := t
  rw [text]
  induction ended with
  | nil => simp
  | cons line others ih =>
    rw [List.flatMap_cons, List.append_assoc, ih, List.cons_append,
      List.intercalate_cons_of_ne_nil (by simp)]

theorem text_nil : t.text [] = (t.ended ++ [t.last]).flatten := by
  simp [text, List.flatten_append]

theorem length_text :
    (t.text newline).length = (t.text []).length + t.ended.length * newline.length := by
  obtain ⟨ended, last⟩ := t
  simp only [text, List.length_append, List.length_flatMap]
  induction ended with
  | nil => simp
  | cons line others ih =>
    simp only [List.map_cons, List.sum_cons, List.length_cons, List.length_nil, Nat.succ_mul] at ih ⊢
    omega

end Lines

namespace Node

mutual

/-- No element stands within the value of an attribute. -/
def Unnested : Node → Prop
  | .sequence members => UnnestedAll members
  | .element ⟨_, attributes, children, _⟩ =>
    (∀ a ∈ attributes, ∀ v, a.value = .content v → ∀ e, .element e ∉ v.leaves) ∧ UnnestedAll children
  | .character _ | .text _ | .verbatim _ | .scalar _ | .sentinel _ _ => True

def UnnestedAll : List Node → Prop
  | [] => True
  | n :: ns => Unnested n ∧ UnnestedAll ns

end

end Node

/-- Without line breaks, the void names are all that matters. -/
def Layout.unbroken (voidNames : List Bytes) : Layout := { lineBreaks := false, voidNames }

namespace Markup

/-- Only an element could bring a layout into a value. -/
theorem ofValue_of_unnested {v : Node} (h : ∀ e, .element e ∉ v.leaves) (l l' : Layout) :
    ofValue l v = ofValue l' v := by
  rw [ofValue_eq_flatMap_leaves, ofValue_eq_flatMap_leaves]
  refine List.flatMap_congr fun leaf found => ?_
  cases leaf with
  | element e => exact absurd found (h e)
  | sequence members => exact absurd found (v.sequence_notMem_leaves members)
  | _ => simp only [Node.betweenQuotes, render_singleton, ofNode]

theorem ofAttributes_of_unnested {as : List (Attribute Node)}
    (h : ∀ a ∈ as, ∀ v, a.value = .content v → ∀ e, .element e ∉ v.leaves) (l l' : Layout) :
    ofAttributes l as = ofAttributes l' as := by
  induction as with
  | nil => rfl
  | cons a as ih =>
    obtain ⟨ha, others⟩ := List.forall_mem_cons.1 h
    rw [ofAttributes, ofAttributes, ih others]
    obtain ⟨name, value⟩ := a
    cases value with
    | flag on => cases on <;> rfl
    | content v => rw [ofAttribute, ofAttribute, ofValue_of_unnested (ha v rfl) l l']

end Markup

namespace Lines

variable (voidNames : List Bytes)

def closing (tag : Bytes) : Lines :=
  if voidNames.contains tag then {} else ofLine (60 :: 47 :: tag ++ [62])

mutual

/-- The lines of a tree, whatever ends them. -/
def ofNode : Node → Lines
  | .sequence members => ofNodes members
  | .element ⟨name, attributes, children, _⟩ =>
    ofLine (60 :: Bytes.lower name ++ Markup.ofAttributes (.unbroken voidNames) attributes ++ [62]) ++
      ofNodes children ++ closing voidNames (Bytes.lower name)
  | leaf => ofText (Markup.ofNode (.unbroken voidNames) leaf)

def ofNodes : List Node → Lines
  | [] => {}
  | n :: ns => ofNode n ++ ofNodes ns

end

theorem text_closing (l : Layout) (tag : Bytes) :
    (closing l.voidNames tag).text l.lineEnd = Markup.closeTag l tag := by
  rw [closing, Markup.closeTag, Layout.isVoid]
  split
  · rfl
  · simp

mutual

theorem text_ofNode (l : Layout) :
    (n : Node) → n.Unnested → (ofNode l.voidNames n).text l.lineEnd = Markup.ofNode l n
  | .sequence members, h => text_ofNodes l members h
  | .element ⟨name, attributes, children, mark⟩, ⟨hattributes, hchildren⟩ => by
    have values := Markup.ofAttributes_of_unnested hattributes (.unbroken l.voidNames) l
    rw [ofNode, text_append, text_append, text_ofLine, text_ofNodes l children hchildren, text_closing,
      values, Markup.ofNode, Markup.ofElement]
    simp
  | .character _, _ | .text _, _ | .verbatim _, _ | .scalar _, _ | .sentinel _ _, _ => rfl

theorem text_ofNodes (l : Layout) : (ns : List Node) → Node.UnnestedAll ns →
    (ofNodes l.voidNames ns).text l.lineEnd = Markup.ofNodes l ns
  | [], _ => rfl
  | n :: ns, ⟨first, others⟩ => by
    rw [ofNodes, text_append, text_ofNode l n first, text_ofNodes l ns others, Markup.ofNodes]

end

theorem length_ended_closing (tag : Bytes) :
    (closing voidNames tag).ended.length = [tag].countP fun tag => !voidNames.contains tag := by
  rw [closing]
  by_cases void : tag ∈ voidNames <;> simp [void, ofLine]

mutual

/-- One line for each open tag, and one for each close tag. -/
theorem length_ended_ofNode : (n : Node) → (ofNode voidNames n).ended.length =
    n.tags.length + n.tags.countP fun tag => !voidNames.contains tag
  | .sequence members => length_ended_ofNodes members
  | .element ⟨name, attributes, children, mark⟩ => by
    have opening (s : Bytes) : (ofLine s).ended.length = 1 := rfl
    rw [ofNode, length_ended_append, length_ended_append, opening, length_ended_closing,
      length_ended_ofNodes children, Node.tags, List.length_cons, List.countP_cons, List.countP_cons,
      List.countP_nil]
    omega
  | .character _ | .text _ | .verbatim _ | .scalar _ | .sentinel _ _ => rfl

theorem length_ended_ofNodes : (ns : List Node) → (ofNodes voidNames ns).ended.length =
    (Node.tagsAll ns).length + (Node.tagsAll ns).countP fun tag => !voidNames.contains tag
  | [] => rfl
  | n :: ns => by
    rw [ofNodes, length_ended_append, length_ended_ofNode n, length_ended_ofNodes ns, Node.tagsAll,
      List.length_append, List.countP_append]
    omega

end

theorem endWith_ofLine_tag (s : Bytes) : (ofLine (s ++ [62])).EndWith 62 := by
  simp [EndWith, ofLine]

theorem endWith_of_ended_eq_nil {b : UInt8} {t : Lines} (h : t.ended = []) : t.EndWith b := by
  simp [EndWith, h]

theorem endWith_closing (tag : Bytes) : (closing voidNames tag).EndWith 62 := by
  rw [closing]
  split
  · exact endWith_of_ended_eq_nil rfl
  · exact endWith_ofLine_tag _

mutual

theorem endWith_ofNode : (n : Node) → (ofNode voidNames n).EndWith 62
  | .sequence members => endWith_ofNodes members
  | .element ⟨_, _, children, _⟩ =>
    ((endWith_ofLine_tag _).append (endWith_ofNodes children)).append (endWith_closing voidNames _)
  | .character _ | .text _ | .verbatim _ | .scalar _ | .sentinel _ _ => endWith_of_ended_eq_nil rfl

theorem endWith_ofNodes : (ns : List Node) → (ofNodes voidNames ns).EndWith 62
  | [] => endWith_of_ended_eq_nil rfl
  | n :: ns => (endWith_ofNode n).append (endWith_ofNodes ns)

end

end Lines

/-- As long as no element stands within an attribute value, there are pieces of text, each of them up to
the end of a tag, that a render puts the newline between, one for each open tag and one for each close
tag. Anywhere else it does not matter whether there are no line breaks or empty ones. -/
theorem render_breaks_behind_tags (voidNames : List Bytes) (ns : List Node) :
    (Node.UnnestedAll ns → ∃ pieces : List Bytes,
      let breaks := (Census.ofNodes ns).elements +
        (Node.tagsAll ns).countP fun tag => !voidNames.contains tag
      pieces.length = breaks + 1 ∧
        (∀ piece ∈ pieces.dropLast, piece.getLast? = some 62) ∧
        ∀ newline,
          render { lineBreaks := true, newline, voidNames } ns = newline.intercalate pieces ∧
            render { lineBreaks := false, newline, voidNames } ns = pieces.flatten ∧
            (Render.totals { lineBreaks := true, newline, voidNames } ns).bytes =
              (Render.totals { lineBreaks := false, newline, voidNames } ns).bytes +
                breaks * newline.length) ∧
      ∀ newline, render { lineBreaks := false, newline, voidNames } ns =
        render { lineBreaks := true, newline := [], voidNames } ns := by
  refine ⟨fun unnested => ?_, fun newline => render_congr ⟨rfl, fun _ _ => rfl⟩⟩
  let lines := Lines.ofNodes voidNames ns
  have written (l : Layout) (same : l.voidNames = voidNames) : render l ns = lines.text l.lineEnd := by
    rw [render_eq, ← Lines.text_ofNodes l ns unnested, same]
  have size : lines.ended.length = (Census.ofNodes ns).elements +
      (Node.tagsAll ns).countP fun tag => !voidNames.contains tag := by
    rw [← Node.length_tagsAll, Lines.length_ended_ofNodes]
  refine ⟨lines.ended ++ [lines.last], ?_, ?_, fun newline => ⟨?_, ?_, ?_⟩⟩
  · rw [List.length_append, size, List.length_singleton]
  · rw [List.dropLast_concat]
    exact Lines.endWith_ofNodes voidNames ns
  · rw [written _ rfl, Lines.text_eq_intercalate]
    rfl
  · rw [written _ rfl]
    exact lines.text_nil
  · rw [Render.totals_eq, Render.totals_eq, written _ rfl, written _ rfl, ← size]
    exact lines.length_text newline

/-- Texts and a value that look like tags, and a void element with a child. -/
def Node.misleading : Node :=
  .element
    { name := [80]
      attributes := [⟨[116], .content (.sequence [.verbatim [62, 10], .sentinel [] [60, 112, 62]])⟩]
      children := [.verbatim [62], .element { name := Bytes.ascii "BR", children := [.text [62]] }] }

/-- What ends the lines can be a tag itself. -/
theorem render_breaks_behind_tags_misleading :
    Node.UnnestedAll [Node.misleading] ∧ ∃ pieces : List Bytes, pieces.length = 4 ∧
      (∀ piece ∈ pieces.dropLast, piece.getLast? = some 62) ∧
      render { newline := Bytes.ascii "</p>" } [Node.misleading] =
        (Bytes.ascii "</p>").intercalate pieces ∧
      render { newline := Bytes.ascii "</p>" } [Node.misleading] =
        Bytes.ascii "<p t=\">\n&lt;p&gt;\"></p>><br></p>&gt;</p></p>" := by
  have unnested : Node.UnnestedAll [Node.misleading] := by
    simp [Node.misleading, Node.UnnestedAll, Node.Unnested, Node.leaves, Node.leavesAll]
  obtain ⟨pieces, size, ends, written⟩ :=
    (render_breaks_behind_tags ({} : Layout).voidNames [Node.misleading]).1 unnested
  have breaks : pieces.length = 4 := size.trans (by decide)
  exact ⟨unnested, pieces, breaks, ends, (written _).1, by decide +kernel⟩

end Hypertext
