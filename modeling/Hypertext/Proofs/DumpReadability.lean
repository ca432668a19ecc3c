import Hypertext.Node.Dump

/-!
# Readability of dumps

A dump has brackets, quotes and blanks of its own. Where no name and no text holds the one that ends it,
the dump determines the tree, but for what it does not show: the literals of sentinels, the scalar behind
its text, and the marks (`Node.dump_eq_iff_shown_eq`). With more behind it, such a dump even determines
where it ends (`Node.dump_append_inj`).
-/

namespace Hypertext

namespace Bytes

/-- A piece without stops ends where the first stop stands, or where all ends. -/
theorem append_inj_of_stops {stops s t r r' : Bytes} (hs : ∀ b ∈ s, b ∉ stops) (ht : ∀ b ∈ t, b ∉ stops)
    (hr : ∀ b ∈ r.head?, b ∈ stops) (hr' : ∀ b ∈ r'.head?, b ∈ stops) (h : s ++ r = t ++ r') :
    s = t ∧ r = r' := by
  have found {s r : Bytes} (hs : ∀ b ∈ s, b ∉ stops) (hr : ∀ b ∈ r.head?, b ∈ stops) :
      (s ++ r).takeWhile (· ∉ stops) = s := by
    rw [List.takeWhile_append_of_pos (by simpa using hs)]
    cases r with
    | nil => exact List.append_nil s
    | cons b r => simp [hr b rfl]
  have same : s = t := by rw [← found hs hr, h, found ht hr']
  subst same
  exact ⟨rfl, List.append_cancel_left h⟩

theorem append_cons_inj {stop : UInt8} {s t r r' : Bytes} (hs : stop ∉ s) (ht : stop ∉ t)
    (h : s ++ stop :: r = t ++ stop :: r') : s = t ∧ r = r' := by
  have bare {s : Bytes} (hs : stop ∉ s) : ∀ b ∈ s, b ∉ [stop] := fun b hb same =>
    hs (List.mem_singleton.1 same ▸ hb)
  obtain ⟨same, rest⟩ := append_inj_of_stops (bare hs) (bare ht) (by simp) (by simp) h
  exact ⟨same, (List.cons.inj rest).2⟩

end Bytes

namespace Node

mutual

/-- The node as far as a dump shows it. -/
def shown : Node → Node
  | .character b => .character b
  | .text s => .text s
  | .verbatim s => .verbatim s
  | .scalar v => .scalar (.ofText v.text)
  | .sentinel name _ => .sentinel name []
  | .sequence members => .sequence (shownAll members)
  | .element ⟨name, attributes, children, _⟩ =>
    .element ⟨name, shownAttributes attributes, shownAll children, none⟩

def shownAll : List Node → List Node
  | [] => []
  | n :: ns => n.shown :: shownAll ns

def shownAttributes : List (Attribute Node) → List (Attribute Node)
  | [] => []
  | ⟨name, value⟩ :: rest => ⟨name, shownValue value⟩ :: shownAttributes rest

def shownValue : AttributeValue Node → AttributeValue Node
  | .flag on => .flag on
  | .content n => .content n.shown

end

/-- What stands behind the name of an element: a blank or the end of the tag. -/
def tagStops : Bytes := [32, 62]

/-- What can stand behind a node: the same, or the end of a list or of the children. -/
def stops : Bytes := 41 :: 93 :: tagStops

mutual

/-- No name and no text holds what ends it, and no sentinel is written like a flag. -/
def Clean : Node → Prop
  | .character _ => True
  | .text s | .verbatim s => 34 ∉ s
  | .scalar v => 41 ∉ v.text
  | .sentinel name _ => ∀ b ∈ name, b ∉ stops
  | .sequence members => CleanAll members
  | .element ⟨name, attributes, children, _⟩ =>
    (∀ b ∈ name, b ∉ tagStops) ∧ CleanAttributes attributes ∧ CleanAll children

def CleanAll : List Node → Prop
  | [] => True
  | n :: ns => n.Clean ∧ CleanAll ns

def CleanAttributes : List (Attribute Node) → Prop
  | [] => True
  | ⟨name, value⟩ :: rest => 61 ∉ name ∧ CleanValue value ∧ CleanAttributes rest

def CleanValue : AttributeValue Node → Prop
  | .flag _ => True
  | .content n => n.Clean ∧
    ∀ name literal, n = .sentinel name literal → name ≠ Bytes.ascii "t" ∧ name ≠ Bytes.ascii "f"

end

/-- The byte that a dump begins with. -/
def Kind.lead : Kind → UInt8
  | character => 39
  | text => 34
  | verbatim => 117
  | scalar => 111
  | sentinel => 35
  | sequence => 40
  | element => 60

theorem Kind.lead_injective : Function.Injective lead := fun k k' same => by
  cases k <;> cases k' <;> first | rfl | cases same

theorem head?_dump_append (n : Node) (r : Bytes) : (n.dump ++ r).head? = some n.kind.lead := by
  cases n <;> rfl

theorem kind_eq_of_dump {a b : Node} {r r' : Bytes} (h : a.dump ++ r = b.dump ++ r') :
    a.kind = b.kind := by
  have leads := congrArg List.head? h
  rw [head?_dump_append, head?_dump_append] at leads
  exact Kind.lead_injective (Option.some.inj leads)

/-- Nothing that could belong to a node stands behind it. -/
def Follows (r : Bytes) : Prop := ∀ b ∈ r.head?, b ∈ stops

theorem follows_cons {b : UInt8} {r : Bytes} (h : b ∈ stops) : Follows (b :: r) := fun c hc => by
  cases hc
  exact h

def dumpChildren (ns : List Node) : Bytes :=
  if ns.isEmpty then [] else 91 :: spaced (dumpAll ns) ++ [93]

theorem dumpChildren_cons (n : Node) (ns : List Node) (r : Bytes) :
    dumpChildren (n :: ns) ++ r = 91 :: (spaced (dumpAll (n :: ns)) ++ 93 :: r) := by
  simp [dumpChildren]

theorem dump_element (name : Bytes) (as : List (Attribute Node)) (children : List Node)
    (mark : Option Nat) (r : Bytes) : dump (.element ⟨name, as, children, mark⟩) ++ r =
      60 :: (name ++ (dumpAttributes as ++ 62 :: (dumpChildren children ++ r))) := by
  simp [dump, dumpChildren]

theorem quoted_append_inj {s t r r' : Bytes} (hs : 34 ∉ s) (ht : 34 ∉ t)
    (h : quoted s ++ r = quoted t ++ r') : s = t ∧ r = r' := by
  simp only [quoted, List.cons_append, List.append_assoc, List.nil_append, List.cons.injEq,
    true_and] at h
  exact Bytes.append_cons_inj hs ht h

theorem dumpAttributes_cons (name : Bytes) (value : AttributeValue Node) (as : List (Attribute Node))
    (r : Bytes) : dumpAttributes (⟨name, value⟩ :: as) ++ r =
      32 :: (name ++ 61 :: (dumpValue value ++ (dumpAttributes as ++ r))) := by
  simp [dumpAttributes]

/-- Behind a name and behind a value there is a blank or the end of the tag. -/
theorem head?_dumpAttributes_append (as : List (Attribute Node)) (r : Bytes) :
    ∀ b ∈ (dumpAttributes as ++ 62 :: r).head?, b ∈ tagStops := by
  cases as with
  | nil => simp [dumpAttributes, tagStops]
  | cons a as => simp [dumpAttributes, tagStops]

theorem follows_dumpAttributes (as : List (Attribute Node)) (r : Bytes) :
    Follows (dumpAttributes as ++ 62 :: r) := fun b hb =>
  List.mem_cons_of_mem _ (List.mem_cons_of_mem _ (head?_dumpAttributes_append as r b hb))

/-- The members behind the first one. -/
def trailing (ns : List Node) : Bytes := (dumpAll ns).flatMap (32 :: ·)

theorem spaced_dumpAll_cons (n : Node) (ns : List Node) :
    spaced (dumpAll (n :: ns)) = n.dump ++ trailing ns := by
  induction ns generalizing n with
  | nil => simp [spaced, dumpAll, trailing]
  | cons m ns ih =>
    rw [dumpAll, spaced, List.intercalate_cons_of_ne_nil (by simp [dumpAll]), ← spaced, ih, trailing,
      trailing, dumpAll, List.flatMap_cons]
    simp

theorem trailing_cons (n : Node) (ns : List Node) (r : Bytes) :
    trailing (n :: ns) ++ r = 32 :: (n.dump ++ (trailing ns ++ r)) := by
  simp [trailing, dumpAll]

theorem follows_trailing {stop : UInt8} (h : stop ∈ stops) (ns : List Node) (r : Bytes) :
    Follows (trailing ns ++ stop :: r) := by
  cases ns with
  | nil => exact follows_cons h
  | cons n ns =>
    rw [trailing_cons]
    exact follows_cons (by decide)

/-- A node does not begin like the end of a list, nor like a blank. -/
theorem lead_notMem_stops (k : Kind) : k.lead ∉ stops := by
  cases k <;> decide

/-- Lists of members that look the same are both empty or not. -/
theorem trailing_of_spaced {stop : UInt8} {ns ms : List Node} {r r' : Bytes} (hstop : stop ∈ stops)
    (h : spaced (dumpAll ns) ++ stop :: r = spaced (dumpAll ms) ++ stop :: r') :
    trailing ns ++ stop :: r = trailing ms ++ stop :: r' := by
  have apart {n : Node} {ns : List Node} {r r' : Bytes} :
      spaced (dumpAll (n :: ns)) ++ stop :: r ≠ stop :: r' := fun same => by
    have lead := congrArg List.head? same
    rw [spaced_dumpAll_cons, List.append_assoc, head?_dump_append] at lead
    exact lead_notMem_stops n.kind (Option.some.inj lead ▸ hstop)
  cases ns with
  | nil =>
    cases ms with
    | nil => exact h
    | cons m ms => exact absurd h.symm apart
  | cons n ns =>
    cases ms with
    | nil => exact absurd h apart
    | cons m ms =>
      rw [spaced_dumpAll_cons, spaced_dumpAll_cons, List.append_assoc, List.append_assoc] at h
      rw [trailing_cons, trailing_cons, h]

/-- Without children there is no bracket, and nothing that follows begins with one. -/
theorem trailing_of_dumpChildren {ns ms : List Node} {r r' : Bytes} (hr : Follows r) (hr' : Follows r')
    (h : dumpChildren ns ++ r = dumpChildren ms ++ r') :
    trailing ns ++ 93 :: r = trailing ms ++ 93 :: r' := by
  cases ns with
  | nil =>
    cases ms with
    | nil => exact congrArg (93 :: ·) h
    | cons m ms =>
      subst h
      exact absurd (hr 91 rfl) (by decide)
  | cons n ns =>
    cases ms with
    | nil =>
      subst h
      exact absurd (hr' 91 rfl) (by decide)
    | cons m ms =>
      rw [dumpChildren_cons, dumpChildren_cons] at h
      exact trailing_of_spaced (by decide) (List.cons.inj h).2

def flagName (on : Bool) : Bytes := if on then [116] else [102]

theorem dumpValue_flag (on : Bool) : dumpValue (.flag on) = 35 :: flagName on := by
  cases on <;> rfl

theorem flagName_injective : Function.Injective flagName := fun on on' same => by
  cases on <;> cases on' <;> first | rfl | cases same

theorem flagName_notMem_stops (on : Bool) : ∀ b ∈ flagName on, b ∉ stops := by
  cases on <;> simp [flagName, stops, tagStops]

/-- Only a sentinel would begin like a flag, and it would have to have the name of the flag. -/
theorem flag_append_ne (on : Bool) {n : Node} (hn : CleanValue (.content n)) {r r' : Bytes}
    (hr : Follows r) (hr' : Follows r') : dumpValue (.flag on) ++ r ≠ n.dump ++ r' := fun h => by
  have lead := congrArg List.head? h
  rw [head?_dump_append, dumpValue_flag] at lead
  cases n with
  | sentinel name literal =>
    have names := hn.2 name literal rfl
    obtain ⟨same, -⟩ := Bytes.append_inj_of_stops (flagName_notMem_stops on) hn.1 hr hr'
      (List.cons.inj (dumpValue_flag on ▸ h)).2
    cases on with
    | true => exact names.1 same.symm
    | false => exact names.2 same.symm
  | _ => cases lead

mutual

/-- The dump of a clean node shows all that is shown of it, and where the node ends. -/
theorem dump_append_inj {r r' : Bytes} : (a b : Node) → a.Clean → b.Clean → Follows r → Follows r' →
    a.dump ++ r = b.dump ++ r' → a.shown = b.shown ∧ r = r'
  | .character c, b, ha, hb, hr, hr', h => by
    have kinds := kind_eq_of_dump h
    cases b with
    | character d =>
      simp only [dump, List.cons_append, List.nil_append, List.cons.injEq, true_and] at h
      obtain ⟨rfl, rfl⟩ := h
      exact ⟨rfl, rfl⟩
    | _ => cases kinds
  | .text s, b, ha, hb, hr, hr', h => by
    have kinds := kind_eq_of_dump h
    cases b with
    | text t =>
      obtain ⟨rfl, rfl⟩ := quoted_append_inj ha hb h
      exact ⟨rfl, rfl⟩
    | _ => cases kinds
  | .verbatim s, b, ha, hb, hr, hr', h => by
    have kinds := kind_eq_of_dump h
    cases b with
    | verbatim t =>
      rw [dump, dump, List.append_assoc, List.append_assoc] at h
      obtain ⟨rfl, rfl⟩ := quoted_append_inj ha hb (List.append_cancel_left h)
      exact ⟨rfl, rfl⟩
    | _ => cases kinds
  | .scalar v, b, ha, hb, hr, hr', h => by
    have kinds := kind_eq_of_dump h
    cases b with
    | scalar w =>
      simp only [dump, List.append_assoc, List.singleton_append] at h
      obtain ⟨same, rfl⟩ := Bytes.append_cons_inj ha hb (List.append_cancel_left h)
      rw [shown, shown, same]
      exact ⟨rfl, rfl⟩
    | _ => cases kinds
  | .sentinel name literal, b, ha, hb, hr, hr', h => by
    have kinds := kind_eq_of_dump h
    cases b with
    | sentinel name' literal' =>
      obtain ⟨rfl, rfl⟩ := Bytes.append_inj_of_stops ha hb hr hr' (List.cons.inj h).2
      exact ⟨rfl, rfl⟩
    | _ => cases kinds
  | .sequence members, b, ha, hb, hr, hr', h => by
    have kinds := kind_eq_of_dump h
    cases b with
    | sequence members' =>
      simp only [dump, List.cons_append, List.append_assoc, List.nil_append, List.cons.injEq,
        true_and] at h
      obtain ⟨same, rfl⟩ := trailing_append_inj (by decide) (by decide) members members' ha hb
        (trailing_of_spaced (by decide) h)
      rw [shown, shown, same]
      exact ⟨rfl, rfl⟩
    | _ => cases kinds
  | .element ⟨name, attributes, children, mark⟩, b, ha, hb, hr, hr', h => by
    have kinds := kind_eq_of_dump h
    cases b with
    | element e =>
      obtain ⟨name', attributes', children', mark'⟩ := e
      obtain ⟨hname, hattributes, hchildren⟩ := ha
      obtain ⟨hname', hattributes', hchildren'⟩ := hb
      rw [dump_element, dump_element] at h
      obtain ⟨names, h⟩ := Bytes.append_inj_of_stops hname hname' (head?_dumpAttributes_append _ _)
        (head?_dumpAttributes_append _ _) (List.cons.inj h).2
      obtain ⟨sameAttributes, h⟩ :=
        attributes_append_inj attributes attributes' hattributes hattributes' h
      obtain ⟨sameChildren, rest⟩ := trailing_append_inj (by decide) (by decide) children children'
        hchildren hchildren' (trailing_of_dumpChildren hr hr' h)
      rw [shown, shown, names, sameAttributes, sameChildren]
      exact ⟨rfl, rest⟩
    | _ => cases kinds
termination_by structural a => a

/-- The blank before a member tells it from the bracket that closes the list. -/
theorem trailing_append_inj {r r' : Bytes} {stop : UInt8} (hstop : stop ∈ stops) (close : stop ≠ 32) :
    (ns ms : List Node) → CleanAll ns → CleanAll ms → trailing ns ++ stop :: r = trailing ms ++ stop :: r' →
      shownAll ns = shownAll ms ∧ r = r'
  | [], [], _, _, h => ⟨rfl, (List.cons.inj h).2⟩
  | [], m :: ms, _, _, h => by
    rw [trailing_cons] at h
    exact absurd (List.cons.inj h).1 close
  | n :: ns, [], _, _, h => by
    rw [trailing_cons] at h
    exact absurd (List.cons.inj h).1.symm close
  | n :: ns, m :: ms, ⟨hn, hns⟩, ⟨hm, hms⟩, h => by
    rw [trailing_cons, trailing_cons] at h
    obtain ⟨first, h⟩ := dump_append_inj n m hn hm (follows_trailing hstop ns r)
      (follows_trailing hstop ms r') (List.cons.inj h).2
    obtain ⟨others, rest⟩ := trailing_append_inj hstop close ns ms hns hms h
    rw [shownAll, shownAll, first, others]
    exact ⟨rfl, rest⟩
termination_by structural ns => ns

theorem attributes_append_inj {r r' : Bytes} : (as bs : List (Attribute Node)) →
    CleanAttributes as → CleanAttributes bs →
      dumpAttributes as ++ 62 :: r = dumpAttributes bs ++ 62 :: r' →
        shownAttributes as = shownAttributes bs ∧ r = r'
  | [], [], _, _, h => ⟨rfl, (List.cons.inj h).2⟩
  | [], ⟨_, _⟩ :: bs, _, _, h => by
    rw [dumpAttributes_cons] at h
    exact absurd (List.cons.inj h).1 (by decide)
  | ⟨_, _⟩ :: as, [], _, _, h => by
    rw [dumpAttributes_cons] at h
    exact absurd (List.cons.inj h).1 (by decide)
  | ⟨name, value⟩ :: as, ⟨name', value'⟩ :: bs, ⟨hname, hvalue, hrest⟩, ⟨hname', hvalue', hrest'⟩, h => by
    rw [dumpAttributes_cons, dumpAttributes_cons] at h
    obtain ⟨names, h⟩ := Bytes.append_cons_inj hname hname' (List.cons.inj h).2
    obtain ⟨values, h⟩ := value_append_inj value value' hvalue hvalue' (follows_dumpAttributes as r)
      (follows_dumpAttributes bs r') h
    obtain ⟨others, rest⟩ := attributes_append_inj as bs hrest hrest' h
    rw [shownAttributes, shownAttributes, names, values, others]
    exact ⟨rfl, rest⟩
termination_by structural as => as

theorem value_append_inj {r r' : Bytes} : (v w : AttributeValue Node) → CleanValue v → CleanValue w →
    Follows r → Follows r' → dumpValue v ++ r = dumpValue w ++ r' → shownValue v = shownValue w ∧ r = r'
  | .flag on, .flag on', _, _, hr, hr', h => by
    rw [dumpValue_flag, dumpValue_flag] at h
    obtain ⟨names, rest⟩ := Bytes.append_inj_of_stops (flagName_notMem_stops on)
      (flagName_notMem_stops on') hr hr' (List.cons.inj h).2
    rw [flagName_injective names]
    exact ⟨rfl, rest⟩
  | .flag on, .content m, _, hm, hr, hr', h => absurd h (flag_append_ne on hm hr hr')
  | .content n, .flag on, hn, _, hr, hr', h => absurd h.symm (flag_append_ne on hn hr' hr)
  | .content n, .content m, hn, hm, hr, hr', h => by
    obtain ⟨same, rest⟩ := dump_append_inj n m hn.1 hm.1 hr hr' h
    rw [shownValue, shownValue, same]
    exact ⟨rfl, rest⟩
termination_by structural v => v

end

mutual

theorem dump_shown : (n : Node) → n.shown.dump = n.dump
  | .character _ | .text _ | .verbatim _ | .scalar _ | .sentinel _ _ => rfl
  | .sequence members => by rw [shown, dump, dump, dumpAll_shownAll members]
  | .element ⟨name, attributes, children, mark⟩ => by
    have empty : (shownAll children).isEmpty = children.isEmpty := by cases children <;> rfl
    rw [shown, dump, dump, dumpAttributes_shownAttributes attributes, dumpAll_shownAll children, empty]

theorem dumpAll_shownAll : (ns : List Node) → dumpAll (shownAll ns) = dumpAll ns
  | [] => rfl
  | n :: ns => by rw [shownAll, dumpAll, dumpAll, dump_shown n, dumpAll_shownAll ns]

theorem dumpAttributes_shownAttributes :
    (as : List (Attribute Node)) → dumpAttributes (shownAttributes as) = dumpAttributes as
  | [] => rfl
  | ⟨name, value⟩ :: rest => by
    rw [shownAttributes, dumpAttributes, dumpAttributes, dumpValue_shownValue value,
      dumpAttributes_shownAttributes rest]

theorem dumpValue_shownValue : (v : AttributeValue Node) → dumpValue (shownValue v) = dumpValue v
  | .flag _ => rfl
  | .content n => dump_shown n

end

/-- Clean trees with the same dump differ in nothing but the literals of sentinels, the scalars behind
their texts and the marks; and those are never seen in a dump. -/
theorem dump_eq_iff_shown_eq (a b : Node) (ha : a.Clean) (hb : b.Clean) :
    a.dump = b.dump ↔ a.shown = b.shown := by
  have nothing : Follows [] := nofun
  constructor
  · intro same
    exact (dump_append_inj a b ha hb nothing nothing (congrArg (· ++ []) same)).1
  · intro same
    rw [← a.dump_shown, same, b.dump_shown]

/-- A sentinel can be written like a flag. -/
example : dumpValue (.content (.sentinel [116] [])) = dumpValue (.flag true) := by decide

/-- Names that are empty or look like the end of a tag, and characters that look like ends, too. -/
def delicate (v : Scalar) (literal : Bytes) (mark : Option Nat) : Node :=
  .element
    { name := []
      attributes := [⟨[], .flag true⟩, ⟨[62, 32], .content (.sentinel [116, 91] literal)⟩]
      children := [.character 34, .sequence [.character 41, .scalar v, .sentinel [] literal],
        .element { name := [91], mark }]
      mark }

theorem dump_eq_iff_shown_eq_delicate :
    let a := delicate (.ofTruth true) [62] none
    let b := delicate (.ofText (Bytes.ascii "true")) [] (some 3)
    a.Clean ∧ b.Clean ∧ a.dump = b.dump ∧ a.shown = b.shown ∧
      a.dump = Bytes.ascii "< =#t > =#t[>['\"' (')' opaque(true) #) <[>]" := by
  intro a b
  have clean (v : Scalar) (hv : 41 ∉ v.text) (literal : Bytes) (mark : Option Nat) :
      (delicate v literal mark).Clean := by
    have longer : [116, 91] ≠ Bytes.ascii "t" ∧ [116, 91] ≠ Bytes.ascii "f" := by decide
    simp [delicate, Clean, CleanAll, CleanAttributes, CleanValue, stops, tagStops, hv, longer]
  have ha : a.Clean := clean _ (by decide) _ _
  have hb : b.Clean := clean _ (by decide) _ _
  have same : a.dump = b.dump := by decide
  exact ⟨ha, hb, same, (dump_eq_iff_shown_eq a b ha hb).1 same, by decide⟩

end Node

end Hypertext
