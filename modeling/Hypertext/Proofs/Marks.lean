import Hypertext.Node.Mark
import Hypertext.Proofs.Places

/-!
# Marks on trees

Marking changes no places, and it gives the element at each place that has no mark one that is free when
its turn comes (`Node.reach?_stamp`). So different places receive different marks
(`Node.eq_of_nextTo_eq`). What is marked throughout is left as it is (`Node.stamp_eq_self`).
-/

namespace Hypertext

namespace Node

/-- An element stands in a node, at whatever place. -/
def Within (e : Element Node) (n : Node) : Prop := ∃ path, n.reach? path = some (.element e)

def Marked (n : Node) : Prop := ∀ e, Within e n → e.mark ≠ none

theorem reach?_append (n : Node) (p q : List Step) :
    n.reach? (p ++ q) = (n.reach? p).bind (reach? · q) := by
  induction p generalizing n with
  | nil => rfl
  | cons step p ih =>
    rw [List.cons_append, reach?_cons, reach?_cons, Option.bind_assoc]
    exact congrArg _ (funext fun below => ih below)

theorem Within.trans {e f : Element Node} {n : Node} (h : Within e (.element f)) (hf : Within f n) :
    Within e n := by
  obtain ⟨q, hq⟩ := h
  obtain ⟨p, hp⟩ := hf
  exact ⟨p ++ q, by rw [reach?_append, hp, Option.bind_some, hq]⟩

theorem Within.of_below {e : Element Node} {n m : Node} {step : Step} (h : n.below? step = some m)
    (he : Within e m) : Within e n := by
  obtain ⟨path, found⟩ := he
  exact ⟨step :: path, by rw [reach?_cons, h, Option.bind_some, found]⟩

theorem within_iff {e : Element Node} {n : Node} :
    Within e n ↔ n = .element e ∨ ∃ step m, n.below? step = some m ∧ Within e m := by
  constructor
  · intro h
    obtain ⟨path, found⟩ := h
    cases path with
    | nil => exact .inl (Option.some.inj found)
    | cons step path =>
      rw [reach?_cons] at found
      obtain ⟨m, below, found⟩ := Option.bind_eq_some_iff.1 found
      exact .inr ⟨step, m, below, path, found⟩
  · intro h
    rcases h with rfl | ⟨step, m, below, inside⟩
    · exact ⟨[], rfl⟩
    · exact inside.of_below below

theorem Marked.of_below {n m : Node} (h : n.Marked) (step : Step) (below : n.below? step = some m) :
    m.Marked := fun e he => h e (he.of_below below)

mutual

theorem le_stamp (next : Nat) : (n : Node) → next ≤ (stamp next n).2
  | .element ⟨_, attributes, children, none⟩ =>
    (Nat.le_succ next).trans ((le_stampAttributes _ attributes).trans (le_stampAll _ children))
  | .element ⟨_, attributes, children, some _⟩ =>
    (le_stampAttributes _ attributes).trans (le_stampAll _ children)
  | .sequence members => le_stampAll next members
  | .character _ | .text _ | .verbatim _ | .scalar _ | .sentinel _ _ => le_rfl

theorem le_stampAll (next : Nat) : (ns : List Node) → next ≤ (stampAll next ns).2
  | [] => le_rfl
  | n :: ns => (le_stamp next n).trans (le_stampAll _ ns)

theorem le_stampAttributes (next : Nat) : (as : List (Attribute Node)) → next ≤ (stampAttributes next as).2
  | [] => le_rfl
  | ⟨_, value⟩ :: rest => (le_stampValue next value).trans (le_stampAttributes _ rest)

theorem le_stampValue (next : Nat) : (v : AttributeValue Node) → next ≤ (stampValue next v).2
  | .flag _ => le_rfl
  | .content n => le_stamp next n

end

end Node

section Fold

variable {α : Type} {f : Nat → α → Nat}

theorem le_foldl (grows : ∀ k a, k ≤ f k a) (k : Nat) (l : List α) : k ≤ l.foldl f k := by
  induction l generalizing k with
  | nil => exact le_rfl
  | cons a l ih => exact (grows k a).trans (ih _)

theorem foldl_take_le (grows : ∀ k a, k ≤ f k a) (k : Nat) (l : List α) (i : Nat) :
    (l.take i).foldl f k ≤ l.foldl f k := by
  conv_rhs => rw [← List.take_append_drop i l, List.foldl_append]
  exact le_foldl grows _ _

/-- What an entry adds is added before the next entries are reached. -/
theorem foldl_take_of_lt (grows : ∀ k a, k ≤ f k a) (k : Nat) {l : List α} {i j : Nat} {a : α}
    (found : l[i]? = some a) (lt : i < j) : f ((l.take i).foldl f k) a ≤ (l.take j).foldl f k := by
  have first : (l.take j).take (i + 1) = l.take i ++ [a] := by
    rw [List.take_take, Nat.min_eq_left lt, List.take_add_one, found, Option.toList_some]
  have reached := foldl_take_le grows k (l.take j) (i + 1)
  rwa [first, List.foldl_append] at reached

theorem foldl_take_of_getElem? (grows : ∀ k a, k ≤ f k a) (k : Nat) {l : List α} {i : Nat} {a : α}
    (found : l[i]? = some a) : f ((l.take i).foldl f k) a ≤ l.foldl f k :=
  (foldl_take_of_lt grows k found (Nat.lt_succ_self i)).trans (foldl_take_le grows k l _)

end Fold

namespace Node

/-- The next free mark once these are marked. -/
def nextAfter (next : Nat) (ns : List Node) : Nat := ns.foldl (fun k n => (stamp k n).2) next

def nextAfterAttributes (next : Nat) (as : List (Attribute Node)) : Nat :=
  as.foldl (fun k a => (stampValue k a.value).2) next

def nextAfterMark (next : Nat) (mark : Option Nat) : Nat := if mark = none then next + 1 else next

/-- The next free mark when marking comes to a step. -/
def nextAt (next : Nat) : Node → Step → Nat
  | .element e, .value i => nextAfterAttributes (nextAfterMark next e.mark) (e.attributes.take i)
  | .element e, .held i =>
    nextAfter (nextAfterAttributes (nextAfterMark next e.mark) e.attributes) (e.children.take i)
  | .sequence members, .held i => nextAfter next (members.take i)
  | _, _ => next

theorem stampAll_snd (next : Nat) (ns : List Node) : (stampAll next ns).2 = nextAfter next ns := by
  induction ns generalizing next with
  | nil => rfl
  | cons n ns ih => exact ih _

theorem stampAttributes_snd (next : Nat) (as : List (Attribute Node)) :
    (stampAttributes next as).2 = nextAfterAttributes next as := by
  induction as generalizing next with
  | nil => rfl
  | cons a as ih => exact ih _

theorem getElem?_stampAll (next : Nat) (ns : List Node) (i : Nat) :
    (stampAll next ns).1[i]? = ns[i]?.map fun n => (stamp (nextAfter next (ns.take i)) n).1 := by
  induction ns generalizing next i with
  | nil => rfl
  | cons n ns ih =>
    cases i with
    | zero => rfl
    | succ i => exact ih _ i

theorem getElem?_stampAttributes (next : Nat) (as : List (Attribute Node)) (i : Nat) :
    (stampAttributes next as).1[i]? = as[i]?.map fun a =>
      ⟨a.name, (stampValue (nextAfterAttributes next (as.take i)) a.value).1⟩ := by
  induction as generalizing next i with
  | nil => rfl
  | cons a as ih =>
    cases i with
    | zero => rfl
    | succ i => exact ih _ i

theorem stamp_element (next : Nat) (e : Element Node) : stamp next (.element e) =
    (.element ⟨e.name, (stampAttributes (nextAfterMark next e.mark) e.attributes).1,
      (stampAll (nextAfterAttributes (nextAfterMark next e.mark) e.attributes) e.children).1,
        some (e.mark.getD next)⟩,
      nextAfter (nextAfterAttributes (nextAfterMark next e.mark) e.attributes) e.children) := by
  rw [← stampAttributes_snd, ← stampAll_snd]
  obtain ⟨_, _, _, _ | _⟩ := e <;> rfl

theorem content?_stampValue (next : Nat) (v : AttributeValue Node) :
    (stampValue next v).1.content? = v.content?.map fun n => (stamp next n).1 := by
  cases v <;> rfl

theorem below?_stamp (next : Nat) (n : Node) (step : Step) : (stamp next n).1.below? step =
    (n.below? step).map fun m => (stamp (nextAt next n step) m).1 := by
  cases step with
  | held i =>
    cases n with
    | element e =>
      rw [stamp_element]
      exact getElem?_stampAll _ _ i
    | sequence members => exact getElem?_stampAll _ _ i
    | _ => rfl
  | value i =>
    cases n with
    | element e =>
      rw [stamp_element]
      simp only [below?, getElem?_stampAttributes, Option.bind_map, Option.map_bind]
      exact congrArg _ (funext fun a => content?_stampValue _ a.value)
    | _ => rfl

/-- The next free mark when marking comes to a place. -/
def nextTo (next : Nat) : Node → List Step → Nat
  | _, [] => next
  | n, step :: path => match n.below? step with
    | some m => nextTo (nextAt next n step) m path
    | none => next

theorem reach?_stamp (next : Nat) (n : Node) (path : List Step) : (stamp next n).1.reach? path =
    (n.reach? path).map fun m => (stamp (nextTo next n path) m).1 := by
  induction path generalizing next n with
  | nil => rfl
  | cons step path ih =>
    rw [reach?_cons, reach?_cons, below?_stamp]
    cases below : n.below? step with
    | none => rfl
    | some m =>
      rw [nextTo, below]
      exact ih _ m

theorem le_nextAfter (k : Nat) (ns : List Node) : k ≤ nextAfter k ns := le_foldl le_stamp k ns

theorem le_nextAfterAttributes (k : Nat) (as : List (Attribute Node)) : k ≤ nextAfterAttributes k as :=
  le_foldl (fun k (a : Attribute Node) => le_stampValue k a.value) k as

theorem le_nextAfterMark (next : Nat) (mark : Option Nat) : next ≤ nextAfterMark next mark := by
  rw [nextAfterMark]
  split <;> omega

/-- The mark of an element is taken before those of all that it holds. -/
theorem nextAfterMark_le_nextAt (next : Nat) (e : Element Node) (step : Step) :
    nextAfterMark next e.mark ≤ nextAt next (.element e) step := by
  cases step with
  | value i => exact le_nextAfterAttributes _ _
  | held i => exact (le_nextAfterAttributes _ _).trans (le_nextAfter _ _)

theorem le_nextAt (next : Nat) (n : Node) (step : Step) : next ≤ nextAt next n step := by
  cases n with
  | element e => exact (le_nextAfterMark next e.mark).trans (nextAfterMark_le_nextAt next e step)
  | sequence members =>
    cases step with
    | held i => exact le_nextAfter _ _
    | value i => exact le_rfl
  | _ => exact le_rfl

/-- Attributes come before children, and each in its order. -/
def Step.Before : Step → Step → Prop
  | .value i, .value j | .held i, .held j => i < j
  | .value _, .held _ => True
  | .held _, .value _ => False

theorem Step.before_or_before {s t : Step} (h : s ≠ t) : s.Before t ∨ t.Before s := by
  cases s with
  | value i =>
    cases t with
    | value j => exact Nat.lt_or_gt_of_ne fun same => h (congrArg _ same)
    | held j => exact .inl trivial
  | held i =>
    cases t with
    | value j => exact .inr trivial
    | held j => exact Nat.lt_or_gt_of_ne fun same => h (congrArg _ same)

theorem stamp_snd_of_value (next : Nat) {as : List (Attribute Node)} {i : Nat} {m : Node}
    (found : as[i]?.bind (·.value.content?) = some m) :
    ∃ a, as[i]? = some a ∧ (stamp (nextAfterAttributes next (as.take i)) m).2 =
      (stampValue (nextAfterAttributes next (as.take i)) a.value).2 := by
  obtain ⟨⟨name, value⟩, stored, content⟩ := Option.bind_eq_some_iff.1 found
  refine ⟨_, stored, ?_⟩
  cases value with
  | flag on => cases content
  | content n =>
    cases content
    rfl

theorem stamp_snd_le_nextAt {next : Nat} {n m : Node} {s t : Step} (below : n.below? s = some m)
    (before : s.Before t) : (stamp (nextAt next n s) m).2 ≤ nextAt next n t := by
  have grows (k : Nat) (a : Attribute Node) : k ≤ (stampValue k a.value).2 := le_stampValue k a.value
  cases n with
  | element e =>
    cases s with
    | held i =>
      cases t with
      | held j => exact foldl_take_of_lt le_stamp _ below before
      | value j => cases before
    | value i =>
      obtain ⟨a, stored, same⟩ := stamp_snd_of_value (nextAfterMark next e.mark) below
      rw [nextAt, same]
      cases t with
      | value j => exact foldl_take_of_lt grows _ stored before
      | held j => exact (foldl_take_of_getElem? grows _ stored).trans (le_nextAfter _ _)
  | sequence members =>
    cases s with
    | held i =>
      cases t with
      | held j => exact foldl_take_of_lt le_stamp _ below before
      | value j => cases before
    | value i => cases below
  | _ => cases s <;> cases below

theorem stamp_nextAt_le {next : Nat} {n m : Node} {step : Step} (below : n.below? step = some m) :
    (stamp (nextAt next n step) m).2 ≤ (stamp next n).2 := by
  cases n with
  | element e =>
    rw [stamp_element]
    cases step with
    | held i => exact foldl_take_of_getElem? le_stamp _ below
    | value i => 
      exact (stamp_snd_le_nextAt (t := .held 0) below trivial).trans (foldl_take_le le_stamp _ _ _)
  | sequence members =>
    cases step with
    | held i =>
      have total : (stamp next (.sequence members)).2 = nextAfter next members := stampAll_snd next members
      rw [total]
      exact foldl_take_of_getElem? le_stamp _ below
    | value i => cases below
  | _ => cases step <;> cases below

theorem nextTo_cons {next : Nat} {n m : Node} {step : Step} (below : n.below? step = some m)
    (path : List Step) : nextTo next n (step :: path) = nextTo (nextAt next n step) m path := by
  rw [nextTo, below]

theorem le_nextTo (next : Nat) (n : Node) (path : List Step) : next ≤ nextTo next n path := by
  induction path generalizing next n with
  | nil => exact le_rfl
  | cons step path ih =>
    cases below : n.below? step with
    | none => rw [nextTo, below]
    | some m =>
      rw [nextTo_cons below]
      exact (le_nextAt next n step).trans (ih _ m)

theorem nextTo_lt (next : Nat) {n : Node} {path : List Step} {e : Element Node}
    (found : n.reach? path = some (.element e)) (new : e.mark = none) :
    nextTo next n path < (stamp next n).2 := by
  induction path generalizing next n with
  | nil =>
    cases found
    have taken : nextAfterMark next e.mark = next + 1 := if_pos new
    rw [stamp_element, ← Nat.succ_le_iff, nextTo, Nat.succ_eq_add_one, ← taken]
    exact (le_nextAfterAttributes _ _).trans (le_nextAfter _ _)
  | cons step path ih =>
    rw [reach?_cons] at found
    obtain ⟨m, below, found⟩ := Option.bind_eq_some_iff.1 found
    rw [nextTo_cons below]
    exact (ih _ found).trans_le (stamp_nextAt_le below)

/-- The root takes its mark first. -/
theorem lt_nextTo_cons {next : Nat} {e : Element Node} (new : e.mark = none) {step : Step} {m : Node}
    (below : (element e).below? step = some m) (path : List Step) :
    next < nextTo next (.element e) (step :: path) := by
  have taken : nextAfterMark next e.mark = next + 1 := if_pos new
  rw [nextTo_cons below, ← Nat.succ_le_iff, Nat.succ_eq_add_one, ← taken]
  exact (nextAfterMark_le_nextAt next e step).trans (le_nextTo _ _ _)

/-- Two places whose elements take the same mark are one. -/
theorem eq_of_nextTo_eq {next : Nat} {n : Node} {p q : List Step} {e f : Element Node}
    (hp : n.reach? p = some (.element e)) (he : e.mark = none)
    (hq : n.reach? q = some (.element f)) (hf : f.mark = none)
    (same : nextTo next n p = nextTo next n q) : p = q := by
  induction p generalizing next n q with
  | nil =>
    cases hp
    cases q with
    | nil => rfl
    | cons t q =>
      rw [reach?_cons] at hq
      obtain ⟨d, below, -⟩ := Option.bind_eq_some_iff.1 hq
      exact absurd same (lt_nextTo_cons he below q).ne
  | cons s p ih =>
    rw [reach?_cons] at hp
    obtain ⟨c, first, inside⟩ := Option.bind_eq_some_iff.1 hp
    cases q with
    | nil =>
      cases hq
      exact absurd same.symm (lt_nextTo_cons hf first p).ne
    | cons t q =>
      rw [reach?_cons] at hq
      obtain ⟨d, second, beside⟩ := Option.bind_eq_some_iff.1 hq
      rw [nextTo_cons first, nextTo_cons second] at same
      by_cases step : s = t
      · subst step
        cases first.symm.trans second
        rw [ih inside beside same]
      · -- The marks within one of the two are all taken before those within the other.
        exfalso
        have low := nextTo_lt (nextAt next n s) inside he
        have high := nextTo_lt (nextAt next n t) beside hf
        rcases Step.before_or_before step with before | before
        · exact absurd same ((low.trans_le (stamp_snd_le_nextAt first before)).trans_le
            (le_nextTo _ d q)).ne
        · exact absurd same.symm ((high.trans_le (stamp_snd_le_nextAt second before)).trans_le
            (le_nextTo _ c p)).ne

theorem eq_some_of_marked {e : Element Node} (h : (element e).Marked) : ∃ m, e.mark = some m :=
  Option.ne_none_iff_exists'.1 (h e ⟨[], rfl⟩)

mutual

theorem stamp_eq_self (next : Nat) : (n : Node) → n.Marked → stamp next n = (n, next)
  | .element ⟨name, attributes, children, mark⟩, h => by
    obtain ⟨m, hm⟩ := eq_some_of_marked h
    cases hm
    have values := stampAttributes_eq_self next attributes fun i m found => h.of_below (.value i) found
    have held := stampAll_eq_self next children fun i m found => h.of_below (.held i) found
    rw [stamp, values]
    simp only [held]
  | .sequence members, h => by
    rw [stamp, stampAll_eq_self next members fun i m found => h.of_below (.held i) found]
  | .character _, _ | .text _, _ | .verbatim _, _ | .scalar _, _ | .sentinel _ _, _ => rfl

theorem stampAll_eq_self (next : Nat) : (ns : List Node) →
    (∀ (i : Nat) (m : Node), ns[i]? = some m → m.Marked) → stampAll next ns = (ns, next)
  | [], _ => rfl
  | n :: ns, h => by
    rw [stampAll, stamp_eq_self next n (h 0 n rfl)]
    simp only [stampAll_eq_self next ns fun i m found => h (i + 1) m found]

theorem stampAttributes_eq_self (next : Nat) : (as : List (Attribute Node)) →
    (∀ (i : Nat) (m : Node), as[i]?.bind (·.value.content?) = some m → m.Marked) →
      stampAttributes next as = (as, next)
  | [], _ => rfl
  | ⟨name, value⟩ :: rest, h => by
    rw [stampAttributes, stampValue_eq_self next value fun m found => h 0 m found]
    simp only [stampAttributes_eq_self next rest fun i m found => h (i + 1) m found]

theorem stampValue_eq_self (next : Nat) : (v : AttributeValue Node) →
    (∀ m, v.content? = some m → m.Marked) → stampValue next v = (v, next)
  | .flag _, _ => rfl
  | .content n, h => by rw [stampValue, stamp_eq_self next n (h n rfl)]

end

end Node

end Hypertext
