import Hypertext.Proofs.Holdings
import Hypertext.Proofs.Unmarked

/-!
# Which elements are the same

In the course of a session every element that is spelled out receives a mark that no other element has, and
what is copied stays as it is, with its marks, wherever it is put (`elements_keep_identity`). So whoever is
told that two nodes are the same element has one node before them.
-/

namespace Hypertext

namespace Workspace

/-- What stands at a place of that which a command is given. -/
def source? (w : Workspace) (c : Command) (place : Nat × List Node.Step) : Option Source :=
  (w.sources c)[place.1]?.bind (·.reach? place.2)

def arrival? (w : Workspace) (c : Command) (place : Nat × List Node.Step) : Option Node :=
  (w.arrived c)[place.1]?.bind (·.reach? place.2)

/-- A command spells an element out at a place, and this is the element that arrives. -/
structure Creates (w : Workspace) (c : Command) (place : Nat × List Node.Step) (src : Source)
    (e : Element Node) : Prop where
  source : w.source? c place = some src
  new : src.New
  arrival : w.arrival? c place = some (.element e)

variable {w : Workspace} {c : Command} {place : Nat × List Node.Step} {src : Source} {e : Element Node}

/-- The place among all that a command admits. -/
def pathOf (place : Nat × List Node.Step) : List Node.Step := .held place.1 :: place.2

theorem exists_made (h : List.Forall₂ w.Makes (w.sources c) (w.admitted c))
    (source : w.source? c place = some src) :
    ∃ n, w.Makes src n ∧
      (n.truth? = none → (Node.sequence (w.admitted c)).reach? (pathOf place) = some n) := by
  obtain ⟨root, given, reached⟩ := Option.bind_eq_some_iff.1 source
  obtain ⟨m, stored, made⟩ := forall₂_getElem? h given
  obtain ⟨n, made, inside⟩ := Source.Makes.reach made reached
  exact ⟨n, made, fun truth => Option.bind_eq_some_iff.2 ⟨m, stored, inside truth⟩⟩

theorem arrival?_eq (w : Workspace) (c : Command) (place : Nat × List Node.Step) : w.arrival? c place =
    ((Node.sequence (w.admitted c)).reach? (pathOf place)).map fun n =>
      (Node.stamp (Node.nextTo w.nextMark (.sequence (w.admitted c)) (pathOf place)) n).1 :=
  Node.reach?_stamp w.nextMark (.sequence (w.admitted c)) (pathOf place)

/-- A new element takes the mark that is free when marking comes to its place. -/
theorem Creates.exists_made (h : w.Creates c place src e) : ∃ f, w.Makes src (.element f) ∧
    f.mark = none ∧ (Node.sequence (w.admitted c)).reach? (pathOf place) = some (.element f) ∧
    e.mark = some (Node.nextTo w.nextMark (.sequence (w.admitted c)) (pathOf place)) ∧
    (Node.element e).unmarked = (Node.element f).unmarked := by
  have arrived := h.arrival
  rw [arrival?_eq] at arrived
  obtain ⟨n, admitted, stamped⟩ := Option.map_eq_some_iff.1 arrived
  rcases makes_of_step w c with made | ⟨nothing, -⟩
  · obtain ⟨m, made, reached⟩ := Workspace.exists_made made h.source
    obtain ⟨f, rfl, unmarked⟩ := made.new h.new
    have here := reached rfl
    cases admitted.symm.trans here
    refine ⟨f, made, unmarked, here, ?_, ?_⟩
    · rw [Node.stamp_element, unmarked] at stamped
      cases stamped
      rfl
    · rw [← stamped, Node.unmarked_stamp]
  · rw [nothing] at admitted
    cases admitted

theorem Creates.le_mark {k : Nat} (h : w.Creates c place src e) (marked : e.mark = some k) :
    w.nextMark ≤ k ∧ k < (w.step c).2.nextMark := by
  obtain ⟨f, -, unmarked, here, mark, -⟩ := h.exists_made
  rw [mark] at marked
  cases marked
  have total : (Node.stamp w.nextMark (.sequence (w.admitted c))).2 = (w.step c).2.nextMark :=
    (effect_step w c).nextMark.symm
  exact ⟨Node.le_nextTo _ _ _, total ▸ Node.nextTo_lt _ here unmarked⟩

theorem creates_of_new (made : List.Forall₂ w.Makes (w.sources c) (w.admitted c))
    (source : w.source? c place = some src) (new : src.New) : ∃ e, w.Creates c place src e := by
  obtain ⟨n, made, reached⟩ := Workspace.exists_made made source
  obtain ⟨f, rfl, -⟩ := made.new new
  have arrived := arrival?_eq w c place
  rw [reached rfl, Option.map_some, Node.stamp_element] at arrived
  exact ⟨_, source, new, arrived⟩

/-- What is copied is marked already, and so arrives as it is. -/
theorem arrival?_of_copied (h : w.Identified) (made : List.Forall₂ w.Makes (w.sources c) (w.admitted c))
    (source : w.source? c place = some src) {n : Node} (copied : src.copied? w.scope = some n)
    (truth : n.truth? = none) : w.arrival? c place = some n := by
  obtain ⟨m, made, reached⟩ := exists_made made source
  cases Source.Makes.copied made copied
  obtain ⟨root, given, below⟩ := Option.bind_eq_some_iff.1 source
  have marked : n.Marked := by
    intro e within
    have held := ((atHand_of_mem (List.mem_of_getElem? given)).reach below).holds copied within
    exact h.marked_of_holds held e ⟨[], rfl⟩
  rw [arrival?_eq, reached truth, Option.map_some, Node.stamp_eq_self _ _ marked]

theorem nextMark_le_of_lt {cs : List Command} {i j : Nat} (found : cs[i]? = some c) (lt : i < j) :
    ((w.after (cs.take i)).step c).2.nextMark ≤ (w.after (cs.take j)).nextMark := by
  have first : (cs.take j).take (i + 1) = cs.take i ++ [c] := by
    rw [List.take_take, Nat.min_eq_left lt, List.take_add_one, found, Option.toList_some]
  rw [← List.take_append_drop (i + 1) (cs.take j), first, after_append, after_concat]
  exact nextMark_after_le _ _

/-- Each element that is spelled out in the course of a session has a mark of its own. -/
theorem eq_of_mark_eq {cs : List Command} {i j : Nat} {d : Command} {p q : Nat × List Node.Step}
    {src' : Source} {f : Element Node} (hc : cs[i]? = some c) (hd : cs[j]? = some d)
    (he : (w.after (cs.take i)).Creates c p src e) (hf : (w.after (cs.take j)).Creates d q src' f)
    (same : e.mark = f.mark) : i = j ∧ p = q := by
  obtain ⟨e', -, hnew, here, hmark, -⟩ := he.exists_made
  obtain ⟨f', -, hnew', here', hmark', -⟩ := hf.exists_made
  obtain ⟨low, high⟩ := he.le_mark hmark
  obtain ⟨low', high'⟩ := hf.le_mark (same ▸ hmark)
  rcases Nat.lt_trichotomy i j with lt | rfl | gt
  · exact absurd (nextMark_le_of_lt (w := w) hc lt) (by omega)
  · cases hc.symm.trans hd
    rw [hmark, hmark'] at same
    have paths := Node.eq_of_nextTo_eq here hnew here' hnew' (Option.some.inj same)
    simp only [pathOf, List.cons.injEq, Node.Step.held.injEq] at paths
    exact ⟨rfl, Prod.ext paths.1 paths.2⟩
  · exact absurd (nextMark_le_of_lt (w := w) hd gt) (by omega)

/-- Only what is kept can evaluate to an element that is marked. -/
theorem eq_kept_of_marked {d : Draft} (h : d.eval w.scope = .ok (.element e)) (marked : e.mark ≠ none) :
    ∃ name index, d = .kept name index ∧ w.scope name index = some (.element e) := by
  cases d with
  | kept name index =>
    rw [Draft.eval] at h
    split at h
    · rename_i found
      cases h
      exact ⟨name, index, rfl, found⟩
    · cases h
  | element f =>
    have made : w.Makes (.draft (.element f)) (.element e) := h
    obtain ⟨f', unmarked, fresh⟩ := made.new ⟨f, rfl⟩
    cases unmarked
    exact absurd fresh marked
  | sequence members =>
    obtain ⟨ns, -, eq⟩ := Form.bind_eq_ok_iff.1 h
    cases eq
  | _ => cases h

theorem sameElement_eq_true_iff {n m : Node} : Node.sameElement n m = .ok true ↔
    ∃ e f, n = .element e ∧ m = .element f ∧ e.mark ≠ none ∧ e.mark = f.mark := by
  constructor
  · intro h
    obtain ⟨e, he, h⟩ := Form.bind_eq_ok_iff.1 h
    obtain ⟨f, hf, h⟩ := Form.bind_eq_ok_iff.1 h
    cases n with
    | element e' =>
      cases m with
      | element f' =>
        cases he
        cases hf
        have both := Form.pure_eq_ok_iff.1 h
        rw [Bool.and_eq_true, beq_iff_eq, Option.isSome_iff_ne_none] at both
        exact ⟨e, f, rfl, rfl, both⟩
      | _ => cases hf
    | _ => cases he
  · intro h
    obtain ⟨e, f, rfl, rfl, marked, same⟩ := h
    have both : (e.mark.isSome && e.mark == f.mark) = true := by
      rw [Bool.and_eq_true, beq_iff_eq, Option.isSome_iff_ne_none]
      exact ⟨marked, same⟩
    exact congrArg Except.ok both

theorem Identified.sameElement_iff (h : w.Identified) (a b : Draft) :
    w.sameElement a b = .ok (.truth true) ↔ ∃ e name index name' index', a = .kept name index ∧
      b = .kept name' index' ∧ w.scope name index = some (.element e) ∧
        w.scope name' index' = some (.element e) := by
  constructor
  · intro told
    obtain ⟨n, hn, told⟩ := Form.bind_eq_ok_iff.1 told
    obtain ⟨m, hm, told⟩ := Form.bind_eq_ok_iff.1 told
    obtain ⟨answer, compared, told⟩ := Form.bind_eq_ok_iff.1 told
    cases told
    obtain ⟨e, f, rfl, rfl, marked, same⟩ := sameElement_eq_true_iff.1 (Form.mapError_eq_ok_iff.1 compared)
    obtain ⟨name, index, rfl, found⟩ := eq_kept_of_marked hn marked
    obtain ⟨name', index', rfl, found'⟩ := eq_kept_of_marked hm (same ▸ marked)
    cases h.unique e f (.of_scope found ⟨[], rfl⟩) (.of_scope found' ⟨[], rfl⟩) same
    exact ⟨e, name, index, name', index', rfl, rfl, found, found'⟩
  · intro kept
    obtain ⟨e, name, index, name', index', rfl, rfl, found, found'⟩ := kept
    obtain ⟨m, -, marked⟩ := h.marked e (.of_scope found ⟨[], rfl⟩)
    have same := sameElement_eq_true_iff.2 ⟨e, e, rfl, rfl, marked ▸ nofun, rfl⟩
    simp only [sameElement, Draft.eval, found, found', bind, Except.bind, pure, Except.pure, same,
      Except.mapError]

end Workspace

open Workspace in
/-- In the course of a session: whatever a command that succeeds is given arrives, new elements where they
are spelled out and copies as they are; all new elements differ in their marks, and that is all they differ
in if they are made alike, as when one tag form is built twice or one unfinished element is finished twice;
and what arrives is what is kept, or added to an unfinished element. So two nodes that are told to be the
same element are equal throughout, and have been kept as one. -/
theorem elements_keep_identity (cs : List Command) :
    let before (i : Nat) := Workspace.after {} (cs.take i)
    let now := Workspace.after {} cs
    (∀ i c, cs[i]? = some c → (∃ r, ((before i).step c).1.result = .ok r) →
      ∀ place src, (before i).source? c place = some src →
        (src.New → ∃ e, (before i).Creates c place src e) ∧
        ∀ n, src.copied? (before i).scope = some n → n.truth? = none →
          (before i).arrival? c place = some n) ∧
    (∀ i j c d p q src src' e f, cs[i]? = some c → cs[j]? = some d →
      (before i).Creates c p src e → (before j).Creates d q src' f →
        e.mark ≠ none ∧ (e.mark = f.mark → i = j ∧ p = q) ∧
        ((∀ n, (before i).Makes src n → (before j).Makes src' n) →
          (Node.element e).unmarked = (Node.element f).unmarked ∧
          (Node.element e).dump = (Node.element f).dump ∧
          ∀ l, render l [.element e] = render l [.element f])) ∧
    (∀ c r, (now.step c).1.result = .ok r →
      (now.step c).2.kept = (target? c).elim now.kept (now.kept.put · (now.arrived c))) ∧
    (∀ c key, (now.step c).2.elements.get? key = now.elementAfter? key c) ∧
    (∀ e, now.Holds e → e.mark ≠ none) ∧
    (∀ e f, now.Holds e → now.Holds f → e.mark = f.mark → e = f) ∧
    ∀ a b, (now.step (.sameElement a b)).1.result = .ok (.truth true) ↔
      ∃ e name index name' index', a = .kept name index ∧ b = .kept name' index' ∧
        now.scope name index = some (.element e) ∧ now.scope name' index' = some (.element e) := by
  intro before now
  have identified (ds : List Command) : (Workspace.after {} ds).Identified :=
    identified_after identified_empty ds
  refine ⟨?_, ?_, fun c => (effect_step now c).kept, fun c => (effect_step now c).elements, ?_,
    (identified cs).unique, (identified cs).sameElement_iff⟩
  · intro i c found succeeds place src source
    have made : List.Forall₂ (before i).Makes ((before i).sources c) ((before i).admitted c) := by
      obtain ⟨r, ok⟩ := succeeds
      refine (makes_of_step (before i) c).resolve_right fun failed => ?_
      obtain ⟨e, error⟩ := failed.2
      rw [ok] at error
      cases error
    refine ⟨creates_of_new made source, fun n copied truth => ?_⟩
    exact arrival?_of_copied (identified (cs.take i)) made source copied truth
  · intro i j c d p q src src' e f hc hd he hf
    obtain ⟨e', made, -, -, marked, shown⟩ := he.exists_made
    obtain ⟨f', made', -, -, -, shown'⟩ := hf.exists_made
    refine ⟨marked ▸ nofun, eq_of_mark_eq hc hd he hf, fun alike => ?_⟩
    have same : (Node.element e).unmarked = (Node.element f).unmarked := by
      rw [shown, shown', Source.Makes.unique (alike _ made) made']
    exact ⟨same, Node.dump_eq_of_unmarked_eq same, Node.render_eq_of_unmarked_eq same⟩
  · intro e held
    obtain ⟨m, -, marked⟩ := (identified cs).marked e held
    exact marked ▸ nofun

end Hypertext
