import Hypertext.Proofs.Marks
import Hypertext.Proofs.Origins

/-!
# What a workspace holds

All elements that a workspace holds are marked, at whatever depth they stand, and two of the same mark are
equal in all that they hold (`Workspace.Identified`). It is so at the start and after any commands, those
that fail included (`Workspace.identified_after`).
-/

namespace Hypertext

namespace Workspace

/-- An element stands in a node that is kept, or inside an element that is unfinished. -/
inductive Holds (w : Workspace) (e : Element Node) : Prop
  | kept {name : Bytes} {ns : List Node} {n : Node} (stored : w.kept.get? name = some ns) (member : n ∈ ns)
      (within : Node.Within e n)
  | unfinished {key : Bytes} {u : Element Node} {step : Node.Step} {n : Node}
      (stored : w.elements.get? key = some u) (below : (Node.element u).below? step = some n)
      (within : Node.Within e n)

structure Identified (w : Workspace) : Prop where
  marked : ∀ e, w.Holds e → ∃ m < w.nextMark, e.mark = some m
  unique : ∀ e f, w.Holds e → w.Holds f → e.mark = f.mark → e = f

section

variable {w : Workspace} {e : Element Node}

theorem Holds.trans {f : Element Node} (h : Node.Within e (.element f)) (hf : w.Holds f) : w.Holds e := by
  cases hf with
  | kept stored member within => exact .kept stored member (h.trans within)
  | unfinished stored below within => exact .unfinished stored below (h.trans within)

theorem Holds.of_scope {name : Bytes} {index : Nat} {n : Node} (found : w.scope name index = some n)
    (h : Node.Within e n) : w.Holds e := by
  obtain ⟨ns, stored, member⟩ := Option.bind_eq_some_iff.1 found
  exact .kept stored (List.mem_of_getElem? member) h

theorem below?_addTo {u : Element Node} {a : Addition} {step : Node.Step} {n : Node}
    (h : (Node.element (Addition.addTo u a)).below? step = some n) :
    (Node.element u).below? step = some n ∨ a.node? = some n := by
  cases a with
  | child m =>
    cases step with
    | value i => exact .inl h
    | held i =>
      have found : (u.children ++ [m])[i]? = some n := h
      rw [List.getElem?_append] at found
      split at found
      · exact .inl found
      · rw [List.mem_singleton.1 (List.mem_of_getElem? found)]
        exact .inr rfl
  | assign given =>
    cases step with
    | held i => exact .inl h
    | value i =>
      have found : (u.attributes ++ [⟨given.name, given.value.settled⟩])[i]?.bind (·.value.content?) =
        some n := h
      rw [List.getElem?_append] at found
      split at found
      · exact .inl found
      · obtain ⟨a, stored, content⟩ := Option.bind_eq_some_iff.1 found
        cases List.mem_singleton.1 (List.mem_of_getElem? stored)
        exact .inr (AttributeValue.content?_of_settled content)

theorem below?_addAll {additions : List Addition} {u : Element Node} {step : Node.Step} {n : Node}
    (h : (Node.element (Addition.addAll additions u)).below? step = some n) :
    (Node.element u).below? step = some n ∨ ∃ a ∈ additions, a.node? = some n := by
  induction additions generalizing u with
  | nil => exact .inl h
  | cons a additions ih =>
    rcases ih h with before | ⟨b, member, added⟩
    · rcases below?_addTo before with before | added
      · exact .inl before
      · exact .inr ⟨a, List.mem_cons_self, added⟩
    · exact .inr ⟨b, List.mem_cons_of_mem _ member, added⟩

/-- A command adds nothing to what is held but what has arrived. -/
theorem Holds.of_step {c : Command} (h : (w.step c).2.Holds e) :
    w.Holds e ∨ Node.Within e (.sequence (w.arrived c)) := by
  have come {n : Node} (member : n ∈ w.arrived c) (within : Node.Within e n) :
      Node.Within e (.sequence (w.arrived c)) := by
    obtain ⟨i, stored⟩ := List.mem_iff_getElem?.1 member
    have below : (Node.sequence (w.arrived c)).below? (.held i) = some n := stored
    exact within.of_below below
  cases h with
  | kept stored member within =>
    rcases kept_step_cases stored with before | rfl
    · exact .inl (.kept before member within)
    · exact .inr (come member within)
  | @unfinished key u step n stored below within =>
    rcases elements_step_cases stored with ⟨name, rfl⟩ | ⟨k, v, additions, before, rfl, new⟩
    · cases step <;> cases below
    · rcases below?_addAll below with below | ⟨a, member, added⟩
      · exact .inl (.unfinished before below within)
      · exact .inr (come (new a member n added) within)

/-- The elements of a node that are marked are at hand. -/
def Known (w : Workspace) (n : Node) : Prop := ∀ e, Node.Within e n → e.mark ≠ none → w.Holds e

theorem inherited_known (w : Workspace) : Node.Inherited w.Known where
  leaf n plain flat e h _ := by
    rcases Node.within_iff.1 h with rfl | ⟨step, m, below, -⟩
    · exact absurd rfl plain
    · cases n with
      | element f => exact absurd rfl plain
      | sequence members => exact absurd rfl flat
      | _ => cases step <;> cases below
  sequence members held e h marked := by
    rcases Node.within_iff.1 h with same | ⟨step, m, below, within⟩
    · cases same
    · cases step with
      | held i => exact held m (List.mem_of_getElem? below) e within marked
      | value i => cases below
  element name attributes children contents held e h marked := by
    rcases Node.within_iff.1 h with same | ⟨step, m, below, within⟩
    · cases same
      exact absurd rfl marked
    · cases step with
      | held i => exact held m (List.mem_of_getElem? below) e within marked
      | value i =>
        obtain ⟨⟨_, value⟩, stored, content⟩ := Option.bind_eq_some_iff.1 below
        have known := contents _ (List.mem_of_getElem? stored)
        cases value with
        | flag on => cases content
        | content n =>
          cases content
          exact known.2 e within marked

variable {c : Command} {src : Source}

/-- Whatever a source holds that is not spelled out is held by the workspace. -/
def AtHand (w : Workspace) : Source → Prop
  | .unfinished u => ∃ key, w.elements.get? key = some u
  | .placed n => ∀ e, Node.Within e n → w.Holds e
  | .draft _ | .item _ | .data _ => True

theorem atHand_of_mem (h : src ∈ w.sources c) : w.AtHand src := by
  obtain ⟨unplaced, stored⟩ := mem_sources h
  cases src with
  | unfinished u => exact stored u rfl
  | placed n => exact absurd rfl (unplaced n)
  | draft | item | data => exact trivial

theorem AtHand.below {src' : Source} {step : Node.Step} (h : w.AtHand src)
    (below : src.below? step = some src') : w.AtHand src' := by
  have data {f : Form Draft} (below : Source.belowData? f step = some src') : w.AtHand src' := by
    cases f with
    | atom d =>
      obtain ⟨_, -, rfl⟩ := Option.map_eq_some_iff.1 below
      exact trivial
    | list fs =>
      cases step with
      | held i =>
        obtain ⟨_, -, rfl⟩ := Option.map_eq_some_iff.1 below
        exact trivial
      | value i => cases below
    | symbol | flag => cases below
  cases src with
  | draft d =>
    obtain ⟨_, -, rfl⟩ := Option.map_eq_some_iff.1 below
    exact trivial
  | data f => exact data below
  | item f =>
    rw [Source.below?] at below
    split at below
    · cases step with
      | held i | value i =>
        obtain ⟨_, -, rfl⟩ := Option.map_eq_some_iff.1 below
        exact trivial
    · exact data below
  | unfinished u =>
    obtain ⟨n, inside, rfl⟩ := Option.map_eq_some_iff.1 below
    obtain ⟨key, stored⟩ := h
    exact fun e within => .unfinished stored inside within
  | placed n => cases below

theorem AtHand.reach {src' : Source} {path : List Node.Step} (h : w.AtHand src)
    (reached : src.reach? path = some src') : w.AtHand src' := by
  induction path generalizing src with
  | nil =>
    cases reached
    exact h
  | cons step path ih =>
    obtain ⟨next, below, reached⟩ := Option.bind_eq_some_iff.1 reached
    exact ih (h.below below) reached

theorem AtHand.holds {n : Node} (h : w.AtHand src) (copied : src.copied? w.scope = some n)
    (within : Node.Within e n) : w.Holds e := by
  rw [Source.copied?.eq_def] at copied
  split at copied
  · cases copied
    exact h e within
  · split at copied
    · exact .of_scope copied within
    · cases copied

/-- Of what is admitted, what is marked is at hand. -/
theorem known_admitted (w : Workspace) (c : Command) : ∀ n ∈ w.admitted c, w.Known n := by
  refine inherits_admitted (inherited_known w) ?_ ?_ c
  · exact fun name index n found e within _ => .of_scope found within
  · intro key u stored e within marked
    rcases Node.within_iff.1 within with same | ⟨step, m, below, within⟩
    · cases same
      exact absurd rfl marked
    · have inside : (Node.element u).below? step = some m := by cases step <;> exact below
      exact .unfinished stored inside within

theorem Identified.marked_of_holds (h : w.Identified) {f : Element Node} (held : w.Holds f) :
    (Node.element f).Marked := by
  intro e within
  obtain ⟨m, -, marked⟩ := h.marked e (held.trans within)
  exact marked ▸ nofun

/-- An element that has arrived was held before, or it has taken a new mark at its place. -/
theorem Identified.of_arrived (h : w.Identified) {path : List Node.Step}
    (found : (Node.sequence (w.arrived c)).reach? path = some (.element e)) :
    w.Holds e ∨ e.mark = some (Node.nextTo w.nextMark (.sequence (w.admitted c)) path) ∧
      ∃ f, (Node.sequence (w.admitted c)).reach? path = some (.element f) ∧ f.mark = none := by
  have known := (inherited_known w).sequence _ (known_admitted w c)
  have stamped : Node.sequence (w.arrived c) = (Node.stamp w.nextMark (.sequence (w.admitted c))).1 := rfl
  rw [stamped, Node.reach?_stamp] at found
  obtain ⟨m, place, stamped⟩ := Option.map_eq_some_iff.1 found
  cases m with
  | element f =>
    cases mark : f.mark with
    | none =>
      refine .inr ⟨?_, f, place, mark⟩
      rw [Node.stamp_element, mark] at stamped
      cases stamped
      rfl
    | some m =>
      have held : w.Holds f := known f ⟨path, place⟩ (mark ▸ nofun)
      rw [Node.stamp_eq_self _ _ (h.marked_of_holds held)] at stamped
      cases stamped
      exact .inl held
  | _ => cases stamped

theorem Identified.step (h : w.Identified) (c : Command) : (w.step c).2.Identified := by
  have total : (Node.stamp w.nextMark (.sequence (w.admitted c))).2 = (w.step c).2.nextMark :=
    (effect_step w c).nextMark.symm
  have origin (e : Element Node) (held : (w.step c).2.Holds e) : w.Holds e ∨ ∃ path,
      (Node.sequence (w.arrived c)).reach? path = some (.element e) ∧
      e.mark = some (Node.nextTo w.nextMark (.sequence (w.admitted c)) path) ∧
        ∃ f, (Node.sequence (w.admitted c)).reach? path = some (.element f) ∧ f.mark = none := by
    rcases held.of_step with old | ⟨path, found⟩
    · exact .inl old
    · exact (h.of_arrived found).imp_right fun new => ⟨path, found, new⟩
  -- What was held has a mark below those that are taken now.
  have apart {e f : Element Node} {path : List Node.Step} (old : w.Holds e)
      (new : f.mark = some (Node.nextTo w.nextMark (.sequence (w.admitted c)) path)) : e.mark ≠ f.mark := by
    obtain ⟨m, lt, marked⟩ := h.marked e old
    intro same
    rw [marked, new] at same
    exact absurd (Option.some.inj same) (lt.trans_le (Node.le_nextTo _ _ path)).ne
  constructor
  · intro e held
    rcases origin e held with old | ⟨path, -, marked, f, place, new⟩
    · obtain ⟨m, lt, marked⟩ := h.marked e old
      exact ⟨m, lt.trans_le (total ▸ Node.le_stamp _ _), marked⟩
    · exact ⟨_, total ▸ Node.nextTo_lt _ place new, marked⟩
  · intro e f he hf same
    rcases origin e he with old | ⟨p, found, marked, e', place, new⟩
    · rcases origin f hf with old' | ⟨q, -, marked, -⟩
      · exact h.unique e f old old' same
      · exact absurd same (apart old marked)
    · rcases origin f hf with old' | ⟨q, found', marked', f', place', new'⟩
      · exact absurd same.symm (apart old' marked)
      · rw [marked, marked'] at same
        cases Node.eq_of_nextTo_eq place new place' new' (Option.some.inj same)
        cases found.symm.trans found'
        rfl

theorem identified_empty : Identified {} where
  marked e h := by
    cases h with
    | kept stored => cases stored
    | unfinished stored => cases stored
  unique e f h := by
    cases h with
    | kept stored => cases stored
    | unfinished stored => cases stored

end

variable {w : Workspace}

theorem identified_after (h : w.Identified) (cs : List Command) : (w.after cs).Identified := by
  induction cs generalizing w with
  | nil => exact h
  | cons c cs ih => exact ih (h.step c)

theorem after_append (w : Workspace) (cs ds : List Command) : w.after (cs ++ ds) = (w.after cs).after ds :=
  List.foldl_append

theorem after_concat (w : Workspace) (cs : List Command) (c : Command) :
    w.after (cs ++ [c]) = ((w.after cs).step c).2 := after_append w cs [c]

theorem nextMark_step_le (w : Workspace) (c : Command) : w.nextMark ≤ (w.step c).2.nextMark := by
  rw [(effect_step w c).nextMark]
  exact Node.le_stampAll _ _

theorem nextMark_after_le (w : Workspace) (cs : List Command) : w.nextMark ≤ (w.after cs).nextMark := by
  induction cs generalizing w with
  | nil => exact le_rfl
  | cons c cs ih => exact (nextMark_step_le w c).trans (ih _)

end Workspace

end Hypertext
