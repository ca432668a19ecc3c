import Hypertext.Proofs.BareSymbols
import Hypertext.Workspace
import Mathlib.Data.Finset.Dedup
import Mathlib.Data.Finset.Card

/-!
# Sentinels in the course of a run

Whatever a workspace is told to do, its sentinels are those that were added last under each name, names
being the same in any case (`sentinels_last_write_wins`). A build sees the sentinels as they were when
they were chosen for it, and nothing of them but which literal stands under which name.
-/

namespace Hypertext

theorem Table.mem_keys_iff {α : Type} {t : Table α} {key : Bytes} :
    key ∈ t.keys ↔ ∃ value, t.get? key = some value := by
  rw [← Option.ne_none_iff_exists', ne_eq, get?_eq_none_iff, Classical.not_not]

/-- The literal of the last addition under a lower-cased name. -/
def lastLiteral? (added : List (Bytes × Bytes)) (key : Bytes) : Option Bytes :=
  (added.reverse.find? (Bytes.lower ·.1 = key)).map Prod.snd

section LastLiteral

variable {added : List (Bytes × Bytes)} {key : Bytes}

theorem lastLiteral?_append_singleton (added : List (Bytes × Bytes)) (name literal key : Bytes) :
    lastLiteral? (added ++ [(name, literal)]) key =
      if key = Bytes.lower name then some literal else lastLiteral? added key := by
  rw [lastLiteral?, List.reverse_append, List.reverse_singleton, List.singleton_append]
  by_cases same : Bytes.lower name = key
  · rw [List.find?_cons_of_pos (by simpa using same), if_pos same.symm]
    rfl
  · rw [List.find?_cons_of_neg (by simpa using same), if_neg (Ne.symm same)]
    rfl

theorem lastLiteral?_eq_some_iff_exists :
    (∃ literal, lastLiteral? added key = some literal) ↔ ∃ a ∈ added, Bytes.lower a.1 = key := by
  rw [← Option.isSome_iff_exists, lastLiteral?, Option.isSome_map, List.find?_isSome]
  simp only [List.mem_reverse, decide_eq_true_eq]

theorem lastLiteral?_eq_some_iff {literal : Bytes} :
    lastLiteral? added key = some literal ↔ ∃ before given later,
      added = before ++ (given, literal) :: later ∧ Bytes.lower given = key ∧
        ∀ a ∈ later, Bytes.lower a.1 ≠ key := by
  have found (a : Bytes × Bytes) : added.reverse.find? (Bytes.lower ·.1 = key) = some a ↔
      Bytes.lower a.1 = key ∧ ∃ later before, added.reverse = later ++ a :: before ∧
        ∀ b ∈ later, Bytes.lower b.1 ≠ key := by
    rw [List.find?_eq_some_iff_append]
    simp only [decide_eq_true_eq, Bool.not_eq_true', decide_eq_false_iff_not, exists_and_right, ne_eq]
  rw [lastLiteral?, Option.map_eq_some_iff]
  constructor
  · intro h
    obtain ⟨⟨given, _⟩, h, rfl⟩ := h
    obtain ⟨same, later, before, split, last⟩ := (found _).1 h
    refine ⟨before.reverse, given, later.reverse, ?_, same, ?_⟩
    · rw [← List.reverse_reverse added, split]
      simp
    · intro a ha
      exact last a (List.mem_reverse.1 ha)
  · intro h
    obtain ⟨before, given, later, split, same, last⟩ := h
    refine ⟨(given, literal), (found _).2 ⟨same, later.reverse, before.reverse, ?_, ?_⟩, rfl⟩
    · rw [split]
      simp
    · intro a ha
      exact last a (List.mem_reverse.1 ha)

end LastLiteral

namespace Sentinels

/-- The sentinels hold just the last addition under each name. -/
def Holds (s : Sentinels) (added : List (Bytes × Bytes)) : Prop :=
  ∀ key, s.literals.get? key = lastLiteral? added key

variable {s : Sentinels} {added : List (Bytes × Bytes)}

theorem holds_empty : Holds {} [] := fun _ => rfl

theorem Holds.put (h : s.Holds added) (name literal : Bytes) :
    Holds ⟨s.literals.put (Bytes.lower name) literal⟩ (added ++ [(name, literal)]) := by
  intro key
  rw [Table.get?_put, lastLiteral?_append_singleton, h key]

theorem holds_standard : standard.Holds [(doctypeName, doctypeLiteral)] :=
  holds_empty.put doctypeName doctypeLiteral

theorem Holds.mem_keys_iff (h : s.Holds added) {key : Bytes} :
    key ∈ s.literals.keys ↔ ∃ a ∈ added, Bytes.lower a.1 = key := by
  rw [Table.mem_keys_iff, ← lastLiteral?_eq_some_iff_exists, h key]

theorem Holds.size_eq (h : s.Holds added) :
    s.size = (added.map fun a => Bytes.lower a.1).toFinset.card := by
  have same : s.literals.keys.toFinset = (added.map fun a => Bytes.lower a.1).toFinset := by
    ext key
    rw [List.mem_toFinset, List.mem_toFinset, h.mem_keys_iff, List.mem_map]
  have distinct : s.literals.keys.Nodup := s.literals.nodup
  rw [← same, List.toFinset_card_of_nodup distinct, Table.keys, List.length_map]
  rfl

theorem Holds.lookup?_eq (h : s.Holds added) (name : Bytes) : s.lookup? name =
    (lastLiteral? added (Bytes.lower name)).map (.sentinel (Bytes.lower name) ·) := by
  rw [lookup?, entry?, h, Option.map_map]
  rfl

theorem Holds.exists_lookup?_iff (h : s.Holds added) {name : Bytes} :
    (∃ n, s.lookup? name = some n) ↔ ∃ a ∈ added, Bytes.lower a.1 = Bytes.lower name := by
  rw [← lastLiteral?_eq_some_iff_exists, ← Option.isSome_iff_exists, h.lookup?_eq, Option.isSome_map,
    Option.isSome_iff_exists]

theorem Holds.lookup?_eq_some_iff (h : s.Holds added) {name : Bytes} {n : Node} :
    s.lookup? name = some n ↔ ∃ before given literal later,
      added = before ++ (given, literal) :: later ∧ Bytes.lower given = Bytes.lower name ∧
        (∀ a ∈ later, Bytes.lower a.1 ≠ Bytes.lower name) ∧
          n = .sentinel (Bytes.lower name) literal := by
  rw [h.lookup?_eq, Option.map_eq_some_iff]
  simp only [lastLiteral?_eq_some_iff]
  constructor
  · intro found
    obtain ⟨literal, ⟨before, given, later, split, same, last⟩, rfl⟩ := found
    exact ⟨before, given, literal, later, split, same, last, rfl⟩
  · intro found
    obtain ⟨before, given, literal, later, split, same, last, rfl⟩ := found
    exact ⟨literal, ⟨before, given, later, split, same, last⟩, rfl⟩

end Sentinels

namespace Form

section Congruence

variable {s t : Sentinels}

theorem items_congr (same : ∀ name, s.lookup? name = t.lookup? name) (path : List Bytes)
    (fs : List (Form Node)) : items s path fs = items t path fs :=
  (consults_items s t path fs).congr fun name _ => same name

/-- A build asks for nothing but the literals of names. -/
theorem build_congr (same : ∀ name, s.lookup? name = t.lookup? name) (log : Option Log)
    (fs : List (Form Node)) : build s log fs = build t log fs := by
  rw [build, build, items_congr same]

theorem buildItem_congr (same : ∀ name, s.lookup? name = t.lookup? name) (log : Option Log)
    (f : Form Node) : buildItem s log f = buildItem t log f := by
  rw [buildItem, buildItem, (consults_item s t [] f).congr fun name _ => same name]

end Congruence

end Form

namespace Workspace

/-- The workspace that some commands leave behind. -/
def after (w : Workspace) (cs : List Command) : Workspace := cs.foldl (fun w c => (w.step c).2) w

theorem run_cons (w : Workspace) (c : Command) (cs : List Command) :
    w.run (c :: cs) = (w.step c).1 :: (w.step c).2.run cs := rfl

theorem run_append (w : Workspace) (cs ds : List Command) :
    w.run (cs ++ ds) = w.run cs ++ (w.after cs).run ds := by
  induction cs generalizing w with
  | nil => rfl
  | cons c cs ih =>
    rw [List.cons_append, run_cons, ih, run_cons]
    rfl

/-- The workspace once what the observers were shown is forgotten, as each step begins. -/
def forget (w : Workspace) : Workspace := { w with log := { w.log with deliveries := [] } }

theorem step_eq (w : Workspace) (c : Command) : w.step c =
    (⟨(w.forget.perform c).1, (w.forget.perform c).2.log.events.length,
      (w.forget.perform c).2.log.recordedLines, (w.forget.perform c).2.log.consoleText⟩,
      (w.forget.perform c).2) := rfl

theorem run_forget (w : Workspace) (cs : List Command) : w.forget.run cs = w.run cs := by
  cases cs <;> rfl

/-- What has been added once a command is carried out, if `before` had been added before. -/
def added (before : List (Bytes × Bytes)) : Command → List (Bytes × Bytes)
  | .addSentinel name literal => if name = [] then before else before ++ [(name, literal)]
  | .resetSentinels => [(Sentinels.doctypeName, Sentinels.doctypeLiteral)]
  | _ => before

def concernsSentinels : Command → Bool
  | .addSentinel _ _ | .hasSentinel _ | .findSentinel _ | .countSentinels | .resetSentinels => true
  | _ => false

/-- What builds use once a command that chooses nothing is carried out. -/
def builderAfter (builder : Option Sentinels) : Command → Option Sentinels
  | .build _ _ => some (builder.getD .standard)
  | _ => builder

theorem getD_builderAfter (builder : Option Sentinels) (c : Command) :
    (builderAfter builder c).getD .standard = builder.getD .standard := by
  cases c <;> rfl

/-- The workspace with these sentinels, and with these for builds. -/
def withSentinels (w : Workspace) (s : Sentinels) (b : Option Sentinels) : Workspace :=
  { w with sentinels := s, builder := b }

section Frame

variable (w : Workspace) (s t : Sentinels) (b d : Option Sentinels)

@[simp] theorem withSentinels_builder : (w.withSentinels s b).builder = b := rfl

@[simp] theorem withSentinels_log : (w.withSentinels s b).log = w.log := rfl

@[simp] theorem withSentinels_serializer : (w.withSentinels s b).serializer = w.serializer := rfl

@[simp] theorem withSentinels_elements : (w.withSentinels s b).elements = w.elements := rfl

@[simp] theorem withSentinels_kept : (w.withSentinels s b).kept = w.kept := rfl

@[simp] theorem withSentinels_scope : (w.withSentinels s b).scope = w.scope := rfl

variable {w s t b d}

theorem build_withSentinels
    (same : ∀ name, (b.getD .standard).lookup? name = (d.getD .standard).lookup? name)
    (fs : List (Form Draft)) (target : Option Bytes) :
    (w.withSentinels s b).build fs target = ((w.withSentinels t d).build fs target).map id
      (·.withSentinels s (some (b.getD .standard))) := by
  have made := Form.build_congr same (some w.log)
  simp only [build, withSentinels_builder, withSentinels_log, withSentinels_kept, made]
  unfold scope
  cases Form.mapAtomsAll (Draft.eval fun name index => (w.kept.get? name).bind (·[index]?)) fs with
  | error e => rfl
  | ok forms =>
    simp only
    cases (Form.build (d.getD .standard) (some w.log) forms).outcome with
    | error m => rfl
    | ok nodes => cases target <;> rfl

theorem change_withSentinels (key : Bytes) (f : Element Node → Element Node) :
    (w.withSentinels s b).change key f =
      ((w.withSentinels t d).change key f).map id (·.withSentinels s b) := by
  simp only [change, withSentinels_elements]
  cases w.elements.get? key <;> rfl

/-- A command that has nothing to do with sentinels neither sees nor alters them, and of those that
builds use it sees which literal stands under which name. -/
theorem perform_withSentinels
    (same : ∀ name, (b.getD .standard).lookup? name = (d.getD .standard).lookup? name) {c : Command}
    (other : concernsSentinels c = false) (chooses : c ≠ .chooseSentinels) :
    (w.withSentinels s b).perform c =
      ((w.withSentinels t d).perform c).map id (·.withSentinels s (builderAfter b c)) := by
  cases c with
  | addSentinel | hasSentinel | findSentinel | countSentinels | resetSentinels => cases other
  | chooseSentinels => exact absurd rfl chooses
  | build fs target => exact build_withSentinels same fs target
  | keep name draft =>
    simp only [perform, keep, withSentinels_scope]
    cases draft.eval w.scope <;> rfl
  | render layout drafts =>
    simp only [perform, render, withSentinels_scope, withSentinels_log]
    cases Draft.evalAll w.scope drafts with
    | error e => rfl
    | ok nodes =>
      simp only
      cases (Render.toSink layout {} (some w.log) nodes).outcome <;> rfl
  | write drafts =>
    simp only [perform, write, withSentinels_scope, withSentinels_serializer]
    cases Draft.evalAll w.scope drafts <;> cases w.serializer <;> rfl
  | copyElement key target =>
    simp only [perform, copyElement, withSentinels_elements]
    cases w.elements.get? key <;> rfl
  | addAttribute key name value =>
    simp only [perform, addAttribute, withSentinels_scope]
    cases Draft.evalValue w.scope value with
    | error e => rfl
    | ok value =>
      exact change_withSentinels (w := { w with nextMark := (Node.stampValue w.nextMark value).2 }) key _
  | addChildren key drafts =>
    simp only [perform, addChildren, withSentinels_scope]
    cases Draft.evalAll w.scope drafts with
    | error e => rfl
    | ok nodes => exact change_withSentinels (w := (w.adopt nodes).2) key _
  | finishElement key target =>
    simp only [perform, finishElement, withSentinels_elements]
    cases w.elements.get? key with
    | none => rfl
    | some e => cases target <;> rfl
  | sameElement | openSink | beginElement | emit | setMinimum | observe | listEvents | eventsOfSeverity
  | eventsOfSource | clearEvents => rfl

theorem step_withSentinels
    (same : ∀ name, (b.getD .standard).lookup? name = (d.getD .standard).lookup? name) {c : Command}
    (other : concernsSentinels c = false) (chooses : c ≠ .chooseSentinels) :
    (w.withSentinels s b).step c =
      ((w.withSentinels t d).step c).map id (·.withSentinels s (builderAfter b c)) := by
  have performed : (w.withSentinels s b).forget.perform c = _ :=
    perform_withSentinels (w := w.forget) (t := t) same other chooses
  rw [step_eq, performed]
  rfl

theorem builder_step {c : Command} (other : concernsSentinels c = false)
    (chooses : c ≠ .chooseSentinels) : (w.step c).2.builder = builderAfter w.builder c := by
  have framed : w.step c = _ :=
    step_withSentinels (w := w) (t := w.sentinels) (d := w.builder) (fun _ => rfl) other chooses
  rw [framed]
  rfl

theorem step_withSentinels_of_concernsSentinels {c : Command} (h : concernsSentinels c = true) :
    ∃ s', ((w.withSentinels s b).step c).2 = w.forget.withSentinels s' b := by
  cases c with
  | addSentinel name literal =>
    simp only [step, perform, addSentinel]
    split
    · exact ⟨_, rfl⟩
    · exact ⟨_, rfl⟩
  | resetSentinels | hasSentinel | findSentinel | countSentinels => exact ⟨_, rfl⟩
  | _ => cases h

/-- What a run reports of the commands that do not concern the sentinels. -/
def otherReports (w : Workspace) (cs : List Command) : List Report :=
  ((cs.zip (w.run cs)).filter fun p => !concernsSentinels p.1).map Prod.snd

theorem otherReports_withSentinels
    (same : ∀ name, (b.getD .standard).lookup? name = (d.getD .standard).lookup? name)
    {cs : List Command} (chooses : .chooseSentinels ∉ cs) :
    (w.withSentinels s b).otherReports cs =
      (w.withSentinels t d).run (cs.filter (!concernsSentinels ·)) := by
  -- A build may choose for both runs what they did not choose before, but alike: so `b` and `d` vary.
  induction cs generalizing w s t b d with
  | nil => rfl
  | cons c cs ih =>
    obtain ⟨first, rest⟩ := not_or.1 (mt List.mem_cons.2 chooses)
    cases h : concernsSentinels c with
    | true =>
      obtain ⟨s', changed⟩ := step_withSentinels_of_concernsSentinels (w := w) (s := s) (b := b) h
      rw [otherReports, run_cons, List.zip_cons_cons, List.filter_cons_of_neg (by simpa using h),
        changed, List.filter_cons_of_neg (by simpa using h)]
      exact (ih same rest).trans (run_forget (w.withSentinels t d) _)
    | false =>
      rw [otherReports, run_cons, List.zip_cons_cons, List.filter_cons_of_pos (by simpa using h),
        List.map_cons, List.filter_cons_of_pos (by simpa using h), run_cons,
        step_withSentinels (t := t) same h (Ne.symm first)]
      have still (name : Bytes) : ((builderAfter b c).getD .standard).lookup? name =
          (((w.withSentinels t d).step c).2.builder.getD .standard).lookup? name := by
        rw [builder_step h (Ne.symm first), getD_builderAfter, getD_builderAfter]
        exact same name
      exact congrArg _ (ih still rest)

end Frame

section Invariant

variable {w : Workspace} {before : List (Bytes × Bytes)}

theorem sentinels_step {c : Command} (other : concernsSentinels c = false) :
    (w.step c).2.sentinels = w.sentinels := by
  by_cases chooses : c = .chooseSentinels
  · rw [chooses]
    rfl
  · have framed : w.step c = _ := step_withSentinels (w := w) (s := w.sentinels) (t := w.sentinels)
      (b := w.builder) (d := w.builder) (fun _ => rfl) other chooses
    rw [framed]
    rfl

theorem added_of_concernsSentinels_eq_false {c : Command} (other : concernsSentinels c = false) :
    added before c = before := by
  cases c with
  | addSentinel | resetSentinels => cases other
  | _ => rfl

theorem step_addSentinel (w : Workspace) {name : Bytes} (named : name ≠ []) (literal : Bytes) :
    let s : Sentinels := ⟨w.sentinels.literals.put (Bytes.lower name) literal⟩
    (w.step (.addSentinel name literal)).1.result = .ok (.count s.size) ∧
      (w.step (.addSentinel name literal)).2 = { w.forget with sentinels := s } := by
  have accepted (u : Workspace) : u.addSentinel name literal =
      (.ok (.count (Sentinels.size ⟨u.sentinels.literals.put (Bytes.lower name) literal⟩)),
        { u with sentinels := ⟨u.sentinels.literals.put (Bytes.lower name) literal⟩ }) := by
    rw [addSentinel, Sentinels.add, if_neg named]
  rw [step_eq, perform, accepted]
  exact ⟨rfl, rfl⟩

theorem holds_step (h : w.sentinels.Holds before) (c : Command) :
    (w.step c).2.sentinels.Holds (added before c) := by
  cases concerned : concernsSentinels c with
  | false =>
    rw [sentinels_step concerned, added_of_concernsSentinels_eq_false concerned]
    exact h
  | true =>
    cases c with
    | addSentinel name literal =>
      by_cases empty : name = []
      · subst empty
        exact h
      · rw [(step_addSentinel w empty literal).2, added, if_neg empty]
        exact h.put name literal
    | resetSentinels => exact Sentinels.holds_standard
    | hasSentinel | findSentinel | countSentinels => exact h
    | _ => cases concerned

theorem holds_after (h : w.sentinels.Holds before) (cs : List Command) :
    (w.after cs).sentinels.Holds (cs.foldl added before) := by
  induction cs generalizing w before with
  | nil => exact h
  | cons c cs ih => exact ih (holds_step h c)

theorem builder_after {chosen : Sentinels} (h : w.builder = some chosen) {cs : List Command}
    (chooses : .chooseSentinels ∉ cs) : (w.after cs).builder = some chosen := by
  induction cs generalizing w with
  | nil => exact h
  | cons c cs ih =>
    obtain ⟨first, rest⟩ := not_or.1 (mt List.mem_cons.2 chooses)
    refine ih ?_ rest
    cases concerned : concernsSentinels c with
    | false =>
      rw [builder_step concerned (Ne.symm first), h]
      cases c <;> rfl
    | true =>
      obtain ⟨s, changed⟩ := step_withSentinels_of_concernsSentinels (w := w) (s := w.sentinels)
        (b := w.builder) concerned
      have kept : (w.step c).2.builder = (w.forget.withSentinels s w.builder).builder :=
        congrArg Workspace.builder changed
      rw [kept]
      exact h

end Invariant

end Workspace

/-- How many names differ, whatever their case. -/
def distinctNames (added : List (Bytes × Bytes)) : Nat :=
  (added.map fun a => Bytes.lower a.1).toFinset.card

open Workspace in
/-- After any commands the sentinels are those added last under each name, and what is chosen for a build
does not change any more: whoever asks for the same literals gets the same trees and the same failures,
whether or not anything is done to the sentinels in between. -/
theorem sentinels_last_write_wins {start : Workspace} {found : List (Bytes × Bytes)}
    (begins : start.sentinels = {} ∧ found = [] ∨ start.sentinels = .standard ∧
      found = [(Sentinels.doctypeName, Sentinels.doctypeLiteral)])
    (cs : List Command) :
    let now := start.after cs
    let history := cs.foldl added found
    let made := (now.step .chooseSentinels).2
    (∀ ds, start.run (cs ++ ds) = start.run cs ++ now.run ds) ∧
    (∀ name,
      ((∃ n, now.sentinels.lookup? name = some n) ↔
        ∃ a ∈ history, Bytes.lower a.1 = Bytes.lower name) ∧
      (∀ n, now.sentinels.lookup? name = some n ↔ ∃ before given literal later,
        history = before ++ (given, literal) :: later ∧ Bytes.lower given = Bytes.lower name ∧
          (∀ a ∈ later, Bytes.lower a.1 ≠ Bytes.lower name) ∧
            n = .sentinel (Bytes.lower name) literal) ∧
      (∃ entry?, (now.step (.findSentinel name)).1.result = .ok (.entry entry?) ∧
        now.sentinels.lookup? name = entry?.map fun e => .sentinel e.1 e.2) ∧
      (now.step (.hasSentinel name)).1.result =
        .ok (.truth (now.sentinels.lookup? name).isSome)) ∧
    (now.step .countSentinels).1.result = .ok (.count (distinctNames history)) ∧
    (∀ name literal, (now.step (.addSentinel name literal)).1.result =
      if name = [] then .error (.sentinels .emptyName)
      else .ok (.count (distinctNames (history ++ [(name, literal)])))) ∧
    (∀ literal ds, (now.step (.addSentinel [] literal)).2.run ds = now.run ds) ∧
    (∀ ds, .chooseSentinels ∉ ds → (made.after ds).builder = some now.sentinels) ∧
    ∀ chosen : Sentinels, (∀ name, chosen.lookup? name = now.sentinels.lookup? name) →
      (∀ log fs, Form.build now.sentinels log fs = Form.build chosen log fs) ∧
      (∀ log f, Form.buildItem now.sentinels log f = Form.buildItem chosen log f) ∧
      ∀ (later : Workspace) (others : Sentinels) (ds : List Command), .chooseSentinels ∉ ds →
        otherReports { later with builder := some now.sentinels } ds =
          run { later with sentinels := others, builder := some chosen }
            (ds.filter (!concernsSentinels ·)) := by
  intro now history made
  have held : now.sentinels.Holds history := by
    refine holds_after ?_ cs
    rcases begins with ⟨empty, rfl⟩ | ⟨standard, rfl⟩
    · rw [empty]
      exact Sentinels.holds_empty
    · rw [standard]
      exact Sentinels.holds_standard
  refine ⟨run_append start cs, ?_, ?_, ?_, ?_, ?_, ?_⟩
  · intro name
    refine ⟨held.exists_lookup?_iff, fun n => held.lookup?_eq_some_iff, ⟨_, rfl, rfl⟩, ?_⟩
    rw [← Sentinels.contains_eq_isSome_lookup?]
    rfl
  · have counted : (now.step .countSentinels).1.result = .ok (.count now.sentinels.size) := rfl
    rw [counted, held.size_eq]
    rfl
  · intro name literal
    by_cases empty : name = []
    · rw [if_pos empty, empty]
      rfl
    · rw [if_neg empty, (step_addSentinel now empty literal).1, (held.put name literal).size_eq]
      rfl
  · intro literal ds
    exact run_forget now ds
  · intro ds chooses
    exact builder_after rfl chooses
  · intro chosen same
    have alike (name : Bytes) : now.sentinels.lookup? name = chosen.lookup? name := (same name).symm
    refine ⟨Form.build_congr alike, Form.buildItem_congr alike, ?_⟩
    intro later others ds chooses
    exact otherReports_withSentinels (w := later) (s := later.sentinels) (b := some now.sentinels)
      (d := some chosen) alike chooses

/-- One name in two spellings, no name at all, and a name that differs in a byte that has no case. -/
def spellings : List Command :=
  [.addSentinel [65, 196, 0] [49], .addSentinel [] [50], .addSentinel [97, 196, 0] [51],
    .addSentinel [65, 228, 0] [52]]

/-- What `spellings` adds, the other way round. -/
def respelled : Sentinels :=
  ⟨(Sentinels.standard.literals.put [97, 228, 0] [52]).put [97, 196, 0] [51]⟩

/-- Builds while the sentinels change. -/
def meanwhile : List Command :=
  [.addSentinel [65, 196, 0] [53], .build [.symbol [65, 196, 0]] none, .resetSentinels,
    .build [.symbol [97, 228, 0]] none]

theorem lookup?_respelled (name : Bytes) : respelled.lookup? name =
    (Workspace.after { sentinels := .standard } spellings).sentinels.lookup? name := by
  let first := (Sentinels.standard.literals.put [97, 196, 0] [49]).put [97, 196, 0] [51]
  have now : (Workspace.after { sentinels := .standard } spellings).sentinels =
      ⟨first.put [97, 228, 0] [52]⟩ := rfl
  rw [now]
  simp only [Sentinels.lookup?, Sentinels.entry?, respelled, first, Table.get?_put]
  split_ifs with upper lower
  · rw [lower] at upper
    cases upper
  · rfl
  · rfl
  · rfl

theorem sentinels_last_write_wins_spellings :
    let now := Workspace.after { sentinels := .standard } spellings
    let made := (now.step .chooseSentinels).2
    now.sentinels.lookup? [65, 196, 0] = some (.sentinel [97, 196, 0] [51]) ∧
      (now.step .countSentinels).1.result = .ok (.count 3) ∧
      (now.step (.addSentinel [] [54])).1.result = .error (.sentinels .emptyName) ∧
      (now.step (.addSentinel [] [54])).2.run meanwhile = now.run meanwhile ∧
      .chooseSentinels ∉ meanwhile ∧
      (∀ name, respelled.lookup? name = now.sentinels.lookup? name) ∧
      (made.after meanwhile).builder = some now.sentinels ∧
      Form.build now.sentinels none [.symbol [65, 196, 0]] =
        ⟨.ok [.sentinel [97, 196, 0] [51]], none⟩ ∧
      made.otherReports meanwhile = Workspace.run { made with sentinels := {}, builder := some respelled }
        [.build [.symbol [65, 196, 0]] none, .build [.symbol [97, 228, 0]] none] := by
  intro now made
  have chooses : .chooseSentinels ∉ meanwhile := by simp [meanwhile]
  have history : spellings.foldl Workspace.added [(Sentinels.doctypeName, Sentinels.doctypeLiteral)] =
      [(Sentinels.doctypeName, Sentinels.doctypeLiteral), ([65, 196, 0], [49]), ([97, 196, 0], [51]),
        ([65, 228, 0], [52])] := rfl
  have distinct : distinctNames [(Sentinels.doctypeName, Sentinels.doctypeLiteral),
      ([65, 196, 0], [49]), ([97, 196, 0], [51]), ([65, 228, 0], [52])] = 3 := by decide +kernel
  obtain ⟨-, answers, counted, refused, unmoved, stays, alike⟩ :=
    @sentinels_last_write_wins { sentinels := .standard } _ (.inr ⟨rfl, rfl⟩) spellings
  rw [history] at answers counted
  rw [distinct] at counted
  obtain ⟨built, -, reported⟩ := alike respelled lookup?_respelled
  refine ⟨?_, counted, refused [] [54], unmoved [54] meanwhile, chooses, lookup?_respelled,
    stays meanwhile chooses, built none _, reported made {} meanwhile chooses⟩
  exact ((answers [65, 196, 0]).2.1 _).2 ⟨[(Sentinels.doctypeName, Sentinels.doctypeLiteral),
    ([65, 196, 0], [49])], [97, 196, 0], [51], [([65, 228, 0], [52])], rfl, rfl, by decide, rfl⟩

end Hypertext
