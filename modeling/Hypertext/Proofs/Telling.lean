import Hypertext.Proofs.Counting
import Hypertext.Proofs.Faults

/-!
# Builds that tell as they go

A build as a program that tells a listener of a fault where it meets it, before anything is given up,
and of its success when everything is built. Nothing depends on who listens, and one event is told
(`build_tells_once`), which is what the log of `Form.build` is given. So a log can be shared by any
number of builds, and an item that is built alone is only told of if it fails.
-/

namespace Hypertext.Form

/-- Making something while a listener is told of events. What it has heard is not taken back when the
making fails. -/
abbrev Telling (σ α : Type) : Type := ExceptT Malformed (StateM σ) α

namespace Telling

variable {σ α β : Type}

def runFrom (t : Telling σ α) (st : σ) : Except Malformed α × σ := (StateT.run (ExceptT.run t) st).run

section Making

variable (tell : Event → σ → σ) (s : Sentinels) (path : List Bytes)

def raise (fault : Fault) : Telling σ α := do
  modify (tell (Malformed.report ⟨fault, path⟩))
  throw ⟨fault, path⟩

mutual

def data : Form Node → Telling σ Node
  | .atom n => return n
  | .flag on => return .ofTruth on
  | .symbol name => match s.lookup? name with
    | some n => return n
    | none => raise tell path (.bareSymbol name)
  | .list fs => do return .sequence (← dataAll fs)

def dataAll : List (Form Node) → Telling σ (List Node)
  | [] => return []
  | f :: fs => do
    let n ← data f
    let ns ← dataAll fs
    return n :: ns

end

def attributeName : Form Node → Telling σ Bytes
  | .symbol name | .atom (.text name) =>
    if name = [] then raise tell path .emptyAttributeName else return name
  | f => raise tell path (.attributeNameKind f.kind)

def attributeValue (name : Bytes) : Form Node → Telling σ (AttributeValue Node)
  | .flag on => return .flag on
  | .atom n => return .ofNode n
  | .list fs => do return .ofNode (← data tell s path (.list fs))
  | .symbol value => raise tell path (.symbolValue name value)

def attributesOfEntries : List (Form Node) → Telling σ (List (Attribute Node))
  | key :: value :: rest => do
    let name ← attributeName tell path key
    let value ← attributeValue tell s path name value
    let rest ← attributesOfEntries rest
    return ⟨name, value⟩ :: rest
  | _ => return []

def attributes (entries : List (Form Node)) : Telling σ (List (Attribute Node)) :=
  if entries.length % 2 = 0 then attributesOfEntries tell s path entries
  else raise tell path (.oddAttributes entries.length)

mutual

def item (path : List Bytes) : Form Node → Telling σ Node
  | .list (.symbol name :: rest) =>
    if name = [] then raise tell path .emptyTagName else do
      let children ← items (path ++ [name]) rest
      return .element ⟨name, [], children, none⟩
  | .list (.list (.symbol name :: entries) :: rest) =>
    if name = [] then raise tell path .emptyTagName else do
      let attributes ← attributes tell s (path ++ [name]) entries
      let children ← items (path ++ [name]) rest
      return .element ⟨name, attributes, children, none⟩
  | other => data tell s path other

def items (path : List Bytes) : List (Form Node) → Telling σ (List Node)
  | [] => return []
  | f :: fs => do
    let n ← item path f
    let ns ← items path fs
    return n :: ns

end

def build (fs : List (Form Node)) : Telling σ (List Node) := do
  let ns ← items tell s [] fs
  modify (tell (summary fs.length ns))
  return ns

end Making

/-- Makes what is said and tells of its failure, and of nothing else. -/
def Makes (tell : Event → σ → σ) (t : Telling σ α) (x : Except Malformed α) : Prop :=
  ∀ st, t.runFrom st = (x, (failure? x).elim st fun m => tell m.report st)

section

variable {tell : Event → σ → σ} {s : Sentinels} {path : List Bytes}

theorem makes_pure (a : α) : Makes tell (pure a) (.ok a) := fun _ => rfl

theorem makes_raise (fault : Fault) :
    Makes tell (raise tell path fault : Telling σ α) (.error ⟨fault, path⟩) := fun _ => rfl

theorem runFrom_bind (t : Telling σ α) (f : α → Telling σ β) (st : σ) :
    (t >>= f).runFrom st = match t.runFrom st with
      | (.ok a, st') => (f a).runFrom st'
      | (.error m, st') => (.error m, st') := by
  unfold runFrom ExceptT.run StateT.run Id.run
  simp only [bind, ExceptT.bind, ExceptT.mk, StateT.bind, ExceptT.bindCont]
  obtain ⟨x, st'⟩ := t st
  cases x with
  | error m => rfl
  | ok a => rfl

/-- What comes first is told first, and the rest is told of only if that succeeds. -/
theorem Makes.bind {t : Telling σ α} {x : Except Malformed α} (h : Makes tell t x)
    {f : α → Telling σ β} {g : α → Except Malformed β} (next : ∀ a, Makes tell (f a) (g a)) :
    Makes tell (t >>= f) (x >>= g) := by
  intro st
  rw [runFrom_bind, h st]
  cases x with
  | error m => rfl
  | ok a => exact next a st

theorem makes_bind_pure {t : Telling σ α} {x : Except Malformed α} (h : Makes tell t x) (f : α → β) :
    Makes tell (do return f (← t)) (do return f (← x)) :=
  h.bind fun a => makes_pure (f a)

end

section

variable (tell : Event → σ → σ) (s : Sentinels) (path : List Bytes)

theorem mapError_bind {ε ε' : Type} (x : Except ε α) (g : α → Except ε β) (f : ε → ε') :
    (x >>= g).mapError f = x.mapError f >>= fun a => (g a).mapError f := by
  cases x <;> rfl

mutual

theorem makes_data : (f : Form Node) →
    Makes tell (data tell s path f) ((Form.data s f).mapError (⟨·, path⟩))
  | .atom n => makes_pure n
  | .flag on => makes_pure (Node.ofTruth on)
  | .symbol name => by
    rw [data, Form.data]
    cases s.lookup? name with
    | some n => exact makes_pure n
    | none => exact makes_raise (.bareSymbol name)
  | .list fs => by
    rw [data, Form.data, mapError_bind]
    exact makes_bind_pure (makes_dataAll fs) Node.sequence

theorem makes_dataAll : (fs : List (Form Node)) →
    Makes tell (dataAll tell s path fs) ((Form.dataAll s fs).mapError (⟨·, path⟩))
  | [] => makes_pure []
  | f :: fs => by
    simp only [dataAll, Form.dataAll, mapError_bind]
    apply (makes_data f).bind
    intro n
    exact makes_bind_pure (makes_dataAll fs) (n :: ·)

end

theorem makes_attributeName (f : Form Node) :
    Makes tell (attributeName tell path f) ((Form.attributeName f).mapError (⟨·, path⟩)) := by
  have named (name : Bytes) : Makes tell
      (if name = [] then raise tell path .emptyAttributeName else return name)
      ((if name = [] then .error .emptyAttributeName else .ok name : Except Fault Bytes).mapError
        (⟨·, path⟩)) := by
    by_cases empty : name = []
    · rw [if_pos empty, if_pos empty]
      exact makes_raise .emptyAttributeName
    · rw [if_neg empty, if_neg empty]
      exact makes_pure name
  cases f with
  | symbol name => exact named name
  | flag on => exact makes_raise (.attributeNameKind .flag)
  | list fs => exact makes_raise (.attributeNameKind .list)
  | atom n => cases n with
    | text name => exact named name
    | _ => exact makes_raise (.attributeNameKind .atom)

theorem makes_attributeValue (name : Bytes) (f : Form Node) :
    Makes tell (attributeValue tell s path name f)
      ((Form.attributeValue s name f).mapError (⟨·, path⟩)) := by
  cases f with
  | flag on => exact makes_pure (AttributeValue.flag on)
  | atom n => exact makes_pure (AttributeValue.ofNode n)
  | symbol value => exact makes_raise (.symbolValue name value)
  | list fs =>
    rw [attributeValue, Form.attributeValue, mapError_bind]
    exact makes_bind_pure (makes_data tell s path (.list fs)) AttributeValue.ofNode

theorem makes_attributesOfEntries {entries : List (Form Node)} {pairs : List (Form Node × Form Node)}
    (even : pairs? entries = some pairs) :
    Makes tell (attributesOfEntries tell s path entries)
      ((attributesOfPairs s pairs).mapError (⟨·, path⟩)) := by
  induction entries using pairs?.induct generalizing pairs with
  | case1 =>
    cases even
    exact makes_pure []
  | case2 entry => cases even
  | case3 key value rest ih =>
    obtain ⟨others, hothers, rfl⟩ := Option.map_eq_some_iff.1 even
    simp only [attributesOfEntries, attributesOfPairs, mapError_bind]
    apply (makes_attributeName tell path key).bind
    intro name
    apply (makes_attributeValue tell s path name value).bind
    intro v
    exact makes_bind_pure (ih hothers) (⟨name, v⟩ :: ·)

theorem makes_attributes (entries : List (Form Node)) :
    Makes tell (attributes tell s path entries) ((Form.attributes s entries).mapError (⟨·, path⟩)) := by
  rw [attributes, Form.attributes]
  cases paired : pairs? entries with
  | none =>
    rw [if_neg ((pairs?_eq_none_iff entries).1 paired)]
    exact makes_raise (.oddAttributes entries.length)
  | some pairs =>
    have even : entries.length % 2 = 0 := by
      by_contra odd
      rw [(pairs?_eq_none_iff entries).2 odd] at paired
      cases paired
    rw [if_pos even]
    exact makes_attributesOfEntries tell s path paired

theorem makes_item_of_plain {f : Form Node} (plain : f.isTagForm = false) :
    Makes tell (item tell s path f) (Form.item s path f) := by
  have told : item tell s path f = data tell s path f := by
    rw [item.eq_def]
    split
    · cases plain
    · cases plain
    · rfl
  rw [told, item_of_isTagForm_eq_false plain]
  exact makes_data tell s path f

mutual

theorem makes_item (path : List Bytes) :
    (f : Form Node) → Makes tell (item tell s path f) (Form.item s path f)
  | .list (.symbol name :: rest) => by
    rw [item, Form.item]
    by_cases empty : name = []
    · rw [if_pos empty, if_pos empty]
      exact makes_raise .emptyTagName
    · rw [if_neg empty, if_neg empty]
      exact makes_bind_pure (makes_items _ rest) fun children => Node.element ⟨name, [], children, none⟩
  | .list (.list (.symbol name :: entries) :: rest) => by
    rw [item, Form.item]
    by_cases empty : name = []
    · rw [if_pos empty, if_pos empty]
      exact makes_raise .emptyTagName
    · rw [if_neg empty, if_neg empty]
      apply (makes_attributes tell s _ entries).bind
      intro attributes
      exact makes_bind_pure (makes_items _ rest)
        fun children => Node.element ⟨name, attributes, children, none⟩
  | .symbol _ | .flag _ | .atom _ | .list [] | .list (.flag _ :: _) | .list (.atom _ :: _)
  | .list (.list [] :: _) | .list (.list (.flag _ :: _) :: _) | .list (.list (.atom _ :: _) :: _)
  | .list (.list (.list _ :: _) :: _) => makes_item_of_plain tell s path rfl

theorem makes_items (path : List Bytes) :
    (fs : List (Form Node)) → Makes tell (items tell s path fs) (Form.items s path fs)
  | [] => makes_pure []
  | f :: fs => by
    rw [items, Form.items]
    apply (makes_item path f).bind
    intro n
    exact makes_bind_pure (makes_items path fs) (n :: ·)

end

theorem runFrom_item (f : Form Node) (st : σ) : (item tell s path f).runFrom st =
    (Form.item s path f, (failure? (Form.item s path f)).elim st fun m => tell m.report st) :=
  makes_item tell s path f st

/-- The one event of a build. -/
def verdict (count : Nat) : Except Malformed (List Node) → Event
  | .ok ns => summary count ns
  | .error m => m.report

theorem runFrom_build (fs : List (Form Node)) (st : σ) : (build tell s fs).runFrom st =
    (Form.items s [] fs, tell (verdict fs.length (Form.items s [] fs)) st) := by
  rw [build, runFrom_bind, makes_items tell s [] fs st]
  cases Form.items s [] fs with
  | error m => rfl
  | ok ns => rfl

end

end Telling

variable (s : Sentinels) (log : Option Log)

theorem log_build (fs : List (Form Node)) : (build s log fs).log =
    log.map (·.emit (Telling.verdict fs.length (items s [] fs))) := by
  rw [build]
  cases items s [] fs with
  | error m => rfl
  | ok ns => rfl

theorem outcome_buildItem (f : Form Node) : (buildItem s log f).outcome = item s [] f := by
  rw [buildItem]
  cases item s [] f with
  | error m => rfl
  | ok n => rfl

theorem log_buildItem (f : Form Node) : (buildItem s log f).log =
    (failure? (item s [] f)).elim log fun m => log.map (·.emit m.report) := by
  rw [buildItem]
  cases item s [] f with
  | error m => rfl
  | ok n => rfl

theorem stage_mem (fault : Fault) : fault.stage ∈
    [Bytes.ascii "tag", Bytes.ascii "attributes", Bytes.ascii "symbol"] := by
  cases fault <;> simp [Fault.stage]

/-- To build a list of items, or one item alone. -/
inductive Request
  | build (s : Sentinels) (fs : List (Form Node))
  | item (s : Sentinels) (f : Form Node)

namespace Request

/-- What a listener that keeps all is told. -/
def calls : Request → List Event
  | .build s fs => ((Telling.build (fun e es => es ++ [e]) s fs).runFrom []).2
  | .item s f => ((Telling.item (fun e es => es ++ [e]) s [] f).runFrom []).2

def serve (log : Option Log) : Request → Option Log
  | .build s fs => (Form.build s log fs).log
  | .item s f => (buildItem s log f).log

theorem serve_eq (r : Request) : r.serve log = log.map (r.calls.foldl Log.emit) := by
  cases r with
  | build s fs =>
    rw [serve, calls, Telling.runFrom_build, log_build]
    rfl
  | item s f =>
    rw [serve, calls, Telling.runFrom_item, log_buildItem]
    cases Form.item s [] f with
    | error m => rfl
    | ok n => exact Option.map_id'.symm

theorem foldl_serve (rs : List Request) :
    rs.foldl serve log = log.map ((rs.flatMap calls).foldl Log.emit) := by
  induction rs generalizing log with
  | nil => exact Option.map_id'.symm
  | cons r rs ih =>
    rw [List.foldl_cons, ih, serve_eq, Option.map_map, List.flatMap_cons]
    congr 1
    funext given
    exact List.foldl_append.symm

end Request

end Hypertext.Form

namespace Hypertext

/-- The events that the log does not drop. -/
def Log.reaching (log : Log) (es : List Event) : List Event :=
  es.filter fun e => ¬e.severity < log.minimum

theorem Log.foldl_emit_of_plain (es : List Event) (log : Log) (noEcho : .echo ∉ log.observers)
    (noEraser : .eraser ∉ log.observers) :
    es.foldl emit log = { log with
      events := log.events ++ log.reaching es
      deliveries := log.deliveries ++
        (log.reaching es).flatMap fun e => log.observers.flatMap (·.deliveries e) } := by
  induction es generalizing log with
  | nil => simp [reaching]
  | cons e es ih =>
    rw [List.foldl_cons, emit_of_plain noEcho noEraser]
    by_cases low : e.severity < log.minimum
    · rw [if_pos low, ih log noEcho noEraser]
      simp [reaching, low]
    · have rest := ih { log with
        events := log.events ++ [e]
        deliveries := log.deliveries ++ log.observers.flatMap (·.deliveries e) } noEcho noEraser
      rw [if_neg low, rest]
      simp [reaching, low]

namespace Form

/-- Told of a build that failed, with the message that the failure itself has. -/
def failureEvent (m : Malformed) : Event :=
  ⟨.error, Bytes.ascii "builder", m.fault.stage, (Failure.malformed m).message⟩

/-- What is built, or the failure, is the same whoever is told of it. A build tells one event, of its
success or of its failure, and an item built alone tells of its failure alone. So a log that neither echoes
nor clears keeps just these events, as far as they reach its minimum, of all that is built with it. -/
theorem build_tells_once (s : Sentinels) (fs : List (Form Node)) (f : Form Node) :
    (∀ log, (build s log fs).outcome = (build s none fs).outcome ∧
      (buildItem s log f).outcome = (buildItem s none f).outcome) ∧
    (∃ e, (∀ ns, (build s none fs).outcome = .ok ns → e = builtEvent fs.length (Census.ofNodes ns)) ∧
      (∀ m, (build s none fs).outcome = .error m → e = failureEvent m) ∧
      (∀ (σ : Type) (tell : Event → σ → σ) (st : σ),
        (Telling.build tell s fs).runFrom st = ((build s none fs).outcome, tell e st)) ∧
      ∀ log, (build s log fs).log = log.map (·.emit e)) ∧
    (∀ n, (buildItem s none f).outcome = .ok n →
      (∀ (σ : Type) (tell : Event → σ → σ) (st : σ),
        (Telling.item tell s [] f).runFrom st = (.ok n, st)) ∧
      ∀ log, (buildItem s log f).log = log) ∧
    (∀ m, (buildItem s none f).outcome = .error m →
      (∀ (σ : Type) (tell : Event → σ → σ) (st : σ),
        (Telling.item tell s [] f).runFrom st = (.error m, tell (failureEvent m) st)) ∧
      ∀ log, (buildItem s log f).log = log.map (·.emit (failureEvent m))) ∧
    (∀ m, (failureEvent m).stage ∈
      [Bytes.ascii "tag", Bytes.ascii "attributes", Bytes.ascii "symbol"]) ∧
    ∀ (rs : List Request) (log : Log), .echo ∉ log.observers → .eraser ∉ log.observers →
      rs.foldl Request.serve (some log) = some { log with
        events := log.events ++ log.reaching (rs.flatMap Request.calls)
        deliveries := log.deliveries ++ (log.reaching (rs.flatMap Request.calls)).flatMap
          fun e => log.observers.flatMap (·.deliveries e) } := by
  refine ⟨?_, ⟨Telling.verdict fs.length (items s [] fs), ?_, ?_, ?_, ?_⟩, ?_, ?_, ?_, ?_⟩
  · intro log
    simp only [outcome_build, outcome_buildItem, and_self]
  · intro ns built
    rw [outcome_build] at built
    rw [built]
    rfl
  · intro m failed
    rw [outcome_build] at failed
    rw [failed]
    rfl
  · intro σ tell st
    rw [outcome_build]
    exact Telling.runFrom_build tell s fs st
  · intro log
    exact log_build s log fs
  · intro n built
    rw [outcome_buildItem] at built
    refine ⟨?_, ?_⟩
    · intro σ tell st
      rw [Telling.runFrom_item, built]
      rfl
    · intro log
      rw [log_buildItem, built]
      rfl
  · intro m failed
    rw [outcome_buildItem] at failed
    refine ⟨?_, ?_⟩
    · intro σ tell st
      rw [Telling.runFrom_item, failed]
      rfl
    · intro log
      rw [log_buildItem, failed]
      rfl
  · intro m
    exact stage_mem m.fault
  · intro rs log noEcho noEraser
    rw [Request.foldl_serve, Option.map_some, Log.foldl_emit_of_plain _ log noEcho noEraser]

/-- Hears of failures only. -/
def strictLog : Log := { minimum := .error, observers := [.recorder [97]] }

/-- An element with a bare symbol in it. -/
def stray : Form Node := .list [.symbol [97], .symbol [98]]

/-- An element whose attribute has no value. -/
def unpaired : Form Node := .list [.list [.symbol [97], .symbol [98]]]

theorem build_tells_once_shared :
    (build .standard none [stray]).outcome = .error ⟨.bareSymbol [98], [[97]]⟩ ∧
      (build .standard (some strictLog) [stray]).log =
        some (strictLog.emit (failureEvent ⟨.bareSymbol [98], [[97]]⟩)) ∧
      (build .standard none [.flag true]).outcome = .ok [.ofTruth true] ∧
      (build .standard (some strictLog) [.flag true]).log =
        some (strictLog.emit (builtEvent 1 ⟨1, 0⟩)) ∧
      (buildItem .standard none (.flag true)).outcome = .ok (.ofTruth true) ∧
      (buildItem .standard (some strictLog) (.flag true)).log = some strictLog ∧
      (buildItem .standard none unpaired).outcome = .error ⟨.oddAttributes 1, [[97]]⟩ ∧
      (buildItem .standard (some strictLog) unpaired).log =
        some (strictLog.emit (failureEvent ⟨.oddAttributes 1, [[97]]⟩)) ∧
      .echo ∉ strictLog.observers ∧ .eraser ∉ strictLog.observers ∧
      [Request.build .standard [stray], .item .standard (.flag true), .build .standard [.flag true],
        .item .standard unpaired].foldl Request.serve (some strictLog) =
          some { strictLog with
            events := [failureEvent ⟨.bareSymbol [98], [[97]]⟩, failureEvent ⟨.oddAttributes 1, [[97]]⟩]
            deliveries := [.recorded [97] (failureEvent ⟨.bareSymbol [98], [[97]]⟩),
              .recorded [97] (failureEvent ⟨.oddAttributes 1, [[97]]⟩)] } := by
  have failed : (build .standard none [stray]).outcome = .error ⟨.bareSymbol [98], [[97]]⟩ := rfl
  have built : (build .standard none [.flag true]).outcome = .ok [.ofTruth true] := rfl
  have itemBuilt : (buildItem .standard none (.flag true)).outcome = .ok (.ofTruth true) := rfl
  have itemFailed : (buildItem .standard none unpaired).outcome = .error ⟨.oddAttributes 1, [[97]]⟩ := rfl
  have noEcho : .echo ∉ strictLog.observers := by decide
  have noEraser : .eraser ∉ strictLog.observers := by decide
  obtain ⟨-, ⟨e, -, failure, -, told⟩, -, itemTold, -, shared⟩ :=
    build_tells_once .standard [stray] unpaired
  obtain ⟨-, ⟨e', success, -, -, told'⟩, itemUntold, -⟩ :=
    build_tells_once .standard [.flag true] (.flag true)
  have first := failure _ failed
  have second := success _ built
  have counted : Census.ofNodes [.ofTruth true] = ⟨1, 0⟩ := rfl
  rw [counted, List.length_singleton] at second
  subst first second
  have reported := told (some strictLog)
  have summed := told' (some strictLog)
  have itemReported := (itemTold _ itemFailed).2 (some strictLog)
  rw [Option.map_some] at reported summed itemReported
  refine ⟨failed, reported, built, summed, itemBuilt, (itemUntold _ itemBuilt).2 (some strictLog),
    itemFailed, itemReported, noEcho, noEraser, ?_⟩
  rw [shared _ strictLog noEcho noEraser]
  decide +kernel

end Form

end Hypertext
