import Hypertext.Form.Report
import Hypertext.Node.Dump
import Hypertext.Node.Mark
import Hypertext.Workspace.Draft

/-! # Workspaces

A workspace keeps sentinels, a log, nodes and unfinished elements under names, and at most one
serializer. It is told what to do by commands, one at a time. Every element that it keeps is marked, and
no mark is given twice.
-/

namespace Hypertext

structure Workspace where
  sentinels : Sentinels := {}
  log : Log := {}
  /-- The sentinels that builds use, as they were when they were chosen. -/
  builder : Option Sentinels := none
  serializer : Option Serializer := none
  elements : Table (Element Node) := {}
  kept : Table (List Node) := {}
  nextMark : Nat := 0

inductive Command
  | addSentinel (name literal : Bytes)
  | hasSentinel (name : Bytes)
  | findSentinel (name : Bytes)
  | countSentinels
  | resetSentinels
  | chooseSentinels
  | build (items : List (Form Draft)) (target : Option Bytes)
  | keep (name : Bytes) (node : Draft)
  | sameElement (a b : Draft)
  | render (layout : Layout) (nodes : List Draft)
  | openSink (layout : Layout) (sink : Sink)
  | write (nodes : List Draft)
  | beginElement (key name : Bytes)
  | copyElement (key target : Bytes)
  | addAttribute (key name : Bytes) (value : AttributeValue Draft)
  | addChildren (key : Bytes) (nodes : List Draft)
  | finishElement (key : Bytes) (target : Option Bytes)
  | emit (event : Event)
  | setMinimum (severity : Severity)
  | observe (observer : Observer)
  | listEvents
  | eventsOfSeverity (severity : Severity)
  | eventsOfSource (source : Bytes)
  | clearEvents

inductive Reply
  | done
  | truth (value : Bool)
  | count (value : Nat)
  | severity (value : Severity)
  | text (value : Bytes)
  | texts (values : List Bytes)
  | entry (found : Option (Bytes × Bytes))
  | written (out : Bytes) (totals : Totals)
  | events (values : List Event)

namespace Workspace

def scope (w : Workspace) : Draft.Scope := fun name index => (w.kept.get? name).bind (·[index]?)

/-- Marks the new elements among nodes that come to stay. -/
def adopt (w : Workspace) (nodes : List Node) : List Node × Workspace :=
  let (nodes, next) := Node.stampAll w.nextMark nodes
  (nodes, { w with nextMark := next })

def keepAs (w : Workspace) (target : Option Bytes) (nodes : List Node) : Workspace :=
  match target with
  | none => w
  | some name => { w with kept := w.kept.put name nodes }

def addSentinel (w : Workspace) (name literal : Bytes) : Except Failure Reply × Workspace :=
  match w.sentinels.add name literal with
  | .error e => (.error (.sentinels e), w)
  | .ok s => (.ok (.count s.size), { w with sentinels := s })

/-- The first build without chosen sentinels chooses the standard ones for good. -/
def build (w : Workspace) (forms : List (Form Draft)) (target : Option Bytes) :
    Except Failure Reply × Workspace :=
  let sentinels := w.builder.getD .standard
  let w := { w with builder := some sentinels }
  match Form.mapAtomsAll (Draft.eval w.scope) forms with
  | .error e => (.error e, w)
  | .ok forms =>
    let built := Form.build sentinels (some w.log) forms
    let w := { w with log := built.log.getD w.log }
    match built.outcome with
    | .error m => (.error (.malformed m), w)
    | .ok nodes =>
      let (nodes, w) := w.adopt nodes
      (.ok (.texts (nodes.map Node.dump)), w.keepAs target nodes)

def keep (w : Workspace) (name : Bytes) (draft : Draft) : Except Failure Reply × Workspace :=
  match draft.eval w.scope with
  | .error e => (.error e, w)
  | .ok node =>
    let (nodes, w) := w.adopt [node]
    (.ok (.text node.dump), w.keepAs (some name) nodes)

def sameElement (w : Workspace) (a b : Draft) : Except Failure Reply := do
  let a ← a.eval w.scope
  let b ← b.eval w.scope
  return .truth (← (Node.sameElement a b).mapError .node)

def render (w : Workspace) (layout : Layout) (drafts : List Draft) :
    Except Failure Reply × Workspace :=
  match Draft.evalAll w.scope drafts with
  | .error e => (.error e, w)
  | .ok nodes =>
    let rendering := Render.toSink layout {} (some w.log) nodes
    let w := { w with log := rendering.log.getD w.log }
    match rendering.outcome with
    | .error e => (.error (.render e), w)
    | .ok () => (.ok (.text rendering.sink.contents), w)

def write (w : Workspace) (drafts : List Draft) : Except Failure Reply × Workspace :=
  match Draft.evalAll w.scope drafts, w.serializer with
  | .error e, _ => (.error e, w)
  | .ok _, none => (.error .noSink, w)
  | .ok nodes, some before =>
    let after := before.writeAll nodes
    (.ok (.written (after.sink.contents.drop before.sink.stored.size) after.totals),
      { w with serializer := some after })

/-- Changes the unfinished element that is kept under a key. -/
def change (w : Workspace) (key : Bytes) (f : Element Node → Element Node) :
    Except Failure Reply × Workspace :=
  match w.elements.get? key with
  | none => (.error (.unbound key), w)
  | some e => (.ok .done, { w with elements := w.elements.put key (f e) })

def copyElement (w : Workspace) (key target : Bytes) : Except Failure Reply × Workspace :=
  match w.elements.get? key with
  | none => (.error (.unbound key), w)
  | some e => (.ok .done, { w with elements := w.elements.put target e })

def addAttribute (w : Workspace) (key name : Bytes) (value : AttributeValue Draft) :
    Except Failure Reply × Workspace :=
  match Draft.evalValue w.scope value with
  | .error e => (.error e, w)
  | .ok value =>
    let (value, next) := Node.stampValue w.nextMark value
    change { w with nextMark := next } key (·.addAttribute name value)

def addChildren (w : Workspace) (key : Bytes) (drafts : List Draft) :
    Except Failure Reply × Workspace :=
  match Draft.evalAll w.scope drafts with
  | .error e => (.error e, w)
  | .ok nodes =>
    let (nodes, w) := w.adopt nodes
    w.change key (·.addChildren nodes)

/-- An unfinished element can be finished again and again; each time it makes a new element. -/
def finishElement (w : Workspace) (key : Bytes) (target : Option Bytes) :
    Except Failure Reply × Workspace :=
  match w.elements.get? key with
  | none => (.error (.unbound key), w)
  | some e =>
    let node := Node.element { e with mark := none }
    let (nodes, w) := w.adopt [node]
    (.ok (.text node.dump), w.keepAs target nodes)

def perform (w : Workspace) : Command → Except Failure Reply × Workspace
  | .addSentinel name literal => w.addSentinel name literal
  | .hasSentinel name => (.ok (.truth (w.sentinels.contains name)), w)
  | .findSentinel name => (.ok (.entry (w.sentinels.entry? name)), w)
  | .countSentinels => (.ok (.count w.sentinels.size), w)
  | .resetSentinels =>
    (.ok (.count Sentinels.standard.size), { w with sentinels := .standard })
  | .chooseSentinels => (.ok (.count w.sentinels.size), { w with builder := some w.sentinels })
  | .build forms target => w.build forms target
  | .keep name draft => w.keep name draft
  | .sameElement a b => (w.sameElement a b, w)
  | .render layout drafts => w.render layout drafts
  | .openSink layout sink =>
    (.ok (.truth layout.lineBreaks), { w with serializer := some { layout, sink } })
  | .write drafts => w.write drafts
  | .beginElement key name => (.ok .done, { w with elements := w.elements.put key { name } })
  | .copyElement key target => w.copyElement key target
  | .addAttribute key name value => w.addAttribute key name value
  | .addChildren key drafts => w.addChildren key drafts
  | .finishElement key target => w.finishElement key target
  | .emit e => (.ok .done, { w with log := w.log.emit e })
  | .setMinimum s => (.ok (.severity s), { w with log := { w.log with minimum := s } })
  | .observe o => (.ok .done, { w with log := w.log.observe o })
  | .listEvents => (.ok (.events w.log.events), w)
  | .eventsOfSeverity s => (.ok (.events (w.log.ofSeverity s)), w)
  | .eventsOfSource source => (.ok (.events (w.log.ofSource source)), w)
  | .clearEvents => (.ok .done, { w with log := w.log.clear })

/-- What one command brought about: its result, how many events there are now, and what the observers
were shown meanwhile. -/
structure Report where
  result : Except Failure Reply
  eventCount : Nat
  recorded : List Bytes
  console : Bytes

def step (w : Workspace) (c : Command) : Report × Workspace :=
  let (result, w) := perform { w with log := { w.log with deliveries := [] } } c
  (⟨result, w.log.events.length, w.log.recordedLines, w.log.consoleText⟩, w)

def run (w : Workspace) : List Command → List Report
  | [] => []
  | c :: cs =>
    let (report, w) := w.step c
    report :: run w cs

end Workspace

end Hypertext
