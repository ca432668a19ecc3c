import Hypertext.Proofs.Markup
import Hypertext.Workspace

/-!
# Serializers over sinks that run out of space

Whatever a sink loses of many small chunks is the end of all that was written, and no serializer takes
notice: it goes on, and its totals are those of one that loses nothing (`calls_lose_end`).
-/

namespace Hypertext

/-- The first bytes of a text, as many as a bound allows. -/
def Bytes.upTo (bound : Option Nat) (s : Bytes) : Bytes := bound.elim s s.take

namespace Sink

/-- How many more bytes a sink takes, if there is a bound to it. -/
def space (s : Sink) : Option Nat :=
  if s.failed then some 0 else s.capacity.map (· - s.stored.size)

/-- Whether a sink has failed once it was given some number of bytes. -/
def Loses (s : Sink) (bytes : Nat) : Prop :=
  s.failed = true ∨ ∃ room, s.space = some room ∧ room < bytes

theorem contents_write_upTo (s : Sink) (text : Bytes) :
    (s.write text).contents = s.contents ++ text.upTo s.space := by
  rw [contents_write, room, space]
  by_cases failed : s.failed = true
  · simp [failed, Bytes.upTo]
  · cases capacity : s.capacity with
    | none => simp [failed, Bytes.upTo]
    | some capacity =>
      simp only [failed, Bool.false_eq_true, if_false, Option.map_some, Bytes.upTo, Option.elim_some]
      rw [Nat.min_comm, ← List.take_take, List.take_length]

theorem failed_write_iff (s : Sink) (text : Bytes) :
    (s.write text).failed = true ↔ s.Loses text.length := by
  rw [write, Loses, room, space]
  by_cases failed : s.failed = true
  · simp [failed]
  · cases capacity : s.capacity with
    | none => simp [failed]
    | some capacity =>
      simp only [failed, Bool.false_eq_true, if_false, false_or, Option.map_some, Option.some.injEq,
        exists_eq_left', decide_eq_true_eq]
      omega

theorem loses_zero_iff (s : Sink) : s.Loses 0 ↔ s.failed = true := by
  simp [Loses]

theorem not_loses_unlimited {s : Sink} (free : s.capacity = none) (good : s.failed = false)
    (bytes : Nat) : ¬s.Loses bytes := by
  simp [Loses, space, free, good]

theorem upTo_space_of_not_loses {s : Sink} {text : Bytes} (h : ¬s.Loses text.length) :
    text.upTo s.space = text := by
  cases space : s.space with
  | none => rfl
  | some room =>
    have fits : text.length ≤ room :=
      Nat.le_of_not_lt fun exceeds => h (.inr ⟨room, space, exceeds⟩)
    exact List.take_of_length_le fits

end Sink

/-- One request to write: a node, or a list of nodes. -/
inductive Call
  | node (n : Node)
  | nodes (ns : List Node)

def Call.content : Call → List Node
  | node n => [n]
  | nodes ns => ns

namespace Serializer

def call (w : Serializer) : Call → Serializer
  | .node n => w.write n
  | .nodes ns => w.writeAll ns

def calls (w : Serializer) (cs : List Call) : Serializer := cs.foldl call w

/-- What reaches the sink in the course of a call. -/
def arrival (w : Serializer) (c : Call) : Bytes := (w.call c).sink.contents.drop w.sink.stored.size

def arrivals (w : Serializer) : List Call → List Bytes
  | [] => []
  | c :: cs => w.arrival c :: (w.call c).arrivals cs

theorem call_eq (w : Serializer) (c : Call) :
    w.call c = w.advance (Census.ofNodes c.content) (render w.layout c.content) := by
  rw [render_eq, ← writeAll_eq]
  cases c <;> rfl

theorem calls_eq (w : Serializer) (cs : List Call) :
    w.calls cs = w.advance (Census.ofNodes (cs.flatMap Call.content))
      (cs.flatMap fun c => render w.layout c.content) := by
  induction cs generalizing w with
  | nil => exact (advance_zero_nil w).symm
  | cons c cs ih =>
    rw [calls, List.foldl_cons, ← calls, ih, call_eq, advance_advance, layout_advance,
      List.flatMap_cons, List.flatMap_cons, Census.ofNodes_append]

theorem contents_call (w : Serializer) (c : Call) :
    (w.call c).sink.contents = w.sink.contents ++ w.arrival c := by
  have size : w.sink.stored.size = w.sink.contents.length := rfl
  rw [arrival, call_eq, advance, Sink.contents_write_upTo, size, List.drop_left]

theorem contents_calls (w : Serializer) (cs : List Call) :
    (w.calls cs).sink.contents = w.sink.contents ++ (w.arrivals cs).flatten := by
  induction cs generalizing w with
  | nil => exact (List.append_nil _).symm
  | cons c cs ih =>
    rw [calls, List.foldl_cons, ← calls, ih, contents_call, arrivals, List.flatten_cons,
      List.append_assoc]

/-- Whatever is written, and however little of it the sink takes, what has arrived is the beginning of
all that was to be written. The sink has failed if there is more of that than it takes, and the totals
are those of a serializer that loses nothing. The next request to write is served in any case. -/
theorem calls_lose_end (l : Layout) (s : Sink) (cs : List Call) :
    let w := ({ layout := l, sink := s } : Serializer).calls cs
    let text : Bytes := cs.flatMap fun c => render l c.content
    w.sink.contents = s.contents ++ text.upTo s.space ∧
      (({ layout := l, sink := s } : Serializer).arrivals cs).flatten = text.upTo s.space ∧
      (w.sink.failed = true ↔ s.Loses text.length) ∧
      w.totals = (({ layout := l } : Serializer).calls cs).totals ∧
      w.totals.bytes = text.length ∧
      ∀ (ws : Workspace) (drafts : List Draft) (ns : List Node), ws.serializer = some w →
        Draft.evalAll ws.scope drafts = .ok ns → ws.write drafts =
          (.ok (.written (w.arrival (.nodes ns)) (w.call (.nodes ns)).totals),
            { ws with serializer := some (w.call (.nodes ns)) }) := by
  intro w text
  -- A sink cannot tell many chunks from one, so all calls together are one write of the whole text.
  have advanced : w = ({ layout := l, sink := s } : Serializer).advance _ text := calls_eq _ cs
  have stored : w.sink.contents = s.contents ++ text.upTo s.space := by
    rw [advanced]
    exact s.contents_write_upTo text
  refine ⟨stored, ?_, ?_, ?_, ?_, ?_⟩
  · have arrived : w.sink.contents = s.contents ++ _ := contents_calls _ cs
    rw [stored] at arrived
    exact (List.append_cancel_left arrived).symm
  · rw [advanced]
    exact s.failed_write_iff text
  · rw [advanced, calls_eq]
    rfl
  · rw [advanced]
    exact Nat.zero_add _
  · intro ws drafts ns current evaluated
    rw [Workspace.write, current, evaluated]
    rfl

/-- Three of the four bytes of a character are taken. -/
def overfull : Serializer :=
  ({ sink := { capacity := some 3 } } : Serializer).calls [.node (.character 60)]

theorem calls_lose_end_overfull :
    Draft.evalAll ({ serializer := some overfull } : Workspace).scope [.text [97]] = .ok [.text [97]] ∧
      overfull.sink.contents = Bytes.ascii "&lt" ∧ overfull.sink.failed = true ∧
      (({ serializer := some overfull } : Workspace).write [.text [97]]).1 =
        .ok (.written [] ⟨⟨2, 0⟩, 5⟩) := by
  have evaluated : Draft.evalAll ({ serializer := some overfull } : Workspace).scope [.text [97]] =
      .ok [.text [97]] := rfl
  obtain ⟨stored, -, failed, -, -, served⟩ :=
    calls_lose_end {} { capacity := some 3 } [.node (.character 60)]
  refine ⟨evaluated, stored, failed.2 (.inr ⟨3, rfl, by decide⟩), ?_⟩
  rw [served { serializer := some overfull } [.text [97]] [.text [97]] rfl evaluated]
  rfl

end Serializer

end Hypertext
