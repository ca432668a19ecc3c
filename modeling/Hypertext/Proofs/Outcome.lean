import Hypertext.Proofs.Loss
import Hypertext.Proofs.Reentrance

/-!
# What a render into a sink comes to

A render into a sink fails just if something was lost, which is the end of the text, or the sink had
failed before. One event tells of it, and what is rendered does not depend on the log that is told
(`toSink_fails_iff_loses`).
-/

namespace Hypertext

/-- Where no observer emits or clears, an event is stored once and shown to each observer once. -/
theorem Log.emit_of_plain {log : Log} {e : Event} (noEcho : .echo ∉ log.observers)
    (noEraser : .eraser ∉ log.observers) :
    log.emit e = if e.severity < log.minimum then log else
      { log with
        events := log.events ++ [e]
        deliveries := log.deliveries ++ log.observers.flatMap (·.deliveries e) } := by
  split
  case isTrue low => exact emit_of_lt low
  case isFalse reached => rw [emit_of_quiet (.inr noEcho) reached, if_neg noEraser]

namespace Render

/-- Told of a render that failed, with the number of bytes that there were to write. -/
def failureEvent (bytes : Nat) : Event :=
  ⟨.error, Bytes.ascii "render", Bytes.ascii "flush",
    Bytes.ascii "output stream failed after " ++ Numeral.natural bytes ++ Bytes.ascii " bytes"⟩

def summaryEvent (census : Census) (bytes : Nat) : Event :=
  ⟨.info, Bytes.ascii "render", Bytes.ascii "write",
    Bytes.ascii "wrote " ++ Numeral.natural census.nodes ++ Bytes.ascii " nodes (" ++
      Numeral.natural census.elements ++ Bytes.ascii " elements, " ++ Numeral.natural bytes ++
      Bytes.ascii " bytes)"⟩

variable (l : Layout) (s : Sink) (log : Option Log) (ns : List Node)

theorem sink_toSink : (toSink l s log ns).sink = s.write (render l ns) := by
  rw [toSink, Serializer.writeAll_eq, render_eq]
  rfl

theorem outcome_toSink : (toSink l s log ns).outcome =
    if (s.write (render l ns)).failed then .error .outputFailed else .ok () := by
  rw [← sink_toSink l s log ns]
  rfl

theorem log_toSink : (toSink l s log ns).log = log.map (·.emit
    (if (s.write (render l ns)).failed then failureEvent (render l ns).length
      else summaryEvent (Census.ofNodes ns) (render l ns).length)) := by
  rw [← sink_toSink l s log ns]
  simp only [toSink, report, Serializer.totals_writeAll]
  rfl

theorem outcome_toSink_eq_error_iff :
    (toSink l s log ns).outcome = .error .outputFailed ↔ s.Loses (render l ns).length := by
  rw [← s.failed_write_iff, outcome_toSink]
  split <;> simp [*]

theorem outcome_toSink_eq_ok_iff :
    (toSink l s log ns).outcome = .ok () ↔ ¬s.Loses (render l ns).length := by
  rw [← s.failed_write_iff, outcome_toSink]
  split <;> simp [*]

end Render

/-- A render into a sink fails just if the sink had failed before or takes fewer bytes than there are, and
what it stores is the beginning of the rendered text. The log is told once, and makes no difference. A
sink without a bound takes all of the text. -/
theorem toSink_fails_iff_loses (l : Layout) (s : Sink) (log : Option Log) (ns : List Node) :
    let text := render l ns
    let r := Render.toSink l s log ns
    (r.outcome = .error .outputFailed ↔ s.Loses text.length) ∧
      (r.outcome = .ok () ↔ ¬s.Loses text.length) ∧
      r.sink.contents = s.contents ++ text.upTo s.space ∧
      (¬s.Loses text.length → r.sink.contents = s.contents ++ text) ∧
      (∀ other, (Render.toSink l s other ns).outcome = r.outcome ∧
        (Render.toSink l s other ns).sink = r.sink) ∧
      (∃ e, r.log = log.map (·.emit e) ∧
        (s.Loses text.length → e = Render.failureEvent text.length) ∧
        (¬s.Loses text.length → e = Render.summaryEvent (Census.ofNodes ns) text.length) ∧
        ∀ given, log = some given → .echo ∉ given.observers → .eraser ∉ given.observers →
          r.log = some (if e.severity < given.minimum then given else
            { given with
              events := given.events ++ [e]
              deliveries := given.deliveries ++ given.observers.flatMap (·.deliveries e) })) ∧
      (text = [] → (r.outcome = .ok () ↔ s.failed = false)) ∧
      ∀ other, (Render.toSink l {} other ns).outcome = .ok () ∧
        (Render.toSink l {} other ns).sink.contents = text := by
  intro text r
  have stored : r.sink.contents = s.contents ++ text.upTo s.space := by
    rw [Render.sink_toSink, s.contents_write_upTo]
  refine ⟨Render.outcome_toSink_eq_error_iff l s log ns, Render.outcome_toSink_eq_ok_iff l s log ns,
    stored, ?_, ?_, ?_, ?_, ?_⟩
  · intro fits
    rw [stored, Sink.upTo_space_of_not_loses fits]
  · intro other
    rw [Render.outcome_toSink, Render.outcome_toSink, Render.sink_toSink, Render.sink_toSink]
    exact ⟨rfl, rfl⟩
  · refine ⟨_, Render.log_toSink l s log ns, ?_, ?_, ?_⟩
    · intro lost
      rw [if_pos ((s.failed_write_iff text).2 lost)]
    · intro fits
      rw [if_neg (mt (s.failed_write_iff text).1 fits)]
    · intro given eq noEcho noEraser
      rw [Render.log_toSink, eq, Option.map_some, Log.emit_of_plain noEcho noEraser]
  · intro empty
    have size : text.length = 0 := List.length_eq_zero_iff.2 empty
    rw [Render.outcome_toSink_eq_ok_iff, size, s.loses_zero_iff, Bool.not_eq_true]
  · intro other
    have fits : ¬({} : Sink).Loses text.length := Sink.not_loses_unlimited rfl rfl _
    refine ⟨(Render.outcome_toSink_eq_ok_iff l {} other ns).2 fits, ?_⟩
    rw [Render.sink_toSink, Sink.contents_write_upTo, Sink.upTo_space_of_not_loses fits]
    rfl

def Log.attended : Log := { observers := [.recorder [97], .console] }

/-- One byte short, of just the right size, and with nothing to write. -/
theorem toSink_fails_iff_loses_bounds :
    Sink.Loses { capacity := some 3 } (render {} [.character 60]).length ∧
      (Render.toSink {} { capacity := some 3 } (some .attended) [.character 60]).outcome =
        .error .outputFailed ∧
      .echo ∉ Log.attended.observers ∧ .eraser ∉ Log.attended.observers ∧
      (Render.toSink {} { capacity := some 3 } (some .attended) [.character 60]).log =
        some { Log.attended with
          events := [Render.failureEvent 4]
          deliveries := [.recorded [97] (Render.failureEvent 4), .printed (Render.failureEvent 4)] } ∧
      ¬Sink.Loses { capacity := some 4 } (render {} [.character 60]).length ∧
      (Render.toSink {} { capacity := some 4 } none [.character 60]).sink.contents =
        Bytes.ascii "&lt;" ∧
      render {} [] = [] ∧ (Render.toSink {} { capacity := some 0 } none []).outcome = .ok () := by
  have short : Sink.Loses { capacity := some 3 } (render {} [.character 60]).length :=
    .inr ⟨3, rfl, by decide⟩
  have fits : ¬Sink.Loses { capacity := some 4 } (render {} [.character 60]).length := by
    intro h
    obtain failed | ⟨room, hroom, exceeds⟩ := h
    · cases failed
    · cases hroom
      exact absurd exceeds (by decide)
  have noEcho : .echo ∉ Log.attended.observers := by decide
  have noEraser : .eraser ∉ Log.attended.observers := by decide
  obtain ⟨fails, -, -, -, -, ⟨e, -, lost, -, shown⟩, -⟩ :=
    toSink_fails_iff_loses {} { capacity := some 3 } (some .attended) [.character 60]
  have told : e = Render.failureEvent 4 := lost short
  subst told
  obtain ⟨-, -, -, whole, -⟩ := toSink_fails_iff_loses {} { capacity := some 4 } none [.character 60]
  obtain ⟨-, -, -, -, -, -, empty, -⟩ := toSink_fails_iff_loses {} { capacity := some 0 } none []
  exact ⟨short, fails.2 short, noEcho, noEraser, shown _ rfl noEcho noEraser, fits, whole fits, rfl,
    (empty rfl).2 rfl⟩

end Hypertext
