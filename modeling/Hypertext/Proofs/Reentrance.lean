import Hypertext.Log
import Mathlib.Data.List.Count

/-!
# Emitting from within an observer

What emitting an event comes to when echoing observers emit in their turn, while others are still to be
shown the first event or clear the log meanwhile. `Emits` lets emissions nest without a bound, and says
which observer was shown what, observers being told apart by their places. Every emission ends, and
`emit_reentrant` says with what.
-/

namespace Hypertext

def Event.echoed (e : Event) : Event := { e with source := Log.echoSource }

/-- What an observer keeps of an event, without the echoes that it brings about. -/
def Observer.deliveries (e : Event) : Observer → List Delivery
  | .recorder label => [.recorded label e]
  | .console => [.printed e]
  | .echo | .eraser => []

namespace Log

/-- What the observers find when an event is shown to the first of them. -/
def store (log : Log) (e : Event) : Log := { log with events := log.events ++ [e] }

mutual

/-- Emitting ends with the second log, and deliveries were made on the way at these places. -/
inductive Emits : Log → Event → List (Nat × Delivery) → Log → Prop
  | dropped {log : Log} {e : Event} (low : e.severity < log.minimum) : Emits log e [] log
  | stored {log after : Log} {e : Event} {out : List (Nat × Delivery)}
      (reached : ¬e.severity < log.minimum)
      (shown : Shows e 0 log.observers (log.store e) out after) : Emits log e out after

/-- Showing an event to the observers from a place on. -/
inductive Shows : Event → Nat → List Observer → Log → List (Nat × Delivery) → Log → Prop
  | nil {e : Event} {i : Nat} {log : Log} : Shows e i [] log [] log
  | cons {e : Event} {i : Nat} {o : Observer} {os : List Observer} {log middle after : Log}
      {out rest : List (Nat × Delivery)} (head : Reacts e i o log out middle)
      (tail : Shows e (i + 1) os middle rest after) : Shows e i (o :: os) log (out ++ rest) after

/-- Showing an event to one observer. -/
inductive Reacts : Event → Nat → Observer → Log → List (Nat × Delivery) → Log → Prop
  | recorder {e : Event} {i : Nat} {label : Bytes} {log : Log} :
      Reacts e i (.recorder label) log [(i, .recorded label e)] (log.deliver (.recorded label e))
  | console {e : Event} {i : Nat} {log : Log} :
      Reacts e i .console log [(i, .printed e)] (log.deliver (.printed e))
  | eraser {e : Event} {i : Nat} {log : Log} : Reacts e i .eraser log [] log.clear
  | silent {e : Event} {i : Nat} {log : Log} (echo : e.source = echoSource) :
      Reacts e i .echo log [] log
  | echo {e : Event} {i : Nat} {log after : Log} {out : List (Nat × Delivery)}
      (original : e.source ≠ echoSource) (again : Emits log e.echoed out after) :
      Reacts e i .echo log out after

end

/-- What the observers from place `i` on keep of an event, each with its place. -/
def placed (e : Event) (os : List Observer) (i : Nat) : List (Nat × Delivery) :=
  (os.zipIdx i).flatMap fun p => (p.1.deliveries e).map (p.2, ·)

/-- What one observer brings about: an echo goes to all observers. -/
def outputsAt (log : Log) (e : Event) (o : Observer) (i : Nat) : List (Nat × Delivery) :=
  if o = .echo ∧ e.source ≠ echoSource then placed e.echoed log.observers 0
  else (o.deliveries e).map (i, ·)

def outputsFrom (log : Log) (e : Event) (os : List Observer) (i : Nat) : List (Nat × Delivery) :=
  (os.zipIdx i).flatMap fun p => log.outputsAt e p.1 p.2

def outputs (log : Log) (e : Event) : List (Nat × Delivery) :=
  if e.severity < log.minimum then [] else log.outputsFrom e log.observers 0

/-- How often an event is echoed by some of the observers. -/
def echoes (e : Event) (os : List Observer) : Nat :=
  if e.source = echoSource then 0 else os.count .echo

/-- The deliveries that were made at one place. -/
def seenAt (out : List (Nat × Delivery)) (i : Nat) : List Delivery :=
  (out.filter (·.1 = i)).map Prod.snd

section Pass

variable {log : Log} {e : Event}

@[simp] theorem minimum_store (log : Log) (e : Event) : (log.store e).minimum = log.minimum := rfl

@[simp] theorem observers_store (log : Log) (e : Event) : (log.store e).observers = log.observers :=
  rfl

@[simp] theorem deliveries_store (log : Log) (e : Event) :
    (log.store e).deliveries = log.deliveries := rfl

theorem placed_cons (e : Event) (o : Observer) (os : List Observer) (i : Nat) :
    placed e (o :: os) i = (o.deliveries e).map (i, ·) ++ placed e os (i + 1) := by
  simp [placed]

theorem outputsFrom_cons (log : Log) (e : Event) (o : Observer) (os : List Observer) (i : Nat) :
    log.outputsFrom e (o :: os) i = log.outputsAt e o i ++ log.outputsFrom e os (i + 1) := by
  simp [outputsFrom]

theorem outputsFrom_congr {log' : Log} (same : log'.observers = log.observers) :
    log'.outputsFrom e = log.outputsFrom e := by
  have each : log'.outputsAt e = log.outputsAt e := by
    funext o i
    rw [outputsAt, outputsAt, same]
  funext os i
  rw [outputsFrom, outputsFrom, each]

theorem emit_of_not_lt (reached : ¬e.severity < log.minimum) :
    log.emit e = log.observers.foldl (notify emit e) (log.store e) := by
  rw [emit_eq, pass, if_neg reached]
  rfl

theorem notify_echo (emit : Log → Event → Log) (e : Event) (log : Log) :
    notify emit e log .echo = if e.source = echoSource then log else emit log e.echoed := rfl

/-- Without an observer that echoes it, an event comes to each observer once. -/
theorem foldl_notify_of_quiet {os : List Observer} (quiet : e.source = echoSource ∨ .echo ∉ os)
    (emit : Log → Event → Log) (log : Log) :
    os.foldl (notify emit e) log = { log with
      events := if .eraser ∈ os then [] else log.events
      deliveries := log.deliveries ++ os.flatMap (·.deliveries e) } := by
  induction os generalizing log with
  | nil => simp
  | cons o os ih =>
    have rest : e.source = echoSource ∨ .echo ∉ os := quiet.imp_right (mt (List.mem_cons_of_mem o))
    rw [List.foldl_cons, ih rest]
    cases o with
    | recorder label => simp [notify, deliver, Observer.deliveries]
    | console => simp [notify, deliver, Observer.deliveries]
    | eraser => simp [notify, clear, Observer.deliveries]
    | echo =>
      rcases quiet with echo | absent
      · simp [notify, echo, Observer.deliveries]
      · exact absurd List.mem_cons_self absent

theorem emit_of_quiet (quiet : e.source = echoSource ∨ .echo ∉ log.observers)
    (reached : ¬e.severity < log.minimum) :
    log.emit e = { log with
      events := if .eraser ∈ log.observers then [] else log.events ++ [e]
      deliveries := log.deliveries ++ log.observers.flatMap (·.deliveries e) } := by
  rw [emit_of_not_lt reached, foldl_notify_of_quiet quiet]
  rfl

/-- Showing an event to an observer leaves the observers and the minimum as they are. -/
theorem notify_emit_frame (log : Log) (e : Event) (o : Observer) :
    (notify emit e log o).observers = log.observers ∧
      (notify emit e log o).minimum = log.minimum := by
  cases o with
  | recorder label => exact ⟨rfl, rfl⟩
  | console => exact ⟨rfl, rfl⟩
  | eraser => exact ⟨rfl, rfl⟩
  | echo =>
    rw [notify_echo]
    split
    · exact ⟨rfl, rfl⟩
    · by_cases low : e.severity < log.minimum
      · rw [emit_of_lt (e := e.echoed) low]
        exact ⟨rfl, rfl⟩
      · rw [emit_of_quiet (e := e.echoed) (.inl rfl) low]
        exact ⟨rfl, rfl⟩

theorem not_lt_minimum_notify_emit (reached : ¬e.severity < log.minimum) (o : Observer) :
    ¬e.severity < (notify emit e log o).minimum := by
  rwa [(notify_emit_frame log e o).2]

theorem foldl_notify_emit_frame (e : Event) (os : List Observer) (log : Log) :
    (os.foldl (notify emit e) log).observers = log.observers ∧
      (os.foldl (notify emit e) log).minimum = log.minimum := by
  induction os generalizing log with
  | nil => exact ⟨rfl, rfl⟩
  | cons o os ih =>
    obtain ⟨observers, minimum⟩ := notify_emit_frame log e o
    rw [List.foldl_cons, (ih _).1, (ih _).2]
    exact ⟨observers, minimum⟩

theorem emit_frame (log : Log) (e : Event) :
    (log.emit e).observers = log.observers ∧ (log.emit e).minimum = log.minimum := by
  by_cases low : e.severity < log.minimum
  · rw [emit_of_lt low]
    exact ⟨rfl, rfl⟩
  · rw [emit_of_not_lt low]
    exact foldl_notify_emit_frame e log.observers (log.store e)

end Pass

section Termination

variable {log after : Log} {e : Event} {out : List (Nat × Delivery)}

/-- An observer that is shown an event does what `outputsAt` and `notify` say. -/
def Answers (e : Event) : Prop :=
  ∀ ⦃i : Nat⦄ ⦃o : Observer⦄ ⦃log after : Log⦄ ⦃out : List (Nat × Delivery)⦄,
    ¬e.severity < log.minimum →
      (Reacts e i o log out after ↔ out = log.outputsAt e o i ∧ after = notify emit e log o)

theorem shows_iff (answers : Answers e) {os : List Observer} {i : Nat}
    (reached : ¬e.severity < log.minimum) :
    Shows e i os log out after ↔
      out = log.outputsFrom e os i ∧ after = os.foldl (notify emit e) log := by
  induction os generalizing i log out with
  | nil =>
    constructor
    · intro h
      cases h
      exact ⟨rfl, rfl⟩
    · intro h
      obtain ⟨rfl, rfl⟩ := h
      exact Shows.nil
  | cons o os ih =>
    -- The later observers find another store, but the same observers and the same minimum.
    have reached' := not_lt_minimum_notify_emit reached o
    have split : log.outputsFrom e (o :: os) i =
        log.outputsAt e o i ++ (notify emit e log o).outputsFrom e os (i + 1) := by
      rw [outputsFrom_cons, outputsFrom_congr (notify_emit_frame log e o).1]
    constructor
    · intro h
      cases h with
      | cons head tail =>
        obtain ⟨rfl, rfl⟩ := (answers reached).1 head
        obtain ⟨rfl, rfl⟩ := (ih reached').1 tail
        exact ⟨split.symm, rfl⟩
    · intro h
      obtain ⟨rfl, rfl⟩ := h
      rw [split]
      exact Shows.cons ((answers reached).2 ⟨rfl, rfl⟩) ((ih reached').2 ⟨rfl, rfl⟩)

theorem emits_iff_of_answers (answers : Answers e) :
    Emits log e out after ↔ out = log.outputs e ∧ after = log.emit e := by
  by_cases low : e.severity < log.minimum
  · rw [outputs, if_pos low, emit_of_lt low]
    constructor
    · intro h
      cases h with
      | dropped => exact ⟨rfl, rfl⟩
      | stored reached => exact absurd low reached
    · intro h
      obtain ⟨rfl, rfl⟩ := h
      exact Emits.dropped low
  · have shown_iff : Shows e 0 log.observers (log.store e) out after ↔ _ := shows_iff answers low
    rw [outputsFrom_congr (observers_store log e)] at shown_iff
    rw [outputs, if_neg low, emit_of_not_lt low]
    constructor
    · intro h
      cases h with
      | dropped low => contradiction
      | stored _ shown => exact shown_iff.1 shown
    · intro h
      exact Emits.stored low (shown_iff.2 h)

theorem reacts_iff_of_ne_echo {i : Nat} {o : Observer} (other : o ≠ .echo) :
    Reacts e i o log out after ↔ out = log.outputsAt e o i ∧ after = notify emit e log o := by
  have here : log.outputsAt e o i = (o.deliveries e).map (i, ·) := if_neg fun h => other h.1
  rw [here]
  constructor
  · intro h
    cases h with
    | recorder => exact ⟨rfl, rfl⟩
    | console => exact ⟨rfl, rfl⟩
    | eraser => exact ⟨rfl, rfl⟩
    | silent => contradiction
    | echo => contradiction
  · intro h
    obtain ⟨rfl, rfl⟩ := h
    cases o with
    | recorder label => exact Reacts.recorder
    | console => exact Reacts.console
    | eraser => exact Reacts.eraser
    | echo => contradiction

theorem answers_of_source_eq (echo : e.source = echoSource) : Answers e := by
  intro i o log after out reached
  by_cases echoing : o = .echo
  · have here : log.outputsAt e .echo i = [] := by simp [outputsAt, echo, Observer.deliveries]
    rw [echoing, here, notify_echo, if_pos echo]
    constructor
    · intro h
      cases h with
      | silent => exact ⟨rfl, rfl⟩
      | echo original => exact absurd echo original
    · intro h
      obtain ⟨rfl, rfl⟩ := h
      exact Reacts.silent echo
  · exact reacts_iff_of_ne_echo echoing

/-- An echo is not echoed, so the emission of one ends at once, and with it every other. -/
theorem answers (e : Event) : Answers e := by
  by_cases echo : e.source = echoSource
  · exact answers_of_source_eq echo
  intro i o log after out reached
  by_cases echoing : o = .echo
  · have here : log.outputsAt e .echo i = placed e.echoed log.observers 0 := if_pos ⟨rfl, echo⟩
    -- The echo has the echoing source, so what its emission comes to is known already.
    have again : Emits log e.echoed out after ↔
        out = placed e.echoed log.observers 0 ∧ after = log.emit e.echoed := by
      have low : ¬e.echoed.severity < log.minimum := reached
      rw [emits_iff_of_answers (answers_of_source_eq rfl), outputs, if_neg low]
      simp [outputsFrom, outputsAt, placed, Event.echoed]
    rw [echoing, here, notify_echo, if_neg echo, ← again]
    constructor
    · intro h
      cases h with
      | silent echo' => exact absurd echo' echo
      | echo _ emitted => exact emitted
    · intro emitted
      exact Reacts.echo echo emitted
  · exact reacts_iff_of_ne_echo echoing

theorem emits_iff : Emits log e out after ↔ out = log.outputs e ∧ after = log.emit e :=
  emits_iff_of_answers (answers e)

end Termination

section Outcome

variable {log : Log} {e : Event} {o : Observer} {os : List Observer} {i : Nat}

theorem map_snd_placed (e : Event) (os : List Observer) (i : Nat) :
    (placed e os i).map Prod.snd = os.flatMap (·.deliveries e) := by
  induction os generalizing i with
  | nil => rfl
  | cons o os ih =>
    rw [placed_cons, List.map_append, ih, List.map_map, Function.comp_def, List.map_id',
      List.flatMap_cons]

theorem deliveries_notify_emit (reached : ¬e.severity < log.minimum) (o : Observer) (i : Nat) :
    (notify emit e log o).deliveries = log.deliveries ++ (log.outputsAt e o i).map Prod.snd := by
  cases o with
  | recorder label => simp [notify, deliver, outputsAt, Observer.deliveries]
  | console => simp [notify, deliver, outputsAt, Observer.deliveries]
  | eraser => simp [notify, clear, outputsAt, Observer.deliveries]
  | echo =>
    rw [notify_echo]
    by_cases echo : e.source = echoSource
    · simp [outputsAt, echo, Observer.deliveries]
    · rw [if_neg echo, emit_of_quiet (e := e.echoed) (.inl rfl) reached]
      simp [outputsAt, echo, map_snd_placed]

theorem deliveries_foldl_notify_emit (reached : ¬e.severity < log.minimum) (os : List Observer)
    (i : Nat) :
    (os.foldl (notify emit e) log).deliveries =
      log.deliveries ++ (log.outputsFrom e os i).map Prod.snd := by
  induction os generalizing log i with
  | nil => simp [outputsFrom]
  | cons o os ih =>
    have reached' := not_lt_minimum_notify_emit reached o
    rw [List.foldl_cons, ih reached' (i + 1), deliveries_notify_emit reached o i,
      outputsFrom_congr (notify_emit_frame log e o).1, outputsFrom_cons, List.map_append,
      List.append_assoc]

theorem deliveries_emit (log : Log) (e : Event) :
    (log.emit e).deliveries = log.deliveries ++ (log.outputs e).map Prod.snd := by
  by_cases low : e.severity < log.minimum
  · simp [emit_of_lt low, outputs, low]
  · have stored : ¬e.severity < (log.store e).minimum := low
    rw [emit_of_not_lt low, outputs, if_neg low, deliveries_foldl_notify_emit stored _ 0,
      deliveries_store, outputsFrom_congr (observers_store log e)]

/-- Once the store is empty it stays so, as each echo that is stored is cleared again. -/
theorem events_notify_emit_eq_nil (mem : .eraser ∈ log.observers) (empty : log.events = [])
    (o : Observer) : (notify emit e log o).events = [] := by
  cases o with
  | recorder label => exact empty
  | console => exact empty
  | eraser => rfl
  | echo =>
    rw [notify_echo]
    split
    · exact empty
    · by_cases low : e.severity < log.minimum
      · rwa [emit_of_lt (e := e.echoed) low]
      · rw [emit_of_quiet (e := e.echoed) (.inl rfl) low]
        exact if_pos mem

theorem events_foldl_notify_emit_eq_nil (mem : .eraser ∈ log.observers) (empty : log.events = []) :
    (os.foldl (notify emit e) log).events = [] := by
  induction os generalizing log with
  | nil => exact empty
  | cons o os ih =>
    have mem' : .eraser ∈ (notify emit e log o).observers := by rwa [(notify_emit_frame log e o).1]
    exact ih mem' (events_notify_emit_eq_nil mem empty o)

theorem events_foldl_notify_emit_of_mem (mem : .eraser ∈ log.observers) (h : .eraser ∈ os) :
    (os.foldl (notify emit e) log).events = [] := by
  induction os generalizing log with
  | nil => exact absurd h List.not_mem_nil
  | cons o os ih =>
    have mem' : .eraser ∈ (notify emit e log o).observers := by rwa [(notify_emit_frame log e o).1]
    rw [List.foldl_cons]
    rcases List.mem_cons.1 h with rfl | h
    · exact events_foldl_notify_emit_eq_nil mem' rfl
    · exact ih mem' h

theorem echoes_of_source_eq (echo : e.source = echoSource) (os : List Observer) :
    echoes e os = 0 := if_pos echo

theorem echoes_cons (h : o ≠ .echo) : echoes e (o :: os) = echoes e os := by
  simp [echoes, h]

theorem echoes_echo_cons (original : e.source ≠ echoSource) :
    echoes e (.echo :: os) = echoes e os + 1 := by
  simp [echoes, original]

theorem events_foldl_notify_emit (reached : ¬e.severity < log.minimum)
    (keeps : .eraser ∉ log.observers) (h : .eraser ∉ os) :
    (os.foldl (notify emit e) log).events =
      log.events ++ List.replicate (echoes e os) e.echoed := by
  induction os generalizing log with
  | nil => simp [echoes]
  | cons o os ih =>
    have reached' := not_lt_minimum_notify_emit reached o
    have keeps' : .eraser ∉ (notify emit e log o).observers := by
      rwa [(notify_emit_frame log e o).1]
    have other : o ≠ .eraser := fun eq => h (eq ▸ List.mem_cons_self)
    have rest : .eraser ∉ os := fun mem => h (List.mem_cons_of_mem o mem)
    rw [List.foldl_cons, ih reached' keeps' rest]
    cases o with
    | recorder label => rw [echoes_cons (by simp)]; rfl
    | console => rw [echoes_cons (by simp)]; rfl
    | eraser => contradiction
    | echo =>
      rw [notify_echo]
      by_cases echo : e.source = echoSource
      · simp [echo, echoes_of_source_eq]
      · rw [if_neg echo, emit_of_quiet (e := e.echoed) (.inl rfl) reached, if_neg keeps,
          echoes_echo_cons echo, List.replicate_succ, List.append_assoc, List.singleton_append]

theorem events_emit (reached : ¬e.severity < log.minimum) :
    (log.emit e).events = if .eraser ∈ log.observers then []
      else log.events ++ e :: List.replicate (echoes e log.observers) e.echoed := by
  rw [emit_of_not_lt reached]
  split
  case isTrue mem => exact events_foldl_notify_emit_of_mem mem mem
  case isFalse keeps =>
    have stored : ¬e.severity < (log.store e).minimum := reached
    rw [events_foldl_notify_emit stored keeps keeps, store, List.append_assoc, List.singleton_append]

end Outcome

section View

variable {log : Log} {e : Event} {os : List Observer} {i j : Nat}

@[simp] theorem seenAt_append (out rest : List (Nat × Delivery)) (i : Nat) :
    seenAt (out ++ rest) i = seenAt out i ++ seenAt rest i := by
  simp [seenAt]

theorem seenAt_map_self (ds : List Delivery) (i : Nat) : seenAt (ds.map (i, ·)) i = ds := by
  simp [seenAt, List.filter_map, Function.comp_def]

theorem seenAt_map_of_ne (ds : List Delivery) (h : i ≠ j) : seenAt (ds.map (i, ·)) j = [] := by
  simp [seenAt, List.filter_map, Function.comp_def, h]

theorem seenAt_placed_of_lt (h : j < i) : seenAt (placed e os i) j = [] := by
  induction os generalizing i with
  | nil => rfl
  | cons o os ih =>
    rw [placed_cons, seenAt_append, seenAt_map_of_ne _ (by omega), ih (by omega), List.append_nil]

theorem seenAt_placed (e : Event) (pre : List Observer) (o : Observer) (post : List Observer)
    (i : Nat) : seenAt (placed e (pre ++ o :: post) i) (i + pre.length) = o.deliveries e := by
  induction pre generalizing i with
  | nil =>
    rw [List.nil_append, placed_cons, seenAt_append, List.length_nil, Nat.add_zero,
      seenAt_map_self, seenAt_placed_of_lt (Nat.lt_succ_self i), List.append_nil]
  | cons p pre ih =>
    have next : i + (p :: pre).length = i + 1 + pre.length := by rw [List.length_cons]; omega
    rw [List.cons_append, placed_cons, seenAt_append, next, seenAt_map_of_ne _ (by omega), ih,
      List.nil_append]

theorem outputsFrom_append (log : Log) (e : Event) (pre post : List Observer) (i : Nat) :
    log.outputsFrom e (pre ++ post) i =
      log.outputsFrom e pre i ++ log.outputsFrom e post (i + pre.length) := by
  simp [outputsFrom, List.zipIdx_append]

/-- An observer is shown one echo for each echoing observer, wherever that stands. -/
theorem seenAt_outputsFrom {ds : List Delivery}
    (echoed : seenAt (placed e.echoed log.observers 0) j = ds) (os : List Observer) (i : Nat)
    (h : j < i ∨ i + os.length ≤ j) :
    seenAt (log.outputsFrom e os i) j = (List.replicate (echoes e os) ds).flatten := by
  induction os generalizing i with
  | nil => simp [outputsFrom, seenAt, echoes]
  | cons o os ih =>
    rw [List.length_cons] at h
    have rest := ih (i + 1) (by omega)
    rw [outputsFrom_cons, seenAt_append, rest]
    by_cases echoing : o = .echo ∧ e.source ≠ echoSource
    · obtain ⟨rfl, original⟩ := echoing
      rw [outputsAt, if_pos ⟨rfl, original⟩, echoed, echoes_echo_cons original,
        List.replicate_succ, List.flatten_cons]
    · have same : echoes e (o :: os) = echoes e os := by
        by_cases echo : e.source = echoSource
        · rw [echoes_of_source_eq echo, echoes_of_source_eq echo]
        · exact echoes_cons fun eq => echoing ⟨eq, echo⟩
      rw [outputsAt, if_neg echoing, seenAt_map_of_ne _ (by omega), same, List.nil_append]

/-- A recorder sees the event once, between the echoes of the observers before and after it. -/
theorem seenAt_outputs_of_recorder (reached : ¬e.severity < log.minimum) {pre post : List Observer}
    {label : Bytes} (eq : log.observers = pre ++ .recorder label :: post) :
    seenAt (log.outputs e) pre.length =
      List.replicate (echoes e pre) (.recorded label e.echoed) ++
        .recorded label e :: List.replicate (echoes e post) (.recorded label e.echoed) := by
  have echoed : seenAt (placed e.echoed log.observers 0) pre.length =
      [.recorded label e.echoed] := by
    have here := seenAt_placed e.echoed pre (.recorder label) post 0
    rwa [Nat.zero_add, ← eq] at here
  have before := seenAt_outputsFrom echoed pre 0 (by omega)
  have behind := seenAt_outputsFrom echoed post (pre.length + 1) (by omega)
  have itself : seenAt (log.outputsAt e (.recorder label) pre.length) pre.length =
      [.recorded label e] := by
    rw [outputsAt, if_neg (by simp), seenAt_map_self, Observer.deliveries]
  have flat (n : Nat) (d : Delivery) : (List.replicate n [d]).flatten = List.replicate n d := by
    simp
  have split : log.outputs e =
      log.outputsFrom e pre 0 ++ (log.outputsAt e (.recorder label) pre.length ++
        log.outputsFrom e post (pre.length + 1)) := by
    rw [outputs, if_neg reached, eq, outputsFrom_append, outputsFrom_cons, Nat.zero_add]
  rw [split, seenAt_append, seenAt_append, before, itself, behind, flat, flat, List.singleton_append]

theorem echoes_eq_add {pre post : List Observer} {label : Bytes}
    (eq : log.observers = pre ++ .recorder label :: post) :
    echoes e log.observers = echoes e pre + echoes e post := by
  by_cases echo : e.source = echoSource
  · simp [echoes_of_source_eq echo]
  · simp [eq, echoes, echo]

end View

theorem map_snd_outputsFrom (log : Log) (e : Event) (os : List Observer) (i : Nat) :
    (log.outputsFrom e os i).map Prod.snd = os.flatMap fun o =>
      if o = .echo ∧ e.source ≠ echoSource then log.observers.flatMap (·.deliveries e.echoed)
      else o.deliveries e := by
  induction os generalizing i with
  | nil => rfl
  | cons o os ih =>
    rw [outputsFrom_cons, List.map_append, ih, List.flatMap_cons, outputsAt]
    split
    · rw [map_snd_placed]
    · rw [List.map_map, Function.comp_def, List.map_id']

/-- Every emission ends, whatever the observers and their order. An event below the minimum changes
nothing. Any other is shown to each recorder once, among its echoes, and stays in the store together with
them unless an observer clears it. -/
theorem emit_reentrant (log : Log) (e : Event) :
    (∀ out after, Emits log e out after ↔ out = log.outputs e ∧ after = log.emit e) ∧
    (log.emit e).observers = log.observers ∧ (log.emit e).minimum = log.minimum ∧
    (log.emit e).deliveries = log.deliveries ++ (log.outputs e).map Prod.snd ∧
    (e.severity.code.toInt < log.minimum.code.toInt → log.emit e = log ∧ log.outputs e = []) ∧
    (log.minimum.code.toInt ≤ e.severity.code.toInt →
      (log.outputs e).map Prod.snd = log.observers.flatMap (fun o =>
        if o = .echo ∧ e.source ≠ echoSource then log.observers.flatMap (·.deliveries e.echoed)
        else o.deliveries e) ∧
      (∀ pre label post, log.observers = pre ++ .recorder label :: post →
        seenAt (log.outputs e) pre.length =
          List.replicate (echoes e pre) (.recorded label e.echoed) ++
            .recorded label e :: List.replicate (echoes e post) (.recorded label e.echoed) ∧
        (seenAt (log.outputs e) pre.length).length = 1 + echoes e log.observers) ∧
      (log.emit e).events = if .eraser ∈ log.observers then []
        else log.events ++ e :: List.replicate (echoes e log.observers) e.echoed) := by
  have low_iff : e.severity < log.minimum ↔ e.severity.code.toInt < log.minimum.code.toInt :=
    Int32.lt_iff_toInt_lt
  refine ⟨fun out after => emits_iff, (emit_frame log e).1, (emit_frame log e).2,
    deliveries_emit log e, ?_, ?_⟩
  · intro h
    have low := low_iff.2 h
    exact ⟨emit_of_lt low, if_pos low⟩
  · intro h
    have reached : ¬e.severity < log.minimum := fun low => absurd (low_iff.1 low) (by omega)
    refine ⟨?_, ?_, events_emit reached⟩
    · rw [outputs, if_neg reached]
      exact map_snd_outputsFrom log e log.observers 0
    · intro pre label post eq
      have seen := seenAt_outputs_of_recorder reached eq
      refine ⟨seen, ?_⟩
      rw [seen, echoes_eq_add eq, List.length_append, List.length_cons, List.length_replicate,
        List.length_replicate]
      omega

/-- Between two echoing observers a recorder is shown the event second. -/
example :
    let log : Log := { observers := [.echo, .recorder [97], .eraser, .echo] }
    let e : Event := ⟨.error, [98], [], [99]⟩
    seenAt (log.outputs e) 1 =
        [.recorded [97] e.echoed, .recorded [97] e, .recorded [97] e.echoed] ∧
      (log.emit e).events = [] := by
  decide

end Log

end Hypertext
