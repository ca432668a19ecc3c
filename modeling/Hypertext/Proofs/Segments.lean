import Hypertext.Proofs.Markup

/-!
# Texts written in segments

However a text is written, byte by byte, in runs or as a whole where nothing is to be encoded, the same
bytes come out behind what there was before (`Entity.writings_agree`). The runs are cut at just the bytes
that have an entity, so that nothing is lost or repeated between them (`Entity.tiles_segments`).
-/

namespace Hypertext

theorem Sink.writeAll_eq (s : Sink) (chunks : List Bytes) : s.writeAll chunks = s.write chunks.flatten := by
  rw [writeAll]
  induction chunks generalizing s with
  | nil => exact s.write_nil.symm
  | cons chunk chunks ih => rw [List.foldl_cons, ih, List.flatten_cons, write_append]

namespace Entity

/-- The segments cover the text from `start` on: each run goes up to the next byte that has an entity,
whose entity follows, or up to the end. -/
inductive Tiles (text : Bytes) : Nat → List Segment → Prop
  | last {start : Nat} (inside : start ≤ text.length)
      (plain : ∀ b ∈ (Segment.run start text.length).bytes text, replacement? b = none) :
      Tiles text start [.run start text.length]
  | next {start stop : Nat} {b : UInt8} {entity : Bytes} {rest : List Segment} (inside : start ≤ stop)
      (plain : ∀ b ∈ (Segment.run start stop).bytes text, replacement? b = none)
      (special : text[stop]? = some b) (replaced : replacement? b = some entity)
      (others : Tiles text (stop + 1) rest) :
      Tiles text start (.run start stop :: .entity entity :: rest)

variable {text : Bytes}

theorem drop_eq_cons {here : Nat} {b : UInt8} {rest : Bytes} (h : text.drop here = b :: rest) :
    text[here]? = some b ∧ text.drop (here + 1) = rest := by
  constructor
  · rw [← List.head?_drop, h, List.head?_cons]
  · rw [← List.tail_drop, h, List.tail_cons]

theorem bytes_run_succ {start stop : Nat} {b : UInt8} (inside : start ≤ stop)
    (found : text[stop]? = some b) :
    (Segment.run start (stop + 1)).bytes text = (Segment.run start stop).bytes text ++ [b] := by
  have length : stop + 1 - start = stop - start + 1 := by omega
  have place : (text.drop start)[stop - start]? = some b := by
    rw [List.getElem?_drop, Nat.add_sub_cancel' inside, found]
  rw [Segment.bytes, Segment.bytes, length, List.take_add_one, place, Option.toList_some]

/-- The open run is what the loop has seen since the last entity. -/
theorem tiles_segmentsFrom {start here : Nat} {rest : Bytes} (begun : start ≤ here)
    (inside : here ≤ text.length) (ahead : text.drop here = rest)
    (plain : ∀ b ∈ (Segment.run start here).bytes text, replacement? b = none) :
    Tiles text start (segmentsFrom start here rest) := by
  induction rest generalizing start here with
  | nil =>
    have finished : here = text.length := Nat.le_antisymm inside (List.drop_eq_nil_iff.1 ahead)
    subst finished
    exact .last begun plain
  | cons b rest ih =>
    obtain ⟨found, ahead⟩ := drop_eq_cons ahead
    have within : here + 1 ≤ text.length := (List.getElem?_eq_some_iff.1 found).1
    rw [segmentsFrom]
    cases replaced : replacement? b with
    | none =>
      refine ih (by omega) within ahead ?_
      rw [bytes_run_succ begun found]
      simpa [or_imp, forall_and, replaced] using plain
    | some entity =>
      refine .next begun plain found replaced (ih (Nat.le_refl _) within ahead ?_)
      simp [Segment.bytes]

theorem tiles_segments (text : Bytes) : Tiles text 0 (segments text) :=
  tiles_segmentsFrom (Nat.le_refl 0) (Nat.zero_le _) rfl (by simp [Segment.bytes])

/-- Both bounds of a run are places of the text, in order. -/
theorem Tiles.inside {start : Nat} {segments : List Segment} (h : Tiles text start segments)
    {first last : Nat} (run : .run first last ∈ segments) : first ≤ last ∧ last ≤ text.length := by
  induction h with
  | last inside _ =>
    cases List.mem_singleton.1 run
    exact ⟨inside, Nat.le_refl _⟩
  | next inside _ special _ _ ih =>
    simp only [List.mem_cons, reduceCtorEq, false_or, Segment.run.injEq] at run
    rcases run with ⟨rfl, rfl⟩ | run
    · exact ⟨inside, Nat.le_of_lt (List.getElem?_eq_some_iff.1 special).1⟩
    · exact ih run

theorem Tiles.flatMap_bytes {start : Nat} {segments : List Segment} (h : Tiles text start segments) :
    segments.flatMap (Segment.bytes text) = encode (text.drop start) := by
  induction h with
  | @last start inside plain =>
    have whole : (Segment.run start text.length).bytes text = text.drop start := by
      rw [Segment.bytes, ← List.length_drop, List.take_length]
    rw [whole] at plain
    rw [List.flatMap_singleton, whole, encode_of_plain plain]
  | @next start stop b entity rest inside plain special replaced others ih =>
    have split : text.drop start =
        (Segment.run start stop).bytes text ++ b :: text.drop (stop + 1) := by
      obtain ⟨within, found⟩ := List.getElem?_eq_some_iff.1 special
      have behind : text.drop stop = (text.drop start).drop (stop - start) := by
        rw [List.drop_drop, Nat.add_sub_cancel' inside]
      rw [Segment.bytes, ← found, ← List.drop_eq_getElem_cons within, behind, List.take_append_drop]
    rw [List.flatMap_cons, List.flatMap_cons, ih, split, encode_append, encode_of_plain plain,
      encode_cons, encodeByte, replaced]
    rfl

/-- The chunks that are written in a row are no other than one. -/
theorem writeTo_eq (sink : Sink) (text : Bytes) : writeTo sink text = sink.write (encode text) := by
  rw [writeTo, Sink.writeAll_eq, ← List.flatMap_def, (tiles_segments text).flatMap_bytes, List.drop_zero]

/-- Behind whatever a buffer or an unlimited sink holds, every way of writing a text adds its bytes one by
one, those that have an entity as their entity; and any sink takes the runs and entities as it takes them
in one piece. No run has its bounds outside the text or in the wrong order. -/
theorem writings_agree (text stored : Bytes) :
    let written := text.flatMap fun b => match replacement? b with
      | some entity => entity
      | none => [b]
    Tiles text 0 (segments text) ∧
      (∀ start stop, .run start stop ∈ segments text → start ≤ stop ∧ stop ≤ text.length) ∧
      encode text = written ∧
      (appendTo stored.toArray text).toList = stored ++ written ∧
      (writeTo { stored := stored.toArray } text).contents = stored ++ written ∧
      (∀ sink : Sink, writeTo sink text = sink.write written) ∧
      ∀ (layout : Layout) (totals : Totals),
        (∀ sink : Sink, ({ layout, sink, totals } : Serializer).putText text =
          { layout, sink := sink.write written
            totals := { totals with bytes := totals.bytes + written.length } }) ∧
        (({ layout, sink := { stored := stored.toArray }, totals } : Serializer).putText
          text).sink.contents = stored ++ written := by
  intro written
  have encoded : encode text = written := by
    refine congrArg (text.flatMap ·) (funext fun b => ?_)
    rw [encodeByte]
    cases replacement? b <;> rfl
  have unlimited : (({ stored := stored.toArray } : Sink).write written).contents = stored ++ written :=
    (Sink.contents_write_unlimited rfl rfl written).1
  refine ⟨tiles_segments text, fun start stop run => (tiles_segments text).inside run, encoded, ?_, ?_,
    fun sink => ?_, fun layout totals => ⟨fun sink => ?_, ?_⟩⟩
  · rw [toList_appendTo, encoded]
  · rw [writeTo_eq, encoded, unlimited]
  · rw [writeTo_eq, encoded]
  · rw [Serializer.putText_eq, encoded]
    rfl
  · rw [Serializer.putText_eq, encoded]
    exact unlimited

/-- Between entities that meet, and at both ends, the runs are empty. -/
theorem writings_agree_crowded :
    let text := Bytes.ascii "<<a>"
    segments text = [.run 0 0, .entity (Bytes.ascii "&lt;"), .run 1 1, .entity (Bytes.ascii "&lt;"),
        .run 2 3, .entity (Bytes.ascii "&gt;"), .run 4 4] ∧
      .run 4 4 ∈ segments text ∧ 4 ≤ 4 ∧ 4 ≤ text.length := by
  intro text
  have last : .run 4 4 ∈ segments text := by decide
  exact ⟨by decide, last, (writings_agree text []).2.1 4 4 last⟩

end Entity

end Hypertext
