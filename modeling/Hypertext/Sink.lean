import Hypertext.Bytes

/-! # Sinks

A sink stores what is written to it up to its capacity. The chunk that does not fit is stored as far as
it fits and makes the sink fail; a failed sink stores nothing more. An empty chunk always fits.
-/

namespace Hypertext

structure Sink where
  capacity : Option Nat := none
  failed : Bool := false
  stored : Array UInt8 := #[]
  deriving DecidableEq

namespace Sink

def contents (s : Sink) : Bytes := s.stored.toList

/-- How much of a chunk the sink takes. -/
def room (s : Sink) (chunk : Bytes) : Nat :=
  if s.failed then 0 else match s.capacity with
    | none => chunk.length
    | some capacity => min chunk.length (capacity - s.stored.size)

def write (s : Sink) (chunk : Bytes) : Sink :=
  if s.failed then s else
    let room := s.room chunk
    { s with stored := s.stored ++ chunk.take room, failed := decide (room < chunk.length) }

def writeAll (s : Sink) (chunks : List Bytes) : Sink := chunks.foldl write s

theorem write_of_failed {s : Sink} (h : s.failed = true) (chunk : Bytes) : s.write chunk = s := by
  simp [write, h]

@[simp] theorem capacity_write (s : Sink) (chunk : Bytes) : (s.write chunk).capacity = s.capacity := by
  unfold write
  split <;> rfl

theorem contents_write (s : Sink) (chunk : Bytes) :
    (s.write chunk).contents = s.contents ++ chunk.take (s.room chunk) := by
  unfold write
  split
  · rename_i h
    simp [room, h]
  · simp [contents]

theorem contents_write_unlimited {s : Sink} (free : s.capacity = none) (good : s.failed = false)
    (chunk : Bytes) :
    (s.write chunk).contents = s.contents ++ chunk ∧ (s.write chunk).failed = false := by
  constructor
  · simp [contents_write, room, free, good]
  · simp [write, room, free, good]

end Sink

end Hypertext
