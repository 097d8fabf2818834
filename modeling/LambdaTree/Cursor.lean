/-
  LambdaTree.Cursor

  A cursor is a place in a sequence that is shared and never changes; it stands
  for what lies from there on. Moving a cursor changes its offset only.
-/

import LambdaTree.Sequence

namespace LambdaTree

structure Cursor (ι : Type) where
  data : Sequence ι
  offset : Int

namespace Cursor

variable {ι : Type}

/-- The cursor at the start of some symbols. -/
def ofArray (symbols : Array ι) : Cursor ι :=
  ⟨.symbols symbols, 0⟩

/-- What lies from the cursor on. -/
def toSequence (cursor : Cursor ι) : Sequence ι :=
  .view cursor.data cursor.offset

/-- How far the end of the data is from the offset. -/
def size (cursor : Cursor ι) : Int :=
  cursor.toSequence.size

/-- The number of symbols from the offset on. -/
def length (cursor : Cursor ι) : Except Fault Nat :=
  cursor.toSequence.length

/-- Moves the offset, but not beyond the end of the data. -/
def advance (cursor : Cursor ι) (count : Int) : Except Fault (Cursor ι) := do
  let length ← cursor.data.length
  return { cursor with offset := min (cursor.offset + count) length }

/-- The symbol at an index from the offset on, which counts from the end when negative. -/
def get [Symbol ι] (cursor : Cursor ι) (index : Int) : Except Fault ι :=
  cursor.toSequence.get index

/-- The first symbols, as many as there are up to `count`. -/
def head (cursor : Cursor ι) (count : Nat) : List ι :=
  let start := Slice.startAt cursor.offset cursor.data.content
  (cursor.data.content.extract start (start + count)).toList

/-- The data from the offset on. -/
def rest (cursor : Cursor ι) : Array ι :=
  cursor.toSequence.content

/-- The symbols of a slice of the data from the offset on. -/
def slice (cursor : Cursor ι) (slice : Slice) : Except Fault (List ι) :=
  slice.pick cursor.rest

/-- The symbols one after another. -/
def walk [Symbol ι] (cursor : Cursor ι) : Sequence.Walk ι :=
  match cursor.data.length with
  | .ok length => cursor.data.walkFrom (length - cursor.offset).toNat cursor.offset
  | .error fault => ⟨[], some fault⟩

def toList [Symbol ι] (cursor : Cursor ι) : Except Fault (List ι) := do
  let _ ← cursor.length
  cursor.walk.toList

/-- The first `count` symbols from the last to the first. -/
def backFrom [Symbol ι] (cursor : Cursor ι) : (count : Nat) → Except Fault (List ι)
  | 0 => .ok []
  | count + 1 => do
    let symbol ← cursor.get count
    let others ← cursor.backFrom count
    return symbol :: others

/-- The symbols from the last to the first. -/
def reversed [Symbol ι] (cursor : Cursor ι) : Except Fault (List ι) := do
  cursor.backFrom (← cursor.length)

/-- Whether some symbol passes a test; the symbols behind the first that does are not
    asked for. -/
def any [Symbol ι] (cursor : Cursor ι) (test : ι → Bool) : Except Fault Bool :=
  cursor.walk.any test

/-- How many symbols pass a test. -/
def count [Symbol ι] (cursor : Cursor ι) (test : ι → Bool) : Except Fault Nat :=
  List.countP test <$> cursor.walk.toList

/-- The first place from `index` on, and before `stop`, whose symbol passes a test. The
    search ends at the first place that the cursor does not have. -/
def search [Symbol ι] (cursor : Cursor ι) (test : ι → Bool) (stop : Option Int) :
    (bound : Nat) → (index : Int) → Except Fault Int
  | 0, _ => .error .absent
  | bound + 1, index =>
    if stop.all (index < ·) then
      match cursor.get index with
      | .ok symbol => if test symbol then .ok index else cursor.search test stop bound (index + 1)
      | .error (.badIndex _) => .error .absent
      | .error (.outOfRange _) => .error .absent
      | .error fault => .error fault
    else
      .error .absent

/-- The first place in a range whose symbol passes a test. Ends of the range that are
    negative count from the end of the cursor. -/
def find [Symbol ι] (cursor : Cursor ι) (test : ι → Bool) (start : Int) (stop : Option Int) :
    Except Fault Int := do
  let start ← if start < 0 then (fun n : Nat => max (n + start) 0) <$> cursor.length else pure start
  let stop ← match stop with
    | some place =>
      if place < 0 then (fun n : Nat => some (n + place)) <$> cursor.length else pure (some place)
    | none => pure none
  cursor.search test stop (cursor.size.toNat + 1) start

end Cursor

end LambdaTree
