/-
  LambdaTree.Slice

  Positions in a sequence given by integers. An index below zero counts from
  the end. A slice names a start, a stop and a step, each of which may be left
  out; its ends are brought into the sequence, so that only a step of zero is
  at fault.
-/

import LambdaTree.Fault

namespace LambdaTree

/-- The position that an index names in a sequence of `size` elements, if it has one. -/
def position? (size : Nat) (index : Int) : Option Nat :=
  let place := if index < 0 then index + size else index
  if 0 ≤ place ∧ place < size then some place.toNat else none

/-- A start, a stop and a step. -/
structure Slice where
  start : Option Int
  stop : Option Int
  step : Option Int
deriving DecidableEq

namespace Slice

/-- An end of a slice inside a sequence of `size` elements: counted from the end when
    negative, then brought between `low` and `high`. -/
def clamp (size : Nat) (low high : Int) (index : Int) : Int :=
  let place := if index < 0 then index + size else index
  max low (min place high)

/-- The first position, the excluded last position and the step of a slice of a
    sequence of `size` elements. -/
def bounds (slice : Slice) (size : Nat) : Except Fault (Int × Int × Int) :=
  let step := slice.step.getD 1
  if step = 0 then
    .error .zeroStep
  else if 0 < step then
    .ok ((slice.start.map (clamp size 0 size)).getD 0,
      (slice.stop.map (clamp size 0 size)).getD size, step)
  else
    .ok ((slice.start.map (clamp size (-1) (size - 1))).getD (size - 1),
      (slice.stop.map (clamp size (-1) (size - 1))).getD (-1), step)

/-- How many steps lead from `start` to before `stop`. -/
def count (start stop step : Int) : Nat :=
  if 0 < step then
    if start < stop then ((stop - start - 1) / step + 1).toNat else 0
  else
    if stop < start then ((start - stop - 1) / (-step) + 1).toNat else 0

/-- The elements that a slice picks out of a sequence. -/
def pick (slice : Slice) (data : Array ι) : Except Fault (List ι) := do
  let (start, stop, step) ← slice.bounds data.size
  return (List.range (count start stop step)).filterMap fun (i : Nat) =>
    data[(start + i * step).toNat]?

/-- The elements from `start` to before `stop`, each end counted from the end of the
    sequence when negative. -/
def between (start stop : Int) (data : List ι) : List ι :=
  let first := (clamp data.length 0 data.length start).toNat
  let last := (clamp data.length 0 data.length stop).toNat
  (data.take last).drop first

/-- The position where the elements from an index on start. -/
def startAt (index : Int) (data : Array ι) : Nat :=
  (clamp data.size 0 data.size index).toNat

/-- The elements from an index on, which counts from the end when negative. -/
def dropTo (index : Int) (data : Array ι) : Array ι :=
  data.extract (startAt index data) data.size

end Slice

end LambdaTree
