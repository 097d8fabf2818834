/-
  LambdaTree.Sequence

  Sequences of symbols that are never changed: the symbols themselves, or what
  lies in another sequence from an offset on. The offset may be any integer.
  Beyond the end a view has no length, and most of what it is asked is at
  fault; before the start the offset counts from the end of the data.
-/

import LambdaTree.Symbol

namespace LambdaTree

inductive Sequence (ι : Type) where
  | symbols (data : Array ι)
  | view (data : Sequence ι) (offset : Int)

namespace Sequence

variable {ι : Type}

/-- How far the end is from the start, which is negative for a view beyond the end. -/
def size : Sequence ι → Int
  | .symbols data => data.size
  | .view data offset => data.size - offset

/-- The length of what lies from an offset on in data of some length. -/
def lengthFrom (offset : Int) (length : Nat) : Except Fault Nat :=
  if offset ≤ length then .ok (length - offset).toNat else .error .negativeLength

/-- The number of symbols. -/
def length : Sequence ι → Except Fault Nat
  | .symbols data => .ok data.size
  | .view data offset => data.length >>= lengthFrom offset

/-- The symbol at an index, which counts from the end when negative. -/
def get [Symbol ι] : Sequence ι → Int → Except Fault ι
  | .symbols data, index =>
    match (position? data.size index).bind (data[·]?) with
    | some symbol => .ok symbol
    | none => .error (.outOfRange (Symbol.container ι))
  | .view data offset, index => do
    let length ← data.length >>= lengthFrom offset
    let place := if index < 0 then index + length else index
    if 0 ≤ place ∧ place < length then
      data.get (offset + place)
    else
      .error (.badIndex place)

/-- The symbols as slices see them: those of the data from the offset on, with an offset
    before the start counted from the end. -/
def content : Sequence ι → Array ι
  | .symbols data => data
  | .view data offset => Slice.dropTo offset data.content

/-- Symbols asked for one after another, up to the first fault if there is one. -/
structure Walk (ι : Type) where
  symbols : List ι
  fault : Option Fault

/-- Asks for `count` symbols from an index on. -/
def walkFrom [Symbol ι] (data : Sequence ι) : (count : Nat) → (index : Int) → Walk ι
  | 0, _ => ⟨[], none⟩
  | count + 1, index =>
    match data.get index with
    | .ok symbol =>
      let others := data.walkFrom count (index + 1)
      ⟨symbol :: others.symbols, others.fault⟩
    | .error fault => ⟨[], some fault⟩

namespace Walk

/-- All symbols, when no fault came between. -/
def toList (walk : Walk ι) : Except Fault (List ι) :=
  match walk.fault with
  | none => .ok walk.symbols
  | some fault => .error fault

/-- Whether some symbol passes a test; a fault behind the first that does is not met. -/
def any (walk : Walk ι) (test : ι → Bool) : Except Fault Bool :=
  if walk.symbols.any test then .ok true else (fun _ => false) <$> walk.toList

/-- Compares symbols pairwise, up to the first difference or to the fault behind the
    symbols of either side. -/
def agree [Symbol ι] [Symbol κ] (left right : Option Fault) :
    List ι → List κ → Except Fault Bool
  | [], _ =>
    match left with
    | none => .ok true
    | some fault => .error fault
  | _ :: _, [] =>
    match right with
    | none => .ok true
    | some fault => .error fault
  | a :: lefts, b :: rights =>
    if (Symbol.item a).same (Symbol.item b) then agree left right lefts rights else .ok false

/-- Whether two walks of one length yield the same items. -/
def same [Symbol ι] [Symbol κ] (left : Walk ι) (right : Walk κ) : Except Fault Bool :=
  agree left.fault right.fault left.symbols right.symbols

end Walk

end Sequence

end LambdaTree
