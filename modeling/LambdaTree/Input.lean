/-
  LambdaTree.Input

  The input of a parser: a plain sequence, or a cursor. Both answer the same
  questions, and a parser works on either.
-/

import LambdaTree.Cursor

namespace LambdaTree

inductive Input (ι : Type) where
  | plain (symbols : List ι)
  | view (cursor : Cursor ι)

namespace Input

variable {ι : Type}

/-- The input at the start of a sequence, as a cursor. A cursor stays as it is. -/
def toCursor : Input ι → Input ι
  | .plain symbols => .view (.ofArray symbols.toArray)
  | .view cursor => .view cursor

/-- The number of symbols, zero when there is no such number. -/
def size : Input ι → Nat
  | .plain symbols => symbols.length
  | .view cursor => cursor.size.toNat

@[inline] def length : Input ι → Except Fault Nat
  | .plain symbols => .ok symbols.length
  | .view cursor => cursor.length

/-- Whether there are more than `limit` symbols, found without counting all of them. -/
def exceeds (limit : Nat) : Input ι → Except Fault Bool
  | .plain symbols => .ok !(symbols.drop limit).isEmpty
  | .view cursor => (fun length => decide (limit < length)) <$> cursor.length

theorem exceeds_eq (limit : Nat) (input : Input ι) :
    input.exceeds limit = (fun length => decide (limit < length)) <$> input.length := by
  cases input with
  | plain symbols =>
    have : (!(symbols.drop limit).isEmpty) = decide (limit < symbols.length) := by
      rw [Bool.eq_iff_iff]
      simp
    simp [exceeds, length, this, Functor.map, Except.map]
  | view cursor => rfl

/-- The first symbol. -/
def first [Symbol ι] : Input ι → Except Fault ι
  | .plain [] => .error (.outOfRange (Symbol.container ι))
  | .plain (symbol :: _) => .ok symbol
  | .view cursor => cursor.get 0

/-- The input behind the first symbol. -/
def rest : Input ι → Except Fault (Input ι)
  | .plain symbols => .ok (.plain symbols.tail)
  | .view cursor => .view <$> cursor.advance 1

/-- The first symbols, as many as there are up to `count`. -/
def head : Input ι → Nat → List ι
  | .plain symbols, count => symbols.take count
  | .view cursor, count => cursor.head count

/-- All symbols. -/
def symbols : Input ι → List ι
  | .plain symbols => symbols
  | .view cursor => cursor.rest.toList

/-- The symbols one after another. -/
def walk [Symbol ι] : Input ι → Sequence.Walk ι
  | .plain symbols => ⟨symbols, none⟩
  | .view cursor => cursor.walk

def toList [Symbol ι] : Input ι → Except Fault (List ι)
  | .plain symbols => .ok symbols
  | .view cursor => cursor.toList

/-- How many symbols a message shows. -/
def previewLimit : Nat := 16

/-- The first symbols as a message shows them, with a mark when there are more. -/
def preview [Symbol ι] (input : Input ι) : Except Fault String := do
  let shown := Symbol.preview (input.head previewLimit)
  return if ← input.exceeds previewLimit then shown ++ " ..." else shown

/-- Whether two inputs hold the same items in the same order. -/
def same [Symbol ι] [Symbol κ] (left : Input ι) (right : Input κ) : Except Fault Bool := do
  let n ← left.length
  let m ← right.length
  if n = m then left.walk.same right.walk else return false

end Input

end LambdaTree
