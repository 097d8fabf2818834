/-
  LambdaTree.Term.Note

  Terms whose nodes may carry a note of one of several kinds, or none. A term
  that was read has `none` on every node; notes come of sizing it, or are put
  there by others.
-/

import LambdaTree.Term.Layout

namespace LambdaTree

/-- What a node may carry. -/
inductive Note where
  | number (value : Int)
  | text (value : String)
  /-- A size whose root is given by the bits of a binary floating point number, of which
      none may be lost. -/
  | size (value : Size UInt64)
deriving DecidableEq

/-- A size in floating point as a note. -/
def Note.ofSize (size : Size Float) : Note :=
  .size (size.mapRoot Float.toBits)

namespace Term

variable {α : Type}

/-- The same term without notes. -/
def strip (t : Term α) : Term (Option Note) :=
  t.annotate none

/-- The same term with its sizes as notes, whatever it carried before. -/
def sized (t : Term α) : Term (Option Note) :=
  match h : t.withSizes Columns.float with
  | .ok sized => sized.mapNotes (Option.map Note.ofSize)
  | .error _ => nomatch (t.withSizes_eq_ok Columns.float).symm.trans h

theorem sized_of_withSizes {t : Term α} {sized : Term (Option (Size Float))}
    (h : t.withSizes Columns.float = .ok sized) :
    t.sized = sized.mapNotes (Option.map Note.ofSize) := by
  unfold Term.sized
  split
  · rename_i result hresult
    cases hresult.symm.trans h
    rfl
  · rename_i fault hfault
    cases hfault.symm.trans h

end Term

end LambdaTree
