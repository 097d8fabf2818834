/-
  LambdaTree.Parser.Table

  Answers of parsers and the table in which they are remembered. An answer is
  found under the cell that it was put in and the length of the input that it
  was given for. The entries for one length are kept together, so that a
  search does not go through the others.
-/

import LambdaTree.Parser.Basic
import LambdaTree.Parser.Diagnostic
import Std.Data.TreeMap

namespace LambdaTree

/-- The answer of a parser: a value and the input behind what was read, or a diagnostic
    and the place that it is about. -/
inductive Reply (ι α : Type) where
  | success (value : α) (rest : Input ι)
  | failure (diagnostic : Diagnostic) (rest : Input ι)

namespace Reply

variable {ι α β : Type}

def map (change : α → β) : Reply ι α → Reply ι β
  | .success value rest => .success (change value) rest
  | .failure diagnostic rest => .failure diagnostic rest

end Reply

/-- An answer in a cell. -/
structure Entry (ι : Type) (σ : Signature) where
  cell : σ.Cell
  reply : Reply ι (σ.cellValue cell)

namespace Entry

variable {ι : Type} {σ : Signature}

/-- The first answer that was put in a cell. -/
def lookup (cell : σ.Cell) : List (Entry ι σ) → Option (Reply ι (σ.cellValue cell))
  | [] => none
  | entry :: entries =>
    if same : entry.cell = cell then some (same ▸ entry.reply) else lookup cell entries

end Entry

/-- Remembered answers by the length of the input. -/
structure Table (ι : Type) (σ : Signature) where
  byLength : Std.TreeMap Nat (List (Entry ι σ))

namespace Table

variable {ι : Type} {σ : Signature}

def empty : Table ι σ :=
  ⟨∅⟩

/-- The entries for a length. -/
def entries (table : Table ι σ) (length : Nat) : List (Entry ι σ) :=
  table.byLength.getD length []

/-- The answer in a cell for a length. -/
def find? (table : Table ι σ) (cell : σ.Cell) (length : Nat) :
    Option (Reply ι (σ.cellValue cell)) :=
  Entry.lookup cell (table.entries length)

/-- Puts an answer in a cell for a length. -/
def insert (table : Table ι σ) (cell : σ.Cell) (length : Nat) (reply : Reply ι (σ.cellValue cell)) :
    Table ι σ :=
  ⟨table.byLength.insert length (⟨cell, reply⟩ :: table.entries length)⟩

@[simp] theorem find?_empty (cell : σ.Cell) (length : Nat) :
    (empty : Table ι σ).find? cell length = none := by
  simp [find?, entries, empty, Entry.lookup]

theorem entries_insert (table : Table ι σ) (cell : σ.Cell) (length n : Nat)
    (reply : Reply ι (σ.cellValue cell)) :
    (table.insert cell length reply).entries n =
      if n = length then ⟨cell, reply⟩ :: table.entries length else table.entries n := by
  simp only [entries, insert, Std.TreeMap.getD_insert, Nat.compare_eq_eq]
  by_cases same : n = length
  · simp [same]
  · have : length ≠ n := fun h => same h.symm
    simp [same, this]

/-- What was put in a cell for a length is found there. -/
@[simp] theorem find?_insert_self (table : Table ι σ) (cell : σ.Cell) (length : Nat)
    (reply : Reply ι (σ.cellValue cell)) :
    (table.insert cell length reply).find? cell length = some reply := by
  simp [find?, entries_insert, Entry.lookup]

/-- What is in other cells, or for other lengths, stays. -/
theorem find?_insert_of_ne (table : Table ι σ) {cell other : σ.Cell} {length n : Nat}
    (reply : Reply ι (σ.cellValue cell)) (differ : ¬(other = cell ∧ n = length)) :
    (table.insert cell length reply).find? other n = table.find? other n := by
  rw [find?, find?, entries_insert]
  by_cases same : n = length
  · have apart : cell ≠ other := fun h => differ ⟨h.symm, same⟩
    simp [same, Entry.lookup, apart]
  · simp [same]

end Table

end LambdaTree
