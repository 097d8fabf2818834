/-
  LambdaTree.Term.Basic

  Terms of the lambda calculus as trees. Every node carries a note, which says
  something about the node and is no part of the term: the slot for it is empty
  on every node of a term that was read, and holds a size in a term that was
  laid out.
-/

namespace LambdaTree

/-- A term whose nodes carry notes of type `α`. -/
inductive Term (α : Type) where
  | var (note : α) (name : String)
  | abs (note : α) (binder : String) (body : Term α)
  | app (note : α) (func arg : Term α)
deriving DecidableEq

namespace Term

variable {α : Type}

/-- The note of the topmost node. -/
def note : Term α → α
  | .var note _ => note
  | .abs note _ _ => note
  | .app note _ _ => note

/-- The terms right below the topmost node, from left to right. -/
def children : Term α → List (Term α)
  | .var _ _ => []
  | .abs _ _ body => [body]
  | .app _ func arg => [func, arg]

/-- The same term with changed notes. -/
def mapNotes (change : α → β) : Term α → Term β
  | .var note name => .var (change note) name
  | .abs note binder body => .abs (change note) binder (body.mapNotes change)
  | .app note func arg => .app (change note) (func.mapNotes change) (arg.mapNotes change)

/-- The number of nodes, by recursion on the tree. -/
def size : Term α → Nat
  | .var _ _ => 1
  | .abs _ _ body => 1 + body.size
  | .app _ func arg => 1 + (func.size + arg.size)

theorem size_pos (t : Term α) : 0 < t.size := by
  cases t <;> simp only [size] <;> omega

/-- The number of nodes of some terms together. -/
def sizes : List (Term α) → Nat
  | [] => 0
  | t :: terms => t.size + sizes terms

theorem sizes_append (left right : List (Term α)) :
    sizes (left ++ right) = sizes left + sizes right := by
  induction left with
  | nil => simp [sizes]
  | cons t left ih =>
    simp only [List.cons_append, sizes, ih]
    omega

/-- A node has one more node than its children together. -/
theorem size_eq_children (t : Term α) : t.size = 1 + sizes t.children := by
  cases t <;> simp [size, children, sizes]

/-- Replacing a term by its children leaves fewer nodes. -/
theorem sizes_children_append_lt (t : Term α) (rest : List (Term α)) :
    sizes (t.children ++ rest) < sizes (t :: rest) := by
  rw [sizes_append, sizes, size_eq_children]
  omega

end Term

end LambdaTree
