/-
  LambdaTree.Term.Shape

  Terms as lists of their nodes. The labels of the nodes in pre-order determine
  the term, since each kind of node has a fixed number of children; so two
  terms are the same up to notes when their bare labels are, and a term can be
  read back from its labels.
-/

import LambdaTree.Slice
import LambdaTree.Term.Fold

namespace LambdaTree

variable {α : Type}

/-- A node without its children. -/
inductive Label (α : Type) where
  | var (note : α) (name : String)
  | abs (note : α) (binder : String)
  | app (note : α)
deriving DecidableEq

/-- A label without its note. -/
def Label.bare : Label α → Label Unit
  | .var _ name => .var () name
  | .abs _ binder => .abs () binder
  | .app _ => .app ()

namespace Term

/-- The label of the topmost node. -/
def label : Term α → Label α
  | .var note name => .var note name
  | .abs note binder _ => .abs note binder
  | .app note _ _ => .app note

/-- The labels of all nodes of some terms, in pre-order. -/
def labelsOf : List (Term α) → List (Label α)
  | [] => []
  | t :: rest => t.label :: labelsOf (t.children ++ rest)
termination_by terms => sizes terms
decreasing_by exact sizes_children_append_lt t rest

/-- The labels of all nodes in pre-order: a node before its children, the function
    before the argument. -/
def labels (t : Term α) : List (Label α) :=
  labelsOf [t]

/-- The bare labels in pre-order. -/
def shape (t : Term α) : List (Label Unit) :=
  t.labels.map Label.bare

/-- Whether two terms are the same but for their notes. -/
def same (t : Term α) (u : Term β) : Bool :=
  t.shape = u.shape

/-- Puts a label on top of the terms that follow it. -/
def graft : Label α → List (Term α) → Option (List (Term α))
  | .var note name, terms => some (.var note name :: terms)
  | .abs note binder, body :: terms => some (.abs note binder body :: terms)
  | .app note, func :: arg :: terms => some (.app note func arg :: terms)
  | _, _ => none

/-- The terms whose labels stand one after another in a list. -/
def termsOfLabels : List (Label α) → Option (List (Term α))
  | [] => some []
  | label :: labels => (termsOfLabels labels).bind (graft label)

/-- The term with the given labels in pre-order, if there is one. -/
def ofLabels? (labels : List (Label α)) : Option (Term α) :=
  match termsOfLabels labels with
  | some [t] => some t
  | _ => none

/-- How many different terms a list holds, up to notes. -/
def distinct (terms : List (Term α)) : Nat :=
  (terms.map shape).eraseDups.length

/-- The child at a place, which counts from the end when negative. -/
def child (t : Term α) (index : Int) : Except Fault (Term α) :=
  match (position? t.children.length index).bind (t.children[·]?) with
  | some child => .ok child
  | none => .error (.outOfRange .children)

end Term

end LambdaTree
