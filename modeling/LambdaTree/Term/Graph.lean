/-
  LambdaTree.Term.Graph

  A term as a list of numbered nodes and the links between them, for programs
  that draw it. The nodes are numbered in pre-order, and their numbers written
  in decimal.
-/

import LambdaTree.Term.Shape

namespace LambdaTree

/-- The kind of a drawn node. -/
inductive Graph.Kind where
  | app
  | lam
  | var
deriving DecidableEq

def Graph.Kind.name : Graph.Kind → String
  | .app => "app"
  | .lam => "lam"
  | .var => "var"

/-- A numbered node, with its name or binder if it has one. -/
structure Graph.Node where
  id : String
  kind : Graph.Kind
  value : Option String
deriving DecidableEq

/-- From a node to one of its children. -/
structure Graph.Link where
  source : String
  target : String
deriving DecidableEq

structure Graph where
  nodes : List Graph.Node
  links : List Graph.Link
deriving DecidableEq

namespace Graph

variable {α : Type}

/-- The topmost node of a term under an id. -/
def node (id : String) : Term α → Node
  | .var _ name => ⟨id, .var, some name⟩
  | .abs _ binder _ => ⟨id, .lam, some binder⟩
  | .app _ _ _ => ⟨id, .app, none⟩

/-- Numbers the nodes of terms that stand below the given parents, from `id` on. -/
def number (id : Nat) : List (Term α × Option String) → Graph
  | [] => ⟨[], []⟩
  | (t, parent) :: rest =>
    let graph := number (id + 1) (t.children.map (fun child => (child, some id.repr)) ++ rest)
    ⟨node id.repr t :: graph.nodes,
      (parent.map fun source => ⟨source, id.repr⟩).toList ++ graph.links⟩
termination_by entries => Term.sizes (entries.map Prod.fst)
decreasing_by
  have fewer := t.sizes_children_append_lt (rest.map Prod.fst)
  simpa [Function.comp_def] using fewer

end Graph

/-- The graph of a term. -/
def Term.graph (t : Term α) : Graph :=
  Graph.number 0 [(t, none)]

end LambdaTree
