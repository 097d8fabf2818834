/-
  LambdaTree.Term.Measure

  Numbers that measure a term.
-/

import LambdaTree.Term.Fold

namespace LambdaTree

namespace Term

variable {α : Type}

/-- The number of nodes on the longest way from the top to a leaf. -/
def depth (t : Term α) : Nat :=
  t.fold (fun _ body => 1 + body) (fun func arg => 1 + max func arg) (fun _ => 1)

/-- The number of occurrences of variables. -/
def leafCount (t : Term α) : Nat :=
  t.fold (fun _ body => body) (fun func arg => func + arg) (fun _ => 1)

/-- The number of nodes. -/
def nodeCount (t : Term α) : Nat :=
  t.fold (fun _ body => 1 + body) (fun func arg => 1 + func + arg) (fun _ => 1)

theorem depth_pos (t : Term α) : 0 < t.depth := by
  cases t with
  | var note name => rw [depth, fold_var]; omega
  | abs note binder body => rw [depth, fold_abs]; omega
  | app note func arg => rw [depth, fold_app]; omega

theorem nodeCount_eq_size (t : Term α) : t.nodeCount = t.size := by
  rw [nodeCount]
  induction t with
  | var note name => rw [fold_var, size]
  | abs note binder body ih => rw [fold_abs, size, ih]
  | app note func arg ihf iha => rw [fold_app, size, ihf, iha, Nat.add_assoc]

end Term

end LambdaTree
