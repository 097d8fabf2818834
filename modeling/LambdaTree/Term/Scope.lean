/-
  LambdaTree.Term.Scope

  The names of a term: those that occur free, and those that some binder
  introduces.
-/

import LambdaTree.Term.Fold
import Std.Data.TreeSet

namespace LambdaTree

/-- Sets of names, in the order of their characters. -/
abbrev Names := Std.TreeSet String

namespace Term

variable {α : Type}

/-- The names that occur in a place where no binder captures them. -/
def free (t : Term α) : Names :=
  t.fold (fun binder body => body.erase binder) (fun func arg => func ∪ arg) (fun name => {name})

/-- The names that some binder introduces, used or not. -/
def bound (t : Term α) : Names :=
  t.fold (fun binder body => body.insert binder) (fun func arg => func ∪ arg) (fun _ => ∅)

/-- Whether no name occurs free. -/
def isClosed (t : Term α) : Bool :=
  t.free.isEmpty

end Term

end LambdaTree
