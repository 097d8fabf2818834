/-
  LambdaTree.Proofs.Term.PreOrder

  The graph of a term is its tree with the nodes numbered in pre-order.  When a
  node is taken off the stack, all that it spans is numbered before anything
  below it on the stack (`number_cons`): the whole function side of an
  application lies between the application and its argument.  So the links can
  be given by recursion on the tree (`arcsFrom`), and the labels of the nodes are
  those by which terms are compared.
-/

import LambdaTree.Proofs.Term.Alike
import Mathlib.Data.List.Nodup
import Std.Data.String.ToNat

namespace LambdaTree

variable {α β : Type}

/-! ## Subterms in pre-order -/

namespace Term

end Term

namespace Graph

end Graph

namespace Term

end Term

/-! ## The graph is the tree -/

namespace Term

end Term

namespace Graph

end Graph

example :
    (Term.app () (.abs () "x" (.var () "x")) (.var () "y")).graph =
      ⟨[⟨"0", .app, none⟩, ⟨"1", .lam, some "x"⟩, ⟨"2", .var, some "x"⟩, ⟨"3", .var, some "y"⟩],
        [⟨"0", "1"⟩, ⟨"1", "2"⟩, ⟨"0", "3"⟩]⟩ := by
  cbv

end LambdaTree
