/-
  LambdaTree.Term.Describe

  Terms as texts that show their structure, with every name quoted. The choice
  of the printable characters is a parameter, as it is for quoting.
-/

import LambdaTree.Term.Fold
import LambdaTree.Text.Quoted

namespace LambdaTree

namespace Term

variable {α : Type}

/-- The description of a term, for a given choice of the printable characters. -/
def describeWith (printable : Char → Bool) (t : Term α) : String :=
  t.fold
    (fun binder body =>
      "Abstraction(" ++ Text.quoteWith printable binder ++ ", " ++ body ++ ")")
    (fun func arg => "Application(" ++ func ++ ", " ++ arg ++ ")")
    (fun name => "Variable(" ++ Text.quoteWith printable name ++ ")")

def describe (t : Term α) : String :=
  t.describeWith Text.isPrintable

end Term

end LambdaTree
