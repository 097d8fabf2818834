/-
  LambdaTree.Proofs.Term.Description

  The description of a term tells which term it is, up to notes.  Names may be
  any texts, with quotes, backslashes, parentheses and commas in them; they are
  quoted, and a quoted text tells where it ends.  So does a description: its
  first letters name the kind of node, and the parts that follow are as many as
  the kind has (`describeWith_append_inj`).
-/

import LambdaTree.Proofs.Term.Alike
import LambdaTree.Proofs.Text.Quoting
import LambdaTree.Term.Describe

namespace LambdaTree.Term

variable {α β : Type} (printable : Char → Bool)

/-! ## The characters of a description -/

theorem toList_describeWith_var (note : α) (name : String) :
    ((Term.var note name).describeWith printable).toList =
      "Variable(".toList ++ (Text.quoteChars printable name.toList ++ [')']) := by
  simp [describeWith, Text.quoteWith]

theorem toList_describeWith_abs (note : α) (binder : String) (body : Term α) :
    ((Term.abs note binder body).describeWith printable).toList =
      "Abstraction(".toList ++ (Text.quoteChars printable binder.toList ++
        (", ".toList ++ ((body.describeWith printable).toList ++ [')']))) := by
  simp [describeWith, Text.quoteWith]

theorem toList_describeWith_app (note : α) (func arg : Term α) :
    ((Term.app note func arg).describeWith printable).toList =
      "Application(".toList ++ ((func.describeWith printable).toList ++
        (", ".toList ++ ((arg.describeWith printable).toList ++ [')']))) := by
  simp [describeWith]

/-! ## Reading a description -/

/-- Descriptions that go on alike are those of terms that agree node for node, and what they
    go on with is the same. -/
theorem describeWith_append_inj {t : Term α} {u : Term β} {rest rest' : List Char}
    (h : (t.describeWith printable).toList ++ rest = (u.describeWith printable).toList ++ rest') :
    t.Alike u ∧ rest = rest' := by
  induction t generalizing u rest rest' with
  | var note name =>
      cases u with
      | var note' name' =>
          simp only [toList_describeWith_var, List.append_assoc, List.append_cancel_left_eq] at h
          obtain ⟨hname, hrest⟩ := Text.quoteChars_append_inj h
          obtain rfl := String.toList_inj.mp hname
          exact ⟨.var note note' name, List.append_cancel_left hrest⟩
      | abs note' binder body => simp [toList_describeWith_var, toList_describeWith_abs] at h
      | app note' func arg => simp [toList_describeWith_var, toList_describeWith_app] at h
  | abs note binder body ih =>
      cases u with
      | var note' name => simp [toList_describeWith_var, toList_describeWith_abs] at h
      | abs note' binder' body' =>
          simp only [toList_describeWith_abs, List.append_assoc, List.append_cancel_left_eq] at h
          -- The binder ends with its quote, and what follows it is the body.
          obtain ⟨hbinder, hrest⟩ := Text.quoteChars_append_inj h
          obtain rfl := String.toList_inj.mp hbinder
          obtain ⟨hbody, hrest⟩ := ih (List.append_cancel_left hrest)
          exact ⟨.abs note note' binder hbody, List.append_cancel_left hrest⟩
      | app note' func arg => simp [toList_describeWith_abs, toList_describeWith_app] at h
  | app note func arg ihf iha =>
      cases u with
      | var note' name => simp [toList_describeWith_var, toList_describeWith_app] at h
      | abs note' binder body => simp [toList_describeWith_abs, toList_describeWith_app] at h
      | app note' func' arg' =>
          simp only [toList_describeWith_app, List.append_assoc, List.append_cancel_left_eq] at h
          obtain ⟨hfunc, hrest⟩ := ihf h
          obtain ⟨harg, hrest⟩ := iha (List.append_cancel_left hrest)
          exact ⟨.app note note' hfunc harg, List.append_cancel_left hrest⟩

/-- A description is unambiguous.  Whatever the names of two terms are, whatever notes they
    carry, and whichever characters count as printable, their descriptions are the same if
    and only if the terms compare as the same. -/
theorem describeWith_eq_iff_same (t : Term α) (u : Term β) :
    t.describeWith printable = u.describeWith printable ↔ t.same u = true := by
  rw [same_iff_alike]
  constructor
  · intro h
    have happend : (t.describeWith printable).toList ++ [] =
        (u.describeWith printable).toList ++ [] := by rw [h]
    exact (describeWith_append_inj printable happend).1
  · intro h
    exact h.fold _ _ _

end LambdaTree.Term
