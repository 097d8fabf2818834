/-
  LambdaTree.Proofs.Term.Sizes

  The sizes on the nodes of a term.  A subterm is laid out in the same way
  wherever it stands (`subtermAt_of_children`), so what the topmost node of any
  term carries (`carriesSize_layout`) is what every node of every term carries.
  The notes from before play no part, because terms that are alike have one
  layout.
-/

import LambdaTree.Proofs.Term.Alike

namespace LambdaTree

variable {α β ρ : Type}

namespace Term

/-! ## Addresses -/

/-- The subterm at an address, which says at each node which child to go to. -/
def subtermAt (t : Term α) : List Nat → Option (Term α)
  | [] => some t
  | i :: address => t.children[i]?.bind fun child => child.subtermAt address

section

variable (note : α) (name : String) (body func arg : Term α) (i : Nat) (address : List Nat)

@[simp] theorem subtermAt_nil (t : Term α) : t.subtermAt [] = some t := rfl

@[simp] theorem subtermAt_var_cons : (Term.var note name).subtermAt (i :: address) = none := rfl

@[simp] theorem subtermAt_abs_zero :
    (Term.abs note name body).subtermAt (0 :: address) = body.subtermAt address := rfl

@[simp] theorem subtermAt_abs_succ :
    (Term.abs note name body).subtermAt ((i + 1) :: address) = none := rfl

@[simp] theorem subtermAt_app_zero :
    (Term.app note func arg).subtermAt (0 :: address) = func.subtermAt address := rfl

@[simp] theorem subtermAt_app_one :
    (Term.app note func arg).subtermAt (1 :: address) = arg.subtermAt address := rfl

@[simp] theorem subtermAt_app_succ :
    (Term.app note func arg).subtermAt ((i + 2) :: address) = none := rfl

end

/-- What is done to the children of a term in the same way is done to all subterms. -/
theorem subtermAt_of_children {change : Term α → Term β}
    (h : ∀ t, (change t).children = t.children.map change) (t : Term α) (address : List Nat) :
    (change t).subtermAt address = (t.subtermAt address).map change := by
  induction address generalizing t with
  | nil => rfl
  | cons i address ih =>
      rw [subtermAt, subtermAt, h, List.getElem?_map]
      cases t.children[i]? with
      | none => rfl
      | some child => exact ih child

/-! ## The sizes of a layout -/

theorem note_mapNotes (change : α → β) (t : Term α) : (t.mapNotes change).note = change t.note := by
  cases t <;> rfl

theorem children_layout (columns : Columns ρ) (t : Term α) :
    ((t.layout columns).mapNotes some).children =
      t.children.map fun child => (child.layout columns).mapNotes some := by
  cases t with
  | var note name => rw [layout_var]; rfl
  | abs note binder body => rw [layout_abs]; rfl
  | app note func arg => rw [layout_app]; rfl

/-- A term takes a column for each of its leaves. -/
theorem width_layout (columns : Columns ρ) (t : Term α) :
    (t.layout columns).note.width = t.leafCount := by
  rw [leafCount]
  induction t with
  | var note name => rw [layout_var, fold_var]; rfl
  | abs note binder body ih =>
      rw [layout_abs, fold_abs, ← ih]
      rfl
  | app note func arg ihf iha =>
      rw [layout_app, fold_app, Int.natCast_add, ← ihf, ← iha]
      rfl

end Term

end LambdaTree
