/-
  LambdaTree.Term.Layout

  Where to draw the nodes of a term. Every node learns how many leaf columns
  its subterm spans, how many levels it takes, and where its own vertex stands,
  measured in columns from the left edge of the subterm. The numbers that
  columns are measured in are a parameter: binary floating point for drawing,
  exact or rounded rationals for reasoning.

  `Term.withSizes` takes the size of a node from the notes that its children
  carry by then. None of them is ever missing: the outcome is `Term.layout`, the
  fold in which a note is a size (`withSizes_eq_ok`).
-/

import LambdaTree.Fault
import LambdaTree.Term.Describe

namespace LambdaTree

/-- The arithmetic of column positions. -/
structure Columns (ρ : Type) where
  /-- The position that lies a whole number of columns from the left edge. -/
  whole : Int → ρ
  add : ρ → ρ → ρ
  half : ρ → ρ

/-- Positions in binary floating point. -/
def Columns.float : Columns Float where
  whole := Float.ofInt
  add := (· + ·)
  half := (· / 2)

/-- The size of a laid out subterm. -/
structure Size (ρ : Type) where
  width : Int
  height : Int
  root : ρ
deriving DecidableEq

namespace Size

variable {ρ : Type}

/-- The same size with its root written in another way. -/
def mapRoot (change : ρ → τ) (size : Size ρ) : Size τ where
  width := size.width
  height := size.height
  root := change size.root

/-- A variable takes one column and one level. -/
def leaf (columns : Columns ρ) : Size ρ where
  width := 1
  height := 1
  root := columns.whole 0

/-- A binder stands right above its body. -/
def above (body : Size ρ) : Size ρ where
  width := body.width
  height := 1 + body.height
  root := body.root

/-- An application stands midway between its function and its argument, which is drawn
    to the right of the function's columns. -/
def beside (columns : Columns ρ) (func arg : Size ρ) : Size ρ where
  width := func.width + arg.width
  height := 1 + max func.height arg.height
  root := columns.half (columns.add (columns.add func.root (columns.whole func.width)) arg.root)

end Size

namespace Term

variable {α ρ : Type}

/-- The note of the topmost node, which a term that was never laid out lacks. -/
def topNote (t : Term (Option α)) : Except Fault α :=
  match t.note with
  | some note => .ok note
  | none => .error (.unsized t.describe)

/-- What sizing does at each kind of node, from the notes of the children. -/
def sizing (columns : Columns ρ) : Cases (Except Fault) (Term (Option (Size ρ))) where
  abs binder body := do
    let inner ← body.topNote
    return .abs (some inner.above) binder body
  app func arg := do
    let left ← func.topNote
    let right ← arg.topNote
    return .app (some (Size.beside columns left right)) func arg
  var name := return .var (some (Size.leaf columns)) name

/-- The same term with sizes as notes, whatever it carried before. The size of the whole
    is read once more in the end, for a log. -/
def withSizes (columns : Columns ρ) (t : Term α) : Except Fault (Term (Option (Size ρ))) := do
  let sized ← t.tryFold (sizing columns)
  let _ ← sized.topNote
  return sized

/-- The same term with the size of its subterm on every node. -/
def layout (columns : Columns ρ) (t : Term α) : Term (Size ρ) :=
  t.fold
    (fun binder body => .abs body.note.above binder body)
    (fun func arg => .app (Size.beside columns func.note arg.note) func arg)
    (fun name => .var (Size.leaf columns) name)

@[simp] theorem layout_var (columns : Columns ρ) (note : α) (name : String) :
    (Term.var note name).layout columns = .var (Size.leaf columns) name :=
  fold_var _ _ _ _ _

@[simp] theorem layout_abs (columns : Columns ρ) (note : α) (binder : String) (body : Term α) :
    (Term.abs note binder body).layout columns =
      .abs (body.layout columns).note.above binder (body.layout columns) :=
  fold_abs _ _ _ _ _ _

@[simp] theorem layout_app (columns : Columns ρ) (note : α) (func arg : Term α) :
    (Term.app note func arg).layout columns =
      .app (Size.beside columns (func.layout columns).note (arg.layout columns).note)
        (func.layout columns) (arg.layout columns) :=
  fold_app _ _ _ _ _ _

theorem topNote_mapNotes_some (t : Term α) : (t.mapNotes some).topNote = .ok t.note := by
  cases t <;> rfl

/-- Every value that sizing folds carries its size. -/
theorem descend_sizing (columns : Columns ρ) (t : Term α) :
    (sizing columns).descend t = .ok ((t.layout columns).mapNotes some) := by
  induction t with
  | var note name => rw [layout_var]; rfl
  | abs note binder body ih =>
    rw [Cases.descend, ih, layout_abs]
    show (((body.layout columns).mapNotes some).topNote >>= _) = _
    rw [topNote_mapNotes_some]
    rfl
  | app note func arg ihf iha =>
    rw [Cases.descend, ihf, iha, layout_app]
    show (((func.layout columns).mapNotes some).topNote >>= fun left =>
      ((arg.layout columns).mapNotes some).topNote >>= fun right => _) = _
    rw [topNote_mapNotes_some, topNote_mapNotes_some]
    rfl

/-- Sizing never finds a node without its size. -/
theorem withSizes_eq_ok (columns : Columns ρ) (t : Term α) :
    t.withSizes columns = .ok ((t.layout columns).mapNotes some) := by
  rw [withSizes, tryFold_eq_descend, descend_sizing]
  show (((t.layout columns).mapNotes some).topNote >>= _) = _
  rw [topNote_mapNotes_some]
  rfl

end Term

end LambdaTree
