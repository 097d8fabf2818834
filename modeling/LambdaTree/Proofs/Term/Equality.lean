/-
  LambdaTree.Proofs.Term.Equality

  Terms are the same when their trees are, but for the notes.  Comparing terms
  goes through the labels of their nodes in pre-order; `termsOfLabels` reads the
  tree back from them (`termsOfLabels_labels`), so nothing is lost on the way
  (`same_iff_strip`).
-/

import LambdaTree.Term.Note
import LambdaTree.Term.Shape

namespace LambdaTree

variable {α β : Type}

/-- The note of a label. -/
def Label.note : Label α → α
  | .var note _ => note
  | .abs note _ => note
  | .app note => note

/-- A label with another note. -/
def Label.withNote (note : β) : Label α → Label β
  | .var _ name => .var note name
  | .abs _ binder => .abs note binder
  | .app _ => .app note

@[simp] theorem Label.note_withNote (note : β) (label : Label α) :
    (label.withNote note).note = note := by
  cases label <;> rfl

@[simp] theorem Label.bare_withNote (note : β) (label : Label α) :
    (label.withNote note).bare = label.bare := by
  cases label <;> rfl

@[simp] theorem Label.withNote_bare (note : β) (label : Label α) :
    label.bare.withNote note = label.withNote note := by
  cases label <;> rfl

namespace Term

/-! ## Labels by recursion on the tree -/

theorem labelsOf_append (left right : List (Term α)) :
    labelsOf (left ++ right) = labelsOf left ++ labelsOf right := by
  -- The labels are taken off a stack of terms, whose sizes go down.
  induction hn : sizes left using Nat.strongRecOn generalizing left with
  | ind n ih =>
      subst hn
      cases left with
      | nil => simp [labelsOf]
      | cons t rest =>
          have hlt := sizes_children_append_lt t rest
          rw [List.cons_append, labelsOf, labelsOf, ← List.append_assoc,
            ih _ hlt (t.children ++ rest) rfl, List.cons_append]

@[simp] theorem labels_var (note : α) (name : String) :
    (Term.var note name).labels = [.var note name] := by
  simp [labels, labelsOf, label, children]

@[simp] theorem labels_abs (note : α) (binder : String) (body : Term α) :
    (Term.abs note binder body).labels = .abs note binder :: body.labels := by
  rw [labels, labelsOf]
  rfl

@[simp] theorem labels_app (note : α) (func arg : Term α) :
    (Term.app note func arg).labels = .app note :: (func.labels ++ arg.labels) := by
  have hsplit : labelsOf [func, arg] = labelsOf [func] ++ labelsOf [arg] :=
    labelsOf_append [func] [arg]
  rw [labels, labelsOf]
  simp only [children, label, List.append_nil]
  rw [hsplit]
  rfl

/-! ## Reading labels back -/

/-- The labels of a term are read back as this term, before the terms that follow. -/
theorem termsOfLabels_labels (t : Term α) (rest : List (Label α)) :
    termsOfLabels (t.labels ++ rest) = (termsOfLabels rest).map (t :: ·) := by
  induction t generalizing rest with
  | var note name =>
      rw [labels_var, List.singleton_append, termsOfLabels]
      cases termsOfLabels rest <;> rfl
  | abs note binder body ih =>
      rw [labels_abs, List.cons_append, termsOfLabels, ih]
      cases termsOfLabels rest <;> rfl
  | app note func arg ihf iha =>
      rw [labels_app, List.cons_append, List.append_assoc, termsOfLabels, ihf, iha]
      cases termsOfLabels rest <;> rfl

theorem labels_injective {t u : Term α} (h : t.labels = u.labels) : t = u := by
  have ht := termsOfLabels_labels t []
  have hu := termsOfLabels_labels u []
  rw [h, hu] at ht
  simpa [termsOfLabels] using ht.symm

/-! ## Notes -/

@[simp] theorem annotate_var (note : β) (old : α) (name : String) :
    (Term.var old name).annotate note = .var note name := fold_var _ _ _ _ _

@[simp] theorem annotate_abs (note : β) (old : α) (binder : String) (body : Term α) :
    (Term.abs old binder body).annotate note = .abs note binder (body.annotate note) :=
  fold_abs _ _ _ _ _ _

@[simp] theorem annotate_app (note : β) (old : α) (func arg : Term α) :
    (Term.app old func arg).annotate note = .app note (func.annotate note) (arg.annotate note) :=
  fold_app _ _ _ _ _ _

@[simp] theorem strip_var (note : α) (name : String) :
    (Term.var note name).strip = .var none name := annotate_var ..

@[simp] theorem strip_abs (note : α) (binder : String) (body : Term α) :
    (Term.abs note binder body).strip = .abs none binder body.strip := annotate_abs ..

@[simp] theorem strip_app (note : α) (func arg : Term α) :
    (Term.app note func arg).strip = .app none func.strip arg.strip := annotate_app ..

theorem labels_annotate (note : β) (t : Term α) :
    (t.annotate note).labels = t.labels.map (Label.withNote note) := by
  induction t with
  | var old name => simp [Label.withNote]
  | abs old binder body ih => simp [Label.withNote, ih]
  | app old func arg ihf iha => simp [Label.withNote, ihf, iha]

/-- A term that is annotated carries one note everywhere. -/
theorem note_of_mem_labels_annotate (note : β) (t : Term α) :
    ∀ label ∈ (t.annotate note).labels, label.note = note := by
  simp [labels_annotate]

/-- The labels without notes are the bare ones, with the slot for a note empty. -/
theorem labels_strip (t : Term α) : t.strip.labels = t.shape.map (Label.withNote none) := by
  simp [strip, labels_annotate, shape]

theorem shape_strip (t : Term α) : t.strip.shape = t.shape := by
  simp [strip, labels_annotate, shape]

/-- Terms compare as the same exactly when they are one tree but for the notes. -/
theorem same_iff_strip (t : Term α) (u : Term β) : t.same u = true ↔ t.strip = u.strip := by
  rw [same, decide_eq_true_iff]
  constructor
  · intro h
    exact labels_injective (by rw [labels_strip, labels_strip, h])
  · intro h
    rw [← shape_strip t, h, shape_strip]

end Term

end LambdaTree
