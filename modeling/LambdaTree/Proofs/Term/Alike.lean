/-
  LambdaTree.Proofs.Term.Alike

  Terms are alike when they agree node for node, whatever notes they carry.
  This is what comparing terms decides (`same_iff_alike`), and what nothing that
  is read off a term can go beyond: a fold does not see the notes, whatever
  effects its cases have (`Alike.descend`), and neither does the numbering of
  the nodes (`Alike.graph`).
-/

import LambdaTree.Proofs.Term.Equality
import LambdaTree.Term.Graph
import LambdaTree.Term.Measure
import LambdaTree.Term.Note
import LambdaTree.Term.Print
import LambdaTree.Term.Scope
import Mathlib.Data.List.Forall2

namespace LambdaTree

variable {α β γ ρ : Type} {m : Type → Type}

namespace Term

/-- Two terms that agree node for node but for their notes. -/
inductive Alike : Term α → Term β → Prop where
  | var (note : α) (note' : β) (name : String) : Alike (.var note name) (.var note' name)
  | abs (note : α) (note' : β) (binder : String) {body : Term α} {body' : Term β} :
      Alike body body' → Alike (.abs note binder body) (.abs note' binder body')
  | app (note : α) (note' : β) {func arg : Term α} {func' arg' : Term β} :
      Alike func func' → Alike arg arg' → Alike (.app note func arg) (.app note' func' arg')

/-! ## Changing notes -/

theorem Alike.symm {t : Term α} {u : Term β} (h : t.Alike u) : u.Alike t := by
  induction h with
  | var note note' name => exact .var note' note name
  | abs note note' binder _ ih => exact .abs note' note binder ih
  | app note note' _ _ ihf iha => exact .app note' note ihf iha

theorem Alike.trans {t : Term α} {u : Term β} {v : Term γ} (htu : t.Alike u) (huv : u.Alike v) :
    t.Alike v := by
  induction htu generalizing v with
  | var note note' name =>
      cases huv with
      | var _ note'' _ => exact .var note note'' name
  | abs note note' binder _ ih =>
      cases huv with
      | abs _ note'' _ hbody => exact .abs note note'' binder (ih hbody)
  | app note note' _ _ ihf iha =>
      cases huv with
      | app _ note'' hfunc harg => exact .app note note'' (ihf hfunc) (iha harg)

theorem alike_annotate (note : β) (t : Term α) : t.Alike (t.annotate note) := by
  induction t with
  | var old name =>
      rw [annotate_var]
      exact .var old note name
  | abs old binder body ih =>
      rw [annotate_abs]
      exact .abs old note binder ih
  | app old func arg ihf iha =>
      rw [annotate_app]
      exact .app old note ihf iha

namespace Alike

variable {t : Term α} {u : Term β}

/-- Folding two terms that are alike makes the same calls. -/
theorem descend [Monad m] (h : t.Alike u) (cases : Cases m ρ) :
    cases.descend t = cases.descend u := by
  induction h with
  | var note note' name => rfl
  | abs note note' binder _ ih => rw [Cases.descend, Cases.descend, ih]
  | app note note' _ _ ihf iha => rw [Cases.descend, Cases.descend, ihf, iha]

theorem fold (h : t.Alike u) (abs : String → ρ → ρ) (app : ρ → ρ → ρ) (var : String → ρ) :
    t.fold abs app var = u.fold abs app var := by
  rw [fold_eq_descend, fold_eq_descend]
  exact h.descend _

theorem withSizes (h : t.Alike u) (columns : Columns ρ) :
    t.withSizes columns = u.withSizes columns := by
  rw [Term.withSizes, Term.withSizes, tryFold_eq_descend, tryFold_eq_descend, h.descend]

theorem sized (h : t.Alike u) : t.sized = u.sized := by
  have ht := t.withSizes_eq_ok Columns.float
  have hu : u.withSizes Columns.float = _ := (h.withSizes Columns.float).symm.trans ht
  rw [sized_of_withSizes ht, sized_of_withSizes hu]

theorem children (h : t.Alike u) : List.Forall₂ Alike t.children u.children := by
  cases h with
  | var => exact .nil
  | abs _ _ _ hbody => exact .cons hbody .nil
  | app _ _ hfunc harg => exact .cons hfunc (.cons harg .nil)

theorem node (h : t.Alike u) (id : String) : Graph.node id t = Graph.node id u := by
  cases h <;> rfl

end Alike

/-- The entries of two stacks that hold terms which are alike, below the same parents. -/
def AlikeBelow (entry : Term α × Option String) (entry' : Term β × Option String) : Prop :=
  entry.1.Alike entry'.1 ∧ entry.2 = entry'.2

theorem number_alike {entries : List (Term α × Option String)}
    {entries' : List (Term β × Option String)} (h : List.Forall₂ AlikeBelow entries entries')
    (id : Nat) : Graph.number id entries = Graph.number id entries' := by
  induction id, entries using Graph.number.induct generalizing entries' with
  | case1 id =>
      cases h
      rw [Graph.number, Graph.number]
  | case2 id t parent rest ih =>
      cases h with
      | @cons _ entry' _ rest' hentry hrest =>
          obtain ⟨u, parent'⟩ := entry'
          obtain ⟨hu, hparent⟩ : t.Alike u ∧ parent = parent' := hentry
          subst hparent
          -- What is pushed for the children is alike again, below the parent just numbered.
          have hpushed : List.Forall₂ AlikeBelow
              (t.children.map (fun child => (child, some id.repr)) ++ rest)
              (u.children.map (fun child => (child, some id.repr)) ++ rest') := by
            refine List.rel_append ?_ hrest
            rw [List.forall₂_map_left_iff, List.forall₂_map_right_iff]
            exact hu.children.imp fun _ _ hchild => ⟨hchild, rfl⟩
          rw [Graph.number, Graph.number, ih hpushed, hu.node]

theorem Alike.graph {t : Term α} {u : Term β} (h : t.Alike u) : t.graph = u.graph := by
  have hstart : List.Forall₂ AlikeBelow [(t, none)] [(u, none)] := .cons ⟨h, rfl⟩ .nil
  exact number_alike hstart 0

/-! ## Comparing terms -/

theorem alike_iff_strip_eq (t : Term α) (u : Term β) : t.Alike u ↔ t.strip = u.strip := by
  constructor
  · intro h
    exact h.fold _ _ _
  · intro h
    have ht : t.Alike t.strip := alike_annotate none t
    have hu : u.Alike u.strip := alike_annotate none u
    rw [h] at ht
    exact ht.trans hu.symm

theorem same_iff_alike (t : Term α) (u : Term β) : t.same u = true ↔ t.Alike u := by
  rw [same_iff_strip, alike_iff_strip_eq]

/-- Nothing that is read off two terms tells them apart. -/
structure LooksLike (t : Term α) (u : Term β) : Prop where
  print : t.print = u.print
  free : t.free = u.free
  bound : t.bound = u.bound
  depth : t.depth = u.depth
  leafCount : t.leafCount = u.leafCount
  nodeCount : t.nodeCount = u.nodeCount
  graph : t.graph = u.graph
  /-- In whatever numbers columns are measured, with the notes of all nodes. -/
  withSizes : ∀ {ρ : Type} (columns : Columns ρ), t.withSizes columns = u.withSizes columns
  sized : t.sized = u.sized
  strip : t.strip = u.strip

theorem Alike.looksLike {t : Term α} {u : Term β} (h : t.Alike u) : t.LooksLike u where
  print := congrArg Printed.text (h.fold _ _ _)
  free := h.fold _ _ _
  bound := h.fold _ _ _
  depth := h.fold _ _ _
  leafCount := h.fold _ _ _
  nodeCount := h.fold _ _ _
  graph := h.graph
  withSizes := h.withSizes
  sized := h.sized
  strip := h.fold _ _ _

/-- Comparing the labels in pre-order decides whether two terms are one tree but for the
    notes, and terms that compare as the same cannot be told apart. -/
theorem same_iff_strip_and_looksLike (t : Term α) (u : Term β) :
    (t.same u = true ↔ t.strip = u.strip) ∧ (t.strip = u.strip ↔ t.Alike u) ∧
      (t.same u = true → t.LooksLike u) := by
  refine ⟨same_iff_strip t u, (alike_iff_strip_eq t u).symm, ?_⟩
  intro h
  exact ((same_iff_alike t u).mp h).looksLike

/-- An application with numbers for notes, and the same one with texts. -/
theorem looksLike_of_other_notes :
    let t : Term Nat := .app 1 (.abs 2 "x" (.var 3 "x")) (.var 4 "y")
    let u : Term String := .app "" (.abs "a" "x" (.var "b" "x")) (.var "a" "y")
    t.same u = true ∧ t.LooksLike u := by
  intro t u
  have hsame : t.same u = true := by simp [t, u, same, shape, Label.bare]
  exact ⟨hsame, (same_iff_strip_and_looksLike t u).2.2 hsame⟩

end Term

end LambdaTree
