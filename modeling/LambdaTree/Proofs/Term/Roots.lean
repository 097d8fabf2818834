/-
  LambdaTree.Proofs.Term.Roots

  Where the roots of a layout lie.  Every root stands over one of the columns of
  its subterm: not left of the first and not right of the last.  This is so in
  exact arithmetic, and it survives rounding after every step, if rounding keeps
  the order of numbers and the whole numbers that can come up (`inside_beside`):
  the bounds of each intermediate result are whole numbers, so they bound what it
  is rounded to as well.  Binary floating point with 53 digits rounds in this way.
-/

import LambdaTree.Proofs.Term.Binary64
import LambdaTree.Proofs.Term.Sizes

namespace LambdaTree

variable {α : Type}

/-! ## Rational columns -/

/-- Exact positions. -/
def Columns.exact : Columns ℚ where
  whole n := n
  add x y := x + y
  half x := x / 2

/-- Positions that are rounded after every addition and after halving. -/
def Columns.rounded (round : ℚ → ℚ) : Columns ℚ where
  whole n := n
  add x y := round (x + y)
  half x := round (x / 2)

/-- The root of a size stands over one of its columns. -/
def Size.Inside (size : Size ℚ) : Prop :=
  0 ≤ size.root ∧ size.root ≤ size.width - 1

/-- The whole numbers up to a bound stay as they are. -/
def FixesUpTo (round : ℚ → ℚ) (bound : ℤ) : Prop :=
  ∀ n : ℤ, 0 ≤ n → n ≤ bound → round n = n

section

variable {round : ℚ → ℚ} {bound : ℤ}

/-- Whole numbers that bound a number bound what it is rounded to. -/
theorem FixesUpTo.round_between (hfix : FixesUpTo round bound) (hmono : Monotone round)
    (low high : ℤ) {x : ℚ} (hx : low ≤ x ∧ x ≤ high) (hlow : 0 ≤ low) (hhigh : high ≤ bound) :
    low ≤ round x ∧ round x ≤ high := by
  have hle : low ≤ high := by exact_mod_cast hx.1.trans hx.2
  constructor
  · calc (low : ℚ) = round low := (hfix low hlow (hle.trans hhigh)).symm
      _ ≤ round x := hmono hx.1
  · calc round x ≤ round high := hmono hx.2
      _ = high := hfix high (hlow.trans hle) hhigh

/-- Between two terms whose roots are inside, the root of an application is inside. -/
theorem inside_beside (hfix : FixesUpTo round bound) (hmono : Monotone round) {func arg : Size ℚ}
    (hfunc : func.Inside) (harg : arg.Inside) (hbound : 2 * (func.width + arg.width) ≤ bound) :
    (Size.beside (.rounded round) func arg).Inside := by
  obtain ⟨hf, hf'⟩ := hfunc
  obtain ⟨ha, ha'⟩ := harg
  have hwf : 1 ≤ func.width := by exact_mod_cast (by linarith : (1 : ℚ) ≤ func.width)
  have hwa : 1 ≤ arg.width := by exact_mod_cast (by linarith : (1 : ℚ) ≤ arg.width)
  show 0 ≤ round (round (round (func.root + func.width) + arg.root) / 2) ∧
    round (round (round (func.root + func.width) + arg.root) / 2) ≤
      ((func.width + arg.width : ℤ) : ℚ) - 1
  -- One addition moves the function's root past the function, the other adds the root of
  -- the argument; the whole numbers around the sums stay below twice the width.
  have hpast : (func.width : ℚ) ≤ func.root + func.width ∧
      func.root + func.width ≤ (2 * func.width - 1 : ℤ) := by
    push_cast
    constructor <;> linarith
  have hpast' := hfix.round_between hmono _ _ hpast (by omega) (by omega)
  generalize round (func.root + func.width) = past at hpast' ⊢
  have hsum : (func.width : ℚ) ≤ past + arg.root ∧
      past + arg.root ≤ (2 * func.width + arg.width - 2 : ℤ) := by
    push_cast at hpast' ⊢
    constructor <;> linarith
  have hsum' := hfix.round_between hmono _ _ hsum (by omega) (by omega)
  generalize round (past + arg.root) = sum at hsum' ⊢
  have hhalf : ((0 : ℤ) : ℚ) ≤ sum / 2 ∧ sum / 2 ≤ (func.width + arg.width - 1 : ℤ) := by
    push_cast at hsum' ⊢
    constructor <;> linarith
  have hhalf' := hfix.round_between hmono _ _ hhalf (by omega) (by omega)
  push_cast at hhalf' ⊢
  exact hhalf'

namespace Term

/-- The root of a layout is inside, if whole numbers up to twice its width are kept. -/
theorem inside_layout (hfix : FixesUpTo round bound) (hmono : Monotone round) (t : Term α)
    (hbound : 2 * (t.leafCount : ℤ) ≤ bound) : (t.layout (.rounded round)).note.Inside := by
  induction t with
  | var note name =>
      rw [layout_var]
      show (0 : ℚ) ≤ ((0 : ℤ) : ℚ) ∧ ((0 : ℤ) : ℚ) ≤ ((1 : ℤ) : ℚ) - 1
      norm_num
  | abs note binder body ih =>
      have hleaves : (Term.abs note binder body).leafCount = body.leafCount :=
        fold_abs _ _ _ _ _ _
      rw [hleaves] at hbound
      rw [layout_abs]
      exact ih hbound
  | app note func arg ihf iha =>
      have hleaves : (Term.app note func arg).leafCount = func.leafCount + arg.leafCount :=
        fold_app _ _ _ _ _ _
      rw [hleaves] at hbound
      rw [layout_app]
      refine inside_beside hfix hmono (ihf (by omega)) (iha (by omega)) ?_
      rw [width_layout, width_layout]
      omega

end Term

end

/-! ## Every node -/

namespace Term

/-- A subterm has no more leaves than the term. -/
theorem leafCount_subtermAt_le {t s : Term α} {address : List Nat}
    (h : t.subtermAt address = some s) : s.leafCount ≤ t.leafCount := by
  induction t generalizing address with
  | var note name =>
      cases address with
      | nil => cases h; exact Nat.le_refl _
      | cons i address => cases h
  | abs note binder body ih =>
      have hleaves : (Term.abs note binder body).leafCount = body.leafCount :=
        fold_abs _ _ _ _ _ _
      match address, h with
      | [], h => cases h; exact Nat.le_refl _
      | 0 :: address, h => exact hleaves ▸ ih h
  | app note func arg ihf iha =>
      have hleaves : (Term.app note func arg).leafCount = func.leafCount + arg.leafCount :=
        fold_app _ _ _ _ _ _
      match address, h with
      | [], h => cases h; exact Nat.le_refl _
      | 0 :: address, h => exact (ihf h).trans (by omega)
      | 1 :: address, h => exact (iha h).trans (by omega)

/-- Every node of a term carries a size whose root is inside. -/
def RootsInside (sized : Term (Option (Size ℚ))) : Prop :=
  ∀ address node, sized.subtermAt address = some node →
    ∃ size, node.note = some size ∧ size.Inside

/-- Every application of a term has its root strictly between that of its function and
    that of its argument, which is drawn behind the columns of the function. -/
def RootsBetween (sized : Term (Option (Size ℚ))) : Prop :=
  ∀ address note func arg, sized.subtermAt address = some (.app note func arg) →
    ∃ size left right, note = some size ∧ func.note = some left ∧ arg.note = some right ∧
      left.root < size.root ∧ size.root < right.root + left.width

theorem rootsInside_of_withSizes {round : ℚ → ℚ} (hmono : Monotone round) {t : Term α}
    (hfix : FixesUpTo round (2 * t.leafCount)) {sized : Term (Option (Size ℚ))}
    (h : t.withSizes (.rounded round) = .ok sized) : RootsInside sized := by
  intro address node hnode
  rw [withSizes_eq_ok] at h
  cases h
  rw [subtermAt_of_children (children_layout _)] at hnode
  obtain ⟨s, hs, rfl⟩ := Option.map_eq_some_iff.mp hnode
  have hleaves := leafCount_subtermAt_le hs
  exact ⟨_, note_mapNotes some _, inside_layout hfix hmono s (by omega)⟩

theorem fixesUpTo_id (bound : ℤ) : FixesUpTo id bound :=
  fun _ _ _ => rfl

/-- Without rounding, the midpoint of two different positions is strictly between them. -/
theorem rootsBetween_of_withSizes {t : Term α} {sized : Term (Option (Size ℚ))}
    (h : t.withSizes .exact = .ok sized) : RootsBetween sized := by
  intro address note func arg hnode
  rw [withSizes_eq_ok] at h
  cases h
  rw [subtermAt_of_children (children_layout _)] at hnode
  obtain ⟨s, -, hs⟩ := Option.map_eq_some_iff.mp hnode
  cases s with
  | var note name => rw [layout_var] at hs; cases hs
  | abs note binder body => rw [layout_abs] at hs; cases hs
  | app old f a =>
      rw [layout_app] at hs
      cases hs
      -- Exact positions are those that are rounded to themselves.
      have hf : (f.layout .exact).note.Inside :=
        inside_layout (fixesUpTo_id _) monotone_id f (Int.le_refl _)
      have ha : (a.layout .exact).note.Inside :=
        inside_layout (fixesUpTo_id _) monotone_id a (Int.le_refl _)
      refine ⟨_, _, _, rfl, note_mapNotes some _, note_mapNotes some _, ?_⟩
      generalize (f.layout Columns.exact).note = left at hf
      generalize (a.layout Columns.exact).note = right at ha
      obtain ⟨hf, hf'⟩ := hf
      obtain ⟨ha, ha'⟩ := ha
      show left.root < (left.root + left.width + right.root) / 2 ∧
        (left.root + left.width + right.root) / 2 < right.root + left.width
      constructor <;> linarith

theorem fixesUpTo_toBinary64 {bound : ℤ} (h : bound < 2 ^ 53) : FixesUpTo toBinary64 bound :=
  fun _ hn hle => toBinary64_intCast hn (hle.trans_lt h)

/-- Roots stay inside.  In exact arithmetic every node of a term has its root over one of
    the columns of its subterm, and every application has its root strictly between those
    of its function and its argument.  The first is still so when every addition and the
    halving are rounded in a way that keeps the order and the whole numbers up to twice the
    width of the term; below a width of 2 ^ 52, this is so with 53 binary digits. -/
theorem roots_stay_inside (t : Term α) :
    (∃ sized, t.withSizes .exact = .ok sized ∧ RootsInside sized ∧ RootsBetween sized) ∧
    (∀ round : ℚ → ℚ, Monotone round → FixesUpTo round (2 * t.leafCount) →
      ∃ sized, t.withSizes (.rounded round) = .ok sized ∧ RootsInside sized) ∧
    (t.leafCount < 2 ^ 52 →
      ∃ sized, t.withSizes (.rounded toBinary64) = .ok sized ∧ RootsInside sized) := by
  have hrounded (round : ℚ → ℚ) (hmono : Monotone round)
      (hfix : FixesUpTo round (2 * t.leafCount)) :
      ∃ sized, t.withSizes (.rounded round) = .ok sized ∧ RootsInside sized :=
    have hsized := t.withSizes_eq_ok (.rounded round)
    ⟨_, hsized, rootsInside_of_withSizes hmono hfix hsized⟩
  refine ⟨?_, hrounded, fun hwidth => ?_⟩
  · obtain ⟨sized, hsized, hinside⟩ := hrounded id monotone_id (fixesUpTo_id _)
    exact ⟨sized, hsized, hinside, rootsBetween_of_withSizes hsized⟩
  · exact hrounded toBinary64 toBinary64_monotone (fixesUpTo_toBinary64 (by omega))

/-- Three columns, with the outer root at a quarter behind the second. -/
theorem roots_inside_three_columns :
    let t : Term Unit := .app () (.app () (.var () "x") (.var () "y")) (.var () "z")
    let sized : Term (Option (Size ℚ)) :=
      .app (some ⟨3, 3, 5 / 4⟩)
        (.app (some ⟨2, 2, 1 / 2⟩) (.var (some ⟨1, 1, 0⟩) "x") (.var (some ⟨1, 1, 0⟩) "y"))
        (.var (some ⟨1, 1, 0⟩) "z")
    t.withSizes .exact = .ok sized ∧ RootsInside sized ∧ RootsBetween sized ∧
      Monotone toBinary64 ∧ FixesUpTo toBinary64 (2 * t.leafCount) ∧ t.leafCount < 2 ^ 52 ∧
      ∃ rounded, t.withSizes (.rounded toBinary64) = .ok rounded ∧ RootsInside rounded := by
  intro t sized
  have hsized : t.withSizes .exact = .ok sized := by
    rw [withSizes_eq_ok]
    simp only [t, sized, layout_app, layout_var, note, mapNotes, Size.beside, Size.leaf,
      Columns.exact]
    norm_num
  have hleaves : t.leafCount = 3 := by simp [t, leafCount]
  have hfix : FixesUpTo toBinary64 (2 * t.leafCount) := fixesUpTo_toBinary64 (by omega)
  obtain ⟨⟨sized', hsized', hinside, hbetween⟩, hrounded, -⟩ := roots_stay_inside t
  cases hsized'.symm.trans hsized
  exact ⟨hsized, hinside, hbetween, toBinary64_monotone, hfix, by omega,
    hrounded toBinary64 toBinary64_monotone hfix⟩

end Term

end LambdaTree
