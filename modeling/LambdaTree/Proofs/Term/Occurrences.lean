/-
  LambdaTree.Proofs.Term.Occurrences

  Names and the places where they stand.  `Term.free` takes names away at every
  binder on the way up, whatever they were collected from; scoping is about the
  way from the top down to one occurrence.  Both agree: a name is free when one
  of its occurrences has no binder of the name above it (`mem_free_iff`), which
  may be so beside other occurrences that are captured.
-/

import LambdaTree.Proofs.Term.Sizes
import LambdaTree.Term.Scope

namespace LambdaTree

variable {α : Type}

namespace Term

/-! ## Places -/

/-- A variable of this name stands at an address. -/
def OccursAt (t : Term α) (x : String) (address : List Nat) : Prop :=
  ∃ note, t.subtermAt address = some (.var note x)

/-- A binder of this name stands at an address. -/
def BindsAt (t : Term α) (x : String) (address : List Nat) : Prop :=
  ∃ note body, t.subtermAt address = some (.abs note x body)

/-- A binder of this name stands on the way to an address. -/
def CapturedAt (t : Term α) (x : String) (address : List Nat) : Prop :=
  ∃ above, above <+: address ∧ t.BindsAt x above

section

variable {note : α} {name x : String} {body func arg : Term α} {address : List Nat}

theorem occursAt_var : (Term.var note name).OccursAt x address ↔ address = [] ∧ name = x := by
  cases address with
  | nil => simp [OccursAt]
  | cons i address => simp [OccursAt]

theorem occursAt_abs :
    (Term.abs note name body).OccursAt x address ↔ ∃ p, address = 0 :: p ∧ body.OccursAt x p := by
  match address with
  | [] => simp [OccursAt]
  | 0 :: address => simp [OccursAt]
  | (i + 1) :: address => simp [OccursAt]

theorem occursAt_app :
    (Term.app note func arg).OccursAt x address ↔
      (∃ p, address = 0 :: p ∧ func.OccursAt x p) ∨ ∃ p, address = 1 :: p ∧ arg.OccursAt x p := by
  match address with
  | [] => simp [OccursAt]
  | 0 :: address => simp [OccursAt]
  | 1 :: address => simp [OccursAt]
  | (i + 2) :: address => simp [OccursAt]

theorem bindsAt_var : ¬(Term.var note name).BindsAt x address := by
  cases address with
  | nil => simp [BindsAt]
  | cons i address => simp [BindsAt]

theorem bindsAt_abs :
    (Term.abs note name body).BindsAt x address ↔
      (address = [] ∧ name = x) ∨ ∃ p, address = 0 :: p ∧ body.BindsAt x p := by
  match address with
  | [] => simp [BindsAt]
  | 0 :: address => simp [BindsAt]
  | (i + 1) :: address => simp [BindsAt]

theorem bindsAt_app :
    (Term.app note func arg).BindsAt x address ↔
      (∃ p, address = 0 :: p ∧ func.BindsAt x p) ∨ ∃ p, address = 1 :: p ∧ arg.BindsAt x p := by
  match address with
  | [] => simp [BindsAt]
  | 0 :: address => simp [BindsAt]
  | 1 :: address => simp [BindsAt]
  | (i + 2) :: address => simp [BindsAt]

/-- What stands below a node is captured by the node or further down. -/
theorem capturedAt_child {t child : Term α} {i : Nat} (hchild : t.children[i]? = some child) :
    t.CapturedAt x (i :: address) ↔ t.BindsAt x [] ∨ child.CapturedAt x address := by
  have hbelow (p : List Nat) : t.BindsAt x (i :: p) ↔ child.BindsAt x p := by
    rw [BindsAt, subtermAt, hchild, Option.bind_some, BindsAt]
  constructor
  · rintro ⟨above, habove, hbinds⟩
    rcases List.prefix_cons_iff.mp habove with rfl | ⟨rest, rfl, hrest⟩
    · exact .inl hbinds
    · exact .inr ⟨rest, hrest, (hbelow rest).mp hbinds⟩
  · rintro (htop | ⟨above, habove, hbinds⟩)
    · exact ⟨[], List.nil_prefix, htop⟩
    · exact ⟨i :: above, (List.prefix_cons_inj i).mpr habove, (hbelow above).mpr hbinds⟩

theorem capturedAt_abs :
    (Term.abs note name body).CapturedAt x (0 :: address) ↔
      name = x ∨ body.CapturedAt x address := by
  rw [capturedAt_child rfl, bindsAt_abs]
  simp

theorem capturedAt_function :
    (Term.app note func arg).CapturedAt x (0 :: address) ↔ func.CapturedAt x address := by
  rw [capturedAt_child rfl, bindsAt_app]
  simp

theorem capturedAt_argument :
    (Term.app note func arg).CapturedAt x (1 :: address) ↔ arg.CapturedAt x address := by
  rw [capturedAt_child rfl, bindsAt_app]
  simp

end

/-! ## Free names -/

/-- A name is free when it occurs where no binder above captures it. -/
theorem mem_free_iff (t : Term α) (x : String) :
    x ∈ t.free ↔ ∃ address, t.OccursAt x address ∧ ¬t.CapturedAt x address := by
  rw [free]
  induction t with
  | var note name =>
      have hfree : ¬(Term.var note name).CapturedAt x [] := by
        rintro ⟨above, -, hbinds⟩
        exact bindsAt_var hbinds
      simp [occursAt_var, hfree]
  | abs note binder body ih =>
      -- The set loses the binder's name; every way down goes past the binder.
      simp only [fold_abs, Std.TreeSet.mem_erase, ne_eq, Std.compare_eq_iff_eq, ih, occursAt_abs]
      constructor
      · rintro ⟨hne, p, hoccurs, hfree⟩
        refine ⟨0 :: p, ⟨p, rfl, hoccurs⟩, ?_⟩
        rw [capturedAt_abs, not_or]
        exact ⟨hne, hfree⟩
      · rintro ⟨_, ⟨p, rfl, hoccurs⟩, hfree⟩
        rw [capturedAt_abs, not_or] at hfree
        exact ⟨hfree.1, p, hoccurs, hfree.2⟩
  | app note func arg ihf iha =>
      simp only [fold_app, Std.TreeSet.mem_union_iff, ihf, iha, occursAt_app]
      constructor
      · rintro (⟨p, hoccurs, hfree⟩ | ⟨p, hoccurs, hfree⟩)
        · exact ⟨0 :: p, .inl ⟨p, rfl, hoccurs⟩, by rwa [capturedAt_function]⟩
        · exact ⟨1 :: p, .inr ⟨p, rfl, hoccurs⟩, by rwa [capturedAt_argument]⟩
      · rintro ⟨_, ⟨p, rfl, hoccurs⟩ | ⟨p, rfl, hoccurs⟩, hfree⟩
        · rw [capturedAt_function] at hfree
          exact .inl ⟨p, hoccurs, hfree⟩
        · rw [capturedAt_argument] at hfree
          exact .inr ⟨p, hoccurs, hfree⟩

/-! ## Bound names -/

theorem mem_bound_iff (t : Term α) (x : String) :
    x ∈ t.bound ↔ ∃ address, t.BindsAt x address := by
  rw [bound]
  induction t with
  | var note name => simp [bindsAt_var]
  | abs note binder body ih =>
      simp only [fold_abs, Std.TreeSet.mem_insert, Std.compare_eq_iff_eq, ih, bindsAt_abs]
      constructor
      · rintro (rfl | ⟨p, hbinds⟩)
        · exact ⟨[], .inl ⟨rfl, rfl⟩⟩
        · exact ⟨0 :: p, .inr ⟨p, rfl, hbinds⟩⟩
      · rintro ⟨_, ⟨-, rfl⟩ | ⟨p, -, hbinds⟩⟩
        · exact .inl rfl
        · exact .inr ⟨p, hbinds⟩
  | app note func arg ihf iha =>
      simp only [fold_app, Std.TreeSet.mem_union_iff, ihf, iha, bindsAt_app]
      constructor
      · rintro (⟨p, hbinds⟩ | ⟨p, hbinds⟩)
        · exact ⟨0 :: p, .inl ⟨p, rfl, hbinds⟩⟩
        · exact ⟨1 :: p, .inr ⟨p, rfl, hbinds⟩⟩
      · rintro ⟨_, ⟨p, -, hbinds⟩ | ⟨p, -, hbinds⟩⟩
        · exact .inl ⟨p, hbinds⟩
        · exact .inr ⟨p, hbinds⟩

/-- Names and occurrences.  A name is free in a term exactly when it occurs at some address
    with no binder of the name on the way there, and bound exactly when some binder
    introduces it, used or not.  A term is closed exactly when every occurrence lies below
    a binder of its name. -/
theorem names_match_occurrences (t : Term α) (x : String) :
    (x ∈ t.free ↔ ∃ address, t.OccursAt x address ∧ ¬t.CapturedAt x address) ∧
    (x ∈ t.bound ↔ ∃ address, t.BindsAt x address) ∧
    (t.isClosed = true ↔ ∀ y address, t.OccursAt y address → t.CapturedAt y address) := by
  refine ⟨t.mem_free_iff x, t.mem_bound_iff x, ?_⟩
  rw [isClosed, Std.TreeSet.isEmpty_iff_forall_not_mem]
  simp only [mem_free_iff, not_exists, not_and, not_not]

end Term

end LambdaTree
