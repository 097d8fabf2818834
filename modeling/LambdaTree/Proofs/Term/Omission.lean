/-
  LambdaTree.Proofs.Term.Omission

  The lexemes of a term with one pair of parentheses left out, and their tree.

  Inside other parentheses and in a body, the tree changes where the pair was and
  nowhere else.  In a row of arguments two things happen.  The atoms of an
  application that was an argument join the row, which stays a row.  An
  abstraction that was in parentheses takes in the rest of the row
  (`Swallows`); the row in front of it is shorter than it was, so the tree is
  another one, unless nothing was there to be taken in.  `Remains` carries both
  through a term, from the pair upwards.
-/

import LambdaTree.Proofs.Term.Enclosure

namespace LambdaTree

open Grammar

variable {α : Type}

namespace Term

/-! ## Leaving out a pair -/

/-- The lexemes of a term without the parentheses around the subterm at an address. -/
def omitting : Term α → List Nat → List Lexeme
  | .abs _ binder body, 0 :: q => .lambda :: .word binder :: .dot :: body.omitting q
  | .app _ func arg, 0 :: q =>
    enclose (func.binding.wrapsFunction && !q.isEmpty) (func.omitting q) ++
      enclose arg.binding.wrapsArgument arg.lexemes
  | .app _ func arg, 1 :: q =>
    enclose func.binding.wrapsFunction func.lexemes ++
      enclose (arg.binding.wrapsArgument && !q.isEmpty) (arg.omitting q)
  | t, _ => t.lexemes

section

variable (note : α) (func arg : Term α) {q : List Nat}

@[simp] theorem omitting_nil (t : Term α) : t.omitting [] = t.lexemes := by
  cases t <;> rfl

theorem omitting_function :
    (Term.app note func arg).omitting [0] =
      func.lexemes ++ enclose arg.binding.wrapsArgument arg.lexemes := by
  simp [omitting, enclose]

theorem omitting_argument :
    (Term.app note func arg).omitting [1] =
      enclose func.binding.wrapsFunction func.lexemes ++ arg.lexemes := by
  simp [omitting, enclose]

theorem omitting_inFunction (hq : q ≠ []) :
    (Term.app note func arg).omitting (0 :: q) =
      enclose func.binding.wrapsFunction (func.omitting q) ++
        enclose arg.binding.wrapsArgument arg.lexemes := by
  have hbelow : q.isEmpty = false := by simpa using hq
  simp [omitting, hbelow]

theorem omitting_inArgument (hq : q ≠ []) :
    (Term.app note func arg).omitting (1 :: q) =
      enclose func.binding.wrapsFunction func.lexemes ++
        enclose arg.binding.wrapsArgument (arg.omitting q) := by
  have hbelow : q.isEmpty = false := by simpa using hq
  simp [omitting, hbelow]

end

/-- The text without the parentheses around a subterm covers what is left of the lexemes. -/
theorem Encloses.coversAs {t s : Term α} {q : List Nat} {front behind : List Char}
    (h : Encloses t q front s behind) (hnames : t.WordNames) :
    CoversAs (front ++ (s.print.toList ++ behind)) (t.omitting q) := by
  induction h with
  | function _ =>
      rw [omitting_function]
      exact .application (covers_print hnames.func) (covers_argumentText hnames.arg)
  | argument _ =>
      rw [omitting_argument]
      simpa using CoversAs.application (covers_functionText hnames.func) (covers_print hnames.arg)
  | body _ ih => simpa [omitting] using CoversAs.abstraction hnames.binder (ih hnames.body)
  | @inFunction _ func _ _ _ _ _ h ih =>
      have hfunc := (ih hnames.func).parenthesised func.binding.wrapsFunction
      rw [omitting_inFunction _ _ _ h.address_ne_nil]
      simpa using hfunc.application (covers_argumentText hnames.arg)
  | @inArgument _ _ arg _ _ _ _ h ih =>
      have harg := (ih hnames.arg).parenthesised arg.binding.wrapsArgument
      rw [omitting_inArgument _ _ _ h.address_ne_nil]
      simpa using (covers_functionText hnames.func).application harg

end Term

/-! ## An abstraction at the end of a row -/

/-- Lexemes that end with an abstraction, alone or behind a row of fewer nodes than a bound.
    Whatever comes next goes into its body. -/
inductive Swallows (bound : Nat) : List Lexeme → Term (Option Note) → Prop where
  | alone (binder : String) {us : List Lexeme} {t : Term (Option Note)}
      (h : Derives .expression us t) :
      Swallows bound (.lambda :: .word binder :: .dot :: us) (.abs none binder t)
  | behind (binder : String) {ts us : List Lexeme} {f t : Term (Option Note)}
      (hf : Derives .spine ts f) (hsize : f.size < bound) (h : Derives .expression us t) :
      Swallows bound (ts ++ .lambda :: .word binder :: .dot :: us)
        (.app none f (.abs none binder t))

namespace Swallows

variable {bound : Nat} {ts us : List Lexeme} {t f a : Term (Option Note)}

theorem derives (h : Swallows bound ts t) : Derives .expression ts t := by
  cases h with
  | alone binder h => exact .single (.abstraction binder h)
  | behind binder hf _ h => exact .chain hf (.abstraction binder h)

theorem append (h : Swallows bound ts t) (hus : WellFormed us) :
    ∃ u, Swallows bound (ts ++ us) u := by
  cases h with
  | alone binder h =>
      obtain ⟨u, hu⟩ := wellFormed_append h hus
      exact ⟨_, .alone binder hu⟩
  | behind binder hf hsize h =>
      obtain ⟨u, hu⟩ := wellFormed_append h hus
      rw [List.append_assoc]
      exact ⟨_, .behind binder hf hsize hu⟩

theorem mono {bound' : Nat} (h : Swallows bound ts t) (hle : bound ≤ bound') :
    Swallows bound' ts t := by
  cases h with
  | alone binder h => exact .alone binder h
  | behind binder hf hsize h => exact .behind binder hf (by omega) h

/-- The row in front is too short to be a function of this size. -/
theorem ne_app (h : Swallows bound ts t) (hle : bound ≤ f.size) : t ≠ .app none f a := by
  cases h with
  | alone => simp
  | behind _ _ hsize =>
      rintro ⟨⟩
      omega

end Swallows

/-! ## The tree of what is left -/

namespace Term

/-- What is left of an application when a pair is left out: a row still, or an abstraction at
    its end that takes in what follows.  The argument of the application itself is the one
    that may come to be at the end without a change. -/
def Continues (t : Term α) (q : List Nat) (s : Term α) (r : Term (Option Note)) : Prop :=
  (Derives .spine (t.omitting q) r ∧ (q = [1] → s.binding ≠ .abstraction)) ∨
    (Swallows t.strip.size (t.omitting q) r ∧ (t.LastArgumentAt q → q = [1]))

/-- What is left of a term when the pair around the subterm `s` is left out has the tree `r`,
    which is that of the term for an abstraction as a last argument and no other. -/
structure Remains (t : Term α) (q : List Nat) (s : Term α) (r : Term (Option Note)) : Prop where
  derives : Derives .expression (t.omitting q) r
  eq_strip_iff : r = t.strip ↔ s.binding = .abstraction ∧ t.LastArgumentAt q
  continues : t.binding = .application → t.Continues q s r

section

variable {note : α} {binder : String} {t func arg s : Term α} {q : List Nat}
  {r : Term (Option Note)}

theorem wellFormed_argument (arg : Term α) :
    WellFormed (enclose arg.binding.wrapsArgument arg.lexemes) :=
  ⟨_, .single (.atom (derives_argument arg.derives_lexemes))⟩

/-- Where an abstraction has taken in an argument, the tree is another one: what is in front
    of the abstraction is not the function. -/
theorem remains_of_swallows {bound : Nat}
    (h : Swallows bound ((Term.app note func arg).omitting q) r) (hbound : bound ≤ func.strip.size)
    (hlast : ¬(Term.app note func arg).LastArgumentAt q) :
    (Term.app note func arg).Remains q s r := by
  have hne : r ≠ (Term.app note func arg).strip := by
    rw [strip_app]
    exact h.ne_app hbound
  have hsize : bound ≤ (Term.app note func arg).strip.size := by
    rw [strip_app, size]
    omega
  exact ⟨h.derives, iff_of_false hne fun hs => hlast hs.2,
    fun _ => .inr ⟨h.mono hsize, fun hq => absurd hq hlast⟩⟩

/-- An abstraction that was applied takes in its argument. -/
theorem exists_remains_function (h : func.binding.wrapsFunction = true) :
    ∃ r, (Term.app note func arg).Remains [0] func r := by
  cases func with
  | var note' name => simp [binding, Binding.wrapsFunction] at h
  | app note' func' arg' => simp [binding, Binding.wrapsFunction] at h
  | abs note' binder body =>
      have habs : Swallows 0 (Term.abs note' binder body).lexemes _ :=
        .alone binder body.derives_lexemes.expression_of_binding
      obtain ⟨r, hr⟩ := habs.append arg.wellFormed_argument
      rw [← omitting_function note] at hr
      exact ⟨r, remains_of_swallows hr (Nat.zero_le _) fun hlast =>
        hlast.not_functionAt (functionAt_singleton.mpr ⟨rfl, appliesAt_app⟩)⟩

/-- An argument joins the row, or takes the place at its end. -/
theorem exists_remains_argument (h : arg.binding.wrapsArgument = true) :
    ∃ r, (Term.app note func arg).Remains [1] arg r := by
  have hfunc := derives_function func.derives_lexemes
  have hlast : (Term.app note func arg).LastArgumentAt [1] :=
    ⟨[], ⟨rfl, appliesAt_app⟩, not_functionAt_nil⟩
  cases arg with
  | var note' name => simp [binding, Binding.wrapsArgument] at h
  | abs note' binder body =>
      have hsize : func.strip.size < (Term.app note func (.abs note' binder body)).strip.size := by
        simp [size]
        omega
      have hrow : Swallows (Term.app note func (.abs note' binder body)).strip.size _ _ :=
        .behind binder hfunc hsize body.derives_lexemes.expression_of_binding
      have homitting := omitting_argument note func (.abs note' binder body)
      rw [lexemes] at homitting
      rw [← homitting] at hrow
      exact ⟨_, hrow.derives, by simp [hlast, binding], fun _ => .inr ⟨hrow, fun _ => rfl⟩⟩
  | app note' func' arg' =>
      -- The atoms of the argument come one by one; its own last argument is the last now.
      obtain ⟨f, hf⟩ := spine_append hfunc (derives_function func'.derives_lexemes)
      have hrow := Derives.applied hf (derives_argument arg'.derives_lexemes)
      have homitting := omitting_argument note func (.app note' func' arg')
      rw [lexemes, ← List.append_assoc] at homitting
      rw [← homitting] at hrow
      refine ⟨_, hrow.spine_expression, ?_, fun _ => .inl ⟨hrow, fun _ => by simp [binding]⟩⟩
      have hne : arg'.strip ≠ .app none func'.strip arg'.strip := by
        intro heq
        have hsize := congrArg size heq
        simp only [size] at hsize
        omega
      simp [binding, hne]

theorem Remains.body (h : t.Remains q s r) (hq : q ≠ []) :
    (Term.abs note binder t).Remains (0 :: q) s (.abs none binder r) where
  derives := .single (.abstraction binder h.derives)
  eq_strip_iff := by
    rw [lastArgumentAt_abs hq, ← h.eq_strip_iff]
    simp
  continues happ := by cases happ

theorem Remains.inArgument (h : arg.Remains q s r) (hq : q ≠ [])
    (hwrap : arg.binding.wrapsArgument = true) :
    (Term.app note func arg).Remains (1 :: q) s (.app none func.strip r) := by
  have hrow : Derives .spine ((Term.app note func arg).omitting (1 :: q))
      (.app none func.strip r) := by
    rw [omitting_inArgument _ _ _ hq, hwrap]
    exact .applied (derives_function func.derives_lexemes) (.parens h.derives)
  refine ⟨hrow.spine_expression, ?_, fun _ => .inl ⟨hrow, by simp [hq]⟩⟩
  rw [lastArgumentAt_argument hq, ← h.eq_strip_iff]
  simp

/-- A row goes on with the argument. -/
theorem Remains.inRow (h : func.Remains q s r) (hq : q ≠ [])
    (hrow : Derives .spine (enclose func.binding.wrapsFunction (func.omitting q)) r)
    (hone : q = [1] → s.binding ≠ .abstraction) :
    (Term.app note func arg).Remains (0 :: q) s (.app none r arg.strip) := by
  have hmore := hrow.applied (derives_argument arg.derives_lexemes)
  rw [← omitting_inFunction note func arg hq] at hmore
  refine ⟨hmore.spine_expression, ?_, fun _ => .inl ⟨hmore, by simp⟩⟩
  rw [lastArgumentAt_function hq, ← and_assoc, ← h.eq_strip_iff, strip_app]
  have hsame : r = func.strip → q ≠ [1] := fun heq hq => hone hq (h.eq_strip_iff.mp heq).1
  simpa using hsame

/-- An abstraction at the end of a function takes in the argument. -/
theorem exists_remains_inRow (hq : q ≠ []) (happ : func.binding = .application)
    (h : Swallows func.strip.size (func.omitting q) r) (hone : func.LastArgumentAt q → q = [1]) :
    ∃ r, (Term.app note func arg).Remains (0 :: q) s r := by
  have homitting : (Term.app note func arg).omitting (0 :: q) =
      func.omitting q ++ enclose arg.binding.wrapsArgument arg.lexemes := by
    rw [omitting_inFunction _ _ _ hq, happ]
    rfl
  obtain ⟨r, hr⟩ := h.append arg.wellFormed_argument
  rw [← homitting] at hr
  refine ⟨r, remains_of_swallows hr (Nat.le_refl _) ?_⟩
  rw [lastArgumentAt_function hq]
  exact fun hlast => hlast.2 (hone hlast.1)

end

/-- What is left has a tree, whichever pair is left out. -/
theorem Encloses.exists_remains {t s : Term α} {q : List Nat} {front behind : List Char}
    (h : Encloses t q front s behind) : ∃ r, t.Remains q s r := by
  induction h with
  | function h => exact exists_remains_function h
  | argument h => exact exists_remains_argument h
  | body h ih =>
      obtain ⟨r, hr⟩ := ih
      exact ⟨_, hr.body h.address_ne_nil⟩
  | inArgument h ih =>
      obtain ⟨r, hr⟩ := ih
      exact ⟨_, hr.inArgument h.address_ne_nil (Binding.wrapsArgument_iff.mpr h.binding_ne_atom)⟩
  | @inFunction _ func _ _ q _ _ h ih =>
      obtain ⟨r, hr⟩ := ih
      cases func with
      | var note name => exact absurd rfl h.binding_ne_atom
      | abs note binder body =>
          -- In its own parentheses, an abstraction is one atom of the row.
          refine ⟨_, hr.inRow h.address_ne_nil (.head (.parens hr.derives)) ?_⟩
          rintro rfl
          cases h
      | app note func arg =>
          rcases hr.continues rfl with ⟨hrow, hone⟩ | ⟨hswallows, hone⟩
          · exact ⟨_, hr.inRow h.address_ne_nil hrow hone⟩
          · exact exists_remains_inRow h.address_ne_nil rfl hswallows hone

end Term

end LambdaTree
