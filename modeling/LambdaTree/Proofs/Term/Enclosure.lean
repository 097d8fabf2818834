/-
  LambdaTree.Proofs.Term.Enclosure

  The parentheses in the text of a term.  `Encloses` says where the text of a
  subterm stands in parentheses, with the text in front of them and the text
  behind them.  There are no others: parentheses that match each other anywhere
  in the text are those of a subterm (`exists_encloses`), because the texts of
  subterms are balanced and a matching pair that starts in a balanced text ends
  in it.

  Where a subterm stands is said by addresses: as a function, as an argument, as
  the last argument in its row.
-/

import LambdaTree.Proofs.RoundTrip
import LambdaTree.Proofs.Term.Sizes

namespace LambdaTree

open Grammar Lexer

variable {α : Type}

/-! ## Balanced texts -/

/-- As many parentheses are closed as are opened, and none before it was opened. -/
structure Balanced (cs : List Char) : Prop where
  even : cs.count '(' = cs.count ')'
  opened : ∀ front, front <+: cs → front.count ')' ≤ front.count '('

namespace Balanced

variable {text inside front rest behind cs : List Char}

theorem of_not_mem (hopen : '(' ∉ cs) (hclose : ')' ∉ cs) : Balanced cs where
  even := by rw [List.count_eq_zero.mpr hopen, List.count_eq_zero.mpr hclose]
  opened front hfront := by
    have hnone : front.count ')' = 0 :=
      List.count_eq_zero.mpr fun hmem => hclose (hfront.subset hmem)
    omega

theorem append (h : Balanced text) (hcs : Balanced cs) : Balanced (text ++ cs) where
  even := by rw [List.count_append, List.count_append, h.even, hcs.even]
  opened front hfront := by
    rcases List.prefix_or_prefix_of_prefix hfront (List.prefix_append text cs) with hleft | hright
    · exact h.opened front hleft
    · obtain ⟨front, rfl⟩ := hright
      have heven := h.even
      have hopened := hcs.opened front ((List.prefix_append_right_inj text).mp hfront)
      rw [List.count_append, List.count_append]
      omega

theorem parenthesised (h : Balanced text) (wrap : Bool) :
    Balanced (opening wrap ++ (text ++ closing wrap)) := by
  cases wrap with
  | false => simpa [opening, closing] using h
  | true =>
      have heven := h.even
      refine ⟨by simp [opening, closing, heven], fun front hfront => ?_⟩
      rcases List.prefix_cons_iff.mp hfront with rfl | ⟨start, rfl, hstart⟩
      · simp
      · -- The last mark closes the first; in front of it, the first is still open.
        rcases List.prefix_concat_iff.mp hstart with rfl | hstart
        · simp [heven]
        · have hopened := h.opened start hstart
          simp
          omega

/-- A parenthesis that is opened in a balanced text is closed in it. -/
theorem closes (h : Balanced (front ++ '(' :: cs)) : cs.count '(' < cs.count ')' := by
  have heven := h.even
  have hopened := h.opened front (List.prefix_append _ _)
  simp only [List.count_append, List.count_cons_self, List.count_cons_of_ne, ne_eq,
    Char.reduceEq, not_false_eq_true] at heven
  omega

/-- No balanced text goes on with a parenthesis that closes. -/
theorem not_append (h : Balanced text) : ¬Balanced (text ++ ')' :: cs) := by
  intro hmore
  have heven := h.even
  have hopened := hmore.opened (text ++ [')']) (by simp)
  simp at hopened
  omega

/-- Matching parentheses that start in a balanced text end in it. -/
theorem split (h : Balanced text) (hinside : Balanced inside)
    (heq : text ++ cs = front ++ '(' :: (inside ++ ')' :: behind)) :
    (∃ rest, text = front ++ '(' :: (inside ++ ')' :: rest) ∧ behind = rest ++ cs) ∨
      ∃ rest, front = text ++ rest ∧ cs = rest ++ '(' :: (inside ++ ')' :: behind) := by
  rcases List.append_eq_append_iff.mp heq with ⟨rest, hfront, hcs⟩ | ⟨middle, htext, hmiddle⟩
  · exact .inr ⟨rest, hfront, hcs⟩
  · cases middle with
    | nil => exact .inr ⟨[], by simpa using htext.symm, by simpa using hmiddle.symm⟩
    | cons c middle =>
        simp only [List.cons_append, List.cons.injEq] at hmiddle
        obtain ⟨rfl, hmiddle⟩ := hmiddle
        subst htext
        have hmore := h.closes
        rcases List.append_eq_append_iff.mp hmiddle with ⟨rest, hrest, hbehind⟩ | ⟨rest, hrest, _⟩
        · cases rest with
          | nil =>
              rw [hrest, List.append_nil, hinside.even] at hmore
              exact absurd hmore (Nat.lt_irrefl _)
          | cons c rest =>
              simp only [List.cons_append, List.cons.injEq] at hbehind
              obtain ⟨rfl, rfl⟩ := hbehind
              exact .inl ⟨rest, by rw [hrest], rfl⟩
        · -- The text would end inside the parentheses, with the first of them open.
          have hopened := hinside.opened middle ⟨rest, hrest.symm⟩
          omega

/-- A text in parentheses ends with the first one that closes more than was opened. -/
theorem eq_of_append (h : Balanced text) (hinside : Balanced inside)
    (heq : text ++ ')' :: cs = inside ++ ')' :: behind) : text = inside ∧ cs = behind := by
  rcases List.append_eq_append_iff.mp heq with ⟨rest, rfl, hrest⟩ | ⟨rest, rfl, hrest⟩
  · cases rest with
    | nil => exact ⟨by simp, by simpa using hrest⟩
    | cons c rest =>
        obtain ⟨rfl, -⟩ := List.cons.inj hrest
        exact absurd hinside h.not_append
  · cases rest with
    | nil => exact ⟨by simp, by simpa using hrest.symm⟩
    | cons c rest =>
        obtain ⟨rfl, -⟩ := List.cons.inj hrest
        exact absurd h hinside.not_append

/-- Matching parentheses in a text that may be wrapped are around it, or they are in the
    text itself. -/
theorem split_parenthesised {wrap : Bool} (h : Balanced text) (hinside : Balanced inside)
    (heq : opening wrap ++ (text ++ closing wrap) = front ++ '(' :: (inside ++ ')' :: behind)) :
    (wrap = true ∧ front = [] ∧ inside = text ∧ behind = []) ∨
      ∃ start rest, front = opening wrap ++ start ∧ behind = rest ++ closing wrap ∧
        text = start ++ '(' :: (inside ++ ')' :: rest) := by
  cases wrap with
  | false =>
      have htext : text = front ++ '(' :: (inside ++ ')' :: behind) := by
        simpa [opening, closing] using heq
      exact .inr ⟨front, behind, rfl, by simp [closing], htext⟩
  | true =>
      cases front with
      | nil =>
          obtain ⟨rfl, rfl⟩ := h.eq_of_append hinside (List.cons.inj heq).2
          exact .inl ⟨rfl, rfl, rfl, rfl⟩
      | cons c start =>
          obtain ⟨rfl, hstart⟩ := List.cons.inj heq
          rcases h.split hinside hstart with ⟨rest, htext, hbehind⟩ | ⟨rest, -, hrest⟩
          · exact .inr ⟨start, rest, rfl, hbehind, htext⟩
          · -- Nothing is opened behind the text.
            have hmem : '(' ∈ closing true := by rw [hrest]; simp
            simp [closing] at hmem

end Balanced

/-- A parenthesis is opened behind a text that opens none. -/
theorem skip_of_not_mem {text cs front behind : List Char} (h : '(' ∉ text)
    (heq : text ++ cs = front ++ '(' :: behind) :
    ∃ start, front = text ++ start ∧ cs = start ++ '(' :: behind := by
  rcases List.append_eq_append_iff.mp heq with hstart | ⟨middle, rfl, hmiddle⟩
  · exact hstart
  · cases middle with
    | nil => exact ⟨[], by simp, by simpa using hmiddle.symm⟩
    | cons c middle =>
        obtain ⟨rfl, -⟩ := List.cons.inj hmiddle
        simp at h

/-! ## The text of a term is balanced -/

/-- The letters of a word are no parentheses. -/
theorem not_mem_of_isWordText {cs : List Char} (h : isWordText cs = true) :
    '(' ∉ cs ∧ ')' ∉ cs := by
  have hpart : ∀ c ∈ cs, isWordPart c = true := by
    cases cs with
    | nil => cases h
    | cons c cs =>
        rw [isWordText, Bool.and_eq_true, List.all_eq_true] at h
        exact List.forall_mem_cons.mpr ⟨isWordPart_of_isWordStart h.1, h.2⟩
  exact ⟨fun hmem => absurd (hpart _ hmem) (by decide),
    fun hmem => absurd (hpart _ hmem) (by decide)⟩

/-- The text of a binder has no parentheses. -/
theorem not_mem_binder {binder : String} (h : isWordText binder.toList = true) :
    '(' ∉ 'λ' :: (binder.toList ++ ['.']) ∧ ')' ∉ 'λ' :: (binder.toList ++ ['.']) := by
  have hword := not_mem_of_isWordText h
  exact ⟨by simp [hword.1], by simp [hword.2]⟩

theorem balanced_blank : Balanced [' '] := .of_not_mem (by decide) (by decide)

theorem balanced_print {t : Term α} (h : t.WordNames) : Balanced t.print.toList := by
  induction t with
  | var note name =>
      have hword := not_mem_of_isWordText h.name
      rw [Term.print_var]
      exact .of_not_mem hword.1 hword.2
  | abs note binder body ih =>
      have hbinder := not_mem_binder h.binder
      have hboth := (Balanced.of_not_mem hbinder.1 hbinder.2).append (ih h.body)
      rw [Term.toList_print_abs]
      simpa using hboth
  | app note func arg ihf iha =>
      rw [Term.toList_print_app]
      exact ((ihf h.func).parenthesised _).append
        (balanced_blank.append ((iha h.arg).parenthesised _))

/-! ## The parentheses of a subterm -/

theorem Binding.wrapsArgument_iff {binding : Binding} :
    binding.wrapsArgument = true ↔ binding ≠ .atom := by
  cases binding <;> decide

namespace Term

/-- The text of the subterm at an address stands in parentheses, between the text in front of
    them and the text behind them. -/
inductive Encloses : Term α → List Nat → List Char → Term α → List Char → Prop where
  | function {note : α} {func arg : Term α} (h : func.binding.wrapsFunction = true) :
      Encloses (.app note func arg) [0] [] func (' ' :: arg.argumentText)
  | argument {note : α} {func arg : Term α} (h : arg.binding.wrapsArgument = true) :
      Encloses (.app note func arg) [1] (func.functionText ++ [' ']) arg []
  | body {note : α} {binder : String} {body s : Term α} {q : List Nat} {front behind : List Char}
      (h : Encloses body q front s behind) :
      Encloses (.abs note binder body) (0 :: q) ('λ' :: (binder.toList ++ '.' :: front)) s behind
  | inFunction {note : α} {func arg s : Term α} {q : List Nat} {front behind : List Char}
      (h : Encloses func q front s behind) :
      Encloses (.app note func arg) (0 :: q) (opening func.binding.wrapsFunction ++ front) s
        (behind ++ closing func.binding.wrapsFunction ++ ' ' :: arg.argumentText)
  | inArgument {note : α} {func arg s : Term α} {q : List Nat} {front behind : List Char}
      (h : Encloses arg q front s behind) :
      Encloses (.app note func arg) (1 :: q)
        (func.functionText ++ ' ' :: (opening arg.binding.wrapsArgument ++ front)) s
        (behind ++ closing arg.binding.wrapsArgument)

namespace Encloses

variable {t s : Term α} {q : List Nat} {front behind : List Char}

theorem subtermAt (h : Encloses t q front s behind) : t.subtermAt q = some s := by
  induction h with
  | function _ => rfl
  | argument _ => rfl
  | body _ ih => exact ih
  | inFunction _ ih => exact ih
  | inArgument _ ih => exact ih

theorem binding_ne_atom (h : Encloses t q front s behind) : t.binding ≠ .atom := by
  cases h <;> simp [binding]

theorem address_ne_nil (h : Encloses t q front s behind) : q ≠ [] := by
  cases h <;> simp

/-- The term is its subterm in parentheses with the texts around them. -/
theorem toList_print (h : Encloses t q front s behind) :
    t.print.toList = front ++ '(' :: (s.print.toList ++ ')' :: behind) := by
  induction h with
  | function h => simp [toList_print_app, functionText, opening, closing, h]
  | argument h => simp [toList_print_app, argumentText, opening, closing, h]
  | body _ ih => simp [toList_print_abs, ih]
  | inFunction _ ih => simp [toList_print_app, functionText, ih]
  | inArgument _ ih => simp [toList_print_app, argumentText, ih]

end Encloses

/-- Matching parentheses in the text of a term are those of a subterm. -/
theorem exists_encloses {t : Term α} (h : t.WordNames) {front inside behind : List Char}
    (hinside : Balanced inside)
    (heq : t.print.toList = front ++ '(' :: (inside ++ ')' :: behind)) :
    ∃ q s, Encloses t q front s behind ∧ inside = s.print.toList := by
  induction t generalizing front behind with
  | var note name =>
      have hmem : '(' ∈ name.toList := by
        rw [← print_var note name, heq]
        simp
      exact absurd hmem (not_mem_of_isWordText h.name).1
  | abs note binder body ih =>
      rw [toList_print_abs] at heq
      obtain ⟨start, rfl, hbody⟩ :=
        skip_of_not_mem (not_mem_binder h.binder).1 (by simpa using heq)
      obtain ⟨q, s, hs, rfl⟩ := ih h.body hbody
      exact ⟨0 :: q, s, by simpa using hs.body, rfl⟩
  | app note func arg ihf iha =>
      rw [toList_print_app] at heq
      have hfunc := balanced_print h.func
      rcases (hfunc.parenthesised _).split hinside heq with ⟨rest, htext, rfl⟩ | ⟨rest, rfl, hrest⟩
      · -- In the function.
        rcases hfunc.split_parenthesised hinside htext with
          ⟨hwrap, rfl, rfl, rfl⟩ | ⟨start, rest, rfl, rfl, hprint⟩
        · exact ⟨[0], func, .function hwrap, rfl⟩
        · obtain ⟨q, s, hs, rfl⟩ := ihf h.func hprint
          exact ⟨0 :: q, s, hs.inFunction, rfl⟩
      · -- In the argument.
        obtain ⟨rest, rfl, htext⟩ := skip_of_not_mem (by decide : '(' ∉ [' ']) hrest
        rcases (balanced_print h.arg).split_parenthesised hinside htext with
          ⟨hwrap, rfl, rfl, rfl⟩ | ⟨start, rest, rfl, rfl, hprint⟩
        · exact ⟨[1], arg, .argument hwrap, rfl⟩
        · obtain ⟨q, s, hs, rfl⟩ := iha h.arg hprint
          exact ⟨1 :: q, s, hs.inArgument, rfl⟩

/-! ## Functions and arguments -/

/-- An application stands at an address. -/
def AppliesAt (t : Term α) (address : List Nat) : Prop :=
  ∃ note func arg, t.subtermAt address = some (.app note func arg)

/-- The function of an application stands at an address. -/
def FunctionAt (t : Term α) (address : List Nat) : Prop :=
  ∃ parent, address = parent ++ [0] ∧ t.AppliesAt parent

/-- The argument of the application at one address stands at another. -/
def ArgumentOf (t : Term α) (parent address : List Nat) : Prop :=
  address = parent ++ [1] ∧ t.AppliesAt parent

/-- The argument of an application that is not the function of another. -/
def LastArgumentAt (t : Term α) (address : List Nat) : Prop :=
  ∃ parent, t.ArgumentOf parent address ∧ ¬t.FunctionAt parent

/-- The argument of an application that is the function of another, so that more arguments
    follow. -/
def InnerArgumentAt (t : Term α) (address : List Nat) : Prop :=
  ∃ parent, t.ArgumentOf parent address ∧ t.FunctionAt parent

section

variable {t child : Term α} {i : Nat} {q : List Nat}

theorem appliesAt_child (hchild : t.children[i]? = some child) :
    t.AppliesAt (i :: q) ↔ child.AppliesAt q := by
  rw [AppliesAt, Term.subtermAt, hchild, Option.bind_some, AppliesAt]

theorem not_functionAt_nil : ¬t.FunctionAt [] := by
  rintro ⟨parent, hparent, -⟩
  simp at hparent

/-- Below a child, the functions are those of the child. -/
theorem functionAt_child (hchild : t.children[i]? = some child) (hq : q ≠ []) :
    t.FunctionAt (i :: q) ↔ child.FunctionAt q := by
  constructor
  · rintro ⟨parent, hparent, happ⟩
    rcases List.cons_eq_append_iff.mp hparent with ⟨-, hnil⟩ | ⟨above, rfl, habove⟩
    · exact absurd (List.cons.inj hnil).2.symm hq
    · exact ⟨above, habove, (appliesAt_child hchild).mp happ⟩
  · rintro ⟨above, rfl, happ⟩
    exact ⟨i :: above, rfl, (appliesAt_child hchild).mpr happ⟩

theorem ArgumentOf.below {parent : List Nat} (hchild : t.children[i]? = some child)
    (h : child.ArgumentOf parent q) : t.ArgumentOf (i :: parent) (i :: q) :=
  ⟨by rw [h.1]; rfl, (appliesAt_child hchild).mpr h.2⟩

/-- Below a child, the last arguments are those of the child, but for its own argument when
    the child is a function. -/
theorem lastArgumentAt_child (hchild : t.children[i]? = some child) (hq : q ≠ []) :
    t.LastArgumentAt (i :: q) ↔ child.LastArgumentAt q ∧ ¬(q = [1] ∧ t.FunctionAt [i]) := by
  -- The application above the argument is the child itself or further down.
  have habove (above : List Nat) : t.FunctionAt (i :: above) ↔
      child.FunctionAt above ∨ (above = [] ∧ t.FunctionAt [i]) := by
    cases above with
    | nil => simp [not_functionAt_nil]
    | cons j above => simp [functionAt_child hchild]
  constructor
  · rintro ⟨parent, ⟨hparent, happ⟩, hnot⟩
    rcases List.cons_eq_append_iff.mp hparent with ⟨-, hnil⟩ | ⟨above, rfl, rfl⟩
    · exact absurd (List.cons.inj hnil).2.symm hq
    · rw [habove, not_or] at hnot
      refine ⟨⟨above, ⟨rfl, (appliesAt_child hchild).mp happ⟩, hnot.1⟩, ?_⟩
      rintro ⟨hone, hfunc⟩
      exact hnot.2 ⟨by simpa using hone, hfunc⟩
  · rintro ⟨⟨above, harg, hnot⟩, hone⟩
    refine ⟨i :: above, harg.below hchild, ?_⟩
    rw [habove, not_or]
    exact ⟨hnot, fun ⟨hnil, hfunc⟩ => hone ⟨by rw [harg.1, hnil]; rfl, hfunc⟩⟩

theorem functionAt_singleton : t.FunctionAt [i] ↔ i = 0 ∧ t.AppliesAt [] := by
  constructor
  · rintro ⟨parent, hparent, happ⟩
    obtain ⟨rfl, hi⟩ := List.append_inj' (show [] ++ [i] = parent ++ [0] from hparent) rfl
    exact ⟨by simpa using hi, happ⟩
  · rintro ⟨rfl, happ⟩
    exact ⟨[], rfl, happ⟩

end

section

variable {note : α} {binder : String} {body func arg : Term α} {q : List Nat}

theorem appliesAt_app : (Term.app note func arg).AppliesAt [] := ⟨note, func, arg, rfl⟩

theorem lastArgumentAt_abs (hq : q ≠ []) :
    (Term.abs note binder body).LastArgumentAt (0 :: q) ↔ body.LastArgumentAt q := by
  rw [lastArgumentAt_child rfl hq, functionAt_singleton]
  simp [AppliesAt]

theorem lastArgumentAt_function (hq : q ≠ []) :
    (Term.app note func arg).LastArgumentAt (0 :: q) ↔ func.LastArgumentAt q ∧ q ≠ [1] := by
  rw [lastArgumentAt_child rfl hq, functionAt_singleton]
  simp [appliesAt_app]

theorem lastArgumentAt_argument (hq : q ≠ []) :
    (Term.app note func arg).LastArgumentAt (1 :: q) ↔ arg.LastArgumentAt q := by
  rw [lastArgumentAt_child rfl hq, functionAt_singleton]
  simp

end

theorem LastArgumentAt.not_functionAt {t : Term α} {q : List Nat} (h : t.LastArgumentAt q) :
    ¬t.FunctionAt q := by
  rintro ⟨above, rfl, -⟩
  obtain ⟨parent, ⟨hparent, -⟩, -⟩ := h
  simpa using List.append_inj_right' hparent rfl

theorem LastArgumentAt.not_innerArgumentAt {t : Term α} {q : List Nat} (h : t.LastArgumentAt q) :
    ¬t.InnerArgumentAt q := by
  rintro ⟨above, ⟨rfl, -⟩, hfunc⟩
  obtain ⟨parent, ⟨hparent, -⟩, hnot⟩ := h
  rw [List.append_inj_left' hparent rfl] at hfunc
  exact hnot hfunc

/-- What stands in parentheses is an abstraction that is applied, or an argument that is no
    variable. -/
theorem Encloses.place {t s : Term α} {q : List Nat} {front behind : List Char}
    (h : Encloses t q front s behind) :
    (s.binding = .abstraction ∧ t.FunctionAt q) ∨
      (s.binding ≠ .atom ∧ ∃ parent, t.ArgumentOf parent q) := by
  induction h with
  | function h => exact .inl ⟨by simpa [Binding.wrapsFunction] using h, [], rfl, appliesAt_app⟩
  | argument h => exact .inr ⟨Binding.wrapsArgument_iff.mp h, [], rfl, appliesAt_app⟩
  | body h ih | inFunction h ih | inArgument h ih =>
      rcases ih with ⟨habs, hfunc⟩ | ⟨hwrap, parent, harg⟩
      · exact .inl ⟨habs, (functionAt_child rfl h.address_ne_nil).mpr hfunc⟩
      · exact .inr ⟨hwrap, _, harg.below rfl⟩

/-- The parentheses that are not around an abstraction as a last argument. -/
theorem Encloses.other_iff {t s : Term α} {q : List Nat} {front behind : List Char}
    (h : Encloses t q front s behind) :
    ¬(s.binding = .abstraction ∧ t.LastArgumentAt q) ↔
      (s.binding = .abstraction ∧ t.FunctionAt q) ∨
      (s.binding = .application ∧ ∃ parent, t.ArgumentOf parent q) ∨
      (s.binding = .abstraction ∧ t.InnerArgumentAt q) := by
  constructor
  · intro hnot
    rcases h.place with hfunc | ⟨hwrap, parent, harg⟩
    · exact .inl hfunc
    · cases hs : s.binding with
      | atom => exact absurd hs hwrap
      | application => exact .inr (.inl ⟨rfl, parent, harg⟩)
      | abstraction =>
          by_cases hfunc : t.FunctionAt parent
          · exact .inr (.inr ⟨rfl, parent, harg, hfunc⟩)
          · exact absurd ⟨hs, parent, harg, hfunc⟩ hnot
  · rintro (⟨-, hfunc⟩ | ⟨happ, -⟩ | ⟨-, hinner⟩) ⟨habs, hlast⟩
    · exact hlast.not_functionAt hfunc
    · rw [happ] at habs
      cases habs
    · exact hlast.not_innerArgumentAt hinner

end Term

end LambdaTree
