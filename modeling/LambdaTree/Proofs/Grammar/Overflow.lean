/-
  LambdaTree.Proofs.Grammar.Overflow

  The descent runs out of levels wherever it has to: behind some start of an
  expression that leaves as many levels open as were allowed, whatever comes
  next (`readExpression_tooDeep`).  With `opensLevels_of_tooDeep` this makes the
  levels that the descent takes exactly those that are open
  (`tooDeep_iff_openLevels`).

  A start of an expression either leaves no level open, or it is a spine, an
  opening of a level, and then a start of an expression inside that level
  (`levels_of_prefix`).  The descent passes the spine and goes into the level.
-/

import LambdaTree.Proofs.Grammar.Nesting

namespace LambdaTree

namespace Grammar

variable {c ts us v w : List Lexeme} {t f : Term (Option Note)} {category : Category}
  {level : Level}

/-! ## The outermost open level -/

/-- Lexemes that open a level. -/
inductive Opening : Level → List Lexeme → Prop where
  | paren : Opening .paren [.openParen]
  | binder (name : String) : Opening .binder [.lambda, .word name, .dot]

/-- Nothing, or a spine. -/
def SpineOrNil (v : List Lexeme) : Prop :=
  v = [] ∨ ∃ f, Derives .spine v f

/-- The outermost open level behind some lexemes: it is opened behind a spine, and followed
    by a start of an expression. -/
structure Outermost (c v opening inner : List Lexeme) (level : Level) : Prop where
  split : c = v ++ (opening ++ inner)
  spine : SpineOrNil v
  opening : Opening level opening
  viable : Viable inner

theorem SpineOrNil.levelsAfter (h : SpineOrNil v) (levels : List Level) :
    levelsAfter levels v = levels := by
  rcases h with rfl | ⟨f, hf⟩
  · rfl
  · exact hf.levelsAfter_spine

theorem SpineOrNil.append (hw : Derives .spine w f) (h : SpineOrNil v) : SpineOrNil (w ++ v) := by
  rcases h with rfl | ⟨g, hg⟩
  · exact .inr ⟨f, by rwa [List.append_nil]⟩
  · obtain ⟨t, ht⟩ := spine_append hw hg
    exact .inr ⟨t, ht⟩

theorem Opening.levelsAfter (h : Opening level us) (levels : List Level) :
    levelsAfter levels us = level :: levels := by
  cases h with
  | paren => rfl
  | binder name => rfl

theorem Outermost.levelsAfter {opening inner : List Lexeme} (h : Outermost c v opening inner level)
    (levels : List Level) : levelsAfter levels c = levelsAfter (level :: levels) inner := by
  rw [h.split, levelsAfter_append, levelsAfter_append, h.spine.levelsAfter, h.opening.levelsAfter]

theorem Outermost.append {opening inner : List Lexeme} (hw : Derives .spine w f)
    (h : Outermost c v opening inner level) : Outermost (w ++ c) (w ++ v) opening inner level :=
  ⟨by rw [h.split, List.append_assoc], h.spine.append hw, h.opening, h.viable⟩

/-- Some lexemes leave no level open, or there is an outermost one. -/
def ClosedOrOutermost (c : List Lexeme) : Prop :=
  (∀ levels, levelsAfter levels c = levels) ∨
    ∃ v opening inner level, Outermost c v opening inner level

theorem ClosedOrOutermost.append (hw : Derives .spine w f) (h : ClosedOrOutermost c) :
    ClosedOrOutermost (w ++ c) := by
  rcases h with hclosed | ⟨v, opening, inner, level, h⟩
  · refine .inl fun levels => ?_
    rw [levelsAfter_append, hw.levelsAfter_spine, hclosed]
  · exact .inr ⟨w ++ v, opening, inner, level, h.append hw⟩

/-- A start of two parts is a start of the first, or the first and a start of the second. -/
theorem prefix_append_cases (h : c <+: ts ++ us) : c <+: ts ∨ ∃ d, d <+: us ∧ c = ts ++ d := by
  obtain ⟨rest, hrest⟩ := h
  rcases List.append_eq_append_iff.mp hrest with ⟨d, rfl, rfl⟩ | ⟨d, rfl, rfl⟩
  · exact .inl ⟨d, rfl⟩
  · exact .inr ⟨d, ⟨rest, rfl⟩, rfl⟩

theorem Derives.prefix_viable (h : Derives .expression ts t) (hc : c <+: ts) : Viable c := by
  obtain ⟨rest, rfl⟩ := hc
  exact ⟨rest, t, h⟩

theorem closed_nil : ClosedOrOutermost [] :=
  .inl fun _ => rfl

/-- An opening that is followed by a start of an expression opens the outermost level. -/
theorem Opening.outermost (h : Opening level us) (hc : Viable c) : ClosedOrOutermost (us ++ c) :=
  .inr ⟨[], us, c, level, rfl, .inl rfl, h, hc⟩

theorem levels_of_prefix (h : Derives category ts t) (hc : c <+: ts) : ClosedOrOutermost c := by
  induction h generalizing c with
  | word name =>
      rcases List.prefix_cons_iff.mp hc with rfl | ⟨d, rfl, hd⟩
      · exact closed_nil
      · obtain rfl := List.prefix_nil.mp hd
        exact .inl fun _ => rfl
  | @parens ts t h _ =>
      -- The whole is closed again; anything shorter is inside the parenthesis.
      have hwhole := (Derives.parens h).leaves
      rcases List.prefix_cons_iff.mp hc with rfl | ⟨d, rfl, hd⟩
      · exact closed_nil
      · rcases prefix_append_cases hd with hd | ⟨e, he, rfl⟩
        · exact Opening.paren.outermost (h.prefix_viable hd)
        · rcases List.prefix_cons_iff.mp he with rfl | ⟨e, rfl, hnil⟩
          · rw [List.append_nil]
            exact Opening.paren.outermost (h.prefix_viable List.prefix_rfl)
          · obtain rfl := List.prefix_nil.mp hnil
            exact .inl hwhole
  | atom _ ih => exact ih hc
  | @abstraction binder ts t h _ =>
      have hparts : c <+: [.lambda, .word binder, .dot] ++ ts := hc
      rcases prefix_append_cases hparts with hd | ⟨d, hd, rfl⟩
      · -- Before its dot a binder opens nothing.
        rcases List.prefix_cons_iff.mp hd with rfl | ⟨d, rfl, hword⟩
        · exact closed_nil
        rcases List.prefix_cons_iff.mp hword with rfl | ⟨e, rfl, hdot⟩
        · exact .inl fun _ => rfl
        rcases List.prefix_cons_iff.mp hdot with rfl | ⟨g, rfl, hnil⟩
        · exact .inl fun _ => rfl
        obtain rfl := List.prefix_nil.mp hnil
        exact (Opening.binder binder).outermost ⟨ts, t, h⟩
      · exact (Opening.binder binder).outermost (h.prefix_viable hd)
  | head _ ih => exact ih hc
  | applied hf _ ihf iha =>
      rcases prefix_append_cases hc with hd | ⟨d, hd, rfl⟩
      · exact ihf hd
      · exact (iha hd).append hf
  | single _ ih => exact ih hc
  | chain hf _ ihf iha =>
      rcases prefix_append_cases hc with hd | ⟨d, hd, rfl⟩
      · exact ihf hd
      · exact (iha hd).append hf

/-- A start of an expression closes no level from before it. -/
theorem Viable.levelsAfter (h : Viable c) (levels : List Level) :
    levelsAfter levels c = levelsAfter [] c ++ levels := by
  induction hn : c.length using Nat.strongRecOn generalizing c levels with
  | ind n ih =>
      subst hn
      obtain ⟨us, t, ht⟩ := h
      rcases levels_of_prefix ht (List.prefix_append c us) with hclosed | ⟨v, o, inner, level, h⟩
      · rw [hclosed, hclosed, List.nil_append]
      · have hshorter : inner.length < c.length := by
          rw [h.split]
          cases h.opening <;> simp <;> omega
        rw [h.levelsAfter, h.levelsAfter, ih _ hshorter h.viable (level :: levels) rfl,
          ih _ hshorter h.viable [level] rfl, List.append_assoc]
        rfl

/-- Inside the outermost level, one less is open. -/
theorem Outermost.openLevels {opening inner : List Lexeme} (h : Outermost c v opening inner level) :
    openLevels c = openLevels inner + 1 := by
  rw [Grammar.openLevels, h.levelsAfter, h.viable.levelsAfter, List.length_append]
  rfl

/-! ## Running out of levels -/

/-- With any number of levels, a term stops for want of them or is read as without a
    bound. -/
theorem readTerm_eq_read {n : Nat} (h : readTerm (readExpression n) ts ≠ .halted .tooDeep) :
    readTerm (readExpression n) ts = readTerm read ts := by
  rw [← readTerm_mono (Nat.le_add_right n ts.length) h]
  exact readTerm_congr fun us hus => readExpression_eq_of_length (by omega)

/-- The descent passes a spine, if it does not run out of levels in it. -/
theorem readExpression_spine {n : Nat} (h : Derives .spine v f) (us : List Lexeme) :
    readExpression (n + 1) (v ++ us) = .halted .tooDeep ∨
      readExpression (n + 1) (v ++ us) = readChain (readExpression n) f us := by
  generalize hcategory : Category.spine = category at h
  induction h generalizing us with
  | @head ts t h _ =>
      rw [readExpression]
      by_cases hdeep : readTerm (readExpression n) (ts ++ us) = .halted .tooDeep
      · left
        rw [hdeep]
        rfl
      · right
        have hread : readTerm read (ts ++ us) = .success t us := h.readsAs us
        rw [readTerm_eq_read hdeep, hread]
        rfl
  | @applied ts ws f a _ ha ihf _ =>
      rw [List.append_assoc]
      rcases ihf (ws ++ us) hcategory with hdeep | hchain
      · exact .inl hdeep
      · -- The atom is one more step of the chain.
        rw [hchain, readChain_eq (readExpression_within n)]
        by_cases hdeep : readTerm (readExpression n) (ws ++ us) = .halted .tooDeep
        · left
          rw [hdeep]
        · right
          have hread : readTerm read (ws ++ us) = .success a us := ha.readsAs us
          rw [readTerm_eq_read hdeep, hread]
  | _ => cases hcategory

/-- Behind an opening, the descent runs out of levels where it does inside. -/
theorem Opening.readTerm {n : Nat} (h : Opening level us)
    (hinner : readExpression n ts = .halted .tooDeep) :
    readTerm (readExpression n) (us ++ ts) = .halted .tooDeep := by
  cases h with
  | paren =>
      rw [List.singleton_append, readTerm_parens, hinner]
      rfl
  | binder name =>
      rw [List.cons_append, List.cons_append, List.singleton_append, readTerm_abstraction, hinner]
      rfl

/-- The descent runs out of levels behind a start of an expression that leaves as many of
    them open, whatever comes next. -/
theorem readExpression_tooDeep {n : Nat} (hc : Viable c) (hopen : n ≤ openLevels c)
    (us : List Lexeme) : readExpression n (c ++ us) = .halted .tooDeep := by
  induction n generalizing c with
  | zero => rfl
  | succ n ih =>
      obtain ⟨vs, t, ht⟩ := hc
      rcases levels_of_prefix ht (List.prefix_append c vs) with hclosed | ⟨v, o, inner, level, h⟩
      · rw [openLevels, hclosed] at hopen
        simp at hopen
      · have hinner : readExpression n (inner ++ us) = .halted .tooDeep := by
          refine ih h.viable ?_
          rw [h.openLevels] at hopen
          omega
        have hterm := h.opening.readTerm hinner
        rw [h.split, List.append_assoc, List.append_assoc]
        rcases h.spine with rfl | ⟨f, hf⟩
        · rw [List.nil_append, readExpression, hterm]
          rfl
        · rcases readExpression_spine hf (o ++ (inner ++ us)) with hdeep | hchain
          · exact hdeep
          · rw [hchain, readChain_eq (readExpression_within n), hterm]

/-- The descent runs out of levels exactly where some start of an expression leaves as many
    of them open. -/
theorem tooDeep_iff_openLevels {n : Nat} :
    readExpression n ts = .halted .tooDeep ↔ ∃ c, c <+: ts ∧ Viable c ∧ n ≤ openLevels c := by
  constructor
  · intro hdeep
    exact opensLevels_of_tooDeep hdeep []
  · rintro ⟨c, ⟨us, rfl⟩, hviable, hopen⟩
    exact readExpression_tooDeep hviable hopen us

end Grammar

end LambdaTree
