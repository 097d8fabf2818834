/-
  LambdaTree.Proofs.Grammar.Nesting

  How deep a sequence of lexemes is nested.  A parenthesis and a binder each
  open a level; a closing parenthesis closes the last open one of its kind with
  all binders inside it.  An expression closes every parenthesis that it opens
  (`Derives.leaves`).

  The descent runs out of levels only in a sequence that opens as many of them:
  behind some start of an expression, at least as many are open as were allowed
  (`opensLevels_of_tooDeep`).
-/

import LambdaTree.Proofs.Grammar.Viability

namespace LambdaTree

namespace Grammar

/-! ## Open levels -/

/-- What opens a level. -/
inductive Level where
  | paren
  | binder
deriving DecidableEq

/-- The open levels behind a lexeme, the innermost first. -/
def Level.after (levels : List Level) : Lexeme → List Level
  | .openParen => .paren :: levels
  | .dot => .binder :: levels
  | .closeParen => (levels.dropWhile (· = .binder)).tail
  | _ => levels

/-- The open levels behind some lexemes. -/
def levelsAfter (levels : List Level) (ts : List Lexeme) : List Level :=
  ts.foldl Level.after levels

/-- The number of levels that are open behind some lexemes. -/
def openLevels (ts : List Lexeme) : Nat :=
  (levelsAfter [] ts).length

variable {c : Category} {ts us v rest : List Lexeme} {t func : Term (Option Note)}
  {levels : List Level}

theorem levelsAfter_parens :
    levelsAfter levels (.openParen :: ts) = levelsAfter (.paren :: levels) ts := rfl

theorem levelsAfter_abstraction (binder : String) :
    levelsAfter levels (.lambda :: .word binder :: .dot :: ts) =
      levelsAfter (.binder :: levels) ts := rfl

theorem levelsAfter_append :
    levelsAfter levels (ts ++ us) = levelsAfter (levelsAfter levels ts) us :=
  List.foldl_append

/-- What a category leaves open: nothing, or the binders at the end. -/
def Category.Leaves : Category → List Level → List Level → Prop
  | .atom, before, after => after = before
  | .spine, before, after => after = before
  | .term, before, after => ∃ k, after = List.replicate k .binder ++ before
  | .expression, before, after => ∃ k, after = List.replicate k .binder ++ before

theorem closeParen_after (k : Nat) :
    Level.after (List.replicate k .binder ++ .paren :: levels) .closeParen = levels := by
  rw [Level.after, List.dropWhile_append_of_pos (by simp +contextual)]
  rfl

theorem Derives.leaves (h : Derives c ts t) (levels : List Level) :
    c.Leaves levels (levelsAfter levels ts) := by
  induction h generalizing levels with
  | word name => rfl
  | @parens ts t _ ih =>
      -- Whatever binders the expression inside leaves open are closed with it.
      obtain ⟨k, hk⟩ := ih (.paren :: levels)
      show levelsAfter levels (.openParen :: (ts ++ [.closeParen])) = levels
      rw [levelsAfter_parens, levelsAfter_append, hk]
      exact closeParen_after k
  | atom _ ih => exact ⟨0, ih levels⟩
  | abstraction binder _ ih =>
      obtain ⟨k, hk⟩ := ih (.binder :: levels)
      refine ⟨k + 1, ?_⟩
      rw [levelsAfter_abstraction, hk, List.replicate_succ', List.append_assoc]
      rfl
  | head _ ih => exact ih levels
  | @applied ts us f a _ _ ihf iha =>
      show levelsAfter levels (ts ++ us) = levels
      rw [levelsAfter_append, ihf levels]
      exact iha levels
  | single _ ih => exact ih levels
  | @chain ts us f a _ _ ihf iha =>
      show ∃ k, levelsAfter levels (ts ++ us) = List.replicate k .binder ++ levels
      rw [levelsAfter_append, ihf levels]
      exact iha levels

theorem Derives.levelsAfter_spine (h : Derives .spine ts t) : levelsAfter levels ts = levels :=
  h.leaves levels

/-! ## Running out of levels -/

/-- More levels keep every answer about a term. -/
theorem readTerm_mono {m n : Nat} (hmn : m ≤ n)
    (h : readTerm (readExpression m) ts ≠ .halted .tooDeep) :
    readTerm (readExpression n) ts = readTerm (readExpression m) ts := by
  cases start ts with
  | parens us =>
      have hus : readExpression m us ≠ .halted .tooDeep := by
        intro hdeep
        rw [readTerm_parens, hdeep] at h
        exact h rfl
      rw [readTerm_parens, readTerm_parens, readExpression_mono hmn hus]
  | abstraction binder us =>
      have hus : readExpression m us ≠ .halted .tooDeep := by
        intro hdeep
        rw [readTerm_abstraction, hdeep] at h
        exact h rfl
      rw [readTerm_abstraction, readTerm_abstraction, readExpression_mono hmn hus]
  | word name us => rfl
  | broken hb => rw [readTerm_broken hb, readTerm_broken hb]

/-- Where a chain ends, no term can be read. -/
theorem readChain_stops {inner : List Lexeme → Reading} (hinner : ∀ us, (inner us).Within us)
    (h : readChain inner func ts = .success t rest) :
    ∃ place, readTerm inner rest = .failure place := by
  fun_induction readChain inner func ts with
  | case1 func ts place hs =>
      cases h
      exact ⟨place, hs⟩
  | case2 func ts halt hs => cases h
  | case3 func ts arg middle hs hlt ih => exact ih h
  | case4 func ts arg middle hs hlt => exact absurd (readTerm_shorter hinner hs) hlt

/-- Where an expression ends, no term can be read with as many levels. -/
theorem readExpression_stops {n : Nat} (h : readExpression n ts = .success t rest) :
    ∃ place, readTerm (readExpression n) rest = .failure place := by
  cases n with
  | zero => cases h
  | succ n =>
      obtain ⟨first, middle, -, hchain⟩ := Reads.andThen_eq_success h
      -- The chain ended with one level less, and more levels keep the answer.
      obtain ⟨place, hplace⟩ := readChain_stops (readExpression_within n) hchain
      refine ⟨place, ?_⟩
      rw [readTerm_mono (Nat.le_succ n) (by simp [hplace]), hplace]

/-- A term that is read with some levels is an atom, or no term can be read behind it with
    these levels. -/
theorem readTerm_levels_success {n : Nat} (h : readTerm (readExpression n) ts = .success t rest) :
    ∃ w, ts = w ++ rest ∧
      (Derives .atom w t ∨ ∃ place, readTerm (readExpression n) rest = .failure place) := by
  rcases readTerm_eq_success h with
    ⟨name, rfl, rfl⟩ | ⟨us, rfl, hus⟩ | ⟨binder, us, body, rfl, hus, rfl⟩
  · exact ⟨[.word name], rfl, .inl (.word name)⟩
  · obtain ⟨w, rfl, hw, -⟩ := soundAt us t _ (read_eq_success hus)
    exact ⟨.openParen :: (w ++ [.closeParen]), by simp, .inl (.parens hw)⟩
  · obtain ⟨w, rfl, -, -⟩ := soundAt us body _ (read_eq_success hus)
    exact ⟨.lambda :: .word binder :: .dot :: w, rfl, .inr (readExpression_stops hus)⟩

/-- A chain does not run out of levels where no term can be read. -/
theorem readChain_of_failure {n : Nat} {place : List Lexeme}
    (h : readTerm (readExpression n) ts = .failure place) :
    readChain (readExpression n) func ts = .success func ts := by
  rw [readChain_eq (readExpression_within n), h]

/-- Some lexemes start an expression behind which `n` more levels are open than before. -/
def OpensLevels (n : Nat) (levels : List Level) (ts : List Lexeme) : Prop :=
  ∃ c, c <+: ts ∧ Viable c ∧ n + levels.length ≤ (levelsAfter levels c).length

section

variable {n : Nat}
  (ih : ∀ us levels, readExpression n us = .halted .tooDeep → OpensLevels n levels us)

include ih

/-- A term that runs out of levels opens one itself. -/
theorem opensLevels_of_readTerm (h : readTerm (readExpression n) ts = .halted .tooDeep)
    (levels : List Level) : OpensLevels (n + 1) levels ts := by
  rcases readTerm_eq_halted h with ⟨us, rfl, hus⟩ | ⟨binder, us, rfl, hus⟩
  · obtain ⟨c, ⟨us', rfl⟩, hviable, hdeep⟩ := ih us (.paren :: levels) hus
    refine ⟨.openParen :: c, ⟨us', rfl⟩, hviable.parens, ?_⟩
    rw [levelsAfter_parens]
    rw [List.length_cons] at hdeep
    omega
  · obtain ⟨c, ⟨us', rfl⟩, hviable, hdeep⟩ := ih us (.binder :: levels) hus
    refine ⟨.lambda :: .word binder :: .dot :: c, ⟨us', rfl⟩, hviable.abstraction binder, ?_⟩
    rw [levelsAfter_abstraction]
    rw [List.length_cons] at hdeep
    omega

/-- A chain that runs out of levels does so in a term, behind a spine that leaves no level
    open. -/
theorem opensLevels_of_readChain (hv : Derives .spine v func)
    (h : readChain (readExpression n) func ts = .halted .tooDeep) (levels : List Level) :
    OpensLevels (n + 1) levels (v ++ ts) := by
  fun_induction readChain (readExpression n) func ts generalizing v with
  | case1 func ts place hs => cases h
  | case2 func ts halt hs =>
      cases h
      obtain ⟨c, ⟨us, rfl⟩, ⟨us', hviable⟩, hdeep⟩ := opensLevels_of_readTerm ih hs levels
      refine ⟨v ++ c, ⟨us, by simp⟩, ⟨us', ?_⟩, ?_⟩
      · rw [List.append_assoc]
        exact hviable.spine_append hv
      · rw [levelsAfter_append, hv.levelsAfter_spine]
        exact hdeep
  | case3 func ts arg rest hs hlt ihchain =>
      obtain ⟨w, rfl, hatom | ⟨place, hplace⟩⟩ := readTerm_levels_success hs
      · -- The spine goes on with an atom; it still leaves no level open.
        have hdeep := ihchain (.applied hv hatom) h
        rwa [List.append_assoc] at hdeep
      · rw [readChain_of_failure hplace] at h
        cases h
  | case4 func ts arg rest hs hlt => cases h

end

/-- The descent runs out of levels only where a start of an expression opens as many. -/
theorem opensLevels_of_tooDeep {n : Nat} (h : readExpression n ts = .halted .tooDeep)
    (levels : List Level) : OpensLevels n levels ts := by
  -- With no levels nothing has to be open; each level more is opened by the term in which
  -- the descent runs out of the others.
  induction n generalizing ts levels with
  | zero =>
      refine ⟨[], List.nil_prefix, ⟨[.word "x"], wellFormed_word "x"⟩, ?_⟩
      rw [Nat.zero_add]
      rfl
  | succ n ih =>
      have ih' (us : List Lexeme) (levels : List Level)
          (hus : readExpression n us = .halted .tooDeep) : OpensLevels n levels us := ih hus levels
      rcases Reads.andThen_eq_halted h with hterm | ⟨first, rest, hterm, hchain⟩
      · exact opensLevels_of_readTerm ih' hterm levels
      · obtain ⟨w, rfl, hatom | ⟨place, hplace⟩⟩ := readTerm_levels_success hterm
        · exact opensLevels_of_readChain ih' (.head hatom) hchain levels
        · rw [readChain_of_failure hplace] at hchain
          cases hchain

/-- Levels that no prefix of the lexemes exceeds are enough. -/
theorem readExpression_ne_tooDeep {limit : Nat} (h : ∀ c, c <+: ts → openLevels c ≤ limit) :
    readExpression (limit + 1) ts ≠ .halted .tooDeep := by
  intro hdeep
  obtain ⟨c, hstart, -, hopen⟩ := opensLevels_of_tooDeep hdeep []
  have hle := h c hstart
  rw [openLevels] at hle
  simp only [List.length_nil] at hopen
  omega

end Grammar

end LambdaTree
