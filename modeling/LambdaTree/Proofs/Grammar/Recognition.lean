/-
  LambdaTree.Proofs.Grammar.Recognition

  The descent recognises the canonical grammar.  What it reads has the tree
  that it gives (`soundAt`), and what has a tree is read with this tree,
  whatever follows, as long as no term can be read off what follows
  (`Derives.readsAs`).  Since the descent has one answer, a sequence of lexemes
  has one tree at most (`Derives.unique`).

  An atom is read alike whatever follows it.  An abstraction is not: its body
  takes in the terms behind it.  So a chain that has read an abstraction is at
  its end, which is why only the last term of an expression may be one.
-/

import LambdaTree.Proofs.Grammar.Derivation
import LambdaTree.Proofs.Grammar.Unbounded

namespace LambdaTree

namespace Grammar

variable {c : Category} {ts us rest : List Lexeme} {t u f : Term (Option Note)}

/-! ## Where a chain ends -/

/-- No term can be read here. -/
def Stops (ts : List Lexeme) : Prop :=
  ∃ place, readTerm read ts = .failure place

theorem stops_of_head (h : ∀ x ∈ ts.head?, startsTerm x = false) : Stops ts :=
  ⟨ts, readTerm_broken (.start h)⟩

theorem stops_nil : Stops [] :=
  stops_of_head (by simp)

theorem readChain_of_stops (func : Term (Option Note)) (h : Stops ts) :
    readChain read func ts = .success func ts := by
  obtain ⟨place, hplace⟩ := h
  rw [readChain_eq read_within, hplace]

/-- A chain always ends, behind some more terms. -/
theorem readChain_success (func : Term (Option Note)) (ts : List Lexeme) :
    ∃ t last, readChain read func ts = .success t last ∧ last <:+ ts ∧ Stops last := by
  fun_induction readChain read func ts with
  | case1 func ts place hs => exact ⟨func, ts, rfl, List.suffix_rfl, place, hs⟩
  | case2 func ts halt hs =>
      exact absurd hs (readTerm_ne_halted (fun us _ => read_ne_halted us) halt)
  | case3 func ts arg rest hs hlt ih =>
      obtain ⟨t, last, hchain, hlast, hstops⟩ := ih
      have hrest : rest <:+ ts := (readTerm_tail read_within hs).trans (List.tail_suffix ts)
      exact ⟨t, last, hchain, hlast.trans hrest, hstops⟩
  | case4 func ts arg rest hs hlt => exact absurd (readTerm_shorter read_within hs) hlt

/-! ## What is derived is read -/

/-- A sequence is read with a tree, and possibly more of what follows. -/
def ReadsWith (result : List Lexeme → Reading) (ts : List Lexeme) (t : Term (Option Note)) : Prop :=
  ∀ rest, ∃ u last, result (ts ++ rest) = .success u last ∧ last <:+ rest ∧
    (Stops rest → u = t ∧ last = rest)

/-- How the sequences of a category are read. -/
def ReadsAs : Category → List Lexeme → Term (Option Note) → Prop
  | .atom, ts, t => ∀ rest, readTerm read (ts ++ rest) = .success t rest
  | .term, ts, t => ReadsWith (readTerm read) ts t
  | .spine, ts, t => ∀ rest, read (ts ++ rest) = readChain read t rest
  | .expression, ts, t => ReadsWith read ts t

/-- Behind a sequence that is read with a tree, a chain may go on. -/
theorem readsWith_chain {result : List Lexeme → Reading} (h : ReadsWith result ts t)
    (k : Term (Option Note) → Term (Option Note)) :
    ReadsWith (fun all => (result all).andThen fun u last => readChain read (k u) last) ts (k t) := by
  intro rest
  obtain ⟨u, middle, hresult, hmiddle, hexact⟩ := h rest
  obtain ⟨v, last, hchain, hlast, -⟩ := readChain_success (k u) middle
  refine ⟨v, last, by simp only [hresult, Reads.success_andThen, hchain], hlast.trans hmiddle, ?_⟩
  -- Where nothing more can be read, the chain ends at once.
  intro hstops
  obtain ⟨rfl, rfl⟩ := hexact hstops
  have hend := hchain.symm.trans (readChain_of_stops (k u) hstops)
  cases hend
  exact ⟨rfl, rfl⟩

theorem Derives.readsAs (h : Derives c ts t) : ReadsAs c ts t := by
  induction h with
  | word name =>
      intro rest
      exact readTerm_word name rest
  | @parens ts t _ ih =>
      intro rest
      -- The closing parenthesis ends the expression inside.
      have hstops : Stops (.closeParen :: rest) := stops_of_head (by simp [startsTerm])
      obtain ⟨u, last, hread, -, hexact⟩ := ih (.closeParen :: rest)
      obtain ⟨rfl, rfl⟩ := hexact hstops
      have hsplit : .openParen :: (ts ++ [.closeParen]) ++ rest =
          .openParen :: (ts ++ .closeParen :: rest) := by simp
      rw [hsplit, readTerm_parens, hread]
      rfl
  | atom _ ih =>
      intro rest
      exact ⟨_, rest, ih rest, List.suffix_rfl, fun _ => ⟨rfl, rfl⟩⟩
  | abstraction binder _ ih =>
      intro rest
      -- The body may take in more than its own lexemes, and so does the abstraction.
      obtain ⟨u, last, hread, hlast, hexact⟩ := ih rest
      refine ⟨.abs none binder u, last, ?_, hlast, fun hstops => ?_⟩
      · rw [List.cons_append, List.cons_append, List.cons_append, readTerm_abstraction, hread]
        rfl
      · obtain ⟨rfl, rfl⟩ := hexact hstops
        exact ⟨rfl, rfl⟩
  | head _ ih =>
      intro rest
      rw [read_eq, ih rest]
      rfl
  | applied _ _ ihf iha =>
      intro rest
      -- An atom is one step of the chain, whatever follows it.
      rw [List.append_assoc, ihf, readChain_eq read_within, iha rest]
  | single _ ih =>
      intro rest
      rw [read_eq]
      exact readsWith_chain ih id rest
  | @chain ts us f a _ _ ihf iha =>
      intro rest
      have hchain := readsWith_chain iha (.app none f) rest
      have hread : read (ts ++ us ++ rest) =
          (readTerm read (us ++ rest)).andThen fun u last =>
            readChain read (.app none f u) last := by
        rw [List.append_assoc, ihf, readChain_eq read_within]
        obtain ⟨u, last, hu, -⟩ := iha rest
        rw [hu]
        rfl
      rwa [hread]

/-! ## What is read is derived -/

/-- A spine is an expression. -/
theorem Derives.spine_expression (h : Derives .spine ts t) : Derives .expression ts t := by
  cases h with
  | head h => exact .single (.atom h)
  | applied hf ha => exact .chain hf (.atom ha)

/-- An expression that is read here is derived, and ends where no term can be read. -/
def SoundAt (ts : List Lexeme) : Prop :=
  ∀ t rest, read ts = .success t rest →
    ∃ w, ts = w ++ rest ∧ Derives .expression w t ∧ Stops rest

/-- A term that is read is an atom, or an abstraction behind which there is no other
    term. -/
theorem readTerm_derives (hinner : ∀ us, us.length < ts.length → SoundAt us)
    (h : readTerm read ts = .success t rest) :
    ∃ w, ts = w ++ rest ∧ (Derives .atom w t ∨ Derives .term w t ∧ Stops rest) := by
  rcases readTerm_eq_success h with
    ⟨name, rfl, rfl⟩ | ⟨us, rfl, hus⟩ | ⟨binder, us, body, rfl, hus, rfl⟩
  · exact ⟨[.word name], rfl, .inl (.word name)⟩
  · obtain ⟨w, rfl, hw, -⟩ := hinner us (by simp) t _ hus
    exact ⟨.openParen :: (w ++ [.closeParen]), by simp, .inl (.parens hw)⟩
  · obtain ⟨w, rfl, hw, hstops⟩ := hinner us (by simp only [List.length_cons]; omega) body rest hus
    exact ⟨.lambda :: .word binder :: .dot :: w, rfl, .inr ⟨.abstraction binder hw, hstops⟩⟩

/-- A chain behind a spine goes on with atoms, and ends with a term. -/
theorem readChain_derives {func : Term (Option Note)} {v : List Lexeme}
    (hfunc : Derives .spine v func) (hinner : ∀ us, us.length < ts.length → SoundAt us)
    (h : readChain read func ts = .success t rest) :
    ∃ w, ts = w ++ rest ∧ Derives .expression (v ++ w) t := by
  fun_induction readChain read func ts generalizing v with
  | case1 func ts place hs =>
      cases h
      exact ⟨[], rfl, by simpa using hfunc.spine_expression⟩
  | case2 func ts halt hs => cases h
  | case3 func ts arg middle hs hlt ih =>
      obtain ⟨w, rfl, hatom | ⟨hterm, hstops⟩⟩ := readTerm_derives hinner hs
      · -- An atom makes the spine longer.
        obtain ⟨w', rfl, hw'⟩ :=
          ih (.applied hfunc hatom) (fun us hus => hinner us (hus.trans hlt)) h
        exact ⟨w ++ w', by simp, by simpa using hw'⟩
      · -- An abstraction has taken in all terms there were, so the chain is at its end.
        rw [readChain_of_stops _ hstops] at h
        cases h
        exact ⟨w, rfl, .chain hfunc hterm⟩
  | case4 func ts arg middle hs hlt => exact absurd (readTerm_shorter read_within hs) hlt

theorem soundAt (ts : List Lexeme) : SoundAt ts := by
  -- By induction on the number of lexemes, as for the expressions inside terms.
  induction hn : ts.length using Nat.strongRecOn generalizing ts with
  | ind n ih =>
      subst hn
      intro t rest h
      have hinner (us : List Lexeme) (hus : us.length < ts.length) : SoundAt us :=
        ih us.length hus us rfl
      rw [read_eq] at h
      obtain ⟨first, middle, hterm, hchain⟩ := Reads.andThen_eq_success h
      obtain ⟨u, last, hlast, -, hstops⟩ := readChain_success first middle
      cases hlast.symm.trans hchain
      have hlt := readTerm_shorter read_within hterm
      obtain ⟨w, rfl, hatom | ⟨habs, hend⟩⟩ := readTerm_derives hinner hterm
      · obtain ⟨w', rfl, hw'⟩ := readChain_derives (.head hatom)
          (fun us hus => hinner us (hus.trans hlt)) hchain
        exact ⟨w ++ w', by simp, hw', hstops⟩
      · rw [readChain_of_stops _ hend] at hchain
        cases hchain
        exact ⟨w, rfl, .single habs, hstops⟩

/-! ## One tree -/

/-- The sequences with a tree are those that are read to the end. -/
theorem derives_iff_read : Derives .expression ts t ↔ read ts = .success t [] := by
  constructor
  · intro h
    obtain ⟨u, last, hread, -, hexact⟩ := h.readsAs []
    obtain ⟨rfl, rfl⟩ := hexact stops_nil
    simpa using hread
  · intro h
    obtain ⟨w, rfl, hw, -⟩ := soundAt ts t [] h
    simpa using hw

theorem Derives.unique (ht : Derives .expression ts t) (hu : Derives .expression ts u) : t = u := by
  have heq := (derives_iff_read.mp ht).symm.trans (derives_iff_read.mp hu)
  cases heq
  rfl

end Grammar

end LambdaTree
