/-
  LambdaTree.Proofs.Lexer.Covering

  The lexemes of a text, wherever it stands and however it is laid out.  A text
  covers the lexemes of its tokens that are not blank (`Covers`).  Blanks before
  it do not matter (`Covers.blanks`), nor do blanks that are put anywhere else
  but inside a word (`Tiles.covers_insert`), nor the sign that a lambda is
  written with (`Tiles.of_lambdas`).
-/

import LambdaTree.Proofs.Lexer.MaximalMunch

namespace LambdaTree

open Lexer

/-- A text falls into tokens of which those that matter have the given lexemes. -/
def Covers (cs : List Char) (ts : List Lexeme) : Prop :=
  ∀ start, ∃ tokens, Tiles start cs tokens ∧ (Token.significant tokens).map Token.lexeme = ts

theorem Token.significant_cons_blank {token : Token} (h : token.lexeme.isBlank = true)
    (tokens : List Token) : Token.significant (token :: tokens) = Token.significant tokens := by
  simp [Token.significant, h]

theorem Token.significant_cons {token : Token} (h : token.lexeme.isBlank = false)
    (tokens : List Token) :
    Token.significant (token :: tokens) = token :: Token.significant tokens := by
  simp [Token.significant, h]

/-! ## Blanks before a text -/

namespace Lexer

/-- Characters that are all blank spell a blank. -/
theorem Spells.of_blanks {blanks : List Char} (hne : blanks ≠ [])
    (hblanks : ∀ c ∈ blanks, isBlank c = true) :
    Spells (.blank (String.ofList blanks)) blanks := by
  cases blanks with
  | nil => exact absurd rfl hne
  | cons c cs =>
      rw [List.forall_mem_cons] at hblanks
      exact .blank hblanks.1 hblanks.2

/-- Blanks before a text are a token by themselves, or the start of its first token. -/
theorem Tiles.blanks {start : Int} {blanks cs : List Char} {tokens : List Token}
    (hblanks : ∀ c ∈ blanks, isBlank c = true) (h : Tiles (start + blanks.length) cs tokens) :
    ∃ tokens', Tiles start (blanks ++ cs) tokens' ∧
      Token.significant tokens' = Token.significant tokens := by
  by_cases hne : blanks = []
  · subst hne
    exact ⟨tokens, by simpa using h, rfl⟩
  have hspells := Spells.of_blanks hne hblanks
  cases h with
  | nil =>
      refine ⟨_, .cons hspells ?_ (.nil _), Token.significant_cons_blank rfl _⟩
      simp [Continues]
  | @cons _ piece rest lexeme tokens hpiece hends htail =>
      cases hblank : lexeme.isBlank with
      | false =>
          refine ⟨_, .cons hspells ?_ (.cons hpiece hends htail),
            Token.significant_cons_blank rfl _⟩
          rw [continues_append_iff hpiece]
          simp [Lexeme.isWord, hblank]
      | true =>
          -- The two stretches are one, and a blank goes on with blanks whatever its text.
          have hall : ∀ c ∈ blanks ++ piece, isBlank c = true := by
            intro c hc
            rcases List.mem_append.mp hc with hc | hc
            · exact hblanks c hc
            · rw [(hpiece.class_of_mem c hc).2, hblank]
          have hmerged := Spells.of_blanks (List.append_ne_nil_of_left_ne_nil hne piece) hall
          have hstop : start + (blanks ++ piece).length = start + blanks.length + piece.length := by
            rw [List.length_append]
            omega
          rw [← hstop] at htail
          rw [← List.append_assoc]
          refine ⟨_, .cons hmerged ?_ htail, ?_⟩
          · cases lexeme with
            | blank text => exact hends
            | word | lambda | dot | openParen | closeParen | plain => cases hblank
          · rw [Token.significant_cons_blank rfl, Token.significant_cons_blank hblank]

end Lexer

namespace Covers

variable {cs : List Char} {ts : List Lexeme}

theorem nil : Covers [] [] :=
  fun start => ⟨[], .nil start, rfl⟩

/-- A piece that is no blank stands for its lexeme. -/
theorem piece {lexeme : Lexeme} {piece : List Char} (hspells : Spells lexeme piece)
    (hends : ¬Continues lexeme cs) (hblank : lexeme.isBlank = false) (h : Covers cs ts) :
    Covers (piece ++ cs) (lexeme :: ts) := by
  intro start
  obtain ⟨tokens, htiles, hlexemes⟩ := h (start + piece.length)
  refine ⟨_, .cons hspells hends htiles, ?_⟩
  rw [Token.significant_cons hblank, List.map_cons, hlexemes]

/-- Blanks stand for nothing. -/
theorem blanks {blanks : List Char} (hblanks : ∀ c ∈ blanks, isBlank c = true)
    (h : Covers cs ts) : Covers (blanks ++ cs) ts := by
  intro start
  obtain ⟨tokens, htiles, hlexemes⟩ := h (start + blanks.length)
  obtain ⟨tokens', htiles', hsame⟩ := htiles.blanks hblanks
  exact ⟨tokens', htiles', by rw [hsame, hlexemes]⟩

/-- A piece stands for what it adds to the tokens that matter.  Only a piece that is no
    blank has to end. -/
theorem token {token : Token} {piece : List Char} {tokens : List Token}
    (hspells : Spells token.lexeme piece)
    (hends : token.lexeme.isBlank = false → ¬Continues token.lexeme cs)
    (h : Covers cs ((Token.significant tokens).map Token.lexeme)) :
    Covers (piece ++ cs) ((Token.significant (token :: tokens)).map Token.lexeme) := by
  cases hblank : token.lexeme.isBlank with
  | true =>
      rw [Token.significant_cons_blank hblank]
      exact h.blanks fun c hc => by rw [(hspells.class_of_mem c hc).2, hblank]
  | false =>
      rw [Token.significant_cons hblank, List.map_cons]
      exact h.piece hspells (hends hblank) hblank

theorem tokenize {source : String} (h : Covers source.toList ts) :
    ∃ tokens, Lexer.tokenize source = .ok tokens ∧
      (Token.significant tokens).map Token.lexeme = ts := by
  obtain ⟨tokens, htiles, hlexemes⟩ := h 0
  exact ⟨tokens, tokenize_eq_ok_iff.mpr htiles, hlexemes⟩

end Covers

namespace Lexer

/-! ## Blanks inside a text -/

variable {start : Int} {tokens : List Token}

theorem Tiles.covers {cs : List Char} (h : Tiles start cs tokens) :
    Covers cs ((Token.significant tokens).map Token.lexeme) := by
  induction h with
  | nil start => exact .nil
  | cons hspells hends _ ih => exact ih.token hspells fun _ => hends

section

variable {front blanks rest : List Char} (hblanks : ∀ c ∈ blanks, isBlank c = true)
include hblanks

/-- Blanks in what follows give no lexeme but a blank anything to go on with. -/
theorem not_continues_insert {lexeme : Lexeme} (front : List Char)
    (hblank : lexeme.isBlank = false) (h : ¬Continues lexeme (front ++ rest)) :
    ¬Continues lexeme (front ++ (blanks ++ rest)) := by
  cases lexeme with
  | word name =>
      rintro ⟨c, hc, hpart⟩
      refine h ⟨c, ?_, hpart⟩
      cases front with
      | cons _ _ => exact hc
      | nil =>
          cases blanks with
          | nil => exact hc
          | cons b blanks =>
              cases hc
              simp [not_isWordPart_of_isBlank (hblanks c (List.mem_cons_self ..))] at hpart
  | blank text => cases hblank
  | lambda | dot | openParen | closeParen | plain => exact id

omit hblanks in
/-- A cut into a piece that is no blank cuts a word. -/
theorem Spells.midWord {lexeme : Lexeme} {front cut : List Char}
    (h : Spells lexeme (front ++ cut)) (hblank : lexeme.isBlank = false) (hfront : front ≠ [])
    (hcut : cut ≠ []) (rest : List Char) : MidWord front (cut ++ rest) := by
  have hword : lexeme.isWord = true := by
    have hfront := List.length_pos_iff.mpr hfront
    have hcut := List.length_pos_iff.mpr hcut
    have hlength : (front ++ cut).length = front.length + cut.length := List.length_append
    generalize front ++ cut = piece at h hlength
    cases h with
    | word => rfl
    | blank => cases hblank
    | lambda | backslash | dot | openParen | closeParen =>
        -- One character cannot be cut.
        rw [List.length_singleton] at hlength
        omega
  have hpart : ∀ c ∈ front ++ cut, isWordPart c = true :=
    fun c hc => (h.class_of_mem c hc).1.trans hword
  refine ⟨⟨front.getLast hfront, List.getLast?_eq_some_getLast hfront, ?_⟩,
    ⟨cut.head hcut, by rw [List.head?_append_of_ne_nil _ hcut, List.head?_eq_some_head hcut]; rfl,
      ?_⟩⟩
  · exact hpart _ (List.mem_append_left _ (List.getLast_mem hfront))
  · exact hpart _ (List.mem_append_right _ (List.head_mem hcut))

/-- Blanks may be put into a text wherever they do not cut a word in two. -/
theorem Tiles.covers_insert (h : Tiles start (front ++ rest) tokens)
    (hmid : ¬MidWord front rest) :
    Covers (front ++ (blanks ++ rest)) ((Token.significant tokens).map Token.lexeme) := by
  -- By induction on the tokens: the blanks come into the first piece or behind it.
  generalize hcs : front ++ rest = cs at h
  induction h generalizing front with
  | nil start =>
      obtain ⟨rfl, rfl⟩ := List.append_eq_nil_iff.mp hcs
      rw [List.nil_append]
      exact Covers.nil.blanks hblanks
  | @cons start piece behind lexeme tokens hspells hends htail ih =>
      rcases List.append_eq_append_iff.mp hcs with ⟨cut, rfl, rfl⟩ | ⟨between, rfl, rfl⟩
      · rcases eq_or_ne front [] with rfl | hfront
        · show Covers (blanks ++ _) _
          exact (Tiles.cons hspells hends htail).covers.blanks hblanks
        rcases eq_or_ne cut [] with rfl | hcut
        · rw [List.append_nil] at hspells
          exact (htail.covers.blanks hblanks).token hspells
            (not_continues_insert hblanks [] · hends)
        cases hblank : lexeme.isBlank with
        | false => exact absurd (hspells.midWord hblank hfront hcut behind) hmid
        | true =>
            -- The blanks and the piece around them are one stretch of blanks.
            have hpiece : ∀ c ∈ front ++ cut, isBlank c = true :=
              fun c hc => (hspells.class_of_mem c hc).2.trans hblank
            have hall : ∀ c ∈ front ++ blanks ++ cut, isBlank c = true := by
              simp only [List.forall_mem_append] at hpiece ⊢
              exact ⟨⟨hpiece.1, hblanks⟩, hpiece.2⟩
            rw [Token.significant_cons_blank hblank]
            simpa only [List.append_assoc] using htail.covers.blanks hall
      · rw [List.append_assoc]
        have hbetween : ¬MidWord between rest := by
          rintro ⟨⟨b, hb, hpart⟩, hrest⟩
          exact hmid ⟨⟨b, List.mem_getLast?_append_of_mem_getLast? hb, hpart⟩, hrest⟩
        exact (ih hbetween rfl).token hspells (not_continues_insert hblanks between · hends)

end

/-! ## Signs for a lambda -/

/-- A character with the two signs for a lambda made one. -/
def lambdaSign (c : Char) : Char :=
  if c = '\\' then 'λ' else c

theorem lambdaSign_eq_lambda_iff {c : Char} : lambdaSign c = 'λ' ↔ c = 'λ' ∨ c = '\\' := by
  unfold lambdaSign
  split <;> simp_all

theorem lambdaSign_of_ne_lambda {c : Char} (h : lambdaSign c ≠ 'λ') : lambdaSign c = c := by
  unfold lambdaSign at h ⊢
  split <;> simp_all

/-- Words and blanks are made of other characters. -/
theorem class_lambdaSign (c : Char) :
    isWordPart (lambdaSign c) = isWordPart c ∧ isBlank (lambdaSign c) = isBlank c := by
  unfold lambdaSign
  split
  · subst_vars
    decide
  · exact ⟨rfl, rfl⟩

theorem continues_map_lambdaSign (lexeme : Lexeme) (cs : List Char) :
    Continues lexeme (cs.map lambdaSign) ↔ Continues lexeme cs := by
  cases cs with
  | nil => rfl
  | cons c cs => cases lexeme <;> simp [Continues, class_lambdaSign]

/-- A text without lambdas is the only one with these signs. -/
theorem eq_of_map_lambdaSign {piece piece' : List Char} (hplain : 'λ' ∉ piece.map lambdaSign)
    (h : piece'.map lambdaSign = piece.map lambdaSign) : piece' = piece := by
  have hself {cs : List Char} (hcs : 'λ' ∉ cs.map lambdaSign) : cs.map lambdaSign = cs := by
    conv_rhs => rw [← List.map_id cs]
    refine List.map_congr_left fun c hc => lambdaSign_of_ne_lambda fun heq => hcs ?_
    exact heq ▸ List.mem_map_of_mem hc
  rw [← hself hplain, ← h, hself (h ▸ hplain)]

/-- A lexeme is spelled with either sign. -/
theorem Spells.of_lambdas {lexeme : Lexeme} {piece piece' : List Char}
    (hspells : Spells lexeme piece) (h : piece'.map lambdaSign = piece.map lambdaSign) :
    Spells lexeme piece' := by
  by_cases hplain : 'λ' ∈ piece.map lambdaSign
  · obtain ⟨c, hc, hsign⟩ := List.mem_map.mp hplain
    have hclass := class_lambdaSign c
    rw [hsign, (hspells.class_of_mem c hc).1, (hspells.class_of_mem c hc).2] at hclass
    cases hspells with
    | lambda | backslash =>
        obtain ⟨c', rfl, hsign'⟩ := List.map_eq_singleton_iff.mp h
        rcases lambdaSign_eq_lambda_iff.mp hsign' with rfl | rfl
        · exact .lambda
        · exact .backslash
    | word => cases hclass.1
    | blank => cases hclass.2
    | dot | openParen | closeParen =>
        cases List.mem_singleton.mp hc
        exact absurd hsign (by decide)
  · rwa [eq_of_map_lambdaSign hplain h]

/-- A text falls into the same tokens whichever signs its lambdas are written with. -/
theorem Tiles.of_lambdas {cs cs' : List Char} (h : Tiles start cs tokens)
    (hsigns : cs'.map lambdaSign = cs.map lambdaSign) : Tiles start cs' tokens := by
  induction h generalizing cs' with
  | nil start =>
      obtain rfl : cs' = [] := by simpa using hsigns
      exact .nil start
  | @cons start piece rest lexeme tokens hspells hends _ ih =>
      rw [List.map_append, List.map_eq_append_iff] at hsigns
      obtain ⟨piece', rest', rfl, hpiece, hrest⟩ := hsigns
      have hlength : piece.length = piece'.length := by
        simpa using (congrArg List.length hpiece).symm
      rw [hlength] at ih ⊢
      refine .cons (hspells.of_lambdas hpiece) ?_ (ih hrest)
      rwa [← continues_map_lambdaSign, hrest, continues_map_lambdaSign]

end Lexer

end LambdaTree
