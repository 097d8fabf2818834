/-
  LambdaTree.Proofs.Parser.Plain

  Parsers on plain sequences, without their diagnostics.  `Parser.readsAt` is
  what a parser reads off a list of symbols: a value or none, and the symbols
  at the place that the answer is about.  There is one equation for each way of
  building a parser (`readsAt_seq`, `readsAt_firstOf`, `readsAt_many` and so
  on), so that what a parser reads is found without opening `Parser.eval`.
-/

import LambdaTree.Proofs.Parser.Inputs
import Mathlib.Data.List.OfFn

namespace LambdaTree

variable {ι κ α β γ : Type} {σ : Signature}

/-! ## What is read off a list -/

/-- What comes of reading a list of symbols. -/
inductive Reads (ι α : Type) where
  /-- A value was read, and some symbols are left. -/
  | success (value : α) (rest : List ι)
  /-- Nothing was read; the trouble is at some of the symbols. -/
  | failure (rest : List ι)
  | halted (halt : Halt)

namespace Reads

/-- Goes on with the value and the symbols that are left. -/
def andThen : Reads ι α → (α → List ι → Reads ι β) → Reads ι β
  | .success value rest, next => next value rest
  | .failure rest, _ => .failure rest
  | .halted halt, _ => .halted halt

/-- A value that may turn out to be a fault. -/
def returns (result : Except Fault α) (rest : List ι) : Reads ι α :=
  match result with
  | .ok value => .success value rest
  | .error fault => .halted (.fault fault)

/-- Of some places, the first of those with the fewest symbols left. -/
def furthest (best : List ι) : List (List ι) → List ι
  | [] => best
  | place :: places => furthest (if place.length < best.length then place else best) places

/-- The first success, or the failure at the furthest place, with the places so far. -/
def firstOf (symbols : List ι) : List (Reads ι α) → List (List ι) → Reads ι α
  | [], [] => .failure symbols
  | [], place :: places => .failure (furthest place places)
  | .success value rest :: _, _ => .success value rest
  | .failure rest :: others, places => firstOf symbols others (places ++ [rest])
  | .halted halt :: _, _ => .halted halt

/-- As often as the step reads a value and leaves fewer symbols. -/
def many (step : List ι → Reads ι α) (symbols : List ι) : Reads ι (List α) :=
  match step symbols with
  | .failure _ => .success [] symbols
  | .halted halt => .halted halt
  | .success value rest =>
    if rest.length < symbols.length then
      (many step rest).andThen fun values last => .success (value :: values) last
    else
      .success [value] rest
termination_by symbols.length

/-- One symbol that passes a test. -/
def one (passes : ι → Bool) : List ι → Reads ι ι
  | [] => .failure []
  | symbol :: rest => if passes symbol then .success symbol rest else .failure (symbol :: rest)

/-- What an answer says, without its diagnostic. -/
def ofReply : Except Halt (Reply ι α) → Reads ι α
  | .ok (.success value rest) => .success value rest.symbols
  | .ok (.failure _ rest) => .failure rest.symbols
  | .error halt => .halted halt

/-- Nothing but symbols of the list is left. -/
def Within (symbols : List ι) : Reads ι α → Prop
  | .success _ rest => rest <:+ symbols
  | .failure rest => rest <:+ symbols
  | .halted _ => True

@[simp] theorem ofReply_success (value : α) (rest : List ι) :
    ofReply (.ok (.success value (.plain rest))) = .success value rest := rfl

@[simp] theorem ofReply_failure (diagnostic : Diagnostic) (rest : List ι) :
    ofReply (.ok (.failure diagnostic (.plain rest)) : Except Halt (Reply ι α)) =
      .failure rest := rfl

@[simp] theorem ofReply_error (halt : Halt) :
    ofReply (.error halt : Except Halt (Reply ι α)) = .halted halt := rfl

@[simp] theorem success_andThen (value : α) (rest : List ι) (next : α → List ι → Reads ι β) :
    (success value rest).andThen next = next value rest := rfl

theorem andThen_assoc (r : Reads ι α) (f : α → List ι → Reads ι β) (g : β → List ι → Reads ι γ) :
    (r.andThen f).andThen g = r.andThen fun value rest => (f value rest).andThen g := by
  cases r <;> rfl

section

variable {r : Reads ι α} {next : α → List ι → Reads ι β} {rest : List ι}

theorem andThen_eq_success {value : β} (h : r.andThen next = .success value rest) :
    ∃ v middle, r = .success v middle ∧ next v middle = .success value rest := by
  cases r with
  | success v middle => exact ⟨v, middle, rfl, h⟩
  | failure middle => cases h
  | halted halt => cases h

theorem andThen_eq_failure (h : r.andThen next = .failure rest) :
    r = .failure rest ∨ ∃ v middle, r = .success v middle ∧ next v middle = .failure rest := by
  cases r with
  | success v middle => exact .inr ⟨v, middle, rfl, h⟩
  | failure middle =>
      cases h
      exact .inl rfl
  | halted halt => cases h

theorem andThen_eq_halted {halt : Halt} (h : r.andThen next = .halted halt) :
    r = .halted halt ∨ ∃ v middle, r = .success v middle ∧ next v middle = .halted halt := by
  cases r with
  | success v middle => exact .inr ⟨v, middle, rfl, h⟩
  | failure middle => cases h
  | halted halt' =>
      cases h
      exact .inl rfl

end

/-! ## Alternatives of which one decides -/

theorem furthest_replicate {place symbols : List ι} (h : place.length ≤ symbols.length) (n : Nat) :
    furthest place (List.replicate n symbols) = place := by
  induction n with
  | zero => rfl
  | succ n ih => rw [List.replicate_succ, furthest, if_neg (by omega), ih]

/-- Among places of which all but one are at the start, that one is the furthest. -/
theorem furthest_of_suffix {place symbols : List ι} (h : place <:+ symbols) (m n : Nat) :
    furthest symbols (List.replicate m symbols ++ place :: List.replicate n symbols) = place := by
  induction m with
  | zero =>
      rw [List.replicate_zero, List.nil_append, furthest]
      split
      · exact furthest_replicate h.length_le n
      · -- A suffix that is no shorter is the whole, so it does not matter which is kept.
        rename_i hlen
        rw [furthest_replicate le_rfl, h.eq_of_length_le (Nat.le_of_not_lt hlen)]
  | succ m ih => rwa [List.replicate_succ, List.cons_append, furthest, if_neg (Nat.lt_irrefl _)]

theorem firstOf_failures {symbols : List ι} {before : List (Reads ι α)}
    (h : ∀ r ∈ before, r = .failure symbols) (after : List (Reads ι α))
    (places : List (List ι)) :
    firstOf symbols (before ++ after) places =
      firstOf symbols after (places ++ List.replicate before.length symbols) := by
  induction before generalizing places with
  | nil => simp
  | cons r before ih =>
      obtain rfl := h r (List.mem_cons_self ..)
      rw [List.cons_append, firstOf, ih fun r hr => h r (List.mem_cons_of_mem _ hr)]
      simp [List.replicate_succ]

/-- Where all alternatives but one fail at the start, that one decides. -/
theorem firstOf_eq_of_others {symbols : List ι} (before after : List (Reads ι α))
    (hbefore : ∀ r ∈ before, r = .failure symbols) (hafter : ∀ r ∈ after, r = .failure symbols)
    {r : Reads ι α} (hr : r.Within symbols) :
    firstOf symbols (before ++ r :: after) [] = r := by
  rw [firstOf_failures hbefore, List.nil_append]
  cases r with
  | success value rest => rw [firstOf]
  | halted halt => rw [firstOf]
  | failure place =>
      -- The places are now some at the start, the one that counts, and some at the start.
      rw [firstOf, ← List.append_nil after, firstOf_failures hafter]
      generalize before.length = m, after.length = n
      cases m with
      | zero => rw [List.replicate_zero, List.nil_append, List.singleton_append, firstOf,
          furthest_replicate hr.length_le]
      | succ m => rw [List.replicate_succ, List.append_assoc, List.cons_append, firstOf,
          List.singleton_append, furthest_of_suffix hr]

/-! ## Single symbols -/

/-- A symbol passes the test and is read, or nothing is. -/
theorem one_cases (passes : ι → Bool) (symbols : List ι) :
    (∃ symbol rest, symbols = symbol :: rest ∧ passes symbol = true ∧
      one passes symbols = .success symbol rest) ∨
    (∀ symbol ∈ symbols.head?, passes symbol = false) ∧ one passes symbols = .failure symbols := by
  cases symbols with
  | nil => exact .inr ⟨by simp, rfl⟩
  | cons symbol rest =>
      cases h : passes symbol with
      | true => exact .inl ⟨symbol, rest, rfl, h, by simp [one, h]⟩
      | false => exact .inr ⟨by simpa using h, by simp [one, h]⟩

/-- Alternatives of one symbol each are one symbol that passes some of the tests. -/
theorem firstOf_one (symbols : List ι) (tests : List (ι → Bool)) :
    firstOf symbols (tests.map fun passes => one passes symbols) [] =
      one (fun symbol => tests.any fun passes => passes symbol) symbols := by
  -- The tests that failed have all left their places at the start.
  suffices h : ∀ k, firstOf symbols (tests.map fun passes => one passes symbols)
      (List.replicate k symbols) = one (fun symbol => tests.any fun passes => passes symbol) symbols
    from h 0
  induction tests with
  | nil =>
      intro k
      have hnone : one (fun _ => false) symbols = .failure symbols := by cases symbols <;> rfl
      cases k with
      | zero => exact hnone.symm
      | succ k =>
          rw [List.replicate_succ, List.map_nil, firstOf, furthest_replicate le_rfl]
          exact hnone.symm
  | cons passes tests ih =>
      intro k
      rcases one_cases passes symbols with ⟨symbol, rest, rfl, hpassed, hone⟩ | ⟨hfailed, hone⟩
      · rw [List.map_cons, hone, firstOf]
        simp [one, hpassed]
      · rw [List.map_cons, hone, firstOf, ← List.replicate_succ', ih]
        cases symbols with
        | nil => rfl
        | cons symbol rest =>
            have hpassed : passes symbol = false := hfailed symbol rfl
            simp [one, hpassed]

/-- As many symbols as pass a test. -/
theorem many_one (passes : ι → Bool) (symbols : List ι) :
    many (one passes) symbols =
      .success (symbols.takeWhile passes) (symbols.dropWhile passes) := by
  induction symbols with
  | nil =>
      rw [many]
      rfl
  | cons symbol rest ih =>
      rw [many]
      by_cases h : passes symbol = true
      · simp [one, h, ih]
      · simp [one, h]

end Reads

namespace Parser

variable [Symbol ι]

/-- What a parser reads off a list of symbols. -/
def readsAt (rules : Rules ι σ) (depth : Nat) (p : Parser ι σ α) (symbols : List ι) :
    Reads ι α :=
  Reads.ofReply (eval (callsAt rules depth) p (.plain symbols))

omit [Symbol ι] in
theorem forward_suffix (symbols : List ι) :
    Forward fun i : Input ι => ∃ rest, i = .plain rest ∧ rest <:+ symbols := by
  rintro _ _ ⟨rest, rfl, hrest⟩ - h
  exact ⟨rest.tail, (Except.ok.inj h).symm, (List.tail_suffix rest).trans hrest⟩

/-- The three ways in which a parser may end on a plain sequence. -/
inductive AtPlain : Except Halt (Reply ι α) → Prop where
  | halted (halt : Halt) : AtPlain (.error halt)
  | success (value : α) (rest : List ι) : AtPlain (.ok (.success value (.plain rest)))
  | failure (diagnostic : Diagnostic) (rest : List ι) :
      AtPlain (.ok (.failure diagnostic (.plain rest)))

variable (rules : Rules ι σ) (depth : Nat)

/-- Parsers only ever go on: they end on a plain sequence of the symbols that are left. -/
theorem eval_plain_rest {p : Parser ι σ α} {symbols : List ι} {reply : Reply ι α}
    (h : eval (callsAt rules depth) p (.plain symbols) = .ok reply) :
    ∃ rest, reply.rest = .plain rest ∧ rest <:+ symbols :=
  eval_keeps (forward_suffix symbols) (callsAt_keeps (forward_suffix symbols) rules depth) p
    ⟨symbols, rfl, List.suffix_rfl⟩ h

theorem eval_atPlain (p : Parser ι σ α) (symbols : List ι) :
    AtPlain (eval (callsAt rules depth) p (.plain symbols)) := by
  cases h : eval (callsAt rules depth) p (.plain symbols) with
  | error halt => exact .halted halt
  | ok reply =>
      obtain ⟨rest, hrest, -⟩ := eval_plain_rest rules depth h
      cases reply with
      | success value place =>
          obtain rfl : place = .plain rest := hrest
          exact .success value rest
      | failure diagnostic place =>
          obtain rfl : place = .plain rest := hrest
          exact .failure diagnostic rest

theorem readsAt_within (p : Parser ι σ α) (symbols : List ι) :
    (readsAt rules depth p symbols).Within symbols := by
  rw [readsAt]
  cases h : eval (callsAt rules depth) p (.plain symbols) with
  | error halt => trivial
  | ok reply =>
      obtain ⟨rest, hrest, hsuffix⟩ := eval_plain_rest rules depth h
      cases reply with
      | success value place =>
          obtain rfl : place = .plain rest := hrest
          exact hsuffix
      | failure diagnostic place =>
          obtain rfl : place = .plain rest := hrest
          exact hsuffix

/-! ## One equation for each way of building a parser -/

variable {rules depth} {symbols : List ι}

theorem readsAt_succeed (value : α) :
    readsAt rules depth (.succeed value) symbols = .success value symbols := rfl

theorem readsAt_memo (cell : σ.Cell) (p : Parser ι σ (σ.cellValue cell)) :
    readsAt rules depth (.memo cell p) symbols = readsAt rules depth p symbols := rfl

theorem readsAt_satisfy {test : ι → Except Fault Bool} {passes : ι → Bool}
    (h : ∀ symbol, test symbol = .ok (passes symbol)) :
    readsAt rules depth (.satisfy test) symbols = Reads.one passes symbols := by
  cases symbols with
  | nil => rfl
  | cons symbol symbols =>
      cases hpassed : passes symbol with
      | true => simp [readsAt, eval, accept, Input.exceeds, Input.first, h, hpassed, bind,
          Except.bind, Input.rest, Halt.check, Reads.ofReply, Input.symbols, pure, Except.pure,
          Reads.one]
      | false =>
          -- The diagnostic shows some symbols, which a plain sequence always can.
          cases hpreview : (Input.plain (symbol :: symbols)).preview with
          | error fault =>
              rw [Input.preview, Input.exceeds_eq] at hpreview
              cases hpreview
          | ok shown => simp [readsAt, eval, accept, Input.exceeds, Input.first, h, hpassed, bind,
              Except.bind, hpreview, Halt.check, Reads.ofReply, Input.symbols, pure, Except.pure,
              Reads.one]

theorem readsAt_seq (function : Parser ι σ (α → Except Fault β)) (argument : Parser ι σ α) :
    readsAt rules depth (.seq function argument) symbols =
      (readsAt rules depth function symbols).andThen fun f middle =>
        (readsAt rules depth argument middle).andThen fun value rest =>
          .returns (f value) rest := by
  simp only [readsAt, eval]
  -- The function is read first; the argument is only looked at behind it.
  generalize hfunction : eval (callsAt rules depth) function (.plain symbols) = answer
  cases hfunction ▸ eval_atPlain rules depth function symbols with
  | halted halt => rfl
  | failure diagnostic middle => rfl
  | success f middle =>
      simp only [Reads.ofReply, Reads.andThen, Input.symbols, bind, Except.bind]
      generalize hargument : eval (callsAt rules depth) argument (.plain middle) = answer
      cases hargument ▸ eval_atPlain rules depth argument middle with
      | halted halt => rfl
      | failure diagnostic rest => rfl
      | success value rest =>
          cases hf : f value with
          | error fault => simp only [hf, Halt.check, Reads.returns]
          | ok w =>
              simp only [hf, Halt.check, Reads.returns]
              rfl

theorem readsAt_apply (function : α → β) (argument : Parser ι σ α) :
    readsAt rules depth (apply function argument) symbols =
      (readsAt rules depth argument symbols).andThen fun value rest =>
        .success (function value) rest :=
  readsAt_seq _ _

theorem readsAt_combine (function : α → β → γ) (left : Parser ι σ α) (right : Parser ι σ β) :
    readsAt rules depth (combine function left right) symbols =
      (readsAt rules depth left symbols).andThen fun a middle =>
        (readsAt rules depth right middle).andThen fun b rest => .success (function a b) rest := by
  rw [combine, readsAt_seq, readsAt_apply]
  cases readsAt rules depth left symbols <;> rfl

theorem readsAt_seqLeft (left : Parser ι σ α) (right : Parser ι σ β) :
    readsAt rules depth (seqLeft left right) symbols =
      (readsAt rules depth left symbols).andThen fun a middle =>
        (readsAt rules depth right middle).andThen fun _ rest => .success a rest :=
  readsAt_combine _ _ _

theorem readsAt_seqRight (left : Parser ι σ α) (right : Parser ι σ β) :
    readsAt rules depth (seqRight left right) symbols =
      (readsAt rules depth left symbols).andThen fun _ middle =>
        (readsAt rules depth right middle).andThen fun b rest => .success b rest :=
  readsAt_combine _ _ _

theorem readsAt_measure (p : Parser ι σ α) :
    readsAt rules depth (.measure p) symbols =
      (readsAt rules depth p symbols).andThen fun value rest =>
        .success (value, (symbols.length : Int) - rest.length) rest := by
  simp only [readsAt, eval]
  generalize hp : eval (callsAt rules depth) p (.plain symbols) = answer
  cases hp ▸ eval_atPlain rules depth p symbols with
  | halted halt => rfl
  | failure diagnostic rest => rfl
  | success value rest => rfl

theorem readsAt_complete (p : Parser ι σ α) :
    readsAt rules depth (.complete p) symbols =
      (readsAt rules depth p symbols).andThen fun value rest =>
        if rest = [] then .success value rest else .failure rest := by
  simp only [readsAt, eval]
  generalize hp : eval (callsAt rules depth) p (.plain symbols) = answer
  cases hp ▸ eval_atPlain rules depth p symbols with
  | halted halt => rfl
  | failure diagnostic rest => rfl
  | success value rest => cases rest <;> rfl

omit [Symbol ι] in
/-- The loop of `collect` on plain sequences. -/
theorem ofReply_collect {step : Input ι → Except Halt (Reply ι α)}
    (hplain : ∀ symbols, AtPlain (step (.plain symbols))) (symbols : List ι) :
    Reads.ofReply (do
      let (values, rest) ← collect step (.plain symbols)
      return .success values rest) =
      Reads.many (fun symbols => Reads.ofReply (step (.plain symbols))) symbols := by
  -- Both loops go on only with fewer symbols, so the induction is on their number.
  induction hn : symbols.length using Nat.strongRecOn generalizing symbols with
  | ind n ih =>
      subst hn
      rw [collect, Reads.many]
      generalize hs : step (.plain symbols) = answer
      cases hs ▸ hplain symbols with
      | halted halt => rfl
      | failure diagnostic rest => rfl
      | success value rest =>
          simp only [Reads.ofReply_success, Input.length, Input.size, Halt.check, bind, Except.bind]
          by_cases hlt : rest.length < symbols.length
          · simp only [hlt, if_true]
            rw [← ih rest.length hlt rest rfl]
            cases collect step (.plain rest) <;> rfl
          · simp only [hlt, if_false]
            rfl

theorem readsAt_many (p : Parser ι σ α) :
    readsAt rules depth (.many p) symbols = Reads.many (readsAt rules depth p) symbols := by
  exact ofReply_collect (eval_atPlain rules depth p) symbols

omit [Symbol ι] in
theorem furthest_plain (best : List ι) (places : List (List ι)) :
    furthest (.plain best) (places.map Input.plain) = .ok (.plain (Reads.furthest best places)) := by
  induction places generalizing best with
  | nil => rfl
  | cons place places ih =>
      by_cases hlt : place.length < best.length
      · simp [furthest, Reads.furthest, Input.length, bind, Except.bind, hlt, ih]
      · simp [furthest, Reads.furthest, Input.length, bind, Except.bind, hlt, ih]

omit [Symbol ι] in
/-- The alternatives of `settle` on plain sequences.  The failures so far are kept from
    the latest to the first, their places from the first on. -/
theorem ofReply_settle (symbols : List ι) {answers : List (Except Halt (Reply ι α))}
    (hplain : ∀ answer ∈ answers, AtPlain answer)
    (failures : List (Diagnostic × Input ι)) (places : List (List ι))
    (hplaces : failures.reverse.map Prod.snd = places.map Input.plain) :
    Reads.ofReply (settle (.plain symbols) answers failures) =
      Reads.firstOf symbols (answers.map Reads.ofReply) places := by
  induction answers generalizing failures places with
  | nil =>
      -- All alternatives have failed, and the furthest of their places is reported.
      rw [settle, List.map_nil]
      generalize failures.reverse = fs at hplaces
      cases fs with
      | nil =>
          obtain rfl : places = [] := by simpa using hplaces.symm
          rfl
      | cons failure fs =>
          cases places with
          | nil => simp at hplaces
          | cons place places =>
              simp only [List.map_cons, List.cons.injEq] at hplaces
              simp only [allFailed, hplaces.1, hplaces.2, furthest_plain]
              rfl
  | cons answer answers ih =>
      have htail := fun a ha => hplain a (List.mem_cons_of_mem _ ha)
      cases hplain answer (List.mem_cons_self ..) with
      | halted halt => rfl
      | success value rest => rfl
      | failure diagnostic rest =>
          exact ih htail ((diagnostic, .plain rest) :: failures) (places ++ [rest])
            (by simp [hplaces])

theorem readsAt_firstOf (alternatives : List (Parser ι σ α)) :
    readsAt rules depth (firstOf alternatives) symbols =
      Reads.firstOf symbols (alternatives.map fun p => readsAt rules depth p symbols) [] := by
  have hlist :
      (List.ofFn fun i => eval (callsAt rules depth) (alternatives.get i) (.plain symbols)) =
        alternatives.map fun p => eval (callsAt rules depth) p (.plain symbols) :=
    List.ofFn_getElem_eq_map alternatives fun p => eval (callsAt rules depth) p (.plain symbols)
  rw [readsAt, firstOf, eval, hlist, ofReply_settle symbols _ [] [] rfl, List.map_map]
  · rfl
  · intro answer hanswer
    obtain ⟨p, -, rfl⟩ := List.mem_map.mp hanswer
    exact eval_atPlain rules depth p symbols

/-- Alternatives of one symbol each are one symbol that passes some of the tests. -/
theorem readsAt_firstOf_one {alternatives : List (Parser ι σ ι)} {tests : List (ι → Bool)}
    (h : List.Forall₂ (fun p passes => readsAt rules depth p symbols = Reads.one passes symbols)
      alternatives tests) :
    readsAt rules depth (firstOf alternatives) symbols =
      Reads.one (fun symbol => tests.any fun passes => passes symbol) symbols := by
  have hmap : (alternatives.map fun p => readsAt rules depth p symbols) =
      tests.map fun passes => Reads.one passes symbols := by
    induction h with
    | nil => rfl
    | cons hfirst _ ih => rw [List.map_cons, List.map_cons, hfirst, ih]
  rw [readsAt_firstOf, hmap, Reads.firstOf_one]

end Parser

end LambdaTree
