/-
  LambdaTree.Proofs.Parser.Places

  The places that parsers report, inside a run and outside.  Inside a run an
  answer may come from the table.  It is a suffix of the input all the same,
  because every entry is one for the cursor of its length (`Table.Suffixes`).
  Nothing is assumed about which memos share a cell.

  The sessions in which a parser may be called are `MayCall`; a run may have
  called any parsers before (`DuringRun`).  What follows from the suffixes are
  the counts of `measure`, and where alternatives that all fail are refused.
-/

import LambdaTree.Proofs.Parser.Suffixes

namespace LambdaTree

variable {ι α β : Type} {σ : Signature}

/-! ## Entries are suffixes -/

section

variable {data : Sequence ι} {cell : σ.Cell}

/-- Every entry reports a suffix of the cursor that has the entry's length. -/
def Table.Suffixes (data : Sequence ι) (table : Table ι σ) : Prop :=
  ∀ cell length reply (offset : Int), (Input.view ⟨data, offset⟩).length = .ok length →
    table.find? cell length = some reply → reply.rest.Suffix (.view ⟨data, offset⟩)

theorem Table.Suffixes.insert {table : Table ι σ} (h : table.Suffixes data) {offset : Int}
    {length : Nat} (hlength : (Input.view ⟨data, offset⟩).length = .ok length)
    {reply : Reply ι (σ.cellValue cell)} (hreply : reply.rest.Suffix (.view ⟨data, offset⟩)) :
    (table.insert cell length reply).Suffixes data := by
  intro cell' length' reply' offset' hlength' hfind
  by_cases hsame : cell' = cell ∧ length' = length
  · -- The new entry is about one cursor only, since the length determines the offset.
    obtain ⟨rfl, rfl⟩ := hsame
    obtain ⟨n, hdata, -, hn⟩ := Input.length_view_eq_ok hlength
    obtain ⟨n', hdata', -, hn'⟩ := Input.length_view_eq_ok hlength'
    obtain rfl : n = n' := Except.ok.inj (hdata.symm.trans hdata')
    obtain rfl : offset = offset' := by omega
    rw [Table.find?_insert_self] at hfind
    cases hfind
    exact hreply
  · rw [Table.find?_insert_of_ne _ _ hsame] at hfind
    exact h cell' length' reply' offset' hlength' hfind

/-- The invariant of a session: what it remembers are suffixes. -/
def Session.Suffixes (data : Sequence ι) (s : Session ι σ) : Prop :=
  ∀ table, s.table = some table → table.Suffixes data

namespace Parser

theorem remember_fault {input : Input ι} {m : Run ι σ (Reply ι (σ.cellValue cell))}
    {s : Session ι σ} {table : Table ι σ} {fault : Fault} (hs : s.table = some table)
    (hlength : input.length = .error fault) :
    (remember cell input m).run.run s = (.error (.fault fault), s) := by
  rw [remember, Run.run_get_bind]
  simp only [hs, hlength, Run.check]
  rfl

/-- A memo keeps an invariant if the computation does, what is found has the property, and
    what has it may be put in the table. -/
theorem remember_keeps_of {Inv : Session ι σ → Prop} {E : Halt → Prop}
    {Q : Reply ι (σ.cellValue cell) → Prop} {input : Input ι}
    {m : Run ι σ (Reply ι (σ.cellValue cell))} (hE : ∀ fault, E (.fault fault))
    (hm : m.Keeps Inv E Q)
    (hfound : ∀ s table length reply, Inv s → s.table = some table → input.length = .ok length →
      table.find? cell length = some reply → Q reply)
    (hput : ∀ s length reply, Inv s → input.length = .ok length → Q reply →
      Inv { s with table := s.table.map (·.insert cell length reply) }) :
    (remember cell input m).Keeps Inv E Q := by
  intro s hs
  cases htable : s.table with
  | none =>
      rw [Run.after, Run.result, remember_none htable]
      exact hm s hs
  | some table =>
      cases hlength : input.length with
      | error fault =>
          rw [Run.after, Run.result, remember_fault htable hlength]
          refine ⟨hs, fun v hv => (by cases hv), fun halt hhalt => ?_⟩
          cases hhalt
          exact hE fault
      | ok length =>
          cases hfind : table.find? cell length with
          | some reply =>
              rw [Run.after, Run.result, remember_hit htable hlength hfind]
              refine ⟨hs, fun v hv => ?_, fun halt hhalt => (by cases hhalt)⟩
              cases hv
              exact hfound s table length reply hs htable hlength hfind
          | none =>
              obtain ⟨hafter, hvalue, hhalt⟩ := hm s hs
              rw [Run.after, Run.result, remember_miss htable hlength hfind]
              cases hr : m.result s with
              | error halt => exact ⟨hafter, fun v hv => (by cases hv), fun halt' h => by
                  cases h
                  exact hhalt halt hr⟩
              | ok reply =>
                  have hreply := hvalue reply hr
                  refine ⟨hput _ length reply hafter hlength hreply, fun v hv => ?_,
                    fun halt h => (by cases h)⟩
                  cases hv
                  exact hreply

theorem remember_keeps {E : Halt → Prop} (hE : ∀ fault, E (.fault fault)) (offset : Int)
    {m : Run ι σ (Reply ι (σ.cellValue cell))}
    (hm : m.Keeps (Session.Suffixes data) E
      fun reply => reply.rest.Suffix (.view ⟨data, offset⟩)) :
    (remember cell (.view ⟨data, offset⟩) m).Keeps (Session.Suffixes data) E
      fun reply => reply.rest.Suffix (.view ⟨data, offset⟩) := by
  refine remember_keeps_of hE hm (fun s table length reply hs htable hlength hfind => ?_)
    fun s length reply hs hlength hreply table' htable' => ?_
  · exact hs table htable cell length reply offset hlength hfind
  · obtain ⟨inner, hinner, rfl⟩ := Option.map_eq_some_iff.mp htable'
    exact (hs inner hinner).insert hlength hreply

/-! ## Where parsers are called -/

variable [Symbol ι] {rules : Rules ι σ}

omit [Symbol ι] in
/-- Outside a run there is no table to keep. -/
theorem keeping_outside {E : Halt → Prop} (hE : ∀ fault, E (.fault fault)) :
    Keeping (fun s : Session ι σ => s.table = none) (fun _ => True) E where
  live _ _ := trivial
  fault := hE
  memo cell input m _ hm s hs := by
    rw [Run.after, Run.result, remember_none hs]
    exact hm s hs
  record _ _ hs := hs

omit [Symbol ι] in
/-- Inside a run all inputs are cursors over the same data. -/
theorem keeping_inside (data : Sequence ι) {E : Halt → Prop} (hE : ∀ fault, E (.fault fault)) :
    Keeping (Session.Suffixes (σ := σ) data) (fun i => ∃ offset : Int, i = .view ⟨data, offset⟩)
      E where
  live := by
    rintro _ _ ⟨offset, rfl⟩ hsuffix
    cases hsuffix with
    | same _ => exact ⟨offset, rfl⟩
    | @view _ _ _ place _ _ _ => exact ⟨place, rfl⟩
  fault := hE
  memo := by
    rintro cell _ m ⟨offset, rfl⟩ hm
    exact remember_keeps hE offset hm
  record _ _ hs := hs

/-- The sessions of a run over some data.  It starts with an empty table; then parsers may
    be called, one after another, on places of the data. -/
inductive DuringRun (rules : Rules ι σ) (data : Sequence ι) : Session ι σ → Prop where
  | start (tally : Tally) : DuringRun rules data ⟨some .empty, tally⟩
  | call {s : Session ι σ} (h : DuringRun rules data s) (depth : Nat) {α : Type}
      (p : Parser ι σ α) (offset : Int) :
      DuringRun rules data ((exec (callAt rules depth) p (.view ⟨data, offset⟩)).after s)

/-- The sessions in which a parser may be called on an input: outside a run, on any input,
    or during a run, on a cursor over the data of the run. -/
inductive MayCall (rules : Rules ι σ) : Input ι → Session ι σ → Prop where
  | outside (input : Input ι) {s : Session ι σ} (h : s.table = none) : MayCall rules input s
  | inside {data : Sequence ι} {s : Session ι σ} (h : DuringRun rules data s) (offset : Int) :
      MayCall rules (.view ⟨data, offset⟩) s

theorem DuringRun.suffixes {s : Session ι σ} (h : DuringRun rules data s) :
    s.Suffixes data := by
  induction h with
  | start tally =>
      intro table htable
      cases htable
      intro cell length reply offset _ hfind
      simp at hfind
  | call _ depth p offset ih =>
      have hkeeping := keeping_inside (σ := σ) data (E := fun _ => True) fun _ => trivial
      have hcalls := exec_keeps hkeeping p
        (fun name _ i hi => callAt_keeps hkeeping rules depth name hi) ⟨offset, rfl⟩
      exact (hcalls _ ih).1

section

variable {input : Input ι} {s : Session ι σ}

theorem MayCall.keeping (h : MayCall rules input s) {E : Halt → Prop}
    (hE : ∀ fault, E (.fault fault)) :
    ∃ (Inv : Session ι σ → Prop) (Live : Input ι → Prop),
      Keeping Inv Live E ∧ Inv s ∧ Live input := by
  cases h with
  | outside input hs => exact ⟨_, _, keeping_outside hE, hs, trivial⟩
  | inside hrun offset => exact ⟨_, _, keeping_inside _ hE, hrun.suffixes, offset, rfl⟩

/-- The place that a call reports is a suffix of the input. -/
theorem MayCall.suffix (h : MayCall rules input s) {depth : Nat} {p : Parser ι σ α}
    {reply : Reply ι α} (hr : (exec (callAt rules depth) p input).result s = .ok reply) :
    reply.rest.Suffix input := by
  obtain ⟨Inv, Live, hkeeping, hs, hi⟩ := h.keeping (E := fun _ => True) fun _ => trivial
  have hcalls := exec_keeps hkeeping p
    (fun name _ i hi => callAt_keeps hkeeping rules depth name hi) hi
  exact (hcalls s hs).2.1 reply hr

end

/-! ## Alternatives that fail -/

/-- Computations that are started one after another, each in the session that the one
    before has left, and all fail. -/
inductive FailInTurn : List (Run ι σ (Reply ι α)) → Session ι σ → List (Diagnostic × Input ι) →
    Prop where
  | nil (s : Session ι σ) : FailInTurn [] s []
  | cons {m : Run ι σ (Reply ι α)} {ms : List (Run ι σ (Reply ι α))} {s : Session ι σ}
      {diagnostic : Diagnostic} {place : Input ι} {failures : List (Diagnostic × Input ι)}
      (h : m.result s = .ok (.failure diagnostic place))
      (hs : FailInTurn ms (m.after s) failures) :
      FailInTurn (m :: ms) s ((diagnostic, place) :: failures)

section

variable {input rest : Input ι} {s : Session ι σ} {diagnostic : Diagnostic}

omit [Symbol ι] in
theorem tryEach_eq_failure {ms : List (Run ι σ (Reply ι α))}
    {failures : List (Diagnostic × Input ι)}
    (h : (tryEach input ms failures).result s = .ok (.failure diagnostic rest)) :
    ∃ later, FailInTurn ms s later ∧
      allFailed (α := α) input (failures.reverse ++ later) = .ok (.failure diagnostic rest) := by
  induction ms generalizing failures s with
  | nil =>
      rw [tryEach] at h
      refine ⟨[], .nil s, ?_⟩
      rw [List.append_nil]
      exact Run.result_check_eq_ok h
  | cons m ms ih =>
      rw [tryEach] at h
      obtain ⟨reply, hm, hrest⟩ := Run.result_bind_eq_ok h
      cases reply with
      | success value place => cases hrest
      | failure diagnostic' place =>
          obtain ⟨later, hlater, hfailed⟩ := ih hrest
          refine ⟨(diagnostic', place) :: later, .cons hm hlater, ?_⟩
          simpa using hfailed

omit [Symbol ι] in
/-- A place is refused only when the lengths of all of them are known, and it is one of
    them from which the least is left. -/
theorem furthest_eq_ok {best place : Input ι} {places : List (Input ι)}
    (h : furthest best places = .ok place) :
    place ∈ best :: places ∧ ∃ n, place.length = .ok n ∧
      ∀ other ∈ best :: places, ∃ m, other.length = .ok m ∧ n ≤ m := by
  induction places generalizing best with
  | nil =>
      rw [furthest] at h
      obtain ⟨n, hbest, hplace⟩ := exists_of_bind_eq_ok h
      cases hplace
      exact ⟨List.mem_singleton_self _, n, hbest, by simp [hbest]⟩
  | cons next places ih =>
      rw [furthest] at h
      obtain ⟨a, hnext, h⟩ := exists_of_bind_eq_ok h
      obtain ⟨b, hbest, h⟩ := exists_of_bind_eq_ok h
      -- The one of the two that is kept has no more left than the other.
      by_cases hlt : a < b
      · rw [if_pos hlt] at h
        obtain ⟨hmem, n, hn, hleast⟩ := ih h
        obtain ⟨m, hm, hle⟩ := hleast next (List.mem_cons_self ..)
        obtain rfl : a = m := Except.ok.inj (hnext.symm.trans hm)
        refine ⟨List.mem_cons_of_mem _ hmem, n, hn, ?_⟩
        simp only [List.forall_mem_cons] at hleast ⊢
        exact ⟨⟨b, hbest, by omega⟩, hleast⟩
      · rw [if_neg hlt] at h
        obtain ⟨hmem, n, hn, hleast⟩ := ih h
        obtain ⟨m, hm, hle⟩ := hleast best (List.mem_cons_self ..)
        obtain rfl : b = m := Except.ok.inj (hbest.symm.trans hm)
        simp only [List.forall_mem_cons] at hleast ⊢
        refine ⟨?_, n, hn, ⟨b, hbest, hle⟩, ⟨a, hnext, by omega⟩, hleast.2⟩
        simp only [List.mem_cons] at hmem ⊢
        tauto

/-- A place at which one of some failures is, and from which no more is left than from
    those of the others. -/
structure Furthest (failures : List (Diagnostic × Input ι)) (place : Input ι) : Prop where
  reached : ∃ failure ∈ failures, failure.2 = place
  least : ∃ n, place.length = .ok n ∧ ∀ failure ∈ failures, ∃ m, failure.2.length = .ok m ∧ n ≤ m

omit [Symbol ι] in
theorem allFailed_eq_failure {failures : List (Diagnostic × Input ι)}
    (h : allFailed (α := α) input failures = .ok (.failure diagnostic rest)) :
    failures = [] ∧ rest = input ∨ Furthest failures rest := by
  cases failures with
  | nil =>
      cases h
      exact .inl ⟨rfl, rfl⟩
  | cons first others =>
      right
      rw [allFailed] at h
      obtain ⟨place, hplace, h⟩ := exists_of_bind_eq_ok h
      cases h
      obtain ⟨hmem, n, hn, hleast⟩ := furthest_eq_ok hplace
      rw [← List.map_cons (f := Prod.snd)] at hmem hleast
      obtain ⟨failure, hfailure, rfl⟩ := List.mem_map.mp hmem
      refine ⟨⟨failure, hfailure, rfl⟩, n, hn, fun other hother => ?_⟩
      exact hleast other.2 (List.mem_map_of_mem hother)

/-- Alternatives that are refused have all failed in turn, and the place of the refusal is
    the furthest of theirs. -/
theorem choice_eq_failure
    {call : (name : σ.Rule) → Input ι → Run ι σ (Reply ι (σ.ruleValue name))} {count : Nat}
    {alternative : Fin count → Parser ι σ α}
    (h : (exec call (.choice count alternative) input).result s =
      .ok (.failure diagnostic rest)) :
    ∃ failures, FailInTurn (List.ofFn fun i => exec call (alternative i) input) s failures ∧
      (failures = [] ∧ rest = input ∨ Furthest failures rest) := by
  obtain ⟨failures, hturn, hfailed⟩ := tryEach_eq_failure h
  exact ⟨failures, hturn, allFailed_eq_failure hfailed⟩

/-! ## Counts -/

omit [Symbol ι] in
theorem countRead_eq_success {reply : Reply ι α} {value : α} {count : Int}
    (h : countRead input reply = .ok (.success (value, count) rest)) :
    reply = .success value rest ∧
      ∃ n m : Nat, input.length = .ok n ∧ rest.length = .ok m ∧ count = (n : Int) - m := by
  cases reply with
  | failure diagnostic place => cases h
  | success v place =>
      rw [countRead] at h
      obtain ⟨n, hn, h⟩ := exists_of_bind_eq_ok h
      obtain ⟨m, hm, h⟩ := exists_of_bind_eq_ok h
      cases h
      exact ⟨rfl, n, m, hn, hm, rfl⟩

/-- What a measured parser counts are the symbols that are gone. -/
theorem MayCall.measured (h : MayCall rules input s) {depth : Nat} {p : Parser ι σ α} {value : α}
    {count : Int}
    (hr : (exec (callAt rules depth) (.measure p) input).result s =
      .ok (.success (value, count) rest)) :
    ∃ n : Nat, count = n ∧ rest = input.drop n ∧
      ∀ items, input.toList = .ok items → n ≤ items.length ∧ rest.toList = .ok (items.drop n) := by
  obtain ⟨reply, hp, hcheck⟩ := Run.result_bind_eq_ok hr
  obtain ⟨rfl, n, m, hn, hm, rfl⟩ := countRead_eq_success (Run.result_check_eq_ok hcheck)
  have hsuffix : rest.Suffix input := h.suffix hp
  obtain ⟨hle, hdrop⟩ := hsuffix.eq_drop hn hm
  refine ⟨n - m, by omega, hdrop, fun items hitems => ?_⟩
  obtain ⟨hlength, hrest⟩ := Input.toList_drop hn (Nat.sub_le n m) hitems
  rw [hdrop]
  exact ⟨by omega, hrest⟩

/-- Every answer is about a suffix of the input.  Let a parser be called on an input,
    outside a run or during one, with rules that may call each other to any depth.  The
    place that it reports, on success and on failure, is a suffix of the input in the same
    representation.  So a measured parser counts the symbols by which the rest differs
    from the input; and alternatives that all fail are refused at the furthest place that
    one of them reached. -/
theorem answers_at_suffix {input : Input ι} {s : Session ι σ} (h : MayCall rules input s)
    (depth : Nat) :
    (∀ {α : Type} (p : Parser ι σ α) (reply : Reply ι α),
      (exec (callAt rules depth) p input).result s = .ok reply → reply.rest.Suffix input) ∧
    (∀ {α : Type} (p : Parser ι σ α) (value : α) (count : Int) (rest : Input ι),
      (exec (callAt rules depth) (.measure p) input).result s =
        .ok (.success (value, count) rest) →
      ∃ n : Nat, count = n ∧ rest = input.drop n ∧
        ∀ items, input.toList = .ok items →
          n ≤ items.length ∧ rest.toList = .ok (items.drop n)) ∧
    (∀ {α : Type} (n : Nat) (alternative : Fin n → Parser ι σ α) (diagnostic : Diagnostic)
      (rest : Input ι),
      (exec (callAt rules depth) (.choice n alternative) input).result s =
        .ok (.failure diagnostic rest) →
      ∃ failures,
        FailInTurn (List.ofFn fun i => exec (callAt rules depth) (alternative i) input) s
          failures ∧
        (failures = [] ∧ rest = input ∨ Furthest failures rest)) :=
  ⟨fun _ _ hr => h.suffix hr, fun _ _ _ _ hr => h.measured hr,
    fun _ _ _ _ hr => choice_eq_failure hr⟩

/-- During a run over three tokens, an expression is read between the parentheses; it leaves
    the cursor before the second of them. -/
theorem answers_at_suffix_between_parentheses :
    let data : Sequence Token := .symbols #[⟨.openParen, ⟨0, 1⟩⟩, ⟨.word "x", ⟨1, 2⟩⟩,
      ⟨.closeParen, ⟨2, 3⟩⟩]
    MayCall Grammar.ownRules (.view ⟨data, 1⟩) ⟨some .empty, #[]⟩ ∧
      (exec (callAt Grammar.ownRules 1) Grammar.expression (.view ⟨data, 1⟩)).result
        ⟨some .empty, #[]⟩ = .ok (.success (.var none "x") (.view ⟨data, 2⟩)) ∧
      (Input.view ⟨data, 2⟩).Suffix (.view ⟨data, 1⟩) := by
  intro data
  have hcall : MayCall Grammar.ownRules (.view ⟨data, 1⟩) ⟨some .empty, #[]⟩ :=
    .inside (.start #[]) 1
  have hread : (exec (callAt Grammar.ownRules 1) Grammar.expression (.view ⟨data, 1⟩)).result
      ⟨some .empty, #[]⟩ = .ok (.success (.var none "x") (.view ⟨data, 2⟩)) := by
    with_unfolding_all rfl
  exact ⟨hcall, hread, (answers_at_suffix hcall 1).1 Grammar.expression _ hread⟩

end

end Parser

end

end LambdaTree
