/-
  LambdaTree.Proofs.Parser.Messages

  What the messages of failing parsers look like.  Let the texts that a parser
  may state be single lines, and the items of the input as well.  Then every
  diagnostic that a call or a run reports is well indented over the lines that
  parsers put in by themselves (`FailsWith.explained`), whatever the parser
  and however deep its rules call each other.

  Inside a run an answer may come from the table.  It was reported before, so
  the invariant of the sessions is that all remembered answers are explained in
  this way; nothing is assumed about which memos share a cell.
-/

import LambdaTree.Proofs.Parser.Indentation
import LambdaTree.Proofs.Parser.Places
import LambdaTree.Proofs.Sequence.Views
import LambdaTree.Proofs.Text.Quoting

namespace LambdaTree

variable {ι α β : Type} {σ : Signature}

/-! ## What is shown of an input -/

/-- Items on single lines are shown on a single line. -/
class Symbol.SingleLine (ι : Type) [Symbol ι] : Prop where
  newline_not_mem : ∀ symbols : List ι,
    (∀ symbol ∈ symbols, '\n' ∉ (Symbol.item symbol).shown.toList) →
    '\n' ∉ (Symbol.preview symbols).toList

theorem Text.newline_not_mem_intercalate {parts : List String}
    (h : ∀ part ∈ parts, '\n' ∉ part.toList) : '\n' ∉ (String.intercalate " " parts).toList := by
  induction parts with
  | nil => simp
  | cons first others ih =>
      rw [List.forall_mem_cons] at h
      cases others with
      | nil => simpa using h.1
      | cons second others =>
          have hothers := ih h.2
          rw [String.intercalate_cons_cons, String.toList_append, String.toList_append]
          simp only [List.mem_append, not_or]
          exact ⟨⟨h.1, by decide⟩, hothers⟩

instance : Symbol.SingleLine Char where
  newline_not_mem _ _ := Text.newline_not_mem_quoteWith _

instance : Symbol.SingleLine Token where
  newline_not_mem _ h := Text.newline_not_mem_intercalate (List.forall_mem_map.mpr h)

instance : Symbol.SingleLine Item where
  newline_not_mem _ h := Text.newline_not_mem_intercalate (List.forall_mem_map.mpr h)

namespace Input

/-- The symbols that a message about a place of the input may show. -/
def Shows (input : Input ι) (symbol : ι) : Prop :=
  ∃ place : Input ι, place.Suffix input ∧ symbol ∈ place.head previewLimit

/-- The texts that show the first symbols from a place of the input on. -/
def Previews [Symbol ι] (input : Input ι) (text : String) : Prop :=
  ∃ place : Input ι, place.Suffix input ∧ place.preview = .ok text

variable [Symbol ι] {input : Input ι}

/-- What is shown are symbols, perhaps with a mark. -/
theorem preview_eq_ok {text : String} (h : input.preview = .ok text) :
    text = Symbol.preview (input.head previewLimit) ∨
      text = Symbol.preview (input.head previewLimit) ++ " ..." := by
  obtain ⟨more, -, h⟩ := exists_of_bind_eq_ok h
  cases more with
  | false => exact .inl (Except.ok.inj h).symm
  | true => exact .inr (Except.ok.inj h).symm

theorem Previews.newline_not_mem [Symbol.SingleLine ι]
    (h : ∀ symbol, input.Shows symbol → '\n' ∉ (Symbol.item symbol).shown.toList) {text : String}
    (htext : input.Previews text) : '\n' ∉ text.toList := by
  obtain ⟨place, hplace, hpreview⟩ := htext
  have hshown : '\n' ∉ (Symbol.preview (place.head previewLimit)).toList :=
    Symbol.SingleLine.newline_not_mem _ fun symbol hsymbol => h symbol ⟨place, hplace, hsymbol⟩
  rcases preview_eq_ok hpreview with rfl | rfl
  · exact hshown
  · simpa using hshown

omit [Symbol ι] in
/-- The places of the cursor at the start of a plain sequence are those of the sequence. -/
theorem suffix_toCursor_plain {symbols : List ι} {place : Input ι}
    (h : place.Suffix (toCursor (.plain symbols))) :
    ∃ slice : Input ι, slice.Suffix (.plain symbols) ∧ SlicedAs symbols.toArray place slice := by
  cases h with
  | same _ => exact ⟨_, .same _, slicedAs_toCursor symbols⟩
  | @view _ n _ place hdata hle hn =>
      obtain rfl : symbols.length = n := by simpa [Sequence.length] using hdata
      lift place to Nat using hle
      refine ⟨.plain (symbols.drop place), .plain (List.drop_suffix _ _), place, ?_, rfl, rfl⟩
      simpa using hn

theorem Previews.of_toCursor {text : String} (h : input.toCursor.Previews text) :
    input.Previews text := by
  cases input with
  | view cursor => exact h
  | plain symbols =>
      obtain ⟨place, hplace, hpreview⟩ := h
      obtain ⟨slice, hslice, hsliced⟩ := suffix_toCursor_plain hplace
      exact ⟨slice, hslice, by rwa [← (bisimulation_slice _).preview hsliced]⟩

namespace Holds

variable {items : List ι} {place : Input ι}

omit [Symbol ι] in
/-- From a place of an input on there are the last of its items. -/
theorem of_suffix (h : input.Holds items) (hplace : place.Suffix input) :
    ∃ rest, rest <:+ items ∧ place.Holds rest := by
  cases hplace with
  | same _ => exact ⟨items, List.suffix_refl items, h⟩
  | @plain rest symbols hrest =>
      cases h
      exact ⟨rest, hrest, .plain rest⟩
  | @view data n offset place hdata hle hn =>
      cases h with
      | view h =>
          obtain ⟨all, hall, hstart, hend, rfl⟩ := Cursor.exists_data h
          obtain rfl : n = all.length := Except.ok.inj (hdata.symm.trans hall.length_eq)
          have hsplit : place.toNat = offset.toNat + (place.toNat - offset.toNat) := by omega
          refine ⟨all.drop place.toNat, ?_, .view (.view hall (Int.le_trans hstart hle) hn)⟩
          rw [hsplit, ← List.drop_drop]
          exact List.drop_suffix _ _

omit [Symbol ι] in
theorem head_eq (h : input.Holds items) (count : Nat) : input.head count = items.take count := by
  cases h with
  | plain items => rfl
  | @view cursor items h =>
      obtain ⟨all, hall, hstart, hend, rfl⟩ := Cursor.exists_data h
      have hplace : Slice.startAt cursor.offset all.toArray = cursor.offset.toNat := by
        simp only [Slice.startAt, Slice.clamp, List.size_toArray]
        omega
      simp [head, Cursor.head, hall.content_eq, hplace]

theorem preview_eq (h : input.Holds items) : input.preview = (Input.plain items).preview := by
  have hplain : (Input.plain items).Holds items := .plain items
  rw [preview, preview, h.head_eq, hplain.head_eq, exceeds_eq, exceeds_eq, h.length_eq,
    hplain.length_eq]

omit [Symbol ι] in
theorem mem_of_shows (h : input.Holds items) {symbol : ι} (hsymbol : input.Shows symbol) :
    symbol ∈ items := by
  obtain ⟨place, hplace, hmem⟩ := hsymbol
  obtain ⟨rest, hrest, hholds⟩ := h.of_suffix hplace
  rw [hholds.head_eq] at hmem
  exact hrest.mem (List.mem_of_mem_take hmem)

end Holds

end Input

/-! ## What a parser may state -/

namespace Parser

/-- A text that a parser fails with somewhere. -/
def States (text : String) : {α : Type} → Parser ι σ α → Prop
  | _, .fail message => message = text
  | _, .succeed _ | _, .satisfy _ | _, .rule _ => False
  | _, .seq function argument => function.States text ∨ argument.States text
  | _, .choice _ alternative => ∃ i, (alternative i).States text
  | _, .complete parser | _, .many parser | _, .memo _ parser | _, .measure parser
  | _, .tally _ parser | _, .map _ parser => parser.States text

/-- The rules that a parser calls, and those that they call in turn. -/
inductive Reaches (rules : Rules ι σ) (p : Parser ι σ α) : σ.Rule → Prop where
  | direct {name : σ.Rule} (h : p.Refers name) : Reaches rules p name
  | through {name other : σ.Rule} (h : Reaches rules p name) (ho : (rules name).Refers other) :
      Reaches rules p other

/-- The texts that a parser fails with somewhere, or a rule that it reaches. -/
def MayState (rules : Rules ι σ) (p : Parser ι σ α) (text : String) : Prop :=
  p.States text ∨ ∃ name, Reaches rules p name ∧ (rules name).States text

end Parser

/-! ## Explained answers -/

section

variable [Symbol ι] (States : String → Prop) (root : Input ι)

/-- Where the lines of a diagnostic come from. -/
def Diagnostic.Explained (diagnostic : Diagnostic) : Prop :=
  WellIndented (OwnLineOrMark States root.Previews) diagnostic.lines

/-- An answer at a place of the input whose diagnostic, if it has one, is explained. -/
inductive Reply.Explained : Reply ι α → Prop where
  | success {value : α} {rest : Input ι} (h : rest.Suffix root) : Explained (.success value rest)
  | failure {diagnostic : Diagnostic} {rest : Input ι} (h : rest.Suffix root)
      (hd : diagnostic.Explained States root) : Explained (.failure diagnostic rest)

/-- A session that remembers explained answers only. -/
def Session.Explained (s : Session ι σ) : Prop :=
  ∀ table, s.table = some table → ∀ cell length reply,
    table.find? cell length = some reply → reply.Explained States root

end

namespace Parser

section

variable [Symbol ι] {States : String → Prop} {root input rest : Input ι}

theorem explained_header {cause : Cause} (h : ∀ line, cause ≠ .stated line) :
    (⟨cause, []⟩ : Diagnostic).Explained States root :=
  Diagnostic.wellIndented_singleton (.inl (.header h))

theorem explained_nest {cause : Cause} (h : ∀ line, cause ≠ .stated line)
    {parts : List (List String)}
    (hparts : ∀ part ∈ parts,
      Diagnostic.WellIndented (Diagnostic.OwnLineOrMark States root.Previews) part) :
    (Diagnostic.nest cause parts).Explained States root :=
  Diagnostic.wellIndented_nest (.inr rfl) (.inl (.header h)) hparts

theorem explained_stated {text : String} (h : States text) (hline : '\n' ∉ text.toList) :
    (Diagnostic.stated text).Explained States root := by
  rw [Diagnostic.stated, Text.lines_of_newline_not_mem hline]
  exact Diagnostic.wellIndented_singleton (.inl (.stated h))

variable (hshows : ∀ text, root.Previews text → '\n' ∉ text.toList)
include hshows

theorem accept_explained {test : ι → Except Fault Bool} {reply : Reply ι ι}
    (hi : input.Suffix root) (h : accept test input = .ok reply) :
    reply.Explained States root := by
  have hsuffix : reply.rest.Suffix root := (accept_suffix h).trans hi
  obtain ⟨more, -, h⟩ := exists_of_bind_eq_ok h
  cases more with
  | false =>
      cases h
      exact .failure hsuffix (explained_header (by simp))
  | true =>
      obtain ⟨symbol, -, h⟩ := exists_of_bind_eq_ok h
      obtain ⟨passed, -, h⟩ := exists_of_bind_eq_ok h
      cases passed with
      | true =>
          obtain ⟨rest, -, h⟩ := exists_of_bind_eq_ok h
          cases h
          exact .success hsuffix
      | false =>
          obtain ⟨text, hpreview, h⟩ := exists_of_bind_eq_ok h
          cases h
          have htext : root.Previews text := ⟨input, hi, hpreview⟩
          refine .failure hsuffix (explained_nest (by simp) ?_)
          rw [List.forall_mem_singleton, Text.lines_of_newline_not_mem (hshows text htext)]
          exact Diagnostic.wellIndented_singleton (.inl (.shown htext))

theorem requireEnd_explained {reply reply' : Reply ι α} (hreply : reply.Explained States root)
    (h : requireEnd reply = .ok reply') : reply'.Explained States root := by
  cases hreply with
  | failure hrest hd =>
      cases h
      exact .failure hrest hd
  | @success value rest hrest =>
      obtain ⟨more, -, h⟩ := exists_of_bind_eq_ok h
      cases more with
      | false =>
          cases h
          exact .success hrest
      | true =>
          obtain ⟨text, hpreview, h⟩ := exists_of_bind_eq_ok h
          cases h
          have htext : root.Previews text := ⟨rest, hrest, hpreview⟩
          have hline : '\n' ∉ ("Remaining: " ++ text).toList := by simpa using hshows text htext
          refine .failure hrest (explained_nest (by simp) ?_)
          rw [List.forall_mem_singleton, Text.lines_of_newline_not_mem hline]
          exact Diagnostic.wellIndented_singleton (.inl (.remaining htext))

omit hshows

theorem countRead_explained {reply : Reply ι α} {reply' : Reply ι (α × Int)}
    (hreply : reply.Explained States root) (h : countRead input reply = .ok reply') :
    reply'.Explained States root := by
  cases hreply with
  | failure hrest hd =>
      cases h
      exact .failure hrest hd
  | success hrest =>
      obtain ⟨before, -, h⟩ := exists_of_bind_eq_ok h
      obtain ⟨after, -, h⟩ := exists_of_bind_eq_ok h
      cases h
      exact .success hrest

theorem allFailed_explained {failures : List (Diagnostic × Input ι)} {reply : Reply ι α}
    (hi : input.Suffix root)
    (hfailures : ∀ failure ∈ failures,
      failure.2.Suffix root ∧ failure.1.Explained States root)
    (h : allFailed input failures = .ok reply) : reply.Explained States root := by
  cases failures with
  | nil =>
      cases h
      exact .failure hi (explained_header (by simp))
  | cons first others =>
      obtain ⟨place, hplace, h⟩ := exists_of_bind_eq_ok h
      cases h
      have hmem := (furthest_eq_ok hplace).1
      rw [← List.map_cons (f := Prod.snd)] at hmem
      obtain ⟨failure, hfailure, rfl⟩ := List.mem_map.mp hmem
      refine .failure (hfailures failure hfailure).1 (explained_nest (by simp) ?_)
      rw [List.forall_mem_map]
      exact fun failure hf => (hfailures failure hf).2

end

/-! ## Explained runs -/

section

variable [Symbol ι] {States : String → Prop} {root input : Input ι}

/-- Computations that remember and give explained answers. -/
abbrev Explains (States : String → Prop) (root : Input ι) (m : Run ι σ (Reply ι α)) : Prop :=
  m.Keeps (Session.Explained States root) (fun _ => True) (Reply.Explained States root)

theorem tryEach_explains (hi : input.Suffix root) {n : Nat} {m : Fin n → Run ι σ (Reply ι α)}
    (hm : ∀ i, Explains States root (m i)) {failures : List (Diagnostic × Input ι)}
    (hfailures : ∀ failure ∈ failures,
      failure.2.Suffix root ∧ failure.1.Explained States root) :
    Explains States root (tryEach input (List.ofFn m) failures) := by
  induction n generalizing failures with
  | zero =>
      rw [List.ofFn_zero, tryEach]
      refine .check (fun _ => trivial) fun reply hreply =>
        allFailed_explained hi (fun failure hf => ?_) hreply
      exact hfailures failure (List.mem_reverse.mp hf)
  | succ n ih =>
      rw [List.ofFn_succ, tryEach]
      refine (hm 0).bind fun reply hreply => ?_
      cases hreply with
      | success hrest => exact .pure (.success hrest)
      | failure hrest hd =>
          refine ih (fun i => hm i.succ) ?_
          rw [List.forall_mem_cons]
          exact ⟨⟨hrest, hd⟩, hfailures⟩

theorem iterate_explains {step : Input ι → Run ι σ (Reply ι α)}
    (hstep : ∀ i, i.Suffix root → Explains States root (step i)) (hi : input.Suffix root) :
    (iterate step input).Keeps (Session.Explained States root) (fun _ => True)
      fun values => values.2.Suffix root := by
  fun_induction iterate step input with
  | case1 input ih =>
      refine (hstep input hi).bind fun reply hreply => ?_
      cases hreply with
      | failure _ _ => exact .pure hi
      | @success value rest hrest =>
          refine .bind (.check (fun _ => trivial) fun _ _ => trivial) fun _ (_ : True) => ?_
          refine .bind (.check (fun _ => trivial) fun _ _ => trivial) fun _ (_ : True) => ?_
          by_cases hlt : rest.size < input.size
          · simp only [hlt, if_true]
            exact (ih rest hlt hrest).bind fun values hvalues => .pure hvalues
          · simp only [hlt, if_false]
            exact .pure hrest

/-- What is found in the table was explained when it was put there. -/
theorem remember_explains {cell : σ.Cell} {m : Run ι σ (Reply ι (σ.cellValue cell))}
    (hm : Explains States root m) : Explains States root (remember cell input m) := by
  refine remember_keeps_of (fun _ => trivial) hm
    (fun s table length reply hs htable _ hfind => hs table htable cell length reply hfind)
    fun s length reply hs _ hreply table htable cell' length' reply' hfind => ?_
  obtain ⟨inner, hinner, rfl⟩ := Option.map_eq_some_iff.mp htable
  by_cases hsame : cell' = cell ∧ length' = length
  · obtain ⟨rfl, rfl⟩ := hsame
    rw [Table.find?_insert_self] at hfind
    cases hfind
    exact hreply
  · rw [Table.find?_insert_of_ne _ _ hsame] at hfind
    exact hs inner hinner cell' length' reply' hfind

section

variable (hstates : ∀ text, States text → '\n' ∉ text.toList)
  (hshows : ∀ text, root.Previews text → '\n' ∉ text.toList)
include hstates hshows

/-- Every parser explains its answers, if the rules that it calls do. -/
theorem exec_explains {call : (name : σ.Rule) → Input ι → Run ι σ (Reply ι (σ.ruleValue name))}
    (p : Parser ι σ α) (hp : ∀ text, p.States text → States text)
    (hcall : ∀ name, p.Refers name → ∀ i : Input ι, i.Suffix root →
      Explains States root (call name i))
    (hi : input.Suffix root) : Explains States root (exec call p input) := by
  induction p generalizing input with
  | succeed value => exact .pure (.success hi)
  | fail message =>
      have hmessage : States message := hp message rfl
      exact .pure (.failure hi (explained_stated hmessage (hstates message hmessage)))
  | satisfy test =>
      exact .check (fun _ => trivial) fun reply hreply => accept_explained hshows hi hreply
  | seq function argument ihf iha =>
      have hf := ihf (fun text h => hp text (.inl h)) (fun name h => hcall name (.inl h)) hi
      refine hf.bind fun reply hreply => ?_
      cases hreply with
      | failure hrest hd =>
          refine .pure (.failure hrest (explained_nest (by simp) ?_))
          rw [List.forall_mem_singleton]
          exact hd
      | success hmiddle =>
          have ha := iha (fun text h => hp text (.inr h)) (fun name h => hcall name (.inr h)) hmiddle
          refine ha.bind fun reply hreply => ?_
          cases hreply with
          | failure hrest hd =>
              refine .pure (.failure hrest (explained_nest (by simp) ?_))
              rw [List.forall_mem_singleton]
              exact hd
          | success hrest =>
              refine .bind (.check (fun _ => trivial) fun _ _ => trivial) fun _ (_ : True) => ?_
              exact .pure (.success hrest)
  | choice count alternative ih =>
      refine tryEach_explains hi (fun i => ?_) (by simp)
      exact ih i (fun text h => hp text ⟨i, h⟩) (fun name h => hcall name ⟨i, h⟩) hi
  | complete p ih =>
      refine (ih hp hcall hi).bind fun reply hreply => ?_
      exact .check (fun _ => trivial) fun reply' h' => requireEnd_explained hshows hreply h'
  | rule name => exact hcall name rfl input hi
  | many p ih =>
      refine (iterate_explains (fun i hi => ih hp hcall hi) hi).bind fun values hvalues => ?_
      exact .pure (.success hvalues)
  | memo cell p ih => exact remember_explains (ih hp hcall hi)
  | measure p ih =>
      refine (ih hp hcall hi).bind fun reply hreply => ?_
      exact .check (fun _ => trivial) fun reply' h' => countRead_explained hreply h'
  | tally name p ih =>
      rw [exec, recordLength, bind_assoc]
      refine .bind (.check (fun _ => trivial) fun _ _ => trivial) fun length (_ : True) => ?_
      exact fun s hs => ih hp hcall hi _ hs
  | map change p ih =>
      refine (ih hp hcall hi).bind fun reply hreply => ?_
      cases hreply with
      | failure hrest hd => exact .pure (.failure hrest hd)
      | success hrest => exact .pure (.success hrest)

/-- The rules that a parser reaches state nothing else than it may state. -/
theorem callAt_explains {rules : Rules ι σ} {p : Parser ι σ α}
    (hp : ∀ text, MayState rules p text → States text) (depth : Nat) {name : σ.Rule}
    (hname : Reaches rules p name) (hi : input.Suffix root) :
    Explains States root (callAt rules depth name input) := by
  induction depth generalizing name input with
  | zero => exact fun s hs => ⟨hs, fun v hv => (by cases hv), fun _ _ => trivial⟩
  | succ depth ih =>
      exact exec_explains hstates hshows (rules name) (fun text h => hp text (.inr ⟨name, hname, h⟩))
        (fun other hother i hi => ih (hname.through hother) hi) hi

end

end

/-! ## Failing parsers -/

section

variable [Symbol ι] {rules : Rules ι σ} {p : Parser ι σ α} {input : Input ι}
  {diagnostic : Diagnostic}

/-- A parser fails on an input with a diagnostic, called outside a run or in a run of its
    own. -/
inductive FailsWith (rules : Rules ι σ) (p : Parser ι σ α) (input : Input ι) :
    Diagnostic → Prop where
  | call {depth : Nat} {tally : Tally} {diagnostic : Diagnostic} {rest : Input ι}
      (h : (reply rules depth p input tally).1 = .ok (.failure diagnostic rest)) :
      FailsWith rules p input diagnostic
  | run {depth : Nat} {tally : Tally} {diagnostic : Diagnostic} {rest : Input ι}
      (h : (run rules depth p input tally).1 = .error (.refused diagnostic rest)) :
      FailsWith rules p input diagnostic

omit [Symbol ι] in
theorem Stop.ofReply_eq_refused {answer : Except Halt (Reply ι α)} {rest : Input ι}
    (h : Stop.ofReply answer = .error (.refused diagnostic rest)) :
    answer = .ok (.failure diagnostic rest) := by
  cases answer with
  | error halt => cases h
  | ok reply =>
      cases reply with
      | success value place => cases h
      | failure other place =>
          cases h
          rfl

/-- A parser that fails does so in a session without a table on the input, or in one with an
    empty table on the input as a cursor. -/
theorem FailsWith.exists_result (h : FailsWith rules p input diagnostic) :
    ∃ (place : Input ι) (s : Session ι σ) (depth : Nat) (rest : Input ι),
      (place = input ∧ s.table = none ∨ place = input.toCursor ∧ s.table = some .empty) ∧
      (exec (callAt rules depth) p place).result s = .ok (.failure diagnostic rest) := by
  cases h with
  | @call depth tally diagnostic rest h =>
      exact ⟨input, ⟨none, tally⟩, depth, rest, .inl ⟨rfl, rfl⟩, h⟩
  | @run depth tally diagnostic rest h =>
      exact ⟨input.toCursor, ⟨some .empty, tally⟩, depth, rest, .inr ⟨rfl, rfl⟩,
        Stop.ofReply_eq_refused h⟩

/-- The lines of a diagnostic are own lines, each indented at most as often as there are
    lines before it. -/
theorem FailsWith.explained (h : FailsWith rules p input diagnostic)
    (hstates : ∀ text, MayState rules p text → '\n' ∉ text.toList)
    (hshows : ∀ text, input.Previews text → '\n' ∉ text.toList) :
    diagnostic.Explained (MayState rules p) input := by
  obtain ⟨place, s, depth, rest, hplace, hresult⟩ := h.exists_result
  have hpreviews : ∀ text, place.Previews text → input.Previews text := by
    rcases hplace with ⟨rfl, -⟩ | ⟨rfl, -⟩
    · exact fun _ htext => htext
    · exact fun _ htext => htext.of_toCursor
  have hs : s.Explained (MayState rules p) place := by
    intro table htable cell length reply hfind
    rcases hplace with ⟨-, hnone⟩ | ⟨-, hempty⟩
    · cases hnone.symm.trans htable
    · cases hempty.symm.trans htable
      simp at hfind
  have hplaces := fun text htext => hshows text (hpreviews text htext)
  have hexec : Explains (MayState rules p) place (exec (callAt rules depth) p place) :=
    exec_explains hstates hplaces p (fun text htext => .inl htext)
      (fun name hname i hi =>
        callAt_explains hstates hplaces (fun text htext => htext) depth (.direct hname) hi)
      (.same place)
  cases (hexec s hs).2.1 _ hresult with
  | failure _ hd =>
      refine Diagnostic.WellIndented.mono hd fun line hline => ?_
      exact hline.imp_left fun hown => hown.mono (fun _ h => h) hpreviews

omit [Symbol ι] in
theorem FailInTurn.length_eq {ms : List (Run ι σ (Reply ι α))} {s : Session ι σ}
    {failures : List (Diagnostic × Input ι)} (h : FailInTurn ms s failures) :
    failures.length = ms.length := by
  induction h with
  | nil s => rfl
  | cons _ _ ih => rw [List.length_cons, List.length_cons, ih]

/-- Alternatives that all fail are the parts of one diagnostic, which keeps thirteen lines of
    each. -/
theorem length_lines_choice
    {call : (name : σ.Rule) → Input ι → Run ι σ (Reply ι (σ.ruleValue name))} {count : Nat}
    {alternative : Fin count → Parser ι σ α} {s : Session ι σ} {rest : Input ι}
    (h : (exec call (.choice count alternative) input).result s = .ok (.failure diagnostic rest)) :
    diagnostic.lines.length ≤ 1 + 13 * count := by
  obtain ⟨failures, hturn, hfailed⟩ := tryEach_eq_failure h
  have hcount : failures.length = count := by
    simpa using hturn.length_eq
  rw [List.reverse_nil, List.nil_append] at hfailed
  cases failures with
  | nil =>
      cases hfailed
      exact Nat.le_add_right 1 _
  | cons first others =>
      obtain ⟨place, -, hfailed⟩ := exists_of_bind_eq_ok hfailed
      cases hfailed
      have hlength := Diagnostic.length_nest_le .allAlternatives
        ((first :: others).map fun failure => failure.1.lines)
      rwa [List.length_map, hcount] at hlength

end

end Parser

end LambdaTree
