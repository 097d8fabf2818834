/-
  LambdaTree.Proofs.Parser.Termination

  Why parsers come to an end.  There are two ways not to: a loop that never
  stops, and rules that call each other without end.

  A loop goes on only with fewer symbols, because a step leaves a suffix of what
  it was given.  So the test that the loop makes, whether as much is left as
  before, is enough to stop it (`rounds_eq_iterate`).

  Rules end where the references between them do not go round (`Acyclic`); a
  parser that refers to no rules is a case of that.  They also end where every rule reads something
  before it calls one (`Guarded`): then the calls are made on fewer and fewer
  symbols (`callAt_ends_of_guarded`).  That a guarded parser calls rules on fewer
  symbols only is `exec_same`: what the rules mean on other inputs makes no
  difference to it.
-/

import LambdaTree.Proofs.Parser.Calls
import LambdaTree.Proofs.Parser.Places
import Mathlib.Data.Finset.Lattice.Fold
import Mathlib.Data.Fintype.Basic

namespace LambdaTree

variable {ι α β : Type} {σ : Signature}

/-! ## Computations that do the same -/

namespace Run

/-- Two computations that begin with the same part. -/
theorem run_bind_congr {m : Run ι σ α} {k k' : α → Run ι σ β} {s : Session ι σ}
    (h : ∀ v, m.result s = .ok v → (k v).run.run (m.after s) = (k' v).run.run (m.after s)) :
    (m >>= k).run.run s = (m >>= k').run.run s := by
  rw [run_bind, run_bind]
  cases hm : m.result s with
  | error halt => rfl
  | ok v => exact h v hm

/-- Two computations that begin with parts that do the same. -/
theorem run_congr_bind {m m' : Run ι σ α} {k : α → Run ι σ β} {s : Session ι σ}
    (h : m.run.run s = m'.run.run s) : (m >>= k).run.run s = (m' >>= k).run.run s := by
  rw [run_bind, run_bind, result, after, h]
  rfl

theorem after_check (x : Except Fault α) (s : Session ι σ) :
    (Run.check x : Run ι σ α).after s = s := by
  cases x <;> rfl

/-- Started in a session with the invariant, two computations do the same. -/
def Same (Inv : Session ι σ → Prop) (m m' : Run ι σ α) : Prop :=
  ∀ s, Inv s → m.run.run s = m'.run.run s

section

variable {Inv : Session ι σ → Prop} {E : Halt → Prop} {Q : α → Prop}

theorem Same.refl (m : Run ι σ α) : Same Inv m m :=
  fun _ _ => rfl

theorem Same.bind {m m' : Run ι σ α} {k k' : α → Run ι σ β} (h : Same Inv m m')
    (hm : m.Keeps Inv E Q) (hk : ∀ v, Q v → Same Inv (k v) (k' v)) :
    Same Inv (m >>= k) (m' >>= k') := by
  intro s hs
  obtain ⟨hafter, hvalue, -⟩ := hm s hs
  rw [← run_congr_bind (h s hs)]
  exact run_bind_congr fun v hv => hk v (hvalue v hv) _ hafter

theorem Keeps.of_same {m m' : Run ι σ α} (hm : m.Keeps Inv E Q) (h : Same Inv m m') :
    m'.Keeps Inv E Q := by
  intro s hs
  rw [after, result, ← h s hs]
  exact hm s hs

theorem Keeps.and {R : α → Prop} {m : Run ι σ α} (hq : m.Keeps Inv E Q) (hr : m.Keeps Inv E R) :
    m.Keeps Inv E fun v => Q v ∧ R v := by
  intro s hs
  obtain ⟨hafter, hvalue, hhalt⟩ := hq s hs
  exact ⟨hafter, fun v hv => ⟨hvalue v hv, (hr s hs).2.1 v hv⟩, hhalt⟩

end

end Run

namespace Parser

/-! ## Loops -/

/-- At most `count` rounds of a loop.  Each round calls the step on what is left; the loop
    ends when the step fails, or when as much is left as before.  There is no value when
    it has not ended. -/
def rounds (step : Input ι → Run ι σ (Reply ι α)) :
    (count : Nat) → Input ι → Run ι σ (Option (List α × Input ι))
  | 0, _ => return none
  | count + 1, input => do
    match ← step input with
    | .failure _ _ => return some ([], input)
    | .success value rest =>
      let after ← Run.check rest.length
      let before ← Run.check input.length
      if after = before then
        return some ([value], rest)
      else
        let later ← rounds step count rest
        return later.map fun values => (value :: values.1, values.2)

/-- A loop whose steps leave suffixes ends within one round more than there are symbols. -/
theorem rounds_eq_iterate {Inv : Session ι σ → Prop} {Live : Input ι → Prop} {E : Halt → Prop}
    (hlive : ∀ {i j : Input ι}, Live j → i.Suffix j → Live i)
    {step : Input ι → Run ι σ (Reply ι α)}
    (hstep : ∀ i, Live i → (step i).Keeps Inv E fun reply => reply.rest.Suffix i) {count : Nat}
    {input : Input ι} (hi : Live input) (hcount : input.size < count) {s : Session ι σ}
    (hs : Inv s) :
    (rounds step count input).run.run s = (some <$> iterate step input).run.run s := by
  induction count generalizing input s with
  | zero => omega
  | succ count ih =>
      obtain ⟨hafter, hvalue, -⟩ := hstep input hi s hs
      rw [rounds, iterate, map_bind]
      refine Run.run_bind_congr fun reply hreply => ?_
      cases reply with
      | failure diagnostic rest => rfl
      | success value rest =>
          have hsuffix : rest.Suffix input := hvalue _ hreply
          simp only [map_bind]
          refine Run.run_bind_congr fun after hrest => ?_
          refine Run.run_bind_congr fun before hinput => ?_
          rw [Run.after_check, Run.after_check]
          have hle := hsuffix.size_le
          rw [Input.size_of_length (Run.result_check_eq_ok hrest),
            Input.size_of_length (Run.result_check_eq_ok hinput)] at hle ⊢
          rw [Input.size_of_length (Run.result_check_eq_ok hinput)] at hcount
          -- No more is left than before, so where it is not as much it is less.
          by_cases hsame : after = before
          · rw [if_pos hsame, if_neg (by omega)]
            rfl
          · rw [if_neg hsame, if_pos (by omega)]
            have hfewer : rest.size < count := by
              rw [Input.size_of_length (Run.result_check_eq_ok hrest)]
              omega
            rw [Run.run_congr_bind (ih (hlive hi hsuffix) hfewer hafter), bind_map_left, map_bind]
            rfl

/-! ## References that do not go round -/

/-- A parser from which references lead to rules, from those to others, and so on, but
    never on without end. -/
def Acyclic (rules : Rules ι σ) (p : Parser ι σ α) : Prop :=
  ∀ name, p.Refers name → Acc (fun other name => (rules name).Refers other) name

/-- A parser refers to finitely many rules, so bounds for each of them have a common one. -/
theorem exists_common_bound {P : σ.Rule → Nat → Prop}
    (hmono : ∀ {name m n}, m ≤ n → P name m → P name n) (p : Parser ι σ α)
    (h : ∀ name, p.Refers name → ∃ n, P name n) : ∃ n, ∀ name, p.Refers name → P name n := by
  induction p with
  | succeed value => exact ⟨0, fun _ hname => hname.elim⟩
  | fail message => exact ⟨0, fun _ hname => hname.elim⟩
  | satisfy test => exact ⟨0, fun _ hname => hname.elim⟩
  | rule name =>
      obtain ⟨n, hn⟩ := h name rfl
      refine ⟨n, ?_⟩
      rintro _ rfl
      exact hn
  | seq function argument ihf iha =>
      obtain ⟨m, hm⟩ := ihf fun name hname => h name (.inl hname)
      obtain ⟨n, hn⟩ := iha fun name hname => h name (.inr hname)
      refine ⟨max m n, ?_⟩
      rintro name (hname | hname)
      · exact hmono (Nat.le_max_left m n) (hm name hname)
      · exact hmono (Nat.le_max_right m n) (hn name hname)
  | choice count alternative ih =>
      have hbounds (i : Fin count) := ih i fun name hname => h name ⟨i, hname⟩
      choose bound hbound using hbounds
      refine ⟨Finset.univ.sup bound, ?_⟩
      rintro name ⟨i, hi⟩
      exact hmono (Finset.le_sup (Finset.mem_univ i)) (hbound i name hi)
  | complete p ih => exact ih h
  | many p ih => exact ih h
  | memo cell p ih => exact ih h
  | measure p ih => exact ih h
  | tally name p ih => exact ih h
  | map change p ih => exact ih h

section

variable [Symbol ι]

/-- Some number of calls is enough for a rule, wherever it is called. -/
def EndsWithin (rules : Rules ι σ) (name : σ.Rule) (enough : Nat) : Prop :=
  ∀ depth, enough ≤ depth → ∀ (Inv : Session ι σ → Prop) (Live : Input ι → Prop),
    Keeping (σ := σ) Inv Live (· ≠ .tooDeep) → ∀ input, Live input →
      (callAt rules depth name input).Keeps Inv (· ≠ .tooDeep)
        fun reply => reply.rest.Suffix input

theorem EndsWithin.mono {rules : Rules ι σ} {name : σ.Rule} {m n : Nat} (hmn : m ≤ n)
    (h : EndsWithin rules name m) : EndsWithin rules name n :=
  fun depth hdepth => h depth (hmn.trans hdepth)

theorem exists_endsWithin {rules : Rules ι σ} {name : σ.Rule}
    (h : Acc (fun other name => (rules name).Refers other) name) :
    ∃ enough, EndsWithin rules name enough := by
  -- A rule takes one call more than the rules that it refers to.
  induction h with
  | intro name _ ih =>
      obtain ⟨enough, henough⟩ := exists_common_bound (P := EndsWithin rules) EndsWithin.mono (rules name) ih
      refine ⟨enough + 1, fun depth hdepth Inv Live hkeeping input hi => ?_⟩
      obtain ⟨depth, rfl⟩ := Nat.exists_eq_succ_of_ne_zero (by omega : depth ≠ 0)
      exact exec_keeps hkeeping (rules name) (fun other hother =>
        henough other hother depth (by omega) Inv Live hkeeping) hi

end

/-! ## Parsers that read before they call -/

/-- A parser that reads something whenever it succeeds, as its own text tells. -/
def Consumes : {α : Type} → Parser ι σ α → Prop
  | _, .succeed _ | _, .rule _ | _, .many _ | _, .memo _ _ => False
  | _, .fail _ | _, .satisfy _ => True
  | _, .seq function argument => function.Consumes ∨ argument.Consumes
  | _, .choice _ alternative => ∀ i, (alternative i).Consumes
  | _, .complete parser | _, .measure parser | _, .tally _ parser | _, .map _ parser =>
      parser.Consumes

/-- A parser that reads something before it calls a rule, as its own text tells. -/
def Guarded : {α : Type} → Parser ι σ α → Prop
  | _, .succeed _ | _, .fail _ | _, .satisfy _ => True
  | _, .rule _ => False
  | _, .seq function argument => function.Guarded ∧ (function.Consumes ∨ argument.Guarded)
  | _, .choice _ alternative => ∀ i, (alternative i).Guarded
  | _, .complete parser | _, .many parser | _, .memo _ parser | _, .measure parser
  | _, .tally _ parser | _, .map _ parser => parser.Guarded

section

variable {γ : Type} {left : Parser ι σ α} {right : Parser ι σ β}

theorem Consumes.apply {function : α → β} (h : left.Consumes) : (apply function left).Consumes :=
  .inr h

theorem Consumes.combine {function : α → β → γ} (h : left.Consumes ∨ right.Consumes) :
    (combine function left right).Consumes :=
  h.imp .inr id

theorem Consumes.firstOf {alternatives : List (Parser ι σ α)}
    (h : ∀ p ∈ alternatives, p.Consumes) : (firstOf alternatives).Consumes :=
  fun i => h _ (List.get_mem alternatives i)

theorem Guarded.apply {function : α → β} (h : left.Guarded) : (apply function left).Guarded :=
  ⟨trivial, .inr h⟩

/-- Behind a first part that consumes, the second may call rules. -/
theorem Guarded.combine {function : α → β → γ} (hleft : left.Guarded)
    (hright : left.Consumes ∨ right.Guarded) : (combine function left right).Guarded :=
  ⟨hleft.apply, hright.imp .inr id⟩

theorem Guarded.firstOf {alternatives : List (Parser ι σ α)} (h : ∀ p ∈ alternatives, p.Guarded) :
    (firstOf alternatives).Guarded :=
  fun i => h _ (List.get_mem alternatives i)

end

end Parser

/-- A success leaves fewer symbols than there were. -/
def Reply.Shortens (input : Input ι) : Reply ι α → Prop
  | .success _ rest => rest.size < input.size
  | .failure _ _ => True

/-- One step on there are fewer symbols. -/
theorem Input.size_rest_lt {input rest : Input ι} (hmore : input.exceeds 0 = .ok true)
    (h : input.rest = .ok rest) : rest.size < input.size := by
  obtain ⟨m, hlength, hpos⟩ := Input.length_of_exceeds_zero hmore
  cases input with
  | plain symbols =>
      cases h
      cases hlength
      simp only [Input.size, List.length_tail]
      omega
  | view cursor =>
      obtain ⟨data, offset⟩ := cursor
      obtain ⟨n, hdata, hle, hm⟩ := Input.length_view_eq_ok hlength
      have hrest : rest = .view ⟨data, min (offset + 1) n⟩ := by
        simpa [Input.rest, Cursor.advance, hdata, bind, Except.bind, pure, Except.pure,
          Functor.map, Except.map, eq_comm] using h
      have hsize := Sequence.size_of_length hdata
      rw [hrest]
      simp only [Input.size, Cursor.size, Cursor.toSequence, Sequence.size, hsize]
      omega

namespace Parser

section

variable [Symbol ι] {Inv : Session ι σ → Prop} {Live : Input ι → Prop} {E : Halt → Prop}
  {call call' : (name : σ.Rule) → Input ι → Run ι σ (Reply ι (σ.ruleValue name))}
  {input : Input ι}

theorem accept_shortens {test : ι → Except Fault Bool} {reply : Reply ι ι}
    (h : accept test input = .ok reply) : reply.Shortens input := by
  obtain ⟨more, hmore, h⟩ := exists_of_bind_eq_ok h
  cases more with
  | false =>
      cases h
      trivial
  | true =>
      obtain ⟨symbol, -, h⟩ := exists_of_bind_eq_ok h
      obtain ⟨passed, -, h⟩ := exists_of_bind_eq_ok h
      cases passed with
      | false =>
          obtain ⟨shown, -, h⟩ := exists_of_bind_eq_ok h
          cases h
          trivial
      | true =>
          obtain ⟨rest, hrest, h⟩ := exists_of_bind_eq_ok h
          cases h
          exact Input.size_rest_lt hmore hrest

theorem requireEnd_shortens {reply reply' : Reply ι α} (hreply : reply.Shortens input)
    (h : requireEnd reply = .ok reply') : reply'.Shortens input := by
  cases reply with
  | failure diagnostic rest =>
      cases h
      trivial
  | success value rest =>
      obtain ⟨more, -, h⟩ := exists_of_bind_eq_ok h
      cases more with
      | false =>
          cases h
          exact hreply
      | true =>
          obtain ⟨shown, -, h⟩ := exists_of_bind_eq_ok h
          cases h
          trivial

omit [Symbol ι] in
theorem countRead_shortens {reply : Reply ι α} {reply' : Reply ι (α × Int)}
    (hreply : reply.Shortens input) (h : countRead input reply = .ok reply') :
    reply'.Shortens input := by
  rcases reply' with ⟨⟨value, count⟩, rest⟩ | ⟨diagnostic, rest⟩
  · obtain ⟨rfl, -⟩ := countRead_eq_success h
    exact hreply
  · trivial

omit [Symbol ι] in
theorem allFailed_shortens {failures : List (Diagnostic × Input ι)} {reply : Reply ι α}
    (h : allFailed input failures = .ok reply) : reply.Shortens input := by
  cases failures with
  | nil =>
      cases h
      trivial
  | cons first others =>
      obtain ⟨place, -, h⟩ := exists_of_bind_eq_ok h
      cases h
      trivial

omit [Symbol ι] in
theorem tryEach_shortens (hE : ∀ fault, E (.fault fault)) {n : Nat}
    {m : Fin n → Run ι σ (Reply ι α)} (hm : ∀ i, (m i).Keeps Inv E (Reply.Shortens input))
    (failures : List (Diagnostic × Input ι)) :
    (tryEach input (List.ofFn m) failures).Keeps Inv E (Reply.Shortens input) := by
  induction n generalizing failures with
  | zero =>
      rw [List.ofFn_zero, tryEach]
      exact .check hE fun reply hreply => allFailed_shortens hreply
  | succ n ih =>
      rw [List.ofFn_succ, tryEach]
      refine (hm 0).bind fun reply hreply => ?_
      cases reply with
      | success value rest => exact .pure hreply
      | failure diagnostic rest => exact ih (fun i => hm i.succ) _

/-- A parser that consumes leaves fewer symbols when it succeeds. -/
theorem exec_shortens (h : Keeping (σ := σ) Inv Live E) (p : Parser ι σ α) (hp : p.Consumes)
    (hcall : ∀ name i, Live i → (call name i).Keeps Inv E fun reply => reply.rest.Suffix i)
    (hi : Live input) : (exec call p input).Keeps Inv E (Reply.Shortens input) := by
  induction p generalizing input with
  | succeed value => exact hp.elim
  | fail message => exact .pure trivial
  | satisfy test => exact .check h.fault fun reply hreply => accept_shortens hreply
  | seq function argument ihf iha =>
      -- One of the two reads something, and neither gives anything back.
      have hf := exec_keeps h function (fun name _ => hcall name) hi
      by_cases hconsumes : function.Consumes
      · refine (hf.and (ihf hconsumes hi)).bind fun reply hreply => ?_
        cases reply with
        | failure diagnostic rest => exact .pure trivial
        | success f middle =>
            obtain ⟨hsuffix, hshort⟩ := hreply
            have ha := exec_keeps h argument (fun name _ => hcall name) (h.live hi hsuffix)
            refine ha.bind fun reply hreply => ?_
            cases reply with
            | failure diagnostic rest => exact .pure trivial
            | success value rest =>
                refine .bind (.check h.fault fun _ _ => trivial) fun _ (_ : True) => ?_
                exact .pure (Nat.lt_of_le_of_lt hreply.size_le hshort)
      · have hargument := hp.resolve_left hconsumes
        refine hf.bind fun reply hsuffix => ?_
        cases reply with
        | failure diagnostic rest => exact .pure trivial
        | success f middle =>
            refine (iha hargument (h.live hi hsuffix)).bind fun reply hreply => ?_
            cases reply with
            | failure diagnostic rest => exact .pure trivial
            | success value rest =>
                refine .bind (.check h.fault fun _ _ => trivial) fun _ (_ : True) => ?_
                exact .pure (Nat.lt_of_lt_of_le hreply hsuffix.size_le)
  | choice count alternative ih => exact tryEach_shortens h.fault (fun i => ih i (hp i) hi) []
  | complete p ih =>
      refine (ih hp hi).bind fun reply hreply => ?_
      exact .check h.fault fun reply' h' => requireEnd_shortens hreply h'
  | rule name => exact hp.elim
  | many p ih => exact hp.elim
  | memo cell p ih => exact hp.elim
  | measure p ih =>
      refine (ih hp hi).bind fun reply hreply => ?_
      exact .check h.fault fun reply' h' => countRead_shortens hreply h'
  | tally name p ih =>
      rw [exec, recordLength, bind_assoc]
      refine .bind (.check h.fault fun _ _ => trivial) fun length (_ : True) => ?_
      intro s hs
      exact ih hp hi _ (h.record s (s.tally.push (name, length)) hs)
  | map change p ih =>
      refine (ih hp hi).bind fun reply hreply => ?_
      cases reply with
      | failure diagnostic rest => exact .pure trivial
      | success value rest => exact .pure hreply

/-! ## What a parser calls -/

omit [Symbol ι] in
theorem tryEach_same {n : Nat} {m m' : Fin n → Run ι σ (Reply ι α)}
    (hm : ∀ i, (m i).Keeps Inv E fun _ => True) (h : ∀ i, Run.Same Inv (m i) (m' i))
    (failures : List (Diagnostic × Input ι)) :
    Run.Same Inv (tryEach input (List.ofFn m) failures)
      (tryEach input (List.ofFn m') failures) := by
  induction n generalizing failures with
  | zero => exact .refl _
  | succ n ih =>
      rw [List.ofFn_succ, List.ofFn_succ, tryEach, tryEach]
      refine (h 0).bind (hm 0) fun reply _ => ?_
      cases reply with
      | success value rest => exact .refl _
      | failure diagnostic rest => exact ih (fun i => hm i.succ) (fun i => h i.succ) _

omit [Symbol ι] in
theorem iterate_same (hE : ∀ fault, E (.fault fault)) {step step' : Input ι → Run ι σ (Reply ι α)}
    (hstep : ∀ i, i.Suffix input → (step i).Keeps Inv E fun reply => reply.rest.Suffix i)
    (h : ∀ i, i.Suffix input → Run.Same Inv (step i) (step' i)) :
    Run.Same Inv (iterate step input) (iterate step' input) := by
  fun_induction iterate step input with
  | case1 input ih =>
      rw [iterate]
      refine (h input (.same input)).bind (hstep input (.same input)) fun reply hreply => ?_
      cases reply with
      | failure diagnostic rest => exact .refl _
      | success value rest =>
          have hrest : rest.Suffix input := hreply
          have hcheck (x : Except Fault Nat) :
              (Run.check x : Run ι σ Nat).Keeps Inv E fun _ => True :=
            .check hE fun _ _ => trivial
          refine (Run.Same.refl _).bind (hcheck _) fun _ _ => ?_
          refine (Run.Same.refl _).bind (hcheck _) fun _ _ => ?_
          by_cases hlt : rest.size < input.size
          · simp only [hlt, if_true]
            intro s hs
            exact Run.run_congr_bind (ih rest hlt (fun i hi => hstep i (hi.trans hrest))
              (fun i hi => h i (hi.trans hrest)) s hs)
          · simp only [hlt, if_false]
            exact .refl _

omit [Symbol ι] in
theorem remember_same (cell : σ.Cell) (input : Input ι)
    {m m' : Run ι σ (Reply ι (σ.cellValue cell))} (h : Run.Same Inv m m') :
    Run.Same Inv (remember cell input m) (remember cell input m') := by
  intro s hs
  rw [remember, remember, Run.run_get_bind, Run.run_get_bind]
  cases s.table with
  | none => exact h s hs
  | some table =>
      refine Run.run_bind_congr fun length _ => ?_
      rw [Run.after_check]
      cases table.find? cell length with
      | some reply => rfl
      | none => exact Run.run_congr_bind (h s hs)

/-- What a parser does depends on the calls that it makes: those on suffixes of the input,
    and where it is guarded those on shorter ones only. -/
theorem exec_same (h : Keeping (σ := σ) Inv Live E) (p : Parser ι σ α)
    (hcall : ∀ name i, Live i → (call name i).Keeps Inv E fun reply => reply.rest.Suffix i)
    (hi : Live input)
    (hsame : ∀ name i, i.Suffix input → (p.Guarded → i.size < input.size) →
      Run.Same Inv (call name i) (call' name i)) :
    Run.Same Inv (exec call p input) (exec call' p input) := by
  have hkeeps {β : Type} (q : Parser ι σ β) {i : Input ι} (hi : Live i) :=
    exec_keeps h q (fun name _ => hcall name) hi
  induction p generalizing input with
  | succeed value => exact .refl _
  | fail message => exact .refl _
  | satisfy test => exact .refl _
  | seq function argument ihf iha =>
      have hfunction : Run.Same Inv (exec call function input) (exec call' function input) :=
        ihf hi fun name i hsuffix hguard => hsame name i hsuffix fun hp => hguard hp.1
      -- The argument may call rules on all that a function that consumes has left.
      have hmiddle : (exec call function input).Keeps Inv E fun reply =>
          reply.rest.Suffix input ∧ (function.Consumes → reply.Shortens input) := by
        refine (hkeeps function hi).and ?_
        by_cases hconsumes : function.Consumes
        · exact (exec_shortens h function hconsumes hcall hi).mono fun _ hshort _ => hshort
        · exact (hkeeps function hi).mono fun _ _ hp => absurd hp hconsumes
      refine hfunction.bind hmiddle fun reply hreply => ?_
      cases reply with
      | failure diagnostic rest => exact .refl _
      | success f middle =>
          obtain ⟨hsuffix, hshort⟩ := hreply
          have hle := hsuffix.size_le
          intro s hs
          refine Run.run_congr_bind (iha (h.live hi hsuffix) (fun name i hi' hguard => ?_) s hs)
          refine hsame name i (hi'.trans hsuffix) fun hp => ?_
          rcases hp.2 with hconsumes | hargument
          · exact Nat.lt_of_le_of_lt hi'.size_le (hshort hconsumes)
          · exact Nat.lt_of_lt_of_le (hguard hargument) hle
  | choice count alternative ih =>
      refine tryEach_same (fun i => (hkeeps (alternative i) hi).mono fun _ _ => trivial)
        (fun i => ih i hi fun name j hj hguard => ?_) []
      exact hsame name j hj fun hall => hguard (hall i)
  | complete p ih =>
      intro s hs
      exact Run.run_congr_bind (ih hi hsame s hs)
  | rule name => exact hsame name input (.same input) False.elim
  | many p ih =>
      have hstep (i : Input ι) (hsuffix : i.Suffix input) :
          Run.Same Inv (exec call p i) (exec call' p i) := by
        refine ih (h.live hi hsuffix) fun name j hj hguard => ?_
        refine hsame name j (hj.trans hsuffix) fun hp => ?_
        exact Nat.lt_of_lt_of_le (hguard hp) hsuffix.size_le
      intro s hs
      exact Run.run_congr_bind (iterate_same h.fault
        (fun i hsuffix => hkeeps p (h.live hi hsuffix)) hstep s hs)
  | memo cell p ih => exact remember_same cell input (ih hi hsame)
  | measure p ih =>
      intro s hs
      exact Run.run_congr_bind (ih hi hsame s hs)
  | tally name p ih =>
      rw [exec, exec, recordLength, bind_assoc, bind_assoc]
      intro s hs
      refine Run.run_bind_congr fun length _ => ?_
      rw [Run.after_check]
      exact ih hi hsame _ (h.record s (s.tally.push (name, length)) hs)
  | map change p ih =>
      intro s hs
      exact Run.run_congr_bind (ih hi hsame s hs)

end

/-! ## Rules that read before they call -/

section

variable [Symbol ι] {Inv : Session ι σ → Prop} {Live : Input ι → Prop} {rules : Rules ι σ}
  {input : Input ι} {depth : Nat}

/-- Guarded rules need no more depth than there are symbols. -/
theorem callAt_ends_of_guarded (h : Keeping (σ := σ) Inv Live (· ≠ .tooDeep))
    (hrules : ∀ name, (rules name).Guarded) (hdepth : input.size < depth) (name : σ.Rule)
    (hi : Live input) :
    (callAt rules depth name input).Keeps Inv (· ≠ .tooDeep)
      fun reply => reply.rest.Suffix input := by
  induction depth generalizing name input with
  | zero => omega
  | succ depth ih =>
      -- Calls on inputs that are not shorter are not made, so they may as well fail.
      let short : (name : σ.Rule) → Input ι → Run ι σ (Reply ι (σ.ruleValue name)) :=
        fun name i =>
          if i.size < input.size then callAt rules depth name i
          else return .failure ⟨.noAlternatives, []⟩ i
      have hshort (name : σ.Rule) (i : Input ι) (hi : Live i) :
          (short name i).Keeps Inv (· ≠ .tooDeep) fun reply => reply.rest.Suffix i := by
        by_cases hlt : i.size < input.size
        · simp only [short, hlt, if_true]
          exact ih (by omega) name hi
        · simp only [short, hlt, if_false]
          exact .pure (.same i)
      have hkeeps := exec_keeps h (rules name) (fun name _ => hshort name) hi
      refine hkeeps.of_same (exec_same h (rules name) hshort hi fun other i _ hguard => ?_)
      simp only [short, hguard (hrules name), if_true]
      exact .refl _

omit [Symbol ι] in
/-- Only the inputs below a bound are live. -/
theorem Keeping.below {E : Halt → Prop} (h : Keeping (σ := σ) Inv Live E) (bound : Nat) :
    Keeping (σ := σ) Inv (fun i => Live i ∧ i.size < bound) E where
  live := by
    rintro i j ⟨hj, hsize⟩ hsuffix
    exact ⟨h.live hj hsuffix, Nat.lt_of_le_of_lt hsuffix.size_le hsize⟩
  fault := h.fault
  memo cell i m hi hm := h.memo cell i m hi.1 hm
  record := h.record

variable {s : Session ι σ}

/-- Where references do not go round, some depth is enough for a parser, wherever it is
    called. -/
theorem Acyclic.exists_depth {p : Parser ι σ α} (hp : Acyclic rules p) :
    ∃ enough, ∀ depth, enough ≤ depth → ∀ input s, MayCall rules input s →
      (exec (callAt rules depth) p input).result s ≠ .error .tooDeep := by
  obtain ⟨enough, henough⟩ := exists_common_bound (P := EndsWithin rules) EndsWithin.mono p
    fun name hname => exists_endsWithin (hp name hname)
  refine ⟨enough, fun depth hdepth input s hs hdeep => ?_⟩
  obtain ⟨Inv, Live, hkeeping, hinv, hi⟩ :=
    hs.keeping (E := (· ≠ .tooDeep)) fun fault => by simp
  have hcall (name : σ.Rule) (hname : p.Refers name) :=
    henough name hname depth hdepth Inv Live hkeeping
  exact (exec_keeps hkeeping p hcall hi s hinv).2.2 _ hdeep rfl

/-- A run starts in a session in which its parser may be called. -/
theorem mayCall_start (rules : Rules ι σ) (input : Input ι) (tally : Tally) :
    MayCall rules input.toCursor ⟨some .empty, tally⟩ := by
  cases input with
  | plain symbols => exact .inside (.start tally) 0
  | view cursor => exact .inside (.start tally) cursor.offset

/-- A parser ends inside a run and outside, if wherever it may be called some depth is
    enough. -/
theorem ends_of_depths {p : Parser ι σ α} (h : ∀ input s, MayCall rules input s →
      ∃ depth, (exec (callAt rules depth) p input).result s ≠ .error .tooDeep)
    (input : Input ι) (tally : Tally) :
    (∃ answer, Answers rules p input tally answer) ∧
      ∃ outcome, Ends rules p input tally outcome := by
  constructor
  · obtain ⟨depth, hdepth⟩ := h input ⟨none, tally⟩ (.outside input rfl)
    exact ⟨_, hdepth, depth, rfl⟩
  · obtain ⟨depth, hdepth⟩ := h _ _ (mayCall_start rules input tally)
    exact ⟨_, Stop.ofReply_ne_tooDeep.mpr hdepth, depth, rfl⟩

/-- Where the rules are guarded, a depth beyond the number of symbols is enough for every
    parser. -/
theorem MayCall.ends_of_guarded (hs : MayCall rules input s)
    (hrules : ∀ name, (rules name).Guarded) (hdepth : input.size < depth) (p : Parser ι σ α) :
    (exec (callAt rules depth) p input).result s ≠ .error .tooDeep := by
  intro hdeep
  obtain ⟨Inv, Live, hkeeping, hinv, hi⟩ :=
    hs.keeping (E := (· ≠ .tooDeep)) fun fault => by simp
  have hcall (name : σ.Rule) (_ : p.Refers name) (i : Input ι) (hi : Live i ∧ i.size < depth) :=
    callAt_ends_of_guarded hkeeping hrules hi.2 name hi.1
  exact (exec_keeps (hkeeping.below depth) p hcall ⟨hi, hdepth⟩ s hinv).2.2 _ hdeep rfl

/-- A guarded parser does the same whatever the rules mean on inputs that are not shorter:
    it does not call them there. -/
theorem MayCall.same_of_guarded (hs : MayCall rules input s) {p : Parser ι σ α}
    (hp : p.Guarded) {call : (name : σ.Rule) → Input ι → Run ι σ (Reply ι (σ.ruleValue name))}
    (hcall : ∀ name i, i.Suffix input → i.size < input.size →
      call name i = callAt rules depth name i) :
    (exec call p input).run.run s = (exec (callAt rules depth) p input).run.run s := by
  obtain ⟨Inv, Live, hkeeping, hinv, hi⟩ := hs.keeping (E := fun _ => True) fun _ => trivial
  refine (exec_same hkeeping p (fun name i hi => callAt_keeps hkeeping rules depth name hi) hi
    (fun name i hsuffix hguard => ?_) s hinv).symm
  rw [hcall name i hsuffix (hguard hp)]
  exact .refl _

/-- In every session a loop ends within one round more than there are symbols. -/
theorem MayCall.rounds_eq (hs : MayCall rules input s) (p : Parser ι σ α) :
    (rounds (exec (callAt rules depth) p) (input.size + 1) input).run.run s =
      (some <$> iterate (exec (callAt rules depth) p) input).run.run s := by
  obtain ⟨Inv, Live, hkeeping, hinv, hi⟩ := hs.keeping (E := fun _ => True) fun _ => trivial
  have hstep (i : Input ι) (hi : Live i) := exec_keeps hkeeping p
    (fun name _ i hi => callAt_keeps hkeeping rules depth name hi) hi
  exact rounds_eq_iterate hkeeping.live hstep hi (Nat.lt_succ_self _) hinv

end

end Parser

end LambdaTree
