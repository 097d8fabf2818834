/-
  LambdaTree.Proofs.Parser.Suffixes

  What a parser leaves of its input.  Whether it succeeds or fails, the place
  that it reports is a suffix of the input in the same representation: fewer
  symbols of a plain sequence, or a cursor over the same data that has not gone
  back (`exec_keeps`).

  The invariant of the sessions is left open here, and so are the halts that
  may be met: what is asked of them is `Keeping`.
-/

import LambdaTree.Proofs.Parser.Transparency

namespace LambdaTree

variable {ι α β : Type} {σ : Signature}

/-! ## Suffixes of inputs -/

namespace Input

/-- What is left of an input when some of its first symbols are gone, in the same
    representation.  A cursor stays within its data once it moves. -/
inductive Suffix : Input ι → Input ι → Prop where
  | same (input : Input ι) : Suffix input input
  | plain {rest symbols : List ι} (h : rest <:+ symbols) : Suffix (.plain rest) (.plain symbols)
  | view {data : Sequence ι} {n : Nat} {offset place : Int} (hdata : data.length = .ok n)
      (hle : offset ≤ place) (hn : place ≤ n) :
      Suffix (.view ⟨data, place⟩) (.view ⟨data, offset⟩)

/-- The input without its first symbols. -/
def drop (count : Nat) : Input ι → Input ι
  | .plain symbols => .plain (symbols.drop count)
  | .view cursor => .view { cursor with offset := cursor.offset + count }

theorem Suffix.trans {i j k : Input ι} (hij : Suffix i j) (hjk : Suffix j k) : Suffix i k := by
  cases hij with
  | same _ => exact hjk
  | plain h =>
      cases hjk with
      | same _ => exact .plain h
      | plain h' => exact .plain (h.trans h')
  | view hdata hle hn =>
      cases hjk with
      | same _ => exact .view hdata hle hn
      | view hdata' hle' _ => exact .view hdata (Int.le_trans hle' hle) hn

/-- The length of a cursor, as far as its data has one. -/
theorem length_view_eq_ok {data : Sequence ι} {offset : Int} {m : Nat}
    (h : (Input.view ⟨data, offset⟩).length = .ok m) :
    ∃ n : Nat, data.length = .ok n ∧ offset ≤ n ∧ (m : Int) = n - offset := by
  cases hdata : data.length with
  | error fault =>
      simp only [Input.length, Cursor.length, Cursor.toSequence, Sequence.length, hdata, bind,
        Except.bind] at h
      cases h
  | ok n =>
      simp only [Input.length, Cursor.length, Cursor.toSequence, Sequence.length, hdata, bind,
        Except.bind, Sequence.lengthFrom] at h
      split at h
      · rename_i hle
        refine ⟨n, rfl, hle, ?_⟩
        have hm : ((n : Int) - offset).toNat = m := Except.ok.inj h
        omega
      · cases h

/-- An input that has symbols has a length. -/
theorem length_of_exceeds_zero {input : Input ι} (h : input.exceeds 0 = .ok true) :
    ∃ m, input.length = .ok m ∧ 0 < m := by
  rw [exceeds_eq] at h
  cases hlength : input.length with
  | error fault =>
      rw [hlength] at h
      cases h
  | ok m =>
      rw [hlength] at h
      exact ⟨m, rfl, by simpa [Functor.map, Except.map] using h⟩

/-- One step on is a suffix. -/
theorem Suffix.of_rest {input rest : Input ι} (hmore : input.exceeds 0 = .ok true)
    (h : input.rest = .ok rest) : Suffix rest input := by
  cases input with
  | plain symbols =>
      cases h
      exact .plain (List.tail_suffix symbols)
  | view cursor =>
      obtain ⟨data, offset⟩ := cursor
      obtain ⟨m, hlength, hpos⟩ := length_of_exceeds_zero hmore
      obtain ⟨n, hdata, hle, hm⟩ := length_view_eq_ok hlength
      have hrest : rest = .view ⟨data, min (offset + 1) n⟩ := by
        simpa [Input.rest, Cursor.advance, hdata, bind, Except.bind, pure, Except.pure,
          Functor.map, Except.map, eq_comm] using h
      rw [hrest]
      exact .view hdata (by omega) (by omega)

section

variable {input rest : Input ι}

/-- A suffix is no longer than the input. -/
theorem Suffix.size_le (h : Suffix rest input) : rest.size ≤ input.size := by
  cases h with
  | same _ => exact Nat.le_refl _
  | plain h => exact h.length_le
  | @view data n offset place hdata hle hn =>
      have hsize := Sequence.size_of_length hdata
      simp only [Input.size, Cursor.size, Cursor.toSequence, Sequence.size, hsize]
      omega

/-- A suffix is the input without as many symbols as it is shorter. -/
theorem Suffix.eq_drop (h : Suffix rest input) {n m : Nat} (hinput : input.length = .ok n)
    (hrest : rest.length = .ok m) : m ≤ n ∧ rest = input.drop (n - m) := by
  cases h with
  | same _ =>
      obtain rfl : n = m := Except.ok.inj (hinput.symm.trans hrest)
      refine ⟨Nat.le_refl n, ?_⟩
      cases input <;> simp [Input.drop]
  | @plain rest symbols h =>
      obtain rfl : symbols.length = n := Except.ok.inj hinput
      obtain rfl : rest.length = m := Except.ok.inj hrest
      exact ⟨h.length_le, congrArg Input.plain (List.suffix_iff_eq_drop.mp h)⟩
  | @view data k offset place hdata hle hn =>
      rw [Input.length_view hdata (Int.le_trans hle hn)] at hinput
      rw [Input.length_view hdata hn] at hrest
      have hn' : ((k : Int) - offset).toNat = n := Except.ok.inj hinput
      have hm' : ((k : Int) - place).toNat = m := Except.ok.inj hrest
      refine ⟨by omega, ?_⟩
      have hplace : place = offset + ((n - m : Nat) : Int) := by omega
      rw [Input.drop, ← hplace]

end

end Input

/-! ## The items of a suffix -/

namespace Sequence

variable [Symbol ι] (data : Sequence ι)

theorem walkFrom_toList_succ {count : Nat} {index : Int} {items : List ι}
    (h : (data.walkFrom (count + 1) index).toList = .ok items) :
    ∃ symbol others, items = symbol :: others ∧
      (data.walkFrom count (index + 1)).toList = .ok others := by
  rw [walkFrom] at h
  cases hget : data.get index with
  | error fault =>
      rw [hget] at h
      cases h
  | ok symbol =>
      rw [hget] at h
      simp only [Walk.toList] at h ⊢
      cases hfault : (data.walkFrom count (index + 1)).fault with
      | some fault =>
          rw [hfault] at h
          cases h
      | none =>
          rw [hfault] at h
          cases h
          exact ⟨symbol, _, rfl, rfl⟩

theorem walkFrom_length {count : Nat} {index : Int} {items : List ι}
    (h : (data.walkFrom count index).toList = .ok items) : items.length = count := by
  induction count generalizing index items with
  | zero =>
      cases h
      rfl
  | succ count ih =>
      obtain ⟨symbol, others, rfl, hothers⟩ := data.walkFrom_toList_succ h
      rw [List.length_cons, ih hothers]

/-- From a later index on there are the later items. -/
theorem walkFrom_drop {count : Nat} {index : Int} {items : List ι}
    (h : (data.walkFrom count index).toList = .ok items) (k : Nat) :
    (data.walkFrom (count - k) (index + k)).toList = .ok (items.drop k) := by
  induction k generalizing count index items with
  | zero => simpa using h
  | succ k ih =>
      cases count with
      | zero =>
          cases h
          rw [Nat.zero_sub]
          rfl
      | succ count =>
          obtain ⟨symbol, others, rfl, hothers⟩ := data.walkFrom_toList_succ h
          have hindex : index + ((k + 1 : Nat) : Int) = index + 1 + k := by omega
          rw [Nat.add_sub_add_right, hindex, List.drop_succ_cons]
          exact ih hothers

end Sequence

/-- The items of an input without its first symbols. -/
theorem Input.toList_drop [Symbol ι] {input : Input ι} {n k : Nat} (hlength : input.length = .ok n)
    (hk : k ≤ n) {items : List ι} (h : input.toList = .ok items) :
    items.length = n ∧ (input.drop k).toList = .ok (items.drop k) := by
  cases input with
  | plain symbols =>
      cases h
      cases hlength
      exact ⟨rfl, rfl⟩
  | view cursor =>
      obtain ⟨data, offset⟩ := cursor
      obtain ⟨size, hdata, hle, hn⟩ := Input.length_view_eq_ok hlength
      have hcount : ((size : Int) - offset).toNat = n := by omega
      have hcount' : ((size : Int) - (offset + k)).toNat = n - k := by omega
      have hlength' : (⟨data, offset + k⟩ : Cursor ι).length = .ok (n - k) := by
        rw [← hcount']
        exact Input.length_view hdata (by omega)
      have hwalk : (data.walkFrom n offset).toList = .ok items := by
        simpa only [Input.toList, Cursor.toList, show (⟨data, offset⟩ : Cursor ι).length = .ok n from
          hlength, Cursor.walk, hdata, hcount, bind, Except.bind] using h
      refine ⟨data.walkFrom_length hwalk, ?_⟩
      simp only [Input.drop, Input.toList, Cursor.toList, hlength', Cursor.walk, hdata, hcount',
        bind, Except.bind]
      exact data.walkFrom_drop hwalk k

/-! ## Computations that keep to suffixes -/

/-- A computation of two parts gave a value, so its parts did. -/
theorem exists_of_bind_eq_ok {ε : Type} {x : Except ε α} {f : α → Except ε β} {v : β}
    (h : x >>= f = .ok v) : ∃ a, x = .ok a ∧ f a = .ok v := by
  cases x with
  | error e => cases h
  | ok a => exact ⟨a, rfl, h⟩

namespace Run

theorem result_check_eq_ok {x : Except Fault α} {s : Session ι σ} {v : α}
    (h : (Run.check x : Run ι σ α).result s = .ok v) : x = .ok v := by
  cases x with
  | error fault => cases h
  | ok a =>
      cases h
      rfl

/-- What a computation of two parts gave, its parts gave. -/
theorem result_bind_eq_ok {m : Run ι σ α} {k : α → Run ι σ β} {s : Session ι σ} {v : β}
    (h : (m >>= k).result s = .ok v) :
    ∃ a, m.result s = .ok a ∧ (k a).result (m.after s) = .ok v := by
  cases hm : m.result s with
  | error halt =>
      rw [result_bind_error hm] at h
      cases h
  | ok a =>
      rw [result_bind_ok hm] at h
      exact ⟨a, rfl, h⟩

/-- Started in a session with the invariant, a computation leaves one with the invariant;
    its value has one property, and its halt another. -/
def Keeps (Inv : Session ι σ → Prop) (E : Halt → Prop) (Q : α → Prop) (m : Run ι σ α) : Prop :=
  ∀ s, Inv s → Inv (m.after s) ∧ (∀ v, m.result s = .ok v → Q v) ∧
    ∀ halt, m.result s = .error halt → E halt

namespace Keeps

variable {Inv : Session ι σ → Prop} {E : Halt → Prop} {Q : α → Prop} {R : β → Prop}

theorem pure {v : α} (h : Q v) : Keeps Inv E Q (Pure.pure v : Run ι σ α) := by
  intro s hs
  refine ⟨hs, fun w hw => ?_, fun halt hhalt => by cases hhalt⟩
  cases hw
  exact h

theorem check {x : Except Fault α} (hE : ∀ fault, E (.fault fault)) (h : ∀ v, x = .ok v → Q v) :
    Keeps Inv E Q (Run.check x : Run ι σ α) := by
  cases x with
  | ok v => exact .pure (h v rfl)
  | error fault =>
      intro s hs
      refine ⟨hs, fun w hw => (by cases hw), fun halt hhalt => ?_⟩
      cases hhalt
      exact hE fault

theorem bind {m : Run ι σ α} {k : α → Run ι σ β} (hm : Keeps Inv E Q m)
    (hk : ∀ v, Q v → Keeps Inv E R (k v)) : Keeps Inv E R (m >>= k) := by
  intro s hs
  obtain ⟨hafter, hvalue, hhalt⟩ := hm s hs
  cases hr : m.result s with
  | error halt =>
      rw [after_bind_error hr, result_bind_error hr]
      refine ⟨hafter, fun w hw => (by cases hw), fun halt' h => ?_⟩
      cases h
      exact hhalt halt hr
  | ok v =>
      rw [after_bind_ok hr, result_bind_ok hr]
      exact hk v (hvalue v hr) _ hafter

theorem mono {Q' : α → Prop} {m : Run ι σ α} (hm : Keeps Inv E Q m) (h : ∀ v, Q v → Q' v) :
    Keeps Inv E Q' m := by
  intro s hs
  obtain ⟨hafter, hvalue, hhalt⟩ := hm s hs
  exact ⟨hafter, fun v hv => h v (hvalue v hv), hhalt⟩

end Keeps

end Run

namespace Parser

/-- A rule is called by its name somewhere in a parser. -/
def Refers (name : σ.Rule) : {α : Type} → Parser ι σ α → Prop
  | _, .succeed _ | _, .fail _ | _, .satisfy _ => False
  | _, .rule other => other = name
  | _, .seq function argument => function.Refers name ∨ argument.Refers name
  | _, .choice _ alternative => ∃ i, (alternative i).Refers name
  | _, .complete parser | _, .many parser | _, .memo _ parser | _, .measure parser
  | _, .tally _ parser | _, .map _ parser => parser.Refers name

section

variable [Symbol ι] {input : Input ι}

omit [Symbol ι] in
theorem forward_inputSuffix (input : Input ι) : Forward fun i => i.Suffix input :=
  fun hi hmore hrest => (Input.Suffix.of_rest hmore hrest).trans hi

/-- Inputs are treated like themselves, among the suffixes of an input. -/
theorem bisimulation_suffix (input : Input ι) :
    Bisimulation Eq fun i j : Input ι => i = j ∧ i.Suffix input :=
  bisimulation_of_forward (forward_inputSuffix input)

omit [Symbol ι] in
theorem reply_alike_self {reply : Reply ι α} (h : reply.rest.Suffix input) :
    Reply.Alike Eq (fun i j => i = j ∧ i.Suffix input) reply reply := by
  cases reply with
  | success value rest => exact .success rfl ⟨rfl, h⟩
  | failure diagnostic rest => exact .failure diagnostic ⟨rfl, h⟩

omit [Symbol ι] in
theorem suffix_of_alike {V : α → α → Prop} {x : Except Fault (Reply ι α)} {reply : Reply ι α}
    (h : Alike (Reply.Alike V fun i j => i = j ∧ i.Suffix input) x x) (hx : x = .ok reply) :
    reply.rest.Suffix input := by
  rw [hx] at h
  cases h with
  | ok hreply =>
      cases hreply with
      | success _ hrest => exact hrest.2
      | failure _ hrest => exact hrest.2

theorem accept_suffix {test : ι → Except Fault Bool} {reply : Reply ι ι}
    (h : accept test input = .ok reply) : reply.rest.Suffix input :=
  suffix_of_alike (accept_alike (bisimulation_suffix input) (fun _ _ hab => congrArg test hab)
    ⟨rfl, .same input⟩) h

theorem requireEnd_suffix {reply reply' : Reply ι α} (hreply : reply.rest.Suffix input)
    (h : requireEnd reply = .ok reply') : reply'.rest.Suffix input :=
  suffix_of_alike (requireEnd_alike (bisimulation_suffix input) (reply_alike_self hreply)) h

theorem countRead_suffix {reply : Reply ι α} {reply' : Reply ι (α × Int)}
    (hreply : reply.rest.Suffix input) (h : countRead input reply = .ok reply') :
    reply'.rest.Suffix input :=
  suffix_of_alike (countRead_alike (bisimulation_suffix input) ⟨rfl, .same input⟩
    (reply_alike_self hreply)) h

theorem allFailed_suffix {failures : List (Diagnostic × Input ι)} {reply : Reply ι α}
    (hfailures : ∀ failure ∈ failures, failure.2.Suffix input)
    (h : allFailed input failures = .ok reply) : reply.rest.Suffix input := by
  have hself : FailuresAlike (fun i j => i = j ∧ i.Suffix input) failures failures :=
    List.forall₂_same.mpr fun failure hf => ⟨rfl, rfl, hfailures failure hf⟩
  exact suffix_of_alike (V := Eq) (allFailed_alike (bisimulation_suffix input) ⟨rfl, .same input⟩
    hself) h

end

section

variable [Symbol ι] {Inv : Session ι σ → Prop} {Live : Input ι → Prop} {E : Halt → Prop}
  {input : Input ι}

theorem tryEach_keeps (hE : ∀ fault, E (.fault fault)) {n : Nat} {m : Fin n → Run ι σ (Reply ι α)}
    (hm : ∀ i, (m i).Keeps Inv E fun reply => reply.rest.Suffix input)
    {failures : List (Diagnostic × Input ι)}
    (hfailures : ∀ failure ∈ failures, failure.2.Suffix input) :
    (tryEach input (List.ofFn m) failures).Keeps Inv E fun reply => reply.rest.Suffix input := by
  induction n generalizing failures with
  | zero =>
      rw [List.ofFn_zero, tryEach]
      refine .check hE fun reply hreply => allFailed_suffix (fun failure hf => ?_) hreply
      exact hfailures failure (List.mem_reverse.mp hf)
  | succ n ih =>
      rw [List.ofFn_succ, tryEach]
      refine (hm 0).bind fun reply hreply => ?_
      cases reply with
      | success value rest => exact .pure hreply
      | failure diagnostic rest =>
          refine ih (fun i => hm i.succ) ?_
          simp only [List.forall_mem_cons]
          exact ⟨hreply, hfailures⟩

omit [Symbol ι] in
theorem iterate_keeps (hE : ∀ fault, E (.fault fault))
    (hlive : ∀ {i j : Input ι}, Live j → i.Suffix j → Live i)
    {step : Input ι → Run ι σ (Reply ι α)}
    (hstep : ∀ i, Live i → (step i).Keeps Inv E fun reply => reply.rest.Suffix i)
    (hi : Live input) :
    (iterate step input).Keeps Inv E fun values => values.2.Suffix input := by
  fun_induction iterate step input with
  | case1 input ih =>
      refine (hstep input hi).bind fun reply hreply => ?_
      cases reply with
      | failure diagnostic rest => exact .pure (.same input)
      | success value rest =>
          have hrest : rest.Suffix input := hreply
          refine .bind (.check hE fun _ _ => trivial) fun _ (_ : True) => ?_
          refine .bind (.check hE fun _ _ => trivial) fun _ (_ : True) => ?_
          by_cases hlt : rest.size < input.size
          · simp only [hlt, if_true]
            refine (ih rest hlt (hlive hi hrest)).bind fun values hvalues => ?_
            exact .pure (hvalues.trans hrest)
          · simp only [hlt, if_false]
            exact .pure hrest

/-- What keeping to suffixes rests on: inputs stay among the live ones, faults are among the
    halts allowed, and memos and records keep the invariant. -/
structure Keeping (Inv : Session ι σ → Prop) (Live : Input ι → Prop) (E : Halt → Prop) : Prop where
  live : ∀ {i j : Input ι}, Live j → i.Suffix j → Live i
  fault : ∀ fault, E (.fault fault)
  memo : ∀ cell input (m : Run ι σ (Reply ι (σ.cellValue cell))), Live input →
    m.Keeps Inv E (fun reply => reply.rest.Suffix input) →
    (remember cell input m).Keeps Inv E fun reply => reply.rest.Suffix input
  record : ∀ s tally, Inv s → Inv { s with tally := tally }

/-- Every parser reports a suffix of its input, if the rules that it calls do. -/
theorem exec_keeps (h : Keeping (σ := σ) Inv Live E)
    {call : (name : σ.Rule) → Input ι → Run ι σ (Reply ι (σ.ruleValue name))} (p : Parser ι σ α)
    (hcall : ∀ name, p.Refers name → ∀ i, Live i →
      (call name i).Keeps Inv E fun reply => reply.rest.Suffix i)
    (hi : Live input) :
    (exec call p input).Keeps Inv E fun reply => reply.rest.Suffix input := by
  induction p generalizing input with
  | succeed value => exact .pure (.same input)
  | fail message => exact .pure (.same input)
  | satisfy test => exact .check h.fault fun reply hreply => accept_suffix hreply
  | seq function argument ihf iha =>
      refine (ihf (fun name hname => hcall name (.inl hname)) hi).bind fun reply hreply => ?_
      cases reply with
      | failure diagnostic rest => exact .pure hreply
      | success f middle =>
          -- The argument is read off what the function left, and leaves a suffix of that.
          have hmiddle : middle.Suffix input := hreply
          have ha := iha (fun name hname => hcall name (.inr hname)) (h.live hi hmiddle)
          refine ha.bind fun reply hreply => ?_
          have hrest : reply.rest.Suffix input := hreply.trans hmiddle
          cases reply with
          | failure diagnostic rest => exact .pure hrest
          | success value rest =>
              refine .bind (.check h.fault fun _ _ => trivial) fun _ (_ : True) => ?_
              exact .pure hrest
  | choice count alternative ih =>
      refine tryEach_keeps h.fault (fun i => ih i (fun name hname => hcall name ⟨i, hname⟩) hi) ?_
      simp
  | complete p ih =>
      refine (ih hcall hi).bind fun reply hreply => ?_
      exact .check h.fault fun reply' h' => requireEnd_suffix hreply h'
  | rule name => exact hcall name rfl input hi
  | many p ih =>
      refine (iterate_keeps h.fault h.live (fun i hi => ih hcall hi) hi).bind fun values hv => ?_
      exact .pure hv
  | memo cell p ih => exact h.memo cell input _ hi (ih hcall hi)
  | measure p ih =>
      refine (ih hcall hi).bind fun reply hreply => ?_
      exact .check h.fault fun reply' h' => countRead_suffix hreply h'
  | tally name p ih =>
      rw [exec, recordLength, bind_assoc]
      refine .bind (.check h.fault fun _ _ => trivial) fun length (_ : True) => ?_
      intro s hs
      exact ih hcall hi _ (h.record s (s.tally.push (name, length)) hs)
  | map change p ih =>
      refine (ih hcall hi).bind fun reply hreply => ?_
      cases reply with
      | failure diagnostic rest => exact .pure hreply
      | success value rest => exact .pure hreply

theorem callAt_keeps (h : Keeping (σ := σ) Inv Live fun _ => True) (rules : Rules ι σ)
    (depth : Nat) (name : σ.Rule) (hi : Live input) :
    (callAt rules depth name input).Keeps Inv (fun _ => True)
      fun reply => reply.rest.Suffix input := by
  induction depth generalizing name input with
  | zero => exact fun s hs => ⟨hs, fun v hv => (by cases hv), fun _ _ => trivial⟩
  | succ depth ih => exact exec_keeps h (rules name) (fun name _ i hi => ih name hi) hi

end

end Parser

end LambdaTree
