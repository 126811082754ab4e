import Calculator.Proofs.Footprint
import Calculator.Proofs.Writes

/-!
# What an evaluation reads

Two scopes agree on some names if each of them is read alike in both, and is a constant of both or
of neither. Whether it is a variable, and where it stands, may differ. A program that is run on two
scopes which agree on its symbols goes the same way on both: each step ends with the same operands
and binds the same, or with the same halt (`step_alike`). So the results are the same, the scopes
still agree, and no other name of either has changed (`evaluate_agree`).
-/

namespace Calculator

namespace Scope

variable {α : Type} {s s' t t' : Scope α} {names : List String} {n : String} {x : α}

/-- The listed names are read alike, and the same of them are constants. -/
def AgreeOn (names : List String) (s t : Scope α) : Prop :=
  ∀ n ∈ names, s.find? n = t.find? n ∧ s.isConstant n = t.isConstant n

/-- The names that are not listed are the same variables and constants as before. -/
def KeepsOthers (names : List String) (s t : Scope α) : Prop :=
  ∀ n, n ∉ names → t.vars.find? n = s.vars.find? n ∧ t.constants.find? n = s.constants.find? n

theorem find?_of_set (h : s.set n x = .ok t) (m : String) :
    t.find? m = if m = n then some x else s.find? m := by
  obtain ⟨_, rfl⟩ := set_eq_ok_iff.1 h
  rw [find?, Bindings.find?_insert, find?]
  split <;> rfl

theorem isConstant_of_set (h : s.set n x = .ok t) (m : String) :
    t.isConstant m = s.isConstant m := by
  rw [isConstant, constants_of_set h, isConstant]

theorem AgreeOn.set (h : s.AgreeOn names t) (hn : n ∈ names) (x : α) :
    (∃ s' t', s.set n x = .ok s' ∧ t.set n x = .ok t' ∧ s'.AgreeOn names t') ∨
      ∃ e, s.set n x = .error e ∧ t.set n x = .error e := by
  have hconstant := (h n hn).2
  by_cases hs : s.isConstant n = true
  · exact .inr ⟨.constant n, if_pos hs, if_pos (hconstant.symm.trans hs)⟩
  · have hsets : s.set n x = .ok { s with vars := s.vars.insert n x } := if_neg hs
    have hsett : t.set n x = .ok { t with vars := t.vars.insert n x } := if_neg (hconstant ▸ hs)
    refine .inl ⟨_, _, hsets, hsett, fun m hm => ?_⟩
    rw [find?_of_set hsets, find?_of_set hsett, isConstant_of_set hsets, isConstant_of_set hsett,
      (h m hm).1]
    exact ⟨rfl, (h m hm).2⟩

end Scope

namespace Evaluation

variable {actions : ActionTable} {names : List String} {stack : List Operand}
  {s s' : Scope Float} {t : Token} {ts : List Token}

/-- Two machines end alike: with the same operands on scopes that agree, or with the same halt. -/
inductive Alike (names : List String) : Except Halt Machine → Except Halt Machine → Prop
  | ok {stack : List Operand} {s s' : Scope Float} (h : s.AgreeOn names s') :
    Alike names (.ok ⟨stack, s⟩) (.ok ⟨stack, s'⟩)
  | error (e : Halt) : Alike names (.error e) (.error e)

theorem Alike.bind {α : Type} {x : Except Halt α} {f g : α → Except Halt Machine}
    (h : ∀ a, Alike names (f a) (g a)) : Alike names (x >>= f) (x >>= g) := by
  cases x with
  | error e => exact .error e
  | ok a => exact h a

theorem resolve_alike (h : s.AgreeOn names s') {x : Operand} (hx : x.ReadsOnly names)
    (operator : Option Token) : resolve s operator x = resolve s' operator x := by
  cases x with
  | number v => rfl
  | token t =>
    unfold resolve
    dsimp only
    split
    · rfl
    · next htype => rw [(h t.text (hx t t.text rfl ⟨htype, rfl⟩)).1]
    · rfl

theorem Alike.assign (h : s.AgreeOn names s') {target : Operand} (hx : target.ReadsOnly names)
    {x : Float} {f g : Scope Float → Except Halt Machine}
    (hfg : ∀ u u', u.AgreeOn names u' → Alike names (f u) (g u')) :
    Alike names ((Evaluation.assign s t target x).mapError .failure >>= f)
      ((Evaluation.assign s' t target x).mapError .failure >>= g) := by
  cases target with
  | number v => exact .error _
  | token u =>
    by_cases hname : u.type = .symbol
    · simp only [Evaluation.assign, hname, if_true]
      rcases h.set (hx u u.text rfl ⟨hname, rfl⟩) x with ⟨v, v', hs, hs', hv⟩ | ⟨e, hs, hs'⟩
      · rw [hs, hs']
        exact hfg v v' hv
      · rw [hs, hs']
        exact .error _
    · simp only [Evaluation.assign, hname, if_false]
      exact .error _

theorem execute_alike (h : s.AgreeOn names s') (hm : ∀ x ∈ stack, x.ReadsOnly names)
    (o : Operator) :
    Alike names (execute actions ⟨stack, s⟩ t o) (execute actions ⟨stack, s'⟩ t o) := by
  unfold execute
  dsimp only
  split
  · next a rest _ =>
    rw [resolve_alike h (hm a List.mem_cons_self)]
    exact .bind fun x => .bind fun y => .ok h
  · next right left rest _ =>
    have hleft := hm left (List.mem_cons_of_mem _ List.mem_cons_self)
    rw [resolve_alike h (hm right List.mem_cons_self), resolve_alike h hleft]
    split
    · exact .bind fun x => .assign h hleft fun u u' hu => .ok hu
    · exact .bind fun x => .bind fun y => .bind fun z => .ok h
  · exact .error _

theorem step_alike (h : s.AgreeOn names s') (hm : ∀ x ∈ stack, x.ReadsOnly names) :
    Alike names (step actions ⟨stack, s⟩ t) (step actions ⟨stack, s'⟩ t) := by
  unfold step
  split
  · split
    · exact .error _
    · split
      · exact .error _
      · exact execute_alike h hm _
  · exact .ok h

/-- Runs that start alike stop for the same reason, with the same operands on scopes that agree. -/
theorem run_alike (h : s.AgreeOn names s') (hm : ∀ x ∈ stack, x.ReadsOnly names)
    (hts : ∀ t ∈ ts, ∀ n, t.Names n → n ∈ names) :
    ∃ halt last u u', run actions ⟨stack, s⟩ ts = (halt, ⟨last, u⟩) ∧
      run actions ⟨stack, s'⟩ ts = (halt, ⟨last, u'⟩) ∧ u.AgreeOn names u' ∧
      ∀ x ∈ last, x.ReadsOnly names := by
  induction ts generalizing stack s s' with
  | nil => exact ⟨none, stack, s, s', rfl, rfl, h, hm⟩
  | cons t ts ih =>
    obtain ⟨ht, hts⟩ := List.forall_mem_cons.1 hts
    have halike := @step_alike actions names stack s s' t h hm
    rw [run, run]
    generalize hstep : step actions ⟨stack, s⟩ t = r at halike
    generalize step actions ⟨stack, s'⟩ t = r' at halike
    cases halike with
    | error e => exact ⟨some e, stack, s, s', rfl, rfl, h, hm⟩
    | ok hagree => exact ih hagree (readsOnly_of_step hstep hm ht) hts

theorem result_alike (h : s.AgreeOn names s') (hm : ∀ x ∈ stack, x.ReadsOnly names) :
    result ⟨stack, s⟩ = result ⟨stack, s'⟩ := by
  unfold result
  dsimp only
  split
  · exact resolve_alike h (hm _ (List.mem_singleton.2 rfl)) none
  · rfl

theorem keepsOthers_evaluate (actions : ActionTable) (scope : Scope Float) (ts : List Token) :
    scope.KeepsOthers (Token.symbols ts) (evaluate actions scope ts).2 := by
  intro n hn
  have hset := setAll_evaluate actions scope ts
  rw [Scope.constants_of_setAll hset]
  refine ⟨Scope.find?_of_setAll hset fun hbound => hn ?_, rfl⟩
  exact Token.mem_symbols_iff.2 (mem_names_bindings hbound).1

/--
An evaluation depends on a scope by what the names of the program read there and by which of them
are constants: two scopes that agree on this give the same result, or the same failure. After it
they still agree, and each has kept its other names.
-/
theorem evaluate_agree (h : s.AgreeOn (Token.symbols ts) s') :
    (evaluate actions s ts).1 = (evaluate actions s' ts).1 ∧
      (evaluate actions s ts).2.AgreeOn (Token.symbols ts) (evaluate actions s' ts).2 ∧
      s.KeepsOthers (Token.symbols ts) (evaluate actions s ts).2 ∧
      s'.KeepsOthers (Token.symbols ts) (evaluate actions s' ts).2 := by
  have hts : ∀ t ∈ ts, ∀ n, t.Names n → n ∈ Token.symbols ts := fun t ht n hn =>
    Token.mem_symbols_iff.2 ⟨t, ht, hn⟩
  obtain ⟨halt, last, u, u', hrun, hrun', hagree, hlast⟩ :=
    @run_alike actions _ [] s s' ts h nofun hts
  refine ⟨?_, ?_, keepsOthers_evaluate actions s ts, keepsOthers_evaluate actions s' ts⟩
  · rw [evaluate, evaluate, hrun, hrun']
    cases halt with
    | none => exact congrArg (Except.mapError Halt.failure) (result_alike hagree hlast)
    | some e => rfl
  · rw [evaluate_snd, evaluate_snd, hrun, hrun']
    exact hagree

/-- The program of `y = x`. -/
def copied : List Token := [.ofSymbol "y" 1, .ofSymbol "x" 5, .ofOperator .assign 3]

/-- It holds `x`, and a variable that `copied` does not name. -/
def besideVariable : Scope Float := { vars := (Bindings.empty.insert "u" 1).insert "x" 2 }

/-- It holds `x`, and a constant that `copied` does not name. -/
def besideConstant : Scope Float :=
  { vars := Bindings.empty.insert "x" 2, constants := Bindings.empty.insert "w" 3 }

/-- What else the scopes hold makes no difference to `y = x`, and stays as it is. -/
theorem evaluate_agree_twoScopes :
    besideVariable.AgreeOn (Token.symbols copied) besideConstant ∧
      (evaluate .standard besideVariable copied).1 =
        (evaluate .standard besideConstant copied).1 ∧
      (evaluate .standard besideVariable copied).2.vars.find? "u" = some 1 := by
  have h : besideVariable.AgreeOn (Token.symbols copied) besideConstant := by
    have hsymbols : Token.symbols copied = ["y", "x"] := rfl
    intro n hn
    rw [hsymbols, List.mem_cons, List.mem_singleton] at hn
    rcases hn with rfl | rfl
    · exact ⟨rfl, rfl⟩
    · exact ⟨rfl, rfl⟩
  obtain ⟨hsame, _, hkept, _⟩ := @evaluate_agree .standard _ _ copied h
  exact ⟨h, hsame, (hkept "u" (by decide)).1.trans rfl⟩

end Evaluation

end Calculator
