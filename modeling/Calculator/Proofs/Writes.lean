import Calculator.Proofs.Answers
import Calculator.Proofs.Constants

/-!
# What an evaluation writes

A program writes to a scope by its assignments alone. `bindings` lists what they bind, in their
order, and the scope that an evaluation leaves is the one it was given with these bound one after
another (`setAll_bindings`). This holds where the evaluation fails as well: the list goes up to the
token that fails.

So what is bound in order decides the frame. Binding keeps the constants and the places of the
names that were there, puts new names behind them, and touches no other name (`evaluate_writes`).
-/

namespace Calculator

/-! ## Binding many names -/

/-- The names that are not among the old ones, in the order of their first occurrence. -/
def newNames (old names : List String) : List String := (names.filter (· ∉ old)).eraseDups

theorem newNames_cons_of_mem {old names : List String} {n : String} (hn : n ∈ old) :
    newNames old (n :: names) = newNames old names := by
  rw [newNames, List.filter_cons_of_neg (by simpa using hn), newNames]

theorem newNames_cons_of_not_mem {old names : List String} {n : String} (hn : n ∉ old) :
    newNames old (n :: names) = n :: newNames (old ++ [n]) names := by
  rw [newNames, List.filter_cons_of_pos (by simpa using hn), List.eraseDups_cons,
    List.filter_filter, newNames]
  congr 3
  funext m
  by_cases h : m = n <;> simp [h]

namespace Scope

variable {α : Type} {s t : Scope α} {es fs : List (String × α)} {n : String}

theorem setAll_cons_eq {x : α} (h : s.setAll ((n, x) :: es) = (none, t)) :
    s.isConstant n = false ∧ setAll { s with vars := s.vars.insert n x } es = (none, t) := by
  by_cases hn : s.isConstant n = true
  · simp [setAll, set, hn] at h
  · simpa [setAll, set, hn] using h

theorem setAll_append (h : s.setAll es = (none, t)) : s.setAll (es ++ fs) = t.setAll fs := by
  induction es generalizing s with
  | nil =>
    cases h
    rfl
  | cons e es ih =>
    obtain ⟨hn, h⟩ := setAll_cons_eq h
    rw [List.cons_append, ← ih h]
    simp [setAll, set, hn]

theorem isConstant_of_setAll (h : s.setAll es = (none, t)) :
    ∀ e ∈ es, s.isConstant e.1 = false := by
  rcases s.firstConstant_cases es with hall | ⟨before, n, hfirst⟩
  · exact hall
  · rw [setAll_of_firstConstant hfirst] at h
    cases h

theorem constants_of_setAll (h : s.setAll es = (none, t)) : t.constants = s.constants := by
  have hkept := (keepsConstants_setAll s es).constants
  rwa [h] at hkept

theorem isConstant_setAll (h : s.setAll es = (none, t)) (m : String) :
    t.isConstant m = s.isConstant m := by
  rw [isConstant, constants_of_setAll h, isConstant]

theorem find?_of_setAll (h : s.setAll es = (none, t)) (hn : n ∉ es.map Prod.fst) :
    t.vars.find? n = s.vars.find? n := by
  induction es generalizing s with
  | nil =>
    cases h
    rfl
  | cons e es ih =>
    obtain ⟨_, h⟩ := setAll_cons_eq h
    rw [List.map_cons, List.mem_cons, not_or] at hn
    rw [ih h hn.2, Bindings.find?_insert, if_neg hn.1]

theorem names_of_setAll (h : s.setAll es = (none, t)) :
    t.vars.names = s.vars.names ++ newNames s.vars.names (es.map Prod.fst) := by
  induction es generalizing s with
  | nil =>
    cases h
    exact (List.append_nil _).symm
  | cons e es ih =>
    obtain ⟨_, h⟩ := setAll_cons_eq h
    rw [ih h, Bindings.names_insert, List.map_cons]
    split
    · next hold => rw [newNames_cons_of_mem hold]
    · next hnew => rw [newNames_cons_of_not_mem hnew, List.append_assoc, List.singleton_append]

end Scope

/-! ## The bindings of a run -/

namespace Evaluation

variable {actions : ActionTable} {m m' : Machine} {t : Token} {ts : List Token}
  {scope : Scope Float}

/-- What a token binds that leads from one machine to another: the name on the left of an
assignment, to the number on its right. -/
def binding? (t : Token) (m m' : Machine) : Option (String × Float) :=
  match m.stack, m'.stack with
  | _ :: .token u :: _, .number x :: _ => if t.isA .assign then some (u.text, x) else none
  | _, _ => none

def bindings (actions : ActionTable) (m : Machine) : List Token → List (String × Float)
  | [] => []
  | t :: ts =>
    match step actions m t with
    | .ok m' => (binding? t m m').toList ++ bindings actions m' ts
    | .error _ => []

theorem binding?_of_not_assign (ht : t.isA .assign = false) : binding? t m m' = none := by
  unfold binding?
  split
  · rw [ht, if_neg Bool.false_ne_true]
  · rfl

theorem setAll_binding? (h : step actions m t = .ok m') :
    m.scope.setAll (binding? t m m').toList = (none, m'.scope) := by
  rcases scope_of_step h with ⟨ht, hsame⟩ | ⟨right, u, rest, x, ht, hm, hm', _, hset⟩
  · rw [binding?_of_not_assign ht, hsame]
    rfl
  · simp [binding?, hm, hm', ht, Scope.setAll, hset]

/-- The scope after a run has what the run binds, in order. -/
theorem setAll_bindings (m : Machine) (ts : List Token) :
    m.scope.setAll (bindings actions m ts) = (none, (run actions m ts).2.scope) := by
  induction ts generalizing m with
  | nil => rfl
  | cons t ts ih =>
    rw [bindings, run]
    cases hstep : step actions m t with
    | error e => rfl
    | ok m' => exact (Scope.setAll_append (setAll_binding? hstep)).trans (ih m')

theorem mem_binding? (h : step actions m t = .ok m') {e : String × Float}
    (he : e ∈ binding? t m m') :
    t.isA .assign = true ∧ ∃ u, .token u ∈ m.stack ∧ u.Names e.1 := by
  rcases scope_of_step h with ⟨ht, _⟩ | ⟨right, u, rest, x, ht, hm, hm', hname, _⟩
  · rw [binding?_of_not_assign ht] at he
    cases he
  · have hbinding : binding? t m m' = some (u.text, x) := by simp [binding?, hm, hm', ht]
    obtain rfl := Option.some.inj (hbinding.symm.trans he)
    exact ⟨ht, u, by simp [hm], hname⟩

theorem mem_bindings {us : List Token} (hm : ∀ u, .token u ∈ m.stack → u ∈ us)
    (hts : ∀ t ∈ ts, t ∈ us) {e : String × Float} (he : e ∈ bindings actions m ts) :
    (∃ u ∈ us, u.Names e.1) ∧ ∃ t ∈ us, t.isA .assign = true := by
  induction ts generalizing m with
  | nil => cases he
  | cons t ts ih =>
    obtain ⟨ht, hts⟩ := List.forall_mem_cons.1 hts
    rw [bindings] at he
    split at he
    · next m' hstep =>
      rcases List.mem_append.1 he with he | he
      · obtain ⟨hassign, u, hu, hname⟩ := mem_binding? hstep (Option.mem_toList.1 he)
        exact ⟨⟨u, hm u hu, hname⟩, t, ht, hassign⟩
      · refine ih (fun u hu => ?_) hts he
        rcases mem_stack_of_step hstep hu with ⟨rfl, _⟩ | hu
        · exact ht
        · exact hm u hu
    · cases he

theorem mem_names_bindings {n : String} (hn : n ∈ (bindings actions { scope } ts).map Prod.fst) :
    (∃ t ∈ ts, t.Names n) ∧ ∃ t ∈ ts, t.isA .assign = true := by
  obtain ⟨e, he, rfl⟩ := List.mem_map.1 hn
  have hstart : ∀ u, .token u ∈ ({ scope } : Machine).stack → u ∈ ts := nofun
  exact mem_bindings hstart (fun _ ht => ht) he

theorem setAll_evaluate (actions : ActionTable) (scope : Scope Float) (ts : List Token) :
    scope.setAll (bindings actions { scope } ts) = (none, (evaluate actions scope ts).2) := by
  rw [evaluate_snd]
  exact setAll_bindings { scope } ts

/--
An evaluation leaves the scope with what its assignments bind, one after another. The constants
stay, the variables keep their places, and new ones follow in the order in which they are first
bound. A variable that changes is one of those bound, which are names of the program and no
constants; without an assignment nothing changes.
-/
theorem evaluate_writes (actions : ActionTable) (scope : Scope Float) (ts : List Token) :
    scope.setAll (bindings actions { scope } ts) = (none, (evaluate actions scope ts).2) ∧
      (evaluate actions scope ts).2.constants = scope.constants ∧
      (evaluate actions scope ts).2.vars.names = scope.vars.names ++
        newNames scope.vars.names ((bindings actions { scope } ts).map Prod.fst) ∧
      (∀ n, (evaluate actions scope ts).2.vars.find? n ≠ scope.vars.find? n →
        n ∈ (bindings actions { scope } ts).map Prod.fst) ∧
      (∀ n ∈ (bindings actions { scope } ts).map Prod.fst, (∃ t ∈ ts, t.Names n) ∧
        scope.isConstant n = false ∧ ∃ t ∈ ts, t.isA .assign = true) ∧
      ((∀ t ∈ ts, t.isA .assign = false) → (evaluate actions scope ts).2 = scope) := by
  have hset := setAll_evaluate actions scope ts
  refine ⟨hset, Scope.constants_of_setAll hset, Scope.names_of_setAll hset, fun n hn => ?_,
    fun n hn => ?_, fun hnone => ?_⟩
  · exact Decidable.byContradiction fun h => hn (Scope.find?_of_setAll hset h)
  · obtain ⟨hname, hassign⟩ := mem_names_bindings hn
    obtain ⟨e, he, rfl⟩ := List.mem_map.1 hn
    exact ⟨hname, Scope.isConstant_of_setAll hset e he, hassign⟩
  · have hnil : bindings actions { scope } ts = [] := by
      refine List.eq_nil_iff_forall_not_mem.2 fun e he => ?_
      obtain ⟨_, t, ht, hassign⟩ := mem_names_bindings (List.mem_map_of_mem he)
      rw [hnone t ht] at hassign
      cases hassign
    rw [hnil] at hset
    exact (congrArg Prod.snd hset).symm

/-- The program of `(b = a = 2) + q`. -/
def chained : List Token :=
  [.ofSymbol "b" 1, .ofSymbol "a" 5, .ofNumber "2" 2 9, .ofOperator .assign 7,
    .ofOperator .assign 3, .ofSymbol "q" 14, .ofOperator .add 12]

/-- Both names are bound, the right one first, when the sum fails. -/
theorem evaluate_writes_chained :
    (evaluate .standard { vars := Bindings.empty.insert "x" 5 } chained).1 =
        .error (.failure (.unbound (.ofSymbol "q" 14) (some (.ofOperator .add 12)))) ∧
      (evaluate .standard { vars := Bindings.empty.insert "x" 5 } chained).2.vars.names =
        ["x", "a", "b"] ∧
      (evaluate .standard { vars := Bindings.empty.insert "x" 5 } chained).2.vars.find? "q" =
        none := by
  obtain ⟨_, _, hnames, hchanged, _, _⟩ :=
    evaluate_writes .standard { vars := Bindings.empty.insert "x" 5 } chained
  refine ⟨rfl, hnames.trans rfl, ?_⟩
  exact Decidable.byContradiction fun h => absurd (hchanged "q" h) (by decide)

end Evaluation

end Calculator
