import Calculator.Preset
import Calculator.Proofs.Rereading

/-!
# Constants

The variables of a scope hide its constants, so a constant can be relied on only in a scope that is
`Unshadowed`. Every way of writing to a scope, the assignments of a program among them, leaves the
constants as they are and makes no variable of one (`KeepsConstants`). Only a definition adds
constants, and it drops the variable. So it goes on through any operations (`constants_immutable`).
-/

namespace Calculator.Scope

variable {α : Type} {s t u : Scope α} {n : String}

def Unshadowed (s : Scope α) : Prop := ∀ n, s.isConstant n = true → s.hasVariable n = false

/-- The constants are the same, and none of them has become a variable. -/
structure KeepsConstants (s t : Scope α) : Prop where
  constants : t.constants = s.constants
  variable_of (n : String) (hn : s.isConstant n = true) (h : t.hasVariable n = true) :
    s.hasVariable n = true

namespace KeepsConstants

theorem refl (s : Scope α) : s.KeepsConstants s := ⟨rfl, fun _ _ h => h⟩

theorem isConstant (h : s.KeepsConstants t) (n : String) : t.isConstant n = s.isConstant n := by
  rw [Scope.isConstant, h.constants]
  rfl

theorem trans (h : s.KeepsConstants t) (h' : t.KeepsConstants u) : s.KeepsConstants u where
  constants := h'.constants.trans h.constants
  variable_of := fun n hn hu =>
    h.variable_of n hn (h'.variable_of n ((h.isConstant n).trans hn) hu)

theorem unshadowed (h : s.KeepsConstants t) (hs : s.Unshadowed) : t.Unshadowed := by
  intro n hn
  rw [h.isConstant] at hn
  rw [Bool.eq_false_iff]
  intro hvariable
  have := h.variable_of n hn hvariable
  rw [hs n hn] at this
  cases this

end KeepsConstants

theorem Unshadowed.find? (h : s.Unshadowed) (hn : s.isConstant n = true) :
    s.find? n = s.constants.find? n := by
  have hvariable := h n hn
  rw [hasVariable, ← Bindings.find?_isSome, Option.isSome_eq_false_iff,
    Option.isNone_iff_eq_none] at hvariable
  rw [Scope.find?, hvariable, Option.none_or]

/-! ## Writing -/

theorem keepsConstants_set {name : String} {x : α} (h : s.set name x = .ok t) :
    s.KeepsConstants t := by
  obtain ⟨hname, rfl⟩ := set_eq_ok_iff.1 h
  refine ⟨rfl, fun n hn hvariable => ?_⟩
  rw [hasVariable, Bindings.contains_insert, Bool.or_eq_true, beq_iff_eq] at hvariable
  rcases hvariable with rfl | hvariable
  · rw [hname] at hn
    cases hn
  · exact hvariable

theorem keepsConstants_delete (s : Scope α) (name : String) : s.KeepsConstants (s.delete name) where
  constants := rfl
  variable_of := by
    intro n _ hvariable
    rw [hasVariable, delete, Bindings.contains_erase, Bool.and_eq_true] at hvariable
    exact hvariable.2

theorem keepsConstants_clear (s : Scope α) : s.KeepsConstants s.clear := ⟨rfl, nofun⟩

theorem unshadowed_clear (s : Scope α) : s.clear.Unshadowed := fun _ _ => rfl

theorem keepsConstants_remove {name : String} (h : s.remove name = .ok t) :
    s.KeepsConstants t := by
  unfold remove at h
  split at h
  · cases h
    exact keepsConstants_delete s name
  · cases h

theorem keepsConstants_take {name : String} {default? : Option α} {x : α}
    (h : s.take name default? = .ok (x, t)) : s.KeepsConstants t := by
  unfold take at h
  split at h
  · obtain ⟨u, hremove, hu⟩ := Result.map_eq_ok_iff.1 h
    cases hu
    exact keepsConstants_remove hremove
  · split at h
    · cases h
      exact .refl s
    · cases h

theorem keepsConstants_takeFirst {e : String × α} (h : s.takeFirst = .ok (e, t)) :
    s.KeepsConstants t := by
  unfold takeFirst at h
  split at h
  · cases h
  · obtain ⟨⟨x, u⟩, htake, hu⟩ := Result.map_eq_ok_iff.1 h
    cases hu
    exact keepsConstants_take htake

theorem keepsConstants_getOrSet {name : String} {x y : α} (h : s.getOrSet name x = .ok (y, t)) :
    s.KeepsConstants t := by
  unfold getOrSet at h
  split at h
  · cases h
    exact .refl s
  · obtain ⟨u, hset, hu⟩ := Result.map_eq_ok_iff.1 h
    cases hu
    exact keepsConstants_set hset

theorem keepsConstants_setAll (s : Scope α) (es : List (String × α)) :
    s.KeepsConstants (s.setAll es).2 := by
  induction es generalizing s with
  | nil => exact .refl s
  | cons e es ih =>
    rw [setAll]
    split
    · next t hset => exact (keepsConstants_set hset).trans (ih t)
    · exact .refl s

theorem keepsConstants_written {reply : Reply α} {r : Except Refusal (Scope α)}
    (h : ∀ t, r = .ok t → s.KeepsConstants t) : s.KeepsConstants (s.written reply r).2 := by
  cases r with
  | ok t => exact h t rfl
  | error e => exact .refl s

theorem keepsConstants_taken {γ : Type} {reply : γ → Reply α} {r : Except Refusal (γ × Scope α)}
    (h : ∀ a t, r = .ok (a, t) → s.KeepsConstants t) : s.KeepsConstants (s.taken reply r).2 := by
  cases r with
  | ok p => exact h p.1 p.2 rfl
  | error e => exact .refl s

theorem updated_snd (r : Option Refusal × Scope α) : (updated r).2 = r.2 := by
  obtain ⟨_ | _, _⟩ := r <;> rfl

def Command.Defines : Command α → Prop
  | .define _ _ => True
  | _ => False

theorem keepsConstants_run {c : Command α} (hc : ¬ c.Defines) : s.KeepsConstants (s.run c).2 := by
  cases c with
  | set n x => exact keepsConstants_written fun _ => keepsConstants_set
  | put n x => exact keepsConstants_written fun _ => keepsConstants_set
  | delete n => exact keepsConstants_delete s n
  | remove n => exact keepsConstants_written fun _ => keepsConstants_remove
  | define n x => exact absurd trivial hc
  | clear => exact keepsConstants_clear s
  | take n default? => exact keepsConstants_taken fun _ _ => keepsConstants_take
  | takeFirst => exact keepsConstants_taken fun _ _ => keepsConstants_takeFirst
  | getOrSet n x => exact keepsConstants_taken fun _ _ => keepsConstants_getOrSet
  | update es =>
    rw [run, updated_snd]
    exact keepsConstants_setAll s es
  | _ => exact .refl s

theorem unshadowed_define (h : s.Unshadowed) (name : String) (x : α) :
    (s.define name x).Unshadowed := by
  intro n hn
  rw [isConstant, define, Bindings.contains_insert, Bool.or_eq_true, beq_iff_eq] at hn
  rw [hasVariable, define, Bindings.contains_erase]
  rcases hn with rfl | hn
  · simp
  · have hvariable : s.vars.contains n = false := h n hn
    rw [hvariable, Bool.and_false]

theorem unshadowed_run (h : s.Unshadowed) (c : Command α) : (s.run c).2.Unshadowed := by
  cases c with
  | define n x => exact unshadowed_define h n x
  | _ => exact (keepsConstants_run id).unshadowed h

/-- New variables leave the constants alone, even where a variable hid one before. -/
theorem constants_of_withVariables {b : Bindings α} (h : s.withVariables b = .ok t) :
    t.constants = s.constants ∧ t.Unshadowed := by
  have hkept := keepsConstants_setAll s.clear b.entries
  unfold withVariables at h
  split at h
  · next u hset =>
    cases h
    rw [hset] at hkept
    exact ⟨hkept.constants, hkept.unshadowed s.unshadowed_clear⟩
  · cases h

/-! ## Formulas -/

theorem keepsConstants_evaluate (actions : ActionTable) (s : Scope Float) (program : List Token) :
    s.KeepsConstants (Evaluation.evaluate actions s program).2 :=
  Evaluation.evaluate_keeps (fun _ _ _ _ _ _ _ hset h => h.trans (keepsConstants_set hset))
    (.refl s)

theorem keepsConstants_evaluateFormula (f : Formula) (s : Scope Float) :
    s.KeepsConstants (f.evaluate s).2 :=
  Formula.evaluate_keeps
    (fun _ _ _ _ _ _ _ _ _ hset h => h.trans (keepsConstants_set hset)) (.refl s)

end Calculator.Scope

namespace Calculator.Worksheet

variable {w : Worksheet}

def Command.Defines : Command → Prop
  | .defineConstant _ _ => True
  | _ => False

theorem constants_of_run {c : Command} (hc : ¬ c.Defines) :
    (w.run c).sheet.scope.constants = w.scope.constants ∧
      (w.scope.Unshadowed → (w.run c).sheet.scope.Unshadowed) := by
  have kept {t : Scope Float} (h : w.scope.KeepsConstants t) :
      t.constants = w.scope.constants ∧ (w.scope.Unshadowed → t.Unshadowed) :=
    ⟨h.constants, h.unshadowed⟩
  cases c with
  | reset => exact kept w.scope.keepsConstants_clear
  | evaluate => exact kept (Scope.keepsConstants_evaluateFormula w.formula w.scope)
  | setSymbol n x =>
    rw [run, setSymbol]
    split
    · next hset => exact kept (Scope.keepsConstants_set hset)
    · exact kept (.refl w.scope)
  | deleteSymbol n => exact kept (w.scope.keepsConstants_delete n)
  | defineConstant n x => exact absurd trivial hc
  | replaceSymbols b =>
    rw [run, replaceSymbols]
    split
    · next hset =>
      obtain ⟨hconstants, hunshadowed⟩ := Scope.constants_of_withVariables hset
      exact ⟨hconstants, fun _ => hunshadowed⟩
    · exact kept (.refl w.scope)
  | _ => exact kept (.refl w.scope)

theorem unshadowed_run (h : w.scope.Unshadowed) (c : Command) :
    (w.run c).sheet.scope.Unshadowed := by
  cases c with
  | defineConstant n x => exact Scope.unshadowed_define h n x
  | _ => exact (constants_of_run id).2 h

end Calculator.Worksheet

namespace Calculator.Scope

/-! ## Operations -/

inductive Operation where
  | command (c : Command Float)
  /-- A command of a formula on the scope; what follows is done with the scope of the formula
  afterwards. -/
  | formula (f : Formula) (c : Worksheet.Command)
  /-- Runs a program, from a parse or made by hand, under any actions. -/
  | evaluate (actions : ActionTable) (program : List Token)
  /-- Copies a formula on the scope; what follows is done with the scope of the copy. -/
  | copy (f : Formula) (source : Option String)

def perform (s : Scope Float) : Operation → Scope Float
  | .command c => (s.run c).2
  | .formula f c => (Worksheet.run ⟨f, s⟩ c).sheet.scope
  | .evaluate actions program => (Evaluation.evaluate actions s program).2
  | .copy f source => (Worksheet.copy ⟨f, s⟩ source).scope

def performAll (s : Scope Float) (ops : List Operation) : Scope Float := ops.foldl perform s

def Operation.Defines : Operation → Prop
  | .command c => c.Defines
  | .formula _ c => c.Defines
  | _ => False

theorem constants_perform {s : Scope Float} {op : Operation} (hop : ¬ op.Defines) :
    (s.perform op).constants = s.constants := by
  cases op with
  | command c => exact (keepsConstants_run hop).constants
  | formula f c => exact (Worksheet.constants_of_run (w := ⟨f, s⟩) hop).1
  | evaluate actions program => exact (keepsConstants_evaluate actions s program).constants
  | copy f source => rfl

theorem unshadowed_perform {s : Scope Float} (h : s.Unshadowed) (op : Operation) :
    (s.perform op).Unshadowed := by
  cases op with
  | command c => exact unshadowed_run h c
  | formula f c => exact Worksheet.unshadowed_run (w := ⟨f, s⟩) h c
  | evaluate actions program => exact (keepsConstants_evaluate actions s program).unshadowed h
  | copy f source => exact h

theorem constants_performAll {s : Scope Float} {ops : List Operation}
    (hops : ∀ op ∈ ops, ¬ op.Defines) : (s.performAll ops).constants = s.constants := by
  induction ops generalizing s with
  | nil => rfl
  | cons op ops ih =>
    obtain ⟨hop, hops⟩ := List.forall_mem_cons.1 hops
    exact (ih hops).trans (constants_perform hop)

theorem unshadowed_performAll {s : Scope Float} (h : s.Unshadowed) (ops : List Operation) :
    (s.performAll ops).Unshadowed := by
  induction ops generalizing s with
  | nil => exact h
  | cons op ops ih => exact ih (unshadowed_perform h op)

theorem unshadowed_create (c : Config) (source : Option String) :
    (Preset.create c source).sheet.scope.Unshadowed := by
  cases source <;> exact fun _ _ => rfl

/--
In a scope whose names are apart, as they are where a formula, a configuration or a replacement of
symbols makes one, they stay apart through all operations. Unless one of these defines constants,
the constants stay the same, and each is read as it was and is no variable.
-/
theorem constants_immutable :
    (∀ s : Scope Float, s.Unshadowed → ∀ ops : List Operation,
      (s.performAll ops).Unshadowed ∧
      ((∀ op ∈ ops, ¬ op.Defines) →
        (s.performAll ops).constants = s.constants ∧
        ∀ n, s.isConstant n = true →
          (s.performAll ops).isConstant n = true ∧
          (s.performAll ops).hasVariable n = false ∧
          (s.performAll ops).find? n = s.constants.find? n)) ∧
    ({} : Worksheet).scope.Unshadowed ∧
    (∀ c source, (Preset.create c source).sheet.scope.Unshadowed) ∧
    ∀ (w : Worksheet) (b : Bindings Float), (w.replaceSymbols b).fresh = true →
      (w.replaceSymbols b).sheet.scope.Unshadowed ∧
        (w.replaceSymbols b).sheet.scope.constants = w.scope.constants := by
  refine ⟨fun s h ops => ⟨unshadowed_performAll h ops, fun hops => ?_⟩, fun _ _ => rfl,
    unshadowed_create, fun w b hfresh => ?_⟩
  · have hconstants := constants_performAll (s := s) hops
    refine ⟨hconstants, fun n hn => ?_⟩
    have hafter : (s.performAll ops).isConstant n = true := by
      rw [isConstant, hconstants]
      exact hn
    have hunshadowed := unshadowed_performAll h ops
    refine ⟨hafter, hunshadowed n hafter, ?_⟩
    rw [hunshadowed.find? hafter, hconstants]
  · unfold Worksheet.replaceSymbols at hfresh ⊢
    split at hfresh
    · next t hset => exact (constants_of_withVariables hset).symm
    · cases hfresh

def withConstant : Scope Float := { constants := Bindings.empty.insert "k" 2 }

/-- An assignment to the constant, bindings up to it, and the removal of the first name. -/
def attempts : List Operation :=
  [.evaluate .standard [.ofSymbol "k" 0, .ofNumber "5" 5 2, .ofOperator .assign 1],
    .command (.update [("a", 1), ("k", 3), ("b", 1)]), .command .takeFirst]

theorem constants_immutable_attempts :
    withConstant.Unshadowed ∧ (∀ op ∈ attempts, ¬ op.Defines) ∧
      withConstant.isConstant "k" = true ∧
      (withConstant.performAll attempts).find? "k" = some 2 := by
  have hunshadowed : withConstant.Unshadowed := fun _ _ => rfl
  have hattempts : ∀ op ∈ attempts, ¬ op.Defines := by
    simp [attempts, Operation.Defines, Command.Defines]
  have hconstant : withConstant.isConstant "k" = true := by decide
  obtain ⟨_, hkept⟩ := constants_immutable.1 withConstant hunshadowed attempts
  obtain ⟨_, hread⟩ := hkept hattempts
  exact ⟨hunshadowed, hattempts, hconstant, (hread "k" hconstant).2.2.trans rfl⟩

end Calculator.Scope
