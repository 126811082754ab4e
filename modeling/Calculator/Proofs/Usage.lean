import Calculator.Proofs.Agreement
import Calculator.Proofs.Chains

/-!
# The use of a bound name

A name can be bound to a value whatever it is spelled with. If it is a word, a text of it alone has
the value, and a text can bind it anew. If it is none, no text holds it: every text has the answer
that it had before the name was bound, and leaves the binding as it is (`usable_of_word`).
-/

namespace Calculator

open Text

/-! ## Formulas -/

namespace Formula

open Evaluation Effect

variable {f : Formula} {scope : Scope Float} {name literal : String} {v : Float}

theorem evaluate_word (known : (f.settings.lexicon scope).Knows f.source)
    (hbound : scope.find? f.source = some v)
    (hlength : f.source.length ≤ f.settings.limits.length) :
    (f.parse scope).2.evaluate scope = (.ok (.ok v), scope) := by
  have hprogram : f.settings.toProgram scope f.source =
      .ok (Tree.leaf (Chain.name f.source 0)).postorder :=
    Settings.toProgram_eq_ok_iff.2 ⟨_, Lexicon.tokens_word known hlength, rfl⟩
  have hresolve : resolve scope none (.token (.ofSymbol f.source 0)) = .ok v := by
    simp [resolve, Token.ofSymbol, hbound]
  have hvalue : on scope (valueOf f.settings.actions (.leaf (Chain.name f.source 0))) =
      (.ok v, scope) := by
    rw [Chain.on_valueOf]
    show ((resolve scope none (.token (.ofSymbol f.source 0))).mapError Halt.failure, scope) = _
    rw [hresolve]
    rfl
  exact evaluate_of_toProgram hprogram (r := .ok v) hvalue

theorem evaluate_assignment (known : (f.settings.lexicon scope).Knows name)
    (hliteral : (f.settings.lexicon scope).IsLiteral literal v)
    (hconstant : scope.isConstant name = false) (hsource : f.source = name ++ " = " ++ literal)
    (hlength : f.source.length ≤ f.settings.limits.length) (hcount : 3 ≤ f.settings.limits.tokens) :
    ∃ t, (f.parse scope).2.evaluate scope = (.ok (.ok v), t) ∧ scope.set name v = .ok t := by
  let e : Tree := .leaf ⟨.ofNumber literal v 0, rfl⟩
  have htokens : (f.settings.lexicon scope).tokens f.settings.limits literal =
      .ok [.ofNumber literal v 0] := by
    rw [hsource, String.length_append] at hlength
    exact Lexicon.tokens_literal hliteral (by omega)
  have hderives : Grammar.Derives 4 [.ofNumber literal v 0] e :=
    (Grammar.Derives.operand ⟨.ofNumber literal v 0, rfl⟩).looser (by decide)
  have hprogram : f.settings.toProgram scope f.source = .ok (Chain.tree e 0 [name]).postorder := by
    have htext : f.source = Chain.text literal [name] := hsource
    rw [htext] at hlength ⊢
    exact Chain.toProgram_text (by simpa using known) htokens hderives (Nat.zero_le _) hlength
      hcount
  have hcomputes : Chain.Computes f.settings.actions scope e scope v := fun p =>
    ⟨.token ((Token.ofNumber literal v 0).relocate (· + p)), rfl, rfl⟩
  have hconstants : ∀ n ∈ [name], scope.isConstant n = false := by simpa using hconstant
  obtain ⟨x, t, hx, hv, hset⟩ := Chain.on_operandOf_tree hcomputes hconstants 0
  have hvalue : on scope (valueOf f.settings.actions (Chain.tree e 0 [name])) = (.ok v, t) := by
    rw [Chain.on_valueOf, hx]
    dsimp only
    rw [hv]
    rfl
  refine ⟨t, evaluate_of_toProgram hprogram (r := .ok v) hvalue, ?_⟩
  simpa [Scope.uniform, Scope.setAll, Scope.set, hconstant] using hset

theorem evaluate_of_not_word (hname : isWord name = false) {scope' : Scope Float}
    (hset : scope.set name v = .ok scope') :
    ((f.parse scope').2.evaluate scope').1 = ((f.parse scope).2.evaluate scope).1 ∧
      ((f.parse scope').2.evaluate scope').2.vars.find? name = scope'.vars.find? name := by
  have hagrees : f.Agrees scope scope' := by
    intro n hn
    have hword := (isOdd_iff.1 (Lexicon.isOdd_of_asked hn)).1
    have hne : (n == name) = false := by
      rw [beq_eq_false_iff_ne]
      rintro rfl
      rw [hname] at hword
      cases hword
    rw [Scope.contains_of_set hset, hne, Bool.false_or]
  rw [parse_of_agrees hagrees]
  generalize hg : (f.parse scope).2 = g
  have hreads : name ∉ g.reads := by
    intro hn
    rw [← hg] at hn
    rw [(knows_of_mem_reads hn).1] at hname
    cases hname
  have honly : scope'.only g.reads = scope.only g.reads := Scope.only_of_set hreads hset
  refine ⟨(evaluate_of_only (fun _ hn => hn) honly).1, ?_⟩
  have hkept : (g.evaluate scope').2.only [name] = scope'.only [name] := by
    refine only_evaluate (fun n hn hmem => hreads ?_) scope'
    rw [← List.mem_singleton.1 hmem]
    exact mem_reads_of_mem_writes hn
  have hvars := congrArg Scope.vars hkept
  simp only [Scope.only] at hvars
  rw [← Bindings.find?_only (List.mem_singleton.2 rfl), hvars,
    Bindings.find?_only (List.mem_singleton.2 rfl)]

end Formula

/-! ## Worksheets -/

namespace Worksheet

def answerTo (w : Worksheet) (source : String) : Answer :=
  (w.after [.load source, .parse]).run .evaluate

variable {w : Worksheet} {name : String}

theorem reply_answerTo (w : Worksheet) (source : String) :
    (w.answerTo source).reply =
        ((((w.formula.load source).parse w.scope).2.evaluate w.scope).1).map .outcome ∧
      (w.answerTo source).sheet.scope =
        (((w.formula.load source).parse w.scope).2.evaluate w.scope).2 :=
  ⟨rfl, rfl⟩

/--
A name that is bound can be used from a text if it is a word: a text of it alone has the value, and
an assignment of a literal binds it. A name that is no word is in no text, and no text reads or
writes it.
-/
theorem usable_of_word (v : Float) (hconstant : w.scope.isConstant name = false) :
    let u := w.after [.setSymbol name v]
    (isWord name = true →
      (name.length ≤ u.formula.settings.limits.length →
        (u.answerTo name).reply = .ok (.outcome (.ok v))) ∧
      ∀ literal x, (u.formula.settings.lexicon u.scope).IsLiteral literal x →
        (name ++ " = " ++ literal).length ≤ u.formula.settings.limits.length →
        3 ≤ u.formula.settings.limits.tokens →
        (u.answerTo (name ++ " = " ++ literal)).reply = .ok (.outcome (.ok x)) ∧
          u.scope.set name x = .ok (u.answerTo (name ++ " = " ++ literal)).sheet.scope) ∧
    (isWord name = false →
      (∀ (x : Lexicon) limits source ts, x.tokens limits source = .ok ts →
        ∀ t ∈ ts, ¬ t.Names name) ∧
      ∀ source, (u.answerTo source).reply = (w.answerTo source).reply ∧
        (u.answerTo source).sheet.scope.vars.find? name = some v) := by
  intro u
  have hset : w.scope.set name v = .ok { w.scope with vars := w.scope.vars.insert name v } :=
    Scope.set_eq_ok_iff.2 ⟨hconstant, rfl⟩
  have hu : u = { w with scope := { w.scope with vars := w.scope.vars.insert name v } } := by
    show (w.setSymbol name v).sheet = _
    rw [setSymbol, hset]
  have hfound : u.scope.vars.find? name = some v := by
    rw [hu, Bindings.find?_insert, if_pos rfl]
  have hformula : u.formula = w.formula := by rw [hu]
  have hscope : w.scope.set name v = .ok u.scope := by rw [hset, hu]
  have hbound : u.scope.contains name = true := by
    rw [Scope.contains_of_set hscope, beq_self_eq_true, Bool.true_or]
  refine ⟨fun hword => ⟨fun hlength => ?_, fun literal x hliteral hlength hcount => ?_⟩,
    fun hword => ⟨fun x limits source ts hts t ht hn => ?_, fun source => ?_⟩⟩
  · have hvalue := Formula.evaluate_word (f := u.formula.load name) (v := v)
      ⟨hword, .inl hbound⟩ ((Scope.find?_of_set hscope name).trans (if_pos rfl)) hlength
    rw [(reply_answerTo u name).1, hvalue]
    rfl
  · obtain ⟨t, ht, hsett⟩ := Formula.evaluate_assignment
      (f := u.formula.load (name ++ " = " ++ literal)) ⟨hword, .inl hbound⟩ hliteral
      ((Scope.isConstant_of_set hscope name).trans hconstant) rfl hlength hcount
    obtain ⟨hreply, hsheet⟩ := reply_answerTo u (name ++ " = " ++ literal)
    rw [hreply, hsheet, ht]
    exact ⟨rfl, hsett⟩
  · rw [(Lexicon.knows_of_tokens hts ht hn).1] at hword
    cases hword
  · obtain ⟨hreply, hsheet⟩ := reply_answerTo u source
    obtain ⟨hsame, hkept⟩ := Formula.evaluate_of_not_word (f := w.formula.load source) hword hscope
    rw [hreply, hsheet, (reply_answerTo w source).1, hformula, hsame, hkept, hfound]
    exact ⟨rfl, rfl⟩

/-- The name `0x1f` is read where it is bound, and not as a number. The name `a b` is never read. -/
theorem usable_of_word_hexadecimal :
    ((({} : Worksheet).after [.setSymbol "0x1f" 10]).answerTo "0x1f").reply =
        .ok (.outcome (.ok 10)) ∧
      ((({} : Worksheet).after [.setSymbol "0x1f" 10]).answerTo "0x1f = 7").reply =
        .ok (.outcome (.ok (Number.Decimal.mk 7 0).toFloat)) ∧
      ((({} : Worksheet).after [.setSymbol "a b" 10]).answerTo "a b").reply =
        (({} : Worksheet).answerTo "a b").reply := by
  obtain ⟨hread, hbind⟩ := (@usable_of_word {} "0x1f" 10 rfl).1 (by decide)
  have hunread := (@usable_of_word {} "a b" 10 rfl).2 (by decide)
  refine ⟨hread (by decide), ?_, (hunread.2 "a b").1⟩
  exact (hbind "7" _ ⟨rfl, rfl, by decide, rfl, .inr rfl⟩ (by decide) (by decide)).1

end Worksheet

end Calculator
