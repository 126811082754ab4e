import Calculator.Proofs.Acceptance
import Calculator.Proofs.Placement
import Calculator.Proofs.Vocabulary
import Calculator.Proofs.Writes

/-!
# Chained assignments

`x = y = … = e` is read as `x = (y = (… = e))`. The names stay on the stack as names while `e` is
computed, so `e` has the value that it has alone, and what it writes stays. Then the names are bound
to the value from right to left (`on_operandOf_tree`), up to the first that is a constant, if there
is one (`on_operandOf_constant`).
-/

namespace Calculator

open Grammar Text

/-! ## Names bound to one value -/

namespace Scope

variable {α : Type} {s t : Scope α} {names : List String} {x : α}

/--
From one scope to another the names, of which the last is bound first, are bound to a value, and
nothing else changes. Names that are new stand behind the others in the order of their binding.
-/
structure Binds (s t : Scope α) (names : List String) (x : α) : Prop where
  bound : ∀ n ∈ names, t.vars.find? n = some x
  others : ∀ n, n ∉ names → t.vars.find? n = s.vars.find? n
  constants : t.constants = s.constants
  order : t.vars.names = s.vars.names ++ newNames s.vars.names names.reverse

/-- One value for all names, the last of which comes first. -/
def uniform (names : List String) (x : α) : List (String × α) := names.reverse.map (·, x)

theorem map_fst_uniform (names : List String) (x : α) :
    (uniform names x).map Prod.fst = names.reverse := by
  simp [uniform, Function.comp_def]

theorem uniform_cons (n : String) (names : List String) (x : α) :
    uniform (n :: names) x = uniform names x ++ [(n, x)] := by
  simp [uniform]

theorem find?_of_setAll_uniform {es : List (String × α)} (h : s.setAll es = (none, t))
    (hes : ∀ e ∈ es, e.2 = x) {n : String} (hn : n ∈ es.map Prod.fst) :
    t.vars.find? n = some x := by
  induction es generalizing s with
  | nil => cases hn
  | cons e es ih =>
    obtain ⟨_, h⟩ := setAll_cons_eq h
    obtain ⟨he, hes⟩ := List.forall_mem_cons.1 hes
    by_cases hlater : n ∈ es.map Prod.fst
    · exact ih h hes hlater
    · have hfirst : n = e.1 := by simpa [hlater] using hn
      rw [find?_of_setAll h hlater, Bindings.find?_insert, if_pos hfirst, he]

theorem binds_of_setAll (h : s.setAll (uniform names x) = (none, t)) : s.Binds t names x where
  bound n hn := by
    refine find?_of_setAll_uniform h (fun e he => ?_) ?_
    · obtain ⟨m, _, rfl⟩ := List.mem_map.1 he
      rfl
    · rwa [map_fst_uniform, List.mem_reverse]
  others n hn := by
    refine find?_of_setAll h ?_
    rwa [map_fst_uniform, List.mem_reverse]
  constants := constants_of_setAll h
  order := by rw [names_of_setAll h, map_fst_uniform]

end Scope

/-! ## Texts and trees -/

namespace Chain

def text (source : String) (names : List String) : String :=
  names.foldr (fun n rest => n ++ " = " ++ rest) source

def width : List String → Nat
  | [] => 0
  | n :: ns => n.length + 3 + width ns

def sign (position : Nat) : OperatorToken 2 := ⟨.ofOperator .assign position, .assign, rfl, rfl⟩

def name (n : String) (position : Nat) : OperandToken := ⟨.ofSymbol n position, rfl⟩

/-- The tokens of a chain that starts at a position, in front of those of a source. -/
def tokens (ts : List Token) : Nat → List String → List Token
  | p, [] => ts.map (Token.relocate (· + p))
  | p, n :: ns => (name n p).token :: (sign (p + (n.length + 1))).token ::
    tokens ts (p + (n.length + 3)) ns

def tree (e : Tree) : Nat → List String → Tree
  | p, [] => e.relocate (· + p)
  | p, n :: ns => .binary (sign (p + (n.length + 1))) (.leaf (name n p))
    (tree e (p + (n.length + 3)) ns)

variable {ts : List Token} {names : List String}

theorem length_tokens (ts : List Token) (p : Nat) (names : List String) :
    (tokens ts p names).length = 2 * names.length + ts.length := by
  induction names generalizing p with
  | nil => simp [tokens]
  | cons n ns ih =>
    simp only [tokens, List.length_cons, ih]
    omega

theorem resolveSigns_tokens (ts : List Token) (p : Nat) (names : List String) :
    Token.resolveSigns (tokens ts p names) = tokens (Token.resolveSigns ts) p names := by
  induction names generalizing p with
  | nil => exact Token.resolveSignsFrom_relocate false ts
  | cons n ns ih => exact congrArg (fun us => _ :: _ :: us) (ih _)

theorem scan_text {x : Lexicon} {source : String} (names : List String)
    (known : ∀ n ∈ names, x.Knows n) (h : x.scan 0 source.toList = .ok ts) (p : Nat) :
    x.scan p (text source names).toList = .ok (tokens ts p names) := by
  induction names generalizing p with
  | nil =>
    have hmoved := x.scan_add 0 p source.toList
    rw [Nat.zero_add, h] at hmoved
    exact hmoved
  | cons n ns ih =>
    obtain ⟨hn, hns⟩ := List.forall_mem_cons.1 known
    have htext : (text source (n :: ns)).toList =
        n.toList ++ ' ' :: (Operator.assign.lexeme.toList ++ ' ' :: (text source ns).toList) := by
      simp [text, Operator.lexeme]
    have hsign : ∀ c ∈ (' ' :: (text source ns).toList).head?, c ≠ '=' ∧ c ≠ '*' := by
      rintro c ⟨⟩
      decide
    have hpos : p + n.length + 1 + Operator.assign.lexeme.toList.length + 1 =
        p + (n.length + 3) := rfl
    have hname : ∀ c ∈ (' ' :: (Operator.assign.lexeme.toList ++
        ' ' :: (text source ns).toList)).head?, isNameChar c = false := by
      rintro c ⟨⟩
      decide
    rw [htext, Lexicon.scan_word hn hname, String.length_toList, Lexicon.scan_blank (by decide),
      Lexicon.scan_operator (.inr hsign), Lexicon.scan_blank (by decide), hpos, ih hns]
    rfl

theorem derives_tokens {e : Tree} (h : Derives 4 ts e) (p : Nat) (names : List String) :
    Derives 3 (tokens ts p names) (tree e p names) := by
  induction names generalizing p with
  | nil => exact h.relocate.tighter
  | cons n ns ih =>
    have hname : Derives 18 [(name n p).token] (.leaf (name n p)) := .operand (name n p)
    exact .rightward (sign (p + (n.length + 1))) rfl (hname.looser (by decide)) (ih _)

theorem deepest_tokens (ts : List Token) (p : Nat) (names : List String) :
    Nesting.deepest 0 (tokens ts p names) = Nesting.deepest 0 ts := by
  induction names generalizing p with
  | nil => exact Nesting.deepest_relocate 0 ts
  | cons n ns ih =>
    have hflat (us : List Token) : Nesting.deepest 0 ((name n p).token ::
        (sign (p + (n.length + 1))).token :: us) = Nesting.deepest 0 us := by
      rw [Nesting.deepest, Nesting.deepest,
        Nesting.depthAfter_other (name n p).isParenthesis,
        Nesting.depthAfter_other (sign (p + (n.length + 1))).isParenthesis, Nat.zero_max,
        Nat.zero_max]
    rw [tokens, hflat, ih]

theorem toProgram_text {s : Settings} {scope : Scope Float} {source : String} {e : Tree}
    (known : ∀ n ∈ names, (s.lexicon scope).Knows n)
    (htokens : (s.lexicon scope).tokens s.limits source = .ok ts) (h : Derives 4 ts e)
    (hdeep : Nesting.deepest 0 ts ≤ s.limits.depth)
    (hlength : (text source names).length ≤ s.limits.length)
    (hcount : 2 * names.length + ts.length ≤ s.limits.tokens) :
    s.toProgram scope (text source names) = .ok (tree e 0 names).postorder := by
  obtain ⟨_, _, us, hscan, rfl⟩ := Lexicon.tokens_eq_ok_iff.1 htokens
  refine Settings.toProgram_eq_ok_iff.2 ⟨tokens (Token.resolveSigns us) 0 names, ?_, ?_⟩
  · refine Lexicon.tokens_eq_ok_iff.2 ⟨hlength, ?_, tokens us 0 names, ?_, ?_⟩
    · rw [length_tokens]
      exact hcount
    · exact scan_text names known hscan 0
    · exact resolveSigns_tokens us 0 names
  · refine Postfix.ofTokens_of_derives (derives_tokens h 0 names) ?_
    rw [deepest_tokens]
    exact hdeep

/-! ## Values -/

open Evaluation Effect

variable {actions : ActionTable} {scope s t : Scope Float} {e : Tree} {v : Float}

theorem resolve_of_resolve {operator : Option Token} {x : Operand}
    (h : resolve s operator x = .ok v) (operator' : Option Token) :
    resolve s operator' x = .ok v := by
  unfold resolve at h ⊢
  split at h
  · exact h
  · split at h
    · exact h
    · split at h
      · exact h
      · cases h
    · cases h

theorem on_valueOf (scope : Scope Float) (e : Tree) :
    on scope (valueOf actions e) =
      match on scope (operandOf actions e) with
      | (.ok x, t) => ((resolve t none x).mapError .failure, t)
      | (.error h, t) => (.error h, t) := by
  rw [valueOf, on_bind]
  rcases on scope (operandOf actions e) with ⟨_ | x, t⟩
  · rfl
  · exact on_number t none x

/-- Wherever it stands, the tree leaves an operand, and in the scope after it the operand has the
number. -/
def Computes (actions : ActionTable) (scope : Scope Float) (e : Tree) (s : Scope Float)
    (v : Float) : Prop :=
  ∀ p, ∃ x, on scope (operandOf actions (e.relocate (· + p))) = (.ok x, s) ∧
    resolve s none x = .ok v

theorem computes_of_evaluate (h : evaluate actions scope e.postorder = (.ok v, s)) :
    Computes actions scope e s v := by
  intro p
  have hmoved := @evaluate_relocate (· + p) actions scope e.postorder
  rw [← Tree.postorder_relocate, evaluate_eq_valueOf, h, on_valueOf] at hmoved
  rcases hx : on scope (operandOf actions (e.relocate (· + p))) with ⟨_ | x, t⟩ <;>
    rw [hx] at hmoved
  · cases hmoved
  · obtain ⟨hv, rfl⟩ := Prod.mk.inj hmoved
    exact ⟨x, rfl, Result.mapError_eq_ok_iff.1 hv⟩

theorem on_operandOf_binary {b : Tree} {x : Operand} (n : String) (p q : Nat)
    (hb : on scope (operandOf actions b) = (.ok x, s)) (hx : resolve s none x = .ok v) :
    on scope (operandOf actions (.binary (sign q) (.leaf (name n p)) b)) =
      match s.set n v with
      | .ok t => (.ok (.number v), t)
      | .error _ => (.error (.failure (.constant (.ofSymbol n p))), s) := by
  have hnumber := resolve_of_resolve hx (some (sign q).token)
  have hassign : assign s (sign q).token (.token (name n p).token) v =
      match s.set n v with
      | .ok t => .ok t
      | .error _ => .error (.constant (.ofSymbol n p)) := rfl
  rw [operandOf, operandOf, pure_bind, on_bind, hb]
  dsimp only [combined]
  rw [if_pos (show (sign q).operator = .assign from rfl), on_number_bind, hnumber]
  dsimp only
  rw [on_bindTo_bind, hassign]
  cases s.set n v <;> rfl

/-- The names of a chain are bound from right to left, if none of them is a constant. -/
theorem on_operandOf_tree (he : Computes actions scope e s v) {names : List String}
    (hnames : ∀ n ∈ names, s.isConstant n = false) (p : Nat) :
    ∃ x t, on scope (operandOf actions (tree e p names)) = (.ok x, t) ∧
      resolve t none x = .ok v ∧ s.setAll (Scope.uniform names v) = (none, t) := by
  induction names generalizing p with
  | nil =>
    obtain ⟨x, hx, hv⟩ := he p
    exact ⟨x, s, hx, hv, rfl⟩
  | cons n ns ih =>
    obtain ⟨hn, hns⟩ := List.forall_mem_cons.1 hnames
    obtain ⟨x, t, hx, hv, hset⟩ := ih hns (p + (n.length + 3))
    have hconstant : t.isConstant n = false := (Scope.isConstant_setAll hset n).trans hn
    have hbound : t.set n v = .ok { t with vars := t.vars.insert n v } :=
      Scope.set_eq_ok_iff.2 ⟨hconstant, rfl⟩
    refine ⟨.number v, { t with vars := t.vars.insert n v }, ?_, rfl, ?_⟩
    · rw [tree, on_operandOf_binary n _ _ hx hv, hbound]
    · rw [Scope.uniform_cons, Scope.setAll_append hset]
      simp [Scope.setAll, hbound]

theorem on_operandOf_constant (he : Computes actions scope e s v) {c : String}
    {right : List String} (hc : s.isConstant c = true)
    (hright : ∀ n ∈ right, s.isConstant n = false) (left : List String) (p : Nat) :
    ∃ t, on scope (operandOf actions (tree e p (left ++ c :: right))) =
        (.error (.failure (.constant (.ofSymbol c (p + width left)))), t) ∧
      s.setAll (Scope.uniform right v) = (none, t) := by
  induction left generalizing p with
  | nil =>
    obtain ⟨x, t, hx, hv, hset⟩ := on_operandOf_tree he hright (p + (c.length + 3))
    have hconstant : t.isConstant c = true := (Scope.isConstant_setAll hset c).trans hc
    refine ⟨t, ?_, hset⟩
    rw [List.nil_append, tree, on_operandOf_binary c _ _ hx hv]
    simp [Scope.set, hconstant, width]
  | cons n ns ih =>
    obtain ⟨t, ht, hset⟩ := ih (p + (n.length + 3))
    refine ⟨t, ?_, hset⟩
    have hwidth : p + width (n :: ns) = p + (n.length + 3) + width ns := by
      simp [width, Nat.add_assoc]
    rw [List.cons_append, tree, operandOf, operandOf, pure_bind, on_bind, ht, hwidth]

end Chain

namespace Formula

open Evaluation Effect

variable {f : Formula} {scope after : Scope Float} {ts : List Token} {e : Tree} {v : Float}

theorem program_of_value (h : (f.parse scope).2.evaluate scope = (.ok (.ok v), after)) :
    ∃ ts program, (f.settings.lexicon scope).tokens f.settings.limits f.source = .ok ts ∧
      Postfix.ofTokens f.settings.limits (some f.source) ts = .ok program ∧
      Evaluation.evaluate f.settings.actions scope program = (.ok v, after) := by
  have hparse : (f.parse scope).1 = .ok none := by
    rcases f.parse_cases scope with ⟨ts, _, hp⟩ | ⟨e, _, _, hp⟩ | ⟨x, _, _, hp⟩
    · rw [hp]
    · rw [hp] at h
      cases h
    · rw [hp] at h
      cases h
  obtain ⟨ts, program, hts, hprogram, hread⟩ := exists_tokens_of_parse hparse
  refine ⟨ts, program, hts, hprogram, ?_⟩
  rw [hread] at h
  unfold evaluate at h
  dsimp only [Formula.program] at h
  split at h
  · next heq =>
    cases h
    exact heq
  · cases h
  · cases h

theorem evaluate_of_toProgram
    (h : f.settings.toProgram scope f.source = .ok e.postorder) {r : Except Failure Float}
    {t : Scope Float} (hr : on scope (valueOf f.settings.actions e) = (r.mapError .failure, t)) :
    (f.parse scope).2.evaluate scope = (.ok r, t) := by
  have hparse : f.parse scope = (.ok none, { f with reading := .program e.postorder }) := by
    rw [parse, Settings.compile, h]
    rfl
  rw [hparse, evaluate]
  dsimp only [program]
  rw [evaluate_eq_valueOf, hr]
  cases r <;> rfl

/--
Names in front of an expression whose operators bind tighter than the assignment are bound to its
value from right to left.
-/
theorem evaluate_chain {names : List String}
    (identifiers : ∀ n ∈ names, isIdentifier n = true)
    (htokens : (f.settings.lexicon scope).tokens f.settings.limits f.source = .ok ts)
    (hright : Derives 4 ts e)
    (hvalue : (f.parse scope).2.evaluate scope = (.ok (.ok v), after))
    (hlength : (Chain.text f.source names).length ≤ f.settings.limits.length)
    (hcount : 2 * names.length + ts.length ≤ f.settings.limits.tokens) :
    let g := f.load (Chain.text f.source names)
    (g.parse scope).1 = .ok none ∧
      ((∀ n ∈ names, scope.isConstant n = false) →
        ∃ t, (g.parse scope).2.evaluate scope = (.ok (.ok v), t) ∧ after.Binds t names v) ∧
      ∀ left c right, names = left ++ c :: right → scope.isConstant c = true →
        (∀ n ∈ right, scope.isConstant n = false) →
        ∃ t, (g.parse scope).2.evaluate scope =
            (.ok (.error (.constant (.ofSymbol c (Chain.width left)))), t) ∧
          after.Binds t right v := by
  intro g
  obtain ⟨ts', program, hts', hprogram, hevaluate⟩ := program_of_value hvalue
  obtain rfl := Except.ok.inj (htokens.symm.trans hts')
  obtain ⟨_, hdeep, _, _⟩ := Postfix.of_ofTokens_eq_ok hprogram
  obtain rfl : program = e.postorder :=
    Except.ok.inj (hprogram.symm.trans (Postfix.ofTokens_of_derives hright hdeep))
  have hcomputes := Chain.computes_of_evaluate hevaluate
  have hconstants (n : String) : after.isConstant n = scope.isConstant n := by
    have hkept := Scope.keepsConstants_evaluate f.settings.actions scope e.postorder
    rw [hevaluate] at hkept
    exact hkept.isConstant n
  have hg : g.settings.toProgram scope g.source = .ok (Chain.tree e 0 names).postorder :=
    Chain.toProgram_text (fun n hn => Lexicon.knows_of_isIdentifier (identifiers n hn)) htokens
      hright hdeep hlength hcount
  refine ⟨parse_eq_ok_iff.2 ⟨_, hg⟩, fun hnames => ?_, fun left c right hsplit hc hnone => ?_⟩
  · obtain ⟨x, t, hx, hv, hset⟩ := Chain.on_operandOf_tree hcomputes
      (fun n hn => (hconstants n).trans (hnames n hn)) 0
    have hr : on scope (valueOf g.settings.actions (Chain.tree e 0 names)) = (.ok v, t) := by
      rw [Chain.on_valueOf, show g.settings = f.settings from rfl, hx]
      dsimp only
      rw [hv]
      rfl
    exact ⟨t, evaluate_of_toProgram hg (r := .ok v) hr, Scope.binds_of_setAll hset⟩
  · subst hsplit
    obtain ⟨t, ht, hset⟩ := Chain.on_operandOf_constant hcomputes ((hconstants c).trans hc)
      (fun n hn => (hconstants n).trans (hnone n hn)) left 0
    rw [Nat.zero_add] at ht
    have hr : on scope (valueOf g.settings.actions (Chain.tree e 0 (left ++ c :: right))) =
        (.error (.failure (.constant (.ofSymbol c (Chain.width left)))), t) := by
      rw [Chain.on_valueOf, show g.settings = f.settings from rfl, ht]
    exact ⟨t, evaluate_of_toProgram hg (r := .error _) hr, Scope.binds_of_setAll hset⟩

def circleScope : Scope Float := { constants := Bindings.empty.insert "pi" 3 }

theorem tokens_two : (({} : Settings).lexicon circleScope).tokens {} "2" =
    .ok [.ofNumber "2" (Number.Decimal.mk 2 0).toFloat 0] :=
  Lexicon.tokens_literal ⟨rfl, rfl, by decide, rfl, .inr rfl⟩ (by decide)

/-- In `a = pi = b = 2` the name behind the constant is bound, and the one in front is not. -/
theorem evaluate_chain_circle :
    ∃ t, (Formula.parse { source := "a = pi = b = 2" } circleScope).2.evaluate circleScope =
        (.ok (.error (.constant (.ofSymbol "pi" 4))), t) ∧
      t.vars.find? "b" = some (Number.Decimal.mk 2 0).toFloat ∧ t.vars.find? "a" = none := by
  have hderives : Derives 4 [.ofNumber "2" (Number.Decimal.mk 2 0).toFloat 0]
      (.leaf ⟨.ofNumber "2" (Number.Decimal.mk 2 0).toFloat 0, rfl⟩) :=
    (Derives.operand ⟨.ofNumber "2" (Number.Decimal.mk 2 0).toFloat 0, rfl⟩).looser (by decide)
  have hvalue : (Formula.parse { source := "2" } circleScope).2.evaluate circleScope =
      (.ok (.ok (Number.Decimal.mk 2 0).toFloat), circleScope) := by
    rw [parse_of_tokens (f := { source := "2" }) tokens_two rfl]
    rfl
  obtain ⟨_, _, hconstant⟩ := @evaluate_chain { source := "2" } circleScope circleScope _ _ _
    ["a", "pi", "b"] (by decide) tokens_two hderives hvalue (by decide) (by decide)
  obtain ⟨t, ht, hbinds⟩ := hconstant ["a"] "pi" ["b"] rfl (by decide) (by decide)
  refine ⟨t, ht, hbinds.bound "b" (by decide), ?_⟩
  rw [hbinds.others "a" (by decide)]
  rfl

end Formula

end Calculator
