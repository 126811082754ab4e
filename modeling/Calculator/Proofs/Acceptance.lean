import Calculator.Proofs.Conversion
import Calculator.Proofs.Lexing
import Calculator.Proofs.Machine
import Calculator.Proofs.Parsing
import Calculator.Proofs.Programs

/-!
# Formulas that have a value

Nothing in the conversion asks that operands and binary operators take turns, so `2 3 +` has the
value of `2 + 3` and is no expression. What has a value is still a tree of exactly the tokens that
were written. Where the tokens do take turns, it is the tree of the expression.
-/

namespace Calculator.Formula

open Grammar Nesting Evaluation

variable {f : Formula} {scope : Scope Float}

theorem exists_tokens_of_parse (h : (f.parse scope).1 = .ok none) :
    ∃ ts program, (f.settings.lexicon scope).tokens f.settings.limits f.source = .ok ts ∧
      Postfix.ofTokens f.settings.limits (some f.source) ts = .ok program ∧
      (f.parse scope).2 = { f with reading := .program program } := by
  unfold parse at h ⊢
  split at h
  · next program hcompile =>
    obtain ⟨ts, hts, hprogram⟩ :=
      Result.bind_eq_ok_iff.1 (Result.mapError_eq_ok_iff.1 hcompile)
    exact ⟨ts, program, hts, hprogram, rfl⟩
  · cases h
  · cases h

theorem evaluate_of_program {ts : List Token} {x : Float} (hf : f.program = some ts)
    (h : (f.evaluate scope).1 = .ok (.ok x)) :
    (Evaluation.evaluate f.settings.actions scope ts).1 = .ok x := by
  unfold evaluate at h
  rw [hf] at h
  dsimp only at h
  split at h
  · next y _ heq =>
    cases h
    rw [heq]
  · cases h
  · cases h

/-- A converted list is an expression just if it takes turns, and its tree is the one converted. -/
theorem derives_iff {limits : Limits} {source : Option String} {ts : List Token} {e e' : Tree}
    (h : Postfix.ofTokens limits source ts = .ok e.postorder) :
    Derives 1 ts e' ↔ Alternates false ts true ∧ e' = e := by
  obtain ⟨hbalanced, hdeep, _, _⟩ := Postfix.of_ofTokens_eq_ok h
  have hunique (g : Tree) (hg : Derives 1 ts g) : g = e := by
    have hpost : Postfix.ofTokens limits source ts = .ok g.postorder :=
      Postfix.ofTokens_of_derives hg hdeep
    exact Tree.postorder_injective (Except.ok.inj (hpost.symm.trans h))
  constructor
  · intro he
    exact ⟨he.alternates, hunique e' he⟩
  · rintro ⟨hturns, rfl⟩
    obtain ⟨g, hg⟩ := derivable_of_alternates hbalanced hturns
    rw [← hunique g hg]
    exact hg

/--
A formula that has a value has one tree. Its nodes are the tokens that were written, without the
parentheses, which are balanced; its leaves are in the order in which they were written, one more
than there are binary operators. The tokens are an expression just if they take turns, and then the
tree is that of the expression.
-/
theorem tree_of_value {later : Scope Float} {x : Float}
    (hparse : (f.parse scope).1 = .ok none)
    (hvalue : ((f.parse scope).2.evaluate later).1 = .ok (.ok x)) :
    ∃ ts e, (f.settings.lexicon scope).tokens f.settings.limits f.source = .ok ts ∧
      (∀ e' : Tree, (f.parse scope).2.program = some e'.postorder ↔ e' = e) ∧
      ((valueOf f.settings.actions e).on later).1 = .ok x ∧
      e.postorder.Perm (ts.filter (!·.isParenthesis)) ∧
      e.postorder.filter (!·.isOperator) = ts.filter (!·.isOperator) ∧
      Balanced ts ∧
      ts.countP (!·.isOperator) = ts.countP (·.isBinary) + 1 ∧
      ∀ e' : Tree, Derives 1 ts e' ↔ Alternates false ts true ∧ e' = e := by
  obtain ⟨ts, program, hts, hprogram, hf⟩ := exists_tokens_of_parse hparse
  rw [hf] at hvalue ⊢
  have heval : (Evaluation.evaluate f.settings.actions later program).1 = .ok x :=
    @evaluate_of_program { f with reading := .program program } _ _ _ rfl hvalue
  obtain ⟨e, rfl⟩ := Evaluation.exists_tree_of_evaluate heval
  obtain ⟨hbalanced, _, hperm, horder⟩ := Postfix.of_ofTokens_eq_ok hprogram
  refine ⟨ts, e, hts, fun e' => ?_, ?_, hperm, horder, hbalanced, ?_,
    fun e' => derives_iff hprogram⟩
  · constructor
    · intro he
      exact (Tree.postorder_injective (Option.some.inj he)).symm
    · rintro rfl
      rfl
  · rw [← evaluate_eq_valueOf]
    exact heval
  · have hcount := e.countP_postorder
    rw [hperm.countP_eq, hperm.countP_eq, Token.countP_filter, Token.countP_filter] at hcount
    · exact hcount
    · exact fun t => Token.isParenthesis_of_isBinary
    · intro t ht
      exact Token.isParenthesis_of_not_isOperator (by simpa using ht)

/-! ## Tokens out of turn -/

/-- The tokens of `2 3 +`. -/
def misplaced : List Token :=
  [.ofNumber "2" (Number.Decimal.mk 2 0).toFloat 0, .ofNumber "3" (Number.Decimal.mk 3 0).toFloat 2,
    .ofOperator .add 4]

theorem tokens_misplaced : (({} : Settings).lexicon {}).tokens {} "2 3 +" = .ok misplaced := by
  have htwo : Lexicon.scan {} 0 "2 3 +".toList = (Lexicon.scan {} 1 [' ', '3', ' ', '+']).map
      (Token.ofNumber "2" (Number.Decimal.mk 2 0).toFloat 0 :: ·) :=
    @Lexicon.scan_piece {} '2' [] [' ', '3', ' ', '+']
      (.number ⟨['2'], (Number.Decimal.mk 2 0).toFloat⟩) _ 0 rfl rfl rfl
  have hthree : Lexicon.scan {} 2 ['3', ' ', '+'] = (Lexicon.scan {} 3 [' ', '+']).map
      (Token.ofNumber "3" (Number.Decimal.mk 3 0).toFloat 2 :: ·) :=
    @Lexicon.scan_piece {} '3' [] [' ', '+']
      (.number ⟨['3'], (Number.Decimal.mk 3 0).toFloat⟩) _ 2 rfl rfl rfl
  have hplus : Lexicon.scan {} 4 ['+'] = .ok [.ofOperator .add 4] := by
    refine (@Lexicon.scan_piece {} '+' [] [] (.operator .add) _ 4 rfl rfl rfl).trans ?_
    rw [Lexicon.scan]
    rfl
  have hscan : Lexicon.scan {} 0 "2 3 +".toList = .ok misplaced := by
    rw [htwo, Lexicon.scan_blank (by decide), hthree, Lexicon.scan_blank (by decide), hplus]
    rfl
  have hraw : ({} : Lexicon).rawTokens {} "2 3 +" = .ok misplaced := by
    rw [Lexicon.rawTokens, hscan]
    rfl
  have hlexicon : ({} : Settings).lexicon {} = {} := rfl
  rw [hlexicon, Lexicon.tokens, hraw]
  rfl

theorem parse_misplaced :
    parse { source := "2 3 +" } {} =
      (.ok none, { source := "2 3 +", reading := .program misplaced }) :=
  parse_of_tokens tokens_misplaced rfl

theorem value_misplaced :
    ((parse { source := "2 3 +" } {}).2.evaluate {}).1 =
      .ok (.ok ((Number.Decimal.mk 2 0).toFloat + (Number.Decimal.mk 3 0).toFloat)) := by
  rw [parse_misplaced]
  rfl

/-- `2 3 +` has a value and is no expression. -/
theorem evaluate_misplaced :
    (({} : Settings).lexicon {}).tokens {} "2 3 +" = .ok misplaced ∧ ¬ Derivable misplaced ∧
      (parse { source := "2 3 +" } {}).1 = .ok none ∧
      ((parse { source := "2 3 +" } {}).2.evaluate {}).1 =
        .ok (.ok ((Number.Decimal.mk 2 0).toFloat + (Number.Decimal.mk 3 0).toFloat)) := by
  refine ⟨tokens_misplaced, ?_, ?_, value_misplaced⟩
  · rintro ⟨e, he⟩
    obtain ⟨_, hthree⟩ := he.alternates.of_operand rfl
    obtain ⟨hb, _⟩ := hthree.of_operand rfl
    cases hb
  · rw [parse_misplaced]

/-- The tree of `2 3 +` computes the sum. -/
theorem tree_of_misplaced :
    (parse { source := "2 3 +" } {}).1 = .ok none ∧
      ((parse { source := "2 3 +" } {}).2.evaluate {}).1 =
        .ok (.ok ((Number.Decimal.mk 2 0).toFloat + (Number.Decimal.mk 3 0).toFloat)) ∧
      ∃ e : Tree, e.postorder = misplaced ∧
        ((valueOf .standard e).on {}).1 =
          .ok ((Number.Decimal.mk 2 0).toFloat + (Number.Decimal.mk 3 0).toFloat) := by
  have hparse : (parse { source := "2 3 +" } {}).1 = .ok none := by rw [parse_misplaced]
  obtain ⟨_, e, _, htree, hvalue, _⟩ := tree_of_value hparse value_misplaced
  have hprogram := (htree e).2 rfl
  rw [parse_misplaced] at hprogram
  exact ⟨hparse, value_misplaced, e, (Option.some.inj hprogram).symm, hvalue⟩

end Calculator.Formula
