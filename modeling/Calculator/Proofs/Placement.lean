import Calculator.Formula
import Calculator.Proofs.Grammar

/-!
# Where tokens stand

The index of a token is carried along to be shown in errors, and nothing else depends on it.
`relocate f` puts what stands at an index `i` at `f i`: a token, and all that holds tokens or
indices. Whatever is done to tokens commutes with it: their signs are resolved, they are put into
postfix order (`ofTokens_relocate`) and their program is evaluated (`evaluate_relocate`) as before,
with the indices moved. A text that is read further on has its tokens further on (`scan_add`).
-/

namespace Calculator

variable {f : Nat → Nat}

/-! ## Tokens -/

namespace Token

def relocate (f : Nat → Nat) (t : Token) : Token := { t with position := f t.position }

@[simp] theorem type_relocate (t : Token) : (t.relocate f).type = t.type := rfl

@[simp] theorem text_relocate (t : Token) : (t.relocate f).text = t.text := rfl

@[simp] theorem position_relocate (t : Token) : (t.relocate f).position = f t.position := rfl

@[simp] theorem operator?_relocate (t : Token) : (t.relocate f).operator? = t.operator? := rfl

@[simp] theorem number?_relocate (t : Token) : (t.relocate f).number? = t.number? := rfl

@[simp] theorem isOperator_relocate (t : Token) : (t.relocate f).isOperator = t.isOperator := rfl

@[simp] theorem isA_relocate (t : Token) (o : Operator) : (t.relocate f).isA o = t.isA o := rfl

@[simp] theorem operator_relocate (t : Token) : (t.relocate f).operator = t.operator := rfl

@[simp] theorem endsOperand_relocate (t : Token) : (t.relocate f).endsOperand = t.endsOperand := rfl

def unplaced : Token → Token := relocate fun _ => 0

theorem asUnary_relocate (t : Token) : (t.relocate f).asUnary = t.asUnary.relocate f := by
  by_cases ho : t.isOperator = true
  · simp only [asUnary, isOperator_relocate, operator?_relocate, ho, if_true]
    split <;> rfl
  · simp [asUnary, ho]

theorem resolveSignsFrom_relocate (afterOperand : Bool) (ts : List Token) :
    resolveSignsFrom afterOperand (ts.map (relocate f)) =
      (resolveSignsFrom afterOperand ts).map (relocate f) := by
  induction ts generalizing afterOperand with
  | nil => rfl
  | cons t ts ih =>
    cases afterOperand <;> simp [resolveSignsFrom, asUnary_relocate, ih]

end Token

def OperandToken.relocate (f : Nat → Nat) (t : OperandToken) : OperandToken :=
  ⟨t.token.relocate f, t.isOperand⟩

def OperatorToken.relocate (f : Nat → Nat) {n : Nat} (t : OperatorToken n) : OperatorToken n :=
  ⟨t.token.relocate f, t.operator, t.isA, t.arity_eq⟩

/-! ## Errors -/

def Evaluation.Failure.relocate (f : Nat → Nat) : Evaluation.Failure → Evaluation.Failure
  | .parenthesis t => .parenthesis (t.relocate f)
  | .underflow t arity found => .underflow (t.relocate f) arity found
  | .unbound t operator => .unbound (t.relocate f) (operator.map (Token.relocate f))
  | .notAnOperand t => .notAnOperand (t.relocate f)
  | .notAName t target => .notAName (t.relocate f) (target.map (Token.relocate f))
  | .constant t => .constant (t.relocate f)
  | .leftover count second => .leftover count (second.map (Token.relocate f))

/-- Notes are about no index of a formula, and stay. -/
def Cause.relocate (f : Nat → Nat) : Cause → Cause
  | .unknownCharacter c i => .unknownCharacter c (f i)
  | .unbalanced i => .unbalanced (f i)
  | .unclosed i => .unclosed (f i)
  | .evaluation e => .evaluation (e.relocate f)
  | cause => cause

def Problem.relocate (f : Nat → Nat) : Problem → Problem
  | .error e => .error { e with cause := e.cause.relocate f }
  | .fault x => .fault x

/-- What comes of tokens that stand elsewhere, with what `relocate` makes of the values. -/
abbrev Problem.relocated {α : Type} (f : Nat → Nat) (relocate : α → α) (r : Except Problem α) :
    Except Problem α :=
  (r.mapError (Problem.relocate f)).map relocate

/-! ## Trees -/

def Tree.relocate (f : Nat → Nat) : Tree → Tree
  | .leaf t => .leaf (t.relocate f)
  | .unary t a => .unary (t.relocate f) (a.relocate f)
  | .binary t a b => .binary (t.relocate f) (a.relocate f) (b.relocate f)

theorem Tree.postorder_relocate (e : Tree) :
    (e.relocate f).postorder = e.postorder.map (Token.relocate f) := by
  induction e with
  | leaf t => rfl
  | unary t a ih => simp [relocate, postorder, ih, OperatorToken.relocate]
  | binary t a b iha ihb => simp [relocate, postorder, iha, ihb, OperatorToken.relocate]

theorem Grammar.Derives.relocate {l : Nat} {ts : List Token} {e : Tree} (h : Derives l ts e) :
    Derives l (ts.map (Token.relocate f)) (e.relocate f) := by
  induction h with
  | operand t => exact .operand (t.relocate f)
  | group ho hc _ ih =>
    rw [List.map_cons, List.map_append]
    exact .group ho hc ih
  | ahead t _ ih => exact .ahead (t.relocate f) ih
  | leftward t ht _ _ ihl ihr =>
    rw [List.map_append]
    exact .leftward (t.relocate f) ht ihl ihr
  | rightward t ht _ _ ihl ihr =>
    rw [List.map_append]
    exact .rightward (t.relocate f) ht ihl ihr
  | tighter _ ih => exact .tighter ih

theorem Nesting.deepest_relocate (depth : Nat) (ts : List Token) :
    deepest depth (ts.map (Token.relocate f)) = deepest depth ts := by
  induction ts generalizing depth with
  | nil => rfl
  | cons t ts ih =>
    have hafter : depthAfter depth (t.relocate f) = depthAfter depth t := rfl
    rw [List.map_cons, deepest, deepest, hafter, ih]

/-! ## Texts -/

theorem Piece.token?_add (p : Piece) (i d : Nat) :
    p.token? (i + d) = (p.token? i).map (Token.relocate (· + d)) := by
  cases p <;> rfl

theorem Lexicon.scan_add (x : Lexicon) (position d : Nat) (cs : List Char) :
    x.scan (position + d) cs =
      Problem.relocated (· + d) (List.map (Token.relocate (· + d))) (x.scan position cs) := by
  fun_induction x.scan position cs with
  | case1 => rw [scan]; rfl
  | case2 position c cs f hp => rw [scan, hp]; rfl
  | case3 position c cs hp => rw [scan, hp]; rfl
  | case4 position c cs p hp ih =>
    have hnext : position + d + p.length = position + p.length + d := by omega
    rw [scan, hp]
    dsimp only
    rw [hnext, ih, p.token?_add]
    cases x.scan (position + p.length) (cs.drop (p.length - 1)) with
    | error e => rfl
    | ok ts =>
      cases p.token? position <;> rfl

/-! ## Conversion -/

namespace Postfix

open Problem (relocated)

variable {limits : Limits} {source : Option String}

def Conversion.relocate (f : Nat → Nat) (s : Conversion) : Conversion :=
  { s with output := s.output.map (Token.relocate f), stack := s.stack.map (Token.relocate f) }

theorem bindsFirst_relocate (t u : Token) :
    bindsFirst (t.relocate f) (u.relocate f) = bindsFirst t u := rfl

theorem splitStack_relocate (t : Token) (stack : List Token) :
    splitStack (t.relocate f) (stack.map (Token.relocate f)) =
      (splitStack t stack).map (Prod.map (List.map (Token.relocate f))
        (List.map (Token.relocate f))) := by
  induction stack with
  | nil => rfl
  | cons u stack ih =>
    rw [List.map_cons, splitStack, splitStack, bindsFirst_relocate, ih]
    cases bindsFirst u t with
    | error e => rfl
    | ok first =>
      cases first with
      | false => rfl
      | true => cases splitStack t stack <;> rfl

theorem openGroup_relocate (s : Conversion) (t : Token) :
    openGroup limits (s.relocate f) (t.relocate f) =
      relocated f (Conversion.relocate f) (openGroup limits s t) := by
  unfold openGroup Limits.require
  dsimp only [Conversion.relocate]
  cases limits.check .depth (s.depth + 1) <;> rfl

theorem closeGroup_relocate (s : Conversion) (t : Token) :
    closeGroup source (s.relocate f) (t.relocate f) =
      relocated f (Conversion.relocate f) (closeGroup source s t) := by
  unfold closeGroup
  dsimp only [Conversion.relocate]
  rw [List.dropWhile_map, List.takeWhile_map]
  simp only [Function.comp_def, Token.isA_relocate]
  cases s.stack.dropWhile fun u => !u.isA .openParen with
  | nil => rfl
  | cons u below => simp [relocated, Except.map, Conversion.relocate]

theorem pushOperator_relocate (s : Conversion) (t : Token) :
    pushOperator (s.relocate f) (t.relocate f) =
      relocated f (Conversion.relocate f) (pushOperator s t) := by
  unfold pushOperator
  dsimp only [Conversion.relocate]
  rw [splitStack_relocate]
  cases splitStack t s.stack with
  | error e => rfl
  | ok r => simp [relocated, Except.map, Conversion.relocate]

theorem step_relocate (s : Conversion) (t : Token) :
    step limits source (s.relocate f) (t.relocate f) =
      relocated f (Conversion.relocate f) (step limits source s t) := by
  by_cases hop : t.isOperator = true
  · by_cases ho : t.isA .openParen = true
    · simp only [step, Token.isOperator_relocate, Token.isA_relocate, hop, ho, Bool.not_true,
        Bool.false_eq_true, if_false, if_true]
      exact openGroup_relocate s t
    by_cases hc : t.isA .closeParen = true
    · simp only [step, Token.isOperator_relocate, Token.isA_relocate, hop, ho, hc, Bool.not_true,
        Bool.false_eq_true, if_false, if_true]
      exact closeGroup_relocate s t
    · simp only [step, Token.isOperator_relocate, Token.isA_relocate, hop, ho, hc, Bool.not_true,
        Bool.false_eq_true, if_false]
      exact pushOperator_relocate s t
  · simp [step, hop, relocated, Except.map, Conversion.relocate]

theorem run_relocate (s : Conversion) (ts : List Token) :
    (ts.map (Token.relocate f)).foldlM (step limits source) (s.relocate f) =
      relocated f (Conversion.relocate f) (ts.foldlM (step limits source) s) := by
  induction ts generalizing s with
  | nil => rfl
  | cons t ts ih =>
    rw [List.map_cons, List.foldlM_cons, List.foldlM_cons, step_relocate]
    cases step limits source s t with
    | error p => rfl
    | ok s' => exact ih s'

theorem finish_relocate (s : Conversion) :
    finish source (s.relocate f) =
      relocated f (List.map (Token.relocate f)) (finish source s) := by
  unfold finish
  dsimp only [Conversion.relocate]
  rw [List.find?_map]
  simp only [Function.comp_def, Token.isA_relocate]
  cases s.stack.find? (·.isA .openParen) with
  | some t => rfl
  | none => simp [relocated, Except.map]

theorem ofTokens_relocate (ts : List Token) :
    ofTokens limits source (ts.map (Token.relocate f)) =
      relocated f (List.map (Token.relocate f)) (ofTokens limits source ts) := by
  have hrun := @run_relocate f limits source {} ts
  rw [ofTokens, ofTokens]
  rw [show Conversion.relocate f {} = {} from rfl] at hrun
  rw [hrun]
  cases ts.foldlM (step limits source) {} with
  | error p => rfl
  | ok s => exact finish_relocate s

theorem step_toOption (source' : Option String) (s : Conversion) (t : Token) :
    (step limits source s t).toOption = (step limits source' s t).toOption := by
  unfold step closeGroup
  split
  · rfl
  split
  · rfl
  split
  · dsimp only
    split <;> rfl
  · rfl

theorem ofTokens_toOption (source' : Option String) (ts : List Token) :
    (ofTokens limits source ts).toOption = (ofTokens limits source' ts).toOption := by
  have hfinish (s : Conversion) : (finish source s).toOption = (finish source' s).toOption := by
    unfold finish
    split <;> rfl
  have hrun (s : Conversion) : (ts.foldlM (step limits source) s >>= finish source).toOption =
      (ts.foldlM (step limits source') s >>= finish source').toOption := by
    induction ts generalizing s with
    | nil => exact hfinish s
    | cons t ts ih =>
      have hstep := @step_toOption limits source source' s t
      rw [List.foldlM_cons, List.foldlM_cons]
      cases hs : step limits source s t <;> cases hs' : step limits source' s t <;>
        rw [hs, hs'] at hstep
      · rfl
      · cases hstep
      · cases hstep
      · obtain rfl := Option.some.inj hstep
        exact ih _
  exact hrun {}

/-- Tokens that differ in their places only have one postfix order, if they have any. -/
theorem ofTokens_unplaced {ts us : List Token} (h : us.map Token.unplaced = ts.map Token.unplaced)
    (source' : Option String) :
    (ofTokens limits source us).toOption.map (List.map Token.unplaced) =
      (ofTokens limits source' ts).toOption.map (List.map Token.unplaced) := by
  have hplace (ts : List Token) : (ofTokens limits source (ts.map Token.unplaced)).toOption =
      (ofTokens limits source ts).toOption.map (List.map Token.unplaced) := by
    rw [Token.unplaced, ofTokens_relocate]
    cases ofTokens limits source ts <;> rfl
  rw [← hplace us, h, hplace ts, ofTokens_toOption source']

end Postfix

/-! ## Evaluation -/

namespace Evaluation

variable {actions : ActionTable} {scope : Scope Float}

def Operand.relocate (f : Nat → Nat) : Operand → Operand
  | .number x => .number x
  | .token t => .token (t.relocate f)

def Halt.relocate (f : Nat → Nat) : Halt → Halt
  | .failure e => .failure (e.relocate f)
  | .fault x => .fault x

def Machine.relocate (f : Nat → Nat) (m : Machine) : Machine :=
  { m with stack := m.stack.map (Operand.relocate f) }

theorem resolve_relocate (operator : Option Token) (x : Operand) :
    resolve scope (operator.map (Token.relocate f)) (x.relocate f) =
      (resolve scope operator x).mapError (Failure.relocate f) := by
  cases x with
  | number x => rfl
  | token t =>
    simp only [Operand.relocate, resolve, Token.type_relocate, Token.number?_relocate,
      Token.text_relocate]
    split
    · rfl
    · cases scope.find? t.text <;> rfl
    · rfl

theorem assign_relocate (operator : Token) (target : Operand) (x : Float) :
    assign scope (operator.relocate f) (target.relocate f) x =
      (assign scope operator target x).mapError (Failure.relocate f) := by
  cases target with
  | number y => rfl
  | token t =>
    by_cases hname : t.type = .symbol
    · simp only [Operand.relocate, assign, Token.type_relocate, Token.text_relocate, hname, if_true]
      cases scope.set t.text x <;> rfl
    · simp [Operand.relocate, assign, hname, Failure.relocate]

/-- What comes of a machine that holds tokens which stand elsewhere. -/
abbrev relocated (f : Nat → Nat) (r : Except Halt Machine) : Except Halt Machine :=
  (r.mapError (Halt.relocate f)).map (Machine.relocate f)

theorem execute_relocate (m : Machine) (t : Token) (o : Operator) :
    execute actions (m.relocate f) (t.relocate f) o = relocated f (execute actions m t o) := by
  obtain ⟨stack, scope⟩ := m
  have hresolve (x : Operand) := @resolve_relocate f scope (some t) x
  have hassign (target : Operand) (x : Float) := @assign_relocate f scope t target x
  simp only [Option.map_some] at hresolve
  unfold execute
  dsimp only [Machine.relocate]
  match harity : o.arity, stack with
  | 1, a :: rest =>
    simp only [List.map_cons, hresolve]
    cases resolve scope t a with
    | error e => rfl
    | ok x =>
      simp only [Result.ok_mapError, Result.ok_bind]
      rcases apply_cases actions o [x] with ⟨y, hy⟩ | ⟨r, hr⟩
      · rw [applyUnary, hy]
        rfl
      · rw [applyUnary, hr]
        rfl
  | 2, right :: left :: rest =>
    simp only [List.map_cons, hresolve, hassign]
    split
    · cases resolve scope t right with
      | error e => rfl
      | ok x =>
        simp only [Result.ok_mapError, Result.ok_bind]
        cases assign scope t left x <;> rfl
    · cases resolve scope t left with
      | error e => rfl
      | ok x =>
        cases resolve scope t right with
        | error e => rfl
        | ok y =>
          simp only [Result.ok_mapError, Result.ok_bind]
          rcases apply_cases actions o [x, y] with ⟨z, hz⟩ | ⟨r, hr⟩
          · rw [applyBinary, hz]
            rfl
          · rw [applyBinary, hr]
            rfl
  | 0, _ | 1, [] | 2, [] | 2, [_] | _ + 3, _ =>
    simp only [List.length_map]
    rfl

theorem step_relocate (m : Machine) (t : Token) :
    step actions (m.relocate f) (t.relocate f) = relocated f (step actions m t) := by
  by_cases hop : t.isOperator = true
  · simp only [step, Token.isOperator_relocate, hop, if_true, Token.operator_relocate]
    cases t.operator with
    | error e => rfl
    | ok o =>
      dsimp only
      split
      · rfl
      · exact execute_relocate m t o
  · simp only [step, Token.isOperator_relocate, hop]
    rfl

theorem run_relocate (m : Machine) (ts : List Token) :
    run actions (m.relocate f) (ts.map (Token.relocate f)) =
      ((run actions m ts).1.map (Halt.relocate f), (run actions m ts).2.relocate f) := by
  induction ts generalizing m with
  | nil => rfl
  | cons t ts ih =>
    rw [List.map_cons, run, run, step_relocate]
    cases step actions m t with
    | error h => rfl
    | ok m' => exact ih m'

theorem result_relocate (m : Machine) :
    result (m.relocate f) = (result m).mapError (Failure.relocate f) := by
  obtain ⟨stack, scope⟩ := m
  match stack with
  | [x] => exact resolve_relocate none x
  | [] => rfl
  | x :: y :: rest =>
    have hsecond : (((x :: y :: rest).map (Operand.relocate f)).reverse[1]?).bind Operand.token? =
        (((x :: y :: rest).reverse[1]?).bind Operand.token?).map (Token.relocate f) := by
      rw [← List.map_reverse, List.getElem?_map]
      rcases (x :: y :: rest).reverse[1]? with _ | _ | _ <;> rfl
    show Except.error (Failure.leftover ((x :: y :: rest).map (Operand.relocate f)).length
      ((((x :: y :: rest).map (Operand.relocate f)).reverse[1]?).bind Operand.token?)) = _
    rw [hsecond, List.length_map]
    rfl

theorem evaluate_relocate (scope : Scope Float) (ts : List Token) :
    evaluate actions scope (ts.map (Token.relocate f)) =
      ((evaluate actions scope ts).1.mapError (Halt.relocate f),
        (evaluate actions scope ts).2) := by
  have hrun := @run_relocate f actions { scope } ts
  rw [show Machine.relocate f { scope } = { scope } from rfl] at hrun
  rw [evaluate, evaluate, hrun]
  rcases run actions { scope } ts with ⟨_ | h, m⟩
  · dsimp only [Option.map_none]
    rw [result_relocate]
    cases result m <;> rfl
  · rfl

end Evaluation

end Calculator
