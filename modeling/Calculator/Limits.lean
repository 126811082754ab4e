/-!
# Limits on the work of a parse

A formula may have at most so many characters, tokens and open parentheses.
Every bound is positive; `ofValues` builds limits from whole numbers and refuses
the first bound that is not. `check` compares a count with its bound, which is
itself allowed.
-/

namespace Calculator

inductive Limit where
  | length
  | tokens
  | depth
  deriving DecidableEq, Repr

namespace Limit

def all : List Limit := [length, tokens, depth]

def name : Limit → String
  | length => "max_expression_length"
  | tokens => "max_tokens"
  | depth => "max_paren_depth"

end Limit

structure Limits where
  length : Nat := 4096
  tokens : Nat := 1024
  depth : Nat := 64
  length_pos : 0 < length := by decide
  tokens_pos : 0 < tokens := by decide
  depth_pos : 0 < depth := by decide
  deriving DecidableEq, Repr

structure Excess where
  limit : Limit
  bound : Nat
  actual : Nat
  deriving DecidableEq, Repr

namespace Excess

def message (e : Excess) : String :=
  s!"Limit exceeded: {e.limit.name} (limit: {e.bound}, actual: {e.actual})"

end Excess

namespace Limits

def bound (l : Limits) : Limit → Nat
  | .length => l.length
  | .tokens => l.tokens
  | .depth => l.depth

theorem bound_pos (l : Limits) (k : Limit) : 0 < l.bound k := by
  cases k
  · exact l.length_pos
  · exact l.tokens_pos
  · exact l.depth_pos

def check (l : Limits) (k : Limit) (actual : Nat) : Except Excess Unit :=
  if l.bound k < actual then .error ⟨k, l.bound k, actual⟩ else .ok ()

theorem check_eq_ok_iff {l : Limits} {k : Limit} {n : Nat} :
    l.check k n = .ok () ↔ n ≤ l.bound k := by
  unfold check
  split <;> simp <;> omega

theorem check_eq_error_iff {l : Limits} {k : Limit} {n : Nat} {e : Excess} :
    l.check k n = .error e ↔ l.bound k < n ∧ e = ⟨k, l.bound k, n⟩ := by
  unfold check
  split
  · simp_all only [Except.error.injEq, true_and]
    exact eq_comm
  · simp only [reduceCtorEq, false_iff, not_and]
    omega

/-- A bound that is not a positive whole number. -/
structure Error where
  limit : Limit
  deriving DecidableEq, Repr

def Error.message (e : Error) : String := s!"{e.limit.name} must be a positive integer"

/-- The limits with the given bounds, or the first of them that is not positive. -/
def ofValues (length tokens depth : Nat) : Except Error Limits :=
  if hl : 0 < length then
    if ht : 0 < tokens then
      if hd : 0 < depth then .ok ⟨length, tokens, depth, hl, ht, hd⟩
      else .error ⟨.depth⟩
    else .error ⟨.tokens⟩
  else .error ⟨.length⟩

end Limits

end Calculator
