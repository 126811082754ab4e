/-!
# Operators

The operators of a formula with how each is written, how tightly it binds, which
way it groups and how many operands it takes. The two parentheses count as
operators that only group. `pos` and `neg` are written like `add` and `sub`;
`spelled` leaves them out, so `ofText?` reads a sign as the binary operator and
`unary?` gives its prefix form.
-/

namespace Calculator

inductive Associativity where
  | left
  | right
  deriving DecidableEq, Repr

inductive Operator where
  | openParen
  | closeParen
  | comma
  | assign
  | eq
  | ne
  | lt
  | le
  | gt
  | ge
  | add
  | sub
  | mul
  | div
  | mod
  | pow
  | not
  | pos
  | neg
  deriving DecidableEq, Repr

namespace Operator

/-- Every operator, in the order of the registry. -/
def all : List Operator :=
  [openParen, closeParen, comma, assign, eq, ne, lt, le, gt, ge, add, sub, mul, div, mod, pow, not,
    pos, neg]

theorem mem_all (o : Operator) : o ∈ all := by cases o <;> decide

def name : Operator → String
  | openParen => "LPAREN"
  | closeParen => "RPAREN"
  | comma => "COMMA"
  | assign => "ASSIGN"
  | eq => "EQ"
  | ne => "NE"
  | lt => "LT"
  | le => "LE"
  | gt => "GT"
  | ge => "GE"
  | add => "ADD"
  | sub => "SUB"
  | mul => "MUL"
  | div => "DIV"
  | mod => "MOD"
  | pow => "POW"
  | not => "NOT"
  | pos => "POS"
  | neg => "NEG"

def ofName? (s : String) : Option Operator := all.find? fun o => o.name == s

def lexeme : Operator → String
  | openParen => "("
  | closeParen => ")"
  | comma => ","
  | assign => "="
  | eq => "=="
  | ne => "!="
  | lt => "<"
  | le => "<="
  | gt => ">"
  | ge => ">="
  | add | pos => "+"
  | sub | neg => "-"
  | mul => "*"
  | div => "/"
  | mod => "%"
  | pow => "**"
  | not => "!"

/-- The higher, the tighter. -/
def precedence : Operator → Nat
  | openParen | closeParen => 0
  | comma => 1
  | assign => 3
  | eq | ne => 9
  | lt | le | gt | ge => 10
  | add | sub => 14
  | mul | div | mod => 15
  | pow => 16
  | not | pos | neg => 17

def associativity : Operator → Associativity
  | assign | pow | not | pos | neg => .right
  | _ => .left

def arity : Operator → Nat
  | openParen | closeParen => 0
  | not | pos | neg => 1
  | _ => 2

def isGrouping : Operator → Bool
  | openParen | closeParen => true
  | _ => false

/-- The reading of a binary operator that has no left operand. -/
def unary? : Operator → Option Operator
  | add => some pos
  | sub => some neg
  | _ => none

/-- The operators that text can spell, longest spelling first. -/
def spelled : List Operator :=
  let written := all.filter fun o => o != pos && o != neg
  written.filter (·.lexeme.length == 2) ++ written.filter (·.lexeme.length == 1)

/-- The operator with the longest spelling at the start of the text. -/
def ofText? (cs : List Char) : Option Operator :=
  spelled.find? fun o => o.lexeme.toList.isPrefixOf cs

/-- The operator with the longest spelling at an index of the text. -/
def at? (source : String) (position : Nat) : Option Operator :=
  ofText? (source.toList.drop position)

theorem length_lexeme (o : Operator) : o.lexeme.length = 1 ∨ o.lexeme.length = 2 := by
  cases o <;> decide

theorem isGrouping_iff {o : Operator} :
    o.isGrouping = true ↔ o = openParen ∨ o = closeParen := by
  cases o <;> decide

end Operator

end Calculator
