/-!
# Identifiers

Names of variables are written with ASCII letters, digits, `_` and `$`. A run of
such characters is an identifier when it starts with a letter; other runs are
read as names only where they are already bound.
-/

namespace Calculator.Text

def isLetter (c : Char) : Bool := ('a' ≤ c && c ≤ 'z') || ('A' ≤ c && c ≤ 'Z')

def isNameChar (c : Char) : Bool := isLetter c || ('0' ≤ c && c ≤ '9') || c == '_' || c == '$'

def nameRun (cs : List Char) : List Char := cs.takeWhile isNameChar

/-- A letter followed by name characters only. -/
def isIdentifier (name : String) : Bool :=
  match name.toList with
  | [] => false
  | c :: cs => isLetter c && (c :: cs).all isNameChar

theorem isNameChar_of_isLetter {c : Char} (h : isLetter c = true) : isNameChar c = true := by
  simp [isNameChar, h]

end Calculator.Text
