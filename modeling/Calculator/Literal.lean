import Calculator.Number.Decimal
import Calculator.Result

/-!
# Number literals

A literal is a whole number behind a radix mark (`0x1f`, `0o17`, `0b101`) or a
decimal numeral with an optional fraction and exponent. `Options` switches the
forms, and may name a separator that stands between two digits (`1_000`).

`scan` cuts the longest literal from the start of a text and gives its value.
`digitRun`, `fractionRun` and `exponentRun` find its parts, each a piece of the
text in front of it. A separator that is itself a digit, a point, a sign or an
exponent mark can leave a text that no longer denotes a number once it is taken
out; that is a `Literal.Fault`.
-/

namespace Calculator.Literal

open Number

/-- The forms of literals that are read. -/
structure Options where
  exponent : Bool := true
  decimal : Bool := true
  separator : Option Char := some '_'
  signed : Bool := false
  deriving DecidableEq, Repr

namespace Options

/-- A separator that is more or less than one character. -/
inductive Error where
  | separator
  deriving DecidableEq, Repr

def Error.message : Error → String
  | separator => "separator must be a single character or None"

end Options

/-- The bases with a mark of their own. -/
inductive Radix where
  | binary
  | octal
  | hexadecimal
  deriving DecidableEq, Repr

namespace Radix

def base : Radix → Nat
  | binary => 2
  | octal => 8
  | hexadecimal => 16

def ofMark? : Char → Option Radix
  | 'b' | 'B' => some binary
  | 'o' | 'O' => some octal
  | 'x' | 'X' => some hexadecimal
  | _ => none

def isDigit (r : Radix) (c : Char) : Bool :=
  match r with
  | binary => c == '0' || c == '1'
  | octal => '0' ≤ c && c ≤ '7'
  | hexadecimal => Number.isDigit c || ('a' ≤ c && c ≤ 'f') || ('A' ≤ c && c ≤ 'F')

end Radix

/-- A literal whose text denotes no number. -/
inductive Fault where
  | decimal (text : List Char)
  | integer (base : Nat) (text : List Char)
  /-- A separator that is no text, of the kind that is named. -/
  | separator (kind : String)
  deriving DecidableEq, Repr

namespace Fault

def message : Fault → String
  | decimal text => "could not convert string to float: '" ++ String.ofList text ++ "'"
  | integer base text =>
    s!"invalid literal for int() with base {base}: '" ++ String.ofList text ++ "'"
  | separator kind => s!"replace() argument 1 must be str, not {kind}"

end Fault

/-- What a scanner cuts from the start of a text; no text means no literal. -/
structure Match where
  text : List Char
  value : Float

namespace Match

def none : Match := ⟨[], 0.0⟩

end Match

/-! ## Parts of a literal -/

/--
The digits at the start of a text, where a separator is taken in between two digits. The flag says
whether a digit stands in front of the text.
-/
def digitRun (digit : Char → Bool) (separator : Option Char) : Bool → List Char → List Char
  | _, [] => []
  | afterDigit, c :: cs =>
    if digit c then c :: digitRun digit separator true cs
    else if afterDigit ∧ separator = some c ∧ cs.head?.any digit then
      c :: digitRun digit separator false cs
    else []

theorem digitRun_cuts (digit : Char → Bool) (separator : Option Char) (afterDigit : Bool)
    (cs : List Char) : digitRun digit separator afterDigit cs <+: cs := by
  induction cs generalizing afterDigit with
  | nil => exact List.prefix_refl _
  | cons c cs ih =>
    unfold digitRun
    split
    · exact List.cons_prefix_cons.2 ⟨rfl, ih _⟩
    · split
      · exact List.cons_prefix_cons.2 ⟨rfl, ih _⟩
      · exact List.nil_prefix

/-- The sign that belongs to the literal: none unless signs are read. -/
def signRun (o : Options) : List Char → List Char
  | '+' :: _ => if o.signed then ['+'] else []
  | '-' :: _ => if o.signed then ['-'] else []
  | _ => []

/-- A radix mark with at least one digit behind it: the radix, the mark and the digits. -/
def radixRun? (o : Options) : List Char → Option (Radix × List Char × List Char)
  | '0' :: m :: cs =>
    match Radix.ofMark? m with
    | some r =>
      match digitRun r.isDigit o.separator false cs with
      | [] => none
      | d :: ds => some (r, ['0', m], d :: ds)
    | none => none
  | _ => none

def fractionRun (o : Options) : List Char → List Char
  | '.' :: cs =>
    match o.decimal, digitRun isDigit o.separator false cs with
    | true, d :: ds => '.' :: d :: ds
    | _, _ => []
  | _ => []

def exponentSign : List Char → List Char
  | '+' :: _ => ['+']
  | '-' :: _ => ['-']
  | _ => []

/-- An exponent mark, an optional sign and at least one digit. -/
def exponentRun (o : Options) : List Char → List Char
  | [] => []
  | c :: cs =>
    if o.exponent ∧ (c = 'e' ∨ c = 'E') then
      match digitRun isDigit o.separator false (cs.drop (exponentSign cs).length) with
      | [] => []
      | d :: ds => c :: exponentSign cs ++ d :: ds
    else []

/-- The longest decimal numeral at the start of a text. -/
def decimalRun (o : Options) (cs : List Char) : List Char :=
  let whole := digitRun isDigit o.separator false cs
  let significand := whole ++ fractionRun o (cs.drop whole.length)
  if significand = [] then []
  else significand ++ exponentRun o (cs.drop significand.length)

/-! ## Values -/

def withoutSeparator (o : Options) (cs : List Char) : List Char :=
  cs.filter fun c => some c ≠ o.separator

def decimalValue (o : Options) (body : List Char) : Except Fault Float :=
  let text := withoutSeparator o body
  match Decimal.read? text with
  | some d => .ok d.toFloat
  | none => .error (.decimal text)

def radixValue (o : Options) (r : Radix) (digits : List Char) : Except Fault Float :=
  match withoutSeparator o digits with
  | [] => .error (.integer r.base [])
  | d :: ds => .ok (Number.ofNat (ofDigits r.base (d :: ds)))

def signedValue (sign : List Char) (x : Float) : Float := if sign = ['-'] then -x else x

/-- Cuts the longest literal from the start of a text. -/
def scan (o : Options) (cs : List Char) : Except Fault Match :=
  let sign := signRun o cs
  let rest := cs.drop sign.length
  match radixRun? o rest with
  | some (r, mark, digits) =>
    (radixValue o r digits).map fun x => ⟨sign ++ mark ++ digits, signedValue sign x⟩
  | none =>
    match decimalRun o rest with
    | [] => .ok .none
    | c :: body =>
      (decimalValue o (c :: body)).map fun x => ⟨sign ++ c :: body, signedValue sign x⟩

/-! ## Every part stands at the start of its text -/

theorem append_cuts {a b cs : List Char} (ha : a <+: cs) (hb : b <+: cs.drop a.length) :
    a ++ b <+: cs := by
  obtain ⟨rest, rfl⟩ := ha
  rw [List.drop_left] at hb
  obtain ⟨tail, rfl⟩ := hb
  exact ⟨tail, by simp⟩

theorem signRun_cuts (o : Options) (cs : List Char) : signRun o cs <+: cs := by
  unfold signRun
  split
  · split
    · exact ⟨_, rfl⟩
    · exact List.nil_prefix
  · split
    · exact ⟨_, rfl⟩
    · exact List.nil_prefix
  · exact List.nil_prefix

theorem radixRun?_cuts {o : Options} {cs mark digits : List Char} {r : Radix}
    (h : radixRun? o cs = some (r, mark, digits)) : mark ++ digits <+: cs := by
  unfold radixRun? at h
  split at h
  · next m rest =>
    split at h
    · split at h
      · cases h
      · next d ds hrun =>
        cases h
        have cut := digitRun_cuts r.isDigit o.separator false rest
        rw [hrun] at cut
        simpa [List.cons_prefix_cons] using cut
    · cases h
  · cases h

theorem fractionRun_cuts (o : Options) (cs : List Char) : fractionRun o cs <+: cs := by
  unfold fractionRun
  split
  · next rest =>
    split
    · next d ds hrun =>
      rw [List.cons_prefix_cons, ← hrun]
      exact ⟨rfl, digitRun_cuts _ _ _ _⟩
    · exact List.nil_prefix
  · exact List.nil_prefix

theorem exponentSign_cuts (cs : List Char) : exponentSign cs <+: cs := by
  unfold exponentSign
  split
  · exact ⟨_, rfl⟩
  · exact ⟨_, rfl⟩
  · exact List.nil_prefix

theorem exponentRun_cuts (o : Options) (cs : List Char) : exponentRun o cs <+: cs := by
  unfold exponentRun
  split
  · exact List.nil_prefix
  · next c rest =>
    split
    · split
      · exact List.nil_prefix
      · next d ds hrun =>
        rw [List.cons_append, List.cons_prefix_cons, ← hrun]
        exact ⟨rfl, append_cuts (exponentSign_cuts rest) (digitRun_cuts _ _ _ _)⟩
    · exact List.nil_prefix

theorem decimalRun_cuts (o : Options) (cs : List Char) : decimalRun o cs <+: cs := by
  unfold decimalRun
  have whole := digitRun_cuts isDigit o.separator false cs
  have significand := append_cuts whole (fractionRun_cuts o _)
  dsimp only
  split
  · exact List.nil_prefix
  · exact append_cuts significand (exponentRun_cuts o _)

theorem scan_cuts {o : Options} {cs : List Char} {m : Match} (h : scan o cs = .ok m) :
    m.text <+: cs := by
  have sign := signRun_cuts o cs
  unfold scan at h
  dsimp only at h
  split at h
  · next r mark digits hrun =>
    obtain ⟨x, _, rfl⟩ := Result.map_eq_ok_iff.1 h
    rw [List.append_assoc]
    exact append_cuts sign (radixRun?_cuts hrun)
  · split at h
    · cases h
      exact List.nil_prefix
    · next c body hrun =>
      obtain ⟨x, _, rfl⟩ := Result.map_eq_ok_iff.1 h
      have cut := decimalRun_cuts o (cs.drop (signRun o cs).length)
      rw [hrun] at cut
      exact append_cuts sign cut

end Calculator.Literal
