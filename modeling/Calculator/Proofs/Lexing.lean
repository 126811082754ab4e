import Calculator.Proofs.Literals
import Calculator.Token.Lexer

/-!
# Pieces of a text

What a lexer takes at the start of a text, when what follows cannot go on it: an operator, a name
or a literal, each as it is spelled. `scan_piece` is one step of the lexer.
-/

namespace Calculator

open Text

/-! ## First characters -/

def Text.startsOperand (c : Char) : Bool := isLetter c || Number.isDigit c || c == '.'

theorem Text.toNat_of_isNameChar {c : Char} (h : isNameChar c = true) :
    36 ≤ c.toNat ∧ c.toNat ≤ 122 := by
  simp only [isNameChar, isLetter, Bool.or_eq_true, Bool.and_eq_true, decide_eq_true_eq,
    beq_iff_eq, Char.le_def, UInt32.le_iff_toNat_le] at h
  rcases h with (((⟨hl, hu⟩ | ⟨hl, hu⟩) | ⟨hl, hu⟩) | rfl) | rfl
  · exact ⟨Nat.le_trans (by decide) hl, hu⟩
  · exact ⟨Nat.le_trans (by decide) hl, Nat.le_trans hu (by decide)⟩
  · exact ⟨Nat.le_trans (by decide) hl, Nat.le_trans hu (by decide)⟩
  · decide
  · decide

theorem Text.not_isLetter_of_isDigit {c : Char} (h : Number.isDigit c = true) :
    isLetter c = false := by
  simp only [Number.isDigit, Bool.and_eq_true, decide_eq_true_eq, Char.le_def,
    UInt32.le_iff_toNat_le] at h
  rw [Bool.eq_false_iff]
  intro hl
  simp only [isLetter, Bool.or_eq_true, Bool.and_eq_true, decide_eq_true_eq, Char.le_def,
    UInt32.le_iff_toNat_le] at hl
  have h9 : '9'.val.toNat = 57 := rfl
  have hA : 'A'.val.toNat = 65 := rfl
  have ha : 'a'.val.toNat = 97 := rfl
  omega

theorem Text.not_blank_of_toNat {c : Char} (h : 33 ≤ c.toNat ∧ c.toNat ≤ 126) :
    isBlank c = false := by
  rw [Bool.eq_false_iff]
  intro hb
  simp only [isBlank, inRanges, spaceRanges, List.any_cons, List.any_nil, Bool.or_eq_true,
    Bool.and_eq_true, decide_eq_true_eq, Bool.false_eq_true, or_false] at hb
  omega

theorem Text.not_blank_of_isNameChar {c : Char} (h : isNameChar c = true) : isBlank c = false := by
  have := toNat_of_isNameChar h
  exact not_blank_of_toNat ⟨by omega, by omega⟩

theorem Text.not_blank_of_startsOperand {c : Char} (h : startsOperand c = true) :
    isBlank c = false := by
  simp only [startsOperand, Bool.or_eq_true, beq_iff_eq] at h
  rcases h with (h | h) | rfl
  · exact not_blank_of_isNameChar (isNameChar_of_isLetter h)
  · exact not_blank_of_isNameChar (Literal.isNameChar_of_isDigit h)
  · decide

theorem Text.stops_of_head {cs : List Char}
    (h : ∀ c ∈ cs.head?, isNameChar c = false ∧ c ≠ '.') : Literal.Stops {} cs := by
  intro c hc
  obtain ⟨hname, hpoint⟩ := h c hc
  refine ⟨hname, hpoint, fun hsep => ?_⟩
  obtain rfl : '_' = c := Option.some.inj hsep
  cases hname

theorem Text.stops_of_blank {cs : List Char} (h : ∀ c ∈ cs.head?, isBlank c = true) :
    Literal.Stops {} cs := by
  refine stops_of_head fun c hc => ⟨?_, ?_⟩
  · rw [Bool.eq_false_iff]
    intro hname
    have hblank := h c hc
    rw [not_blank_of_isNameChar hname] at hblank
    cases hblank
  · rintro rfl
    cases h '.' hc

namespace Operator

/-- The operator that a lexer sees where this one is written. -/
def asRead : Operator → Operator
  | pos => add
  | neg => sub
  | o => o

theorem lexeme_asRead (o : Operator) : o.asRead.lexeme = o.lexeme := by cases o <;> rfl

theorem spelled_eq : spelled = [eq, ne, le, ge, pow, openParen, closeParen, comma, assign, lt, gt,
    add, sub, mul, div, mod, not] := by decide

theorem ofText?_cuts {cs : List Char} {o : Operator} (h : ofText? cs = some o) :
    o.lexeme.toList <+: cs := by
  simpa using List.find?_some h

/-- The characters that start operators. -/
def marks : List Char := ['(', ')', ',', '=', '!', '<', '>', '+', '-', '*', '/', '%']

theorem mem_marks {o : Operator} {c : Char} (h : c ∈ o.lexeme.toList.head?) : c ∈ marks := by
  cases o <;> obtain rfl := Option.some.inj h <;> decide

theorem of_marks {p : Char → Bool} (h : marks.all p = true) {o : Operator} {c : Char}
    (hc : c ∈ o.lexeme.toList.head?) : p c = true :=
  List.all_eq_true.1 h c (mem_marks hc)

theorem not_blank_lexeme (o : Operator) : ∀ c ∈ o.lexeme.toList.head?, isBlank c = false := by
  have hmarks : marks.all (!isBlank ·) = true := by decide
  exact fun c hc => by simpa using of_marks hmarks hc

theorem not_isNameChar_lexeme (o : Operator) :
    ∀ c ∈ o.lexeme.toList.head?, isNameChar c = false ∧ c ≠ '.' := by
  have hmarks : marks.all (fun c => !isNameChar c && c != '.') = true := by decide
  exact fun c hc => by simpa using of_marks hmarks hc

theorem not_extends_lexeme {o : Operator} (h : o.arity = 1 ∨ o = .openParen) :
    ∀ c ∈ o.lexeme.toList.head?, c ≠ '=' ∧ c ≠ '*' := by
  cases o <;> simp_all [arity, lexeme]

theorem lexeme_ne_nil (o : Operator) : o.lexeme.toList ≠ [] := by cases o <;> decide

theorem ofText?_of_not_mem_marks {c : Char} (h : c ∉ marks) (cs : List Char) :
    ofText? (c :: cs) = none := by
  cases ho : ofText? (c :: cs) with
  | none => rfl
  | some o =>
    have hcuts := ofText?_cuts ho
    cases hlex : o.lexeme.toList with
    | nil => exact absurd hlex (lexeme_ne_nil o)
    | cons d ds =>
      rw [hlex] at hcuts
      obtain rfl := (List.cons_prefix_cons.1 hcuts).1
      exact absurd (mem_marks (by rw [hlex]; rfl)) h

theorem ofText?_of_startsOperand {c : Char} (h : startsOperand c = true) (cs : List Char) :
    ofText? (c :: cs) = none := by
  have hmarks : marks.all (!startsOperand ·) = true := by decide
  refine ofText?_of_not_mem_marks (fun hc => ?_) cs
  simpa [h] using List.all_eq_true.1 hmarks c hc

theorem ofText?_of_isNameChar {c : Char} (h : isNameChar c = true) (cs : List Char) :
    ofText? (c :: cs) = none := by
  have hmarks : marks.all (!isNameChar ·) = true := by decide
  refine ofText?_of_not_mem_marks (fun hc => ?_) cs
  simpa [h] using List.all_eq_true.1 hmarks c hc

theorem ofText?_lexeme (o : Operator) {rest : List Char}
    (h : o = .closeParen ∨ ∀ c ∈ rest.head?, c ≠ '=' ∧ c ≠ '*') :
    ofText? (o.lexeme.toList ++ rest) = some o.asRead := by
  cases rest with
  | nil => cases o <;> decide
  | cons c rest =>
    have heq : '=' = c ↔ c = '=' := eq_comm
    have hmul : '*' = c ↔ c = '*' := eq_comm
    cases o <;> simp_all [ofText?, spelled_eq, lexeme, asRead]

end Operator

/-! ## Names -/

def Text.isWord (name : String) : Bool := !name.toList.isEmpty && name.toList.all isNameChar

theorem Text.isWord_iff {name : String} :
    isWord name = true ↔ name.toList ≠ [] ∧ ∀ c ∈ name.toList, isNameChar c = true := by
  simp [isWord]

namespace Lexicon

variable {x : Lexicon} {c : Char} {cs rest : List Char}

theorem isIdentifier_iff {name : String} :
    isIdentifier name = true ↔
      ∃ c cs, name.toList = c :: cs ∧ isLetter c = true ∧ ∀ d ∈ c :: cs, isNameChar d = true := by
  unfold isIdentifier
  constructor
  · intro h
    split at h
    · cases h
    · next c cs hname =>
      simp only [Bool.and_eq_true, List.all_eq_true] at h
      exact ⟨c, cs, hname, h.1, h.2⟩
  · rintro ⟨c, cs, hname, hc, hcs⟩
    simp only [hname, hc, Bool.true_and, List.all_eq_true]
    exact hcs

theorem isWord_of_isIdentifier {name : String} (h : isIdentifier name = true) :
    isWord name = true := by
  obtain ⟨c, cs, hcs, _, hall⟩ := isIdentifier_iff.1 h
  rw [isWord_iff, hcs]
  exact ⟨List.cons_ne_nil c cs, hall⟩

def Knows (x : Lexicon) (name : String) : Prop :=
  isWord name = true ∧ (x.bound name = true ∨ isIdentifier name = true)

theorem knows_of_isIdentifier {name : String} (h : isIdentifier name = true) : x.Knows name :=
  ⟨isWord_of_isIdentifier h, .inr h⟩

theorem isName_nameRun_iff :
    x.isName (nameRun cs) = true ↔ nameRun cs ≠ [] ∧
      (x.bound (String.ofList (nameRun cs)) = true ∨
        isIdentifier (String.ofList (nameRun cs)) = true) := by
  simp [isName]

theorem isWord_nameRun (h : nameRun cs ≠ []) : isWord (String.ofList (nameRun cs)) = true := by
  rw [isWord_iff, String.toList_ofList]
  exact ⟨h, List.all_eq_true.1 List.all_takeWhile⟩

theorem nameRun_append {name : List Char} (hname : ∀ c ∈ name, isNameChar c = true)
    (hr : ∀ c ∈ rest.head?, isNameChar c = false) : nameRun (name ++ rest) = name := by
  rw [nameRun, List.takeWhile_append_of_pos hname]
  cases rest with
  | nil => simp
  | cons c rest => simp [hr c rfl]

theorem not_isIdentifier_nameRun (hc : isLetter c = false) :
    isIdentifier (String.ofList (nameRun (c :: cs))) = false := by
  rw [Bool.eq_false_iff]
  intro h
  obtain ⟨d, ds, hd, hletter, _⟩ := isIdentifier_iff.1 h
  rw [String.toList_ofList, nameRun, List.takeWhile_cons] at hd
  split at hd
  · obtain rfl := (List.cons.inj hd).1
    rw [hc] at hletter
    cases hletter
  · cases hd

theorem isName_eq_false (names : ∀ n, x.bound n = true → isIdentifier n = true)
    (hc : isLetter c = false) : x.isName (nameRun (c :: cs)) = false := by
  have hrun : isIdentifier (String.ofList (nameRun (c :: cs))) = false :=
    not_isIdentifier_nameRun hc
  have hbound : x.bound (String.ofList (nameRun (c :: cs))) = false := by
    rw [Bool.eq_false_iff]
    intro h
    rw [names _ h] at hrun
    cases hrun
  simp [isName, hrun, hbound]

/-! ## Pieces -/

theorem pieceAt_blank (hc : isBlank c = true) : x.pieceAt c cs = .ok (some .blank) := by
  simp [pieceAt, hc]

theorem pieceAt_operator {o : Operator} (hc : isBlank c = false)
    (ho : Operator.ofText? (c :: cs) = some o) : x.pieceAt c cs = .ok (some (.operator o)) := by
  simp [pieceAt, hc, ho]

theorem pieceAt_number (hc : startsOperand c = true) (hname : x.isName (nameRun (c :: cs)) = false)
    {m : Literal.Match} (hm : x.scanner.scan x.options (c :: cs) = .ok m) (hne : m.text ≠ []) :
    x.pieceAt c cs = .ok (some (.number m)) := by
  simp [pieceAt, not_blank_of_startsOperand hc, Operator.ofText?_of_startsOperand hc, hname, hm,
    hne, Except.map]

theorem pieceAt_fault (hc : startsOperand c = true) (hname : x.isName (nameRun (c :: cs)) = false)
    {f : Literal.Fault} (hf : x.scanner.scan x.options (c :: cs) = .error f) :
    x.pieceAt c cs = .error f := by
  simp [pieceAt, not_blank_of_startsOperand hc, Operator.ofText?_of_startsOperand hc, hname, hf,
    Except.map]

/-! ## Steps -/

theorem scan_blank (hc : isBlank c = true) (position : Nat) :
    x.scan position (c :: cs) = x.scan (position + 1) cs := by
  rw [scan, pieceAt_blank hc]
  show (x.scan (position + 1) cs).map (fun ts => ts) = _
  cases x.scan (position + 1) cs <;> rfl

/-- A piece makes its token, and the lexer goes on behind it. -/
theorem scan_piece {p : Piece} {t : Token} {position : Nat}
    (hp : x.pieceAt c (cs ++ rest) = .ok (some p)) (hlen : p.length = cs.length + 1)
    (ht : p.token? position = some t) :
    x.scan position (c :: cs ++ rest) =
      (x.scan (position + (cs.length + 1)) rest).map (t :: ·) := by
  rw [List.cons_append, scan, hp]
  simp only [hlen, ht, Nat.add_sub_cancel, List.drop_left]
  rfl

theorem scan_operator {o : Operator}
    (hr : o = .closeParen ∨ ∀ c ∈ rest.head?, c ≠ '=' ∧ c ≠ '*') (position : Nat) :
    x.scan position (o.lexeme.toList ++ rest) =
      (x.scan (position + o.lexeme.toList.length) rest).map
        (Token.ofOperator o.asRead position :: ·) := by
  have ho := Operator.ofText?_lexeme o hr
  have hblank := Operator.not_blank_lexeme o
  have hlen : (Piece.operator o.asRead).length = o.lexeme.toList.length := by
    rw [Piece.length, Operator.lexeme_asRead, String.length_toList]
  cases hlex : o.lexeme.toList with
  | nil => exact absurd hlex (Operator.lexeme_ne_nil o)
  | cons c cs =>
    rw [hlex] at ho hblank hlen
    exact scan_piece (pieceAt_operator (hblank c rfl) ho) hlen rfl

/-- A word that is known is read as a name where its last character is followed by another kind. -/
theorem scan_word {name : String} (h : x.Knows name) (hr : ∀ c ∈ rest.head?, isNameChar c = false)
    (position : Nat) :
    x.scan position (name.toList ++ rest) =
      (x.scan (position + name.toList.length) rest).map (Token.ofSymbol name position :: ·) := by
  obtain ⟨hne, hall⟩ := isWord_iff.1 h.1
  have hofList : String.ofList name.toList = name := String.ofList_toList
  have hrun : nameRun (name.toList ++ rest) = name.toList := nameRun_append hall hr
  have hname : x.isName name.toList = true := by
    rw [← hrun, isName_nameRun_iff, hrun, hofList]
    exact ⟨hne, h.2⟩
  cases hcs : name.toList with
  | nil => exact absurd hcs hne
  | cons c cs =>
    rw [hcs] at hall hofList hrun hname
    have hchar : isNameChar c = true := hall c List.mem_cons_self
    have hpiece : x.pieceAt c (cs ++ rest) = .ok (some (.symbol (c :: cs))) := by
      rw [List.cons_append] at hrun
      simp [pieceAt, not_blank_of_isNameChar hchar, Operator.ofText?_of_isNameChar hchar, hrun,
        hname]
    exact scan_piece hpiece rfl (by rw [Piece.token?, hofList])

theorem first_of_literal (signed : x.options.signed = false) {m : Literal.Match}
    (h : Literal.scan x.options (c :: cs) = .ok m) (hne : m.text ≠ []) :
    startsOperand c = true ∧ isLetter c = false := by
  rcases Literal.first_of_scan signed h hne with hd | rfl
  · exact ⟨by simp [startsOperand, hd], not_isLetter_of_isDigit hd⟩
  · decide

theorem scan_literal (scanner : x.scanner = .literals) (signed : x.options.signed = false)
    {text : String} {v : Float} (h : Literal.scan x.options text.toList = .ok ⟨text.toList, v⟩)
    (hne : text.toList ≠ []) (hr : Literal.Stops x.options rest)
    (hname : x.isName (nameRun (text.toList ++ rest)) = false) (position : Nat) :
    x.scan position (text.toList ++ rest) =
      (x.scan (position + text.toList.length) rest).map
        (Token.ofNumber text v position :: ·) := by
  have hscan : x.scanner.scan x.options (text.toList ++ rest) = .ok ⟨text.toList, v⟩ := by
    rw [scanner]
    exact Literal.scan_append hr h hne
  cases hcs : text.toList with
  | nil => exact absurd hcs hne
  | cons c cs =>
    rw [hcs] at h hscan hname
    have hstart := first_of_literal signed h (List.cons_ne_nil _ _)
    have hpiece := pieceAt_number hstart.1 hname hscan (List.cons_ne_nil _ _)
    refine scan_piece hpiece rfl ?_
    rw [Piece.token?, ← hcs, String.ofList_toList]

theorem scan_number (names : ∀ n, x.bound n = true → isIdentifier n = true)
    (scanner : x.scanner = .literals) (signed : x.options.signed = false) {text : String}
    {v : Float} (h : Literal.scan x.options text.toList = .ok ⟨text.toList, v⟩)
    (hne : text.toList ≠ []) (hr : Literal.Stops x.options rest) (position : Nat) :
    x.scan position (text.toList ++ rest) =
      (x.scan (position + text.toList.length) rest).map
        (Token.ofNumber text v position :: ·) := by
  refine scan_literal scanner signed h hne hr ?_ position
  cases hcs : text.toList with
  | nil => exact absurd hcs hne
  | cons c cs =>
    rw [hcs] at h
    exact isName_eq_false names (first_of_literal signed h (List.cons_ne_nil _ _)).2

end Lexicon

end Calculator
