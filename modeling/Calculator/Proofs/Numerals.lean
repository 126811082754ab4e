import Calculator.Proofs.Separators
import Calculator.Text.Identifier
import Mathlib.Data.List.Induction
import Mathlib.Data.Nat.Digits.Defs

/-!
# The numerals that a literal may be

Which texts are literals and which numbers they denote, said without the scan. A `Row` is digits
with at most one separator between two of them; a `Numeral` is a radix mark with a row behind it,
or a decimal significand with an optional exponent; `Denotes` puts a sign in front. The number is
exact, a `Magnitude`. Where the separator `standsApart` from all that a literal is written with, a
text denotes one number at most (`Numeral.unique`).
-/

namespace Calculator.Literal

open Number Text

/-! ## Digits -/

/-- A digit of the base, a letter being of either case, and what it is worth. -/
def Worth (base : Nat) (c : Char) (n : Nat) : Prop :=
  n < base ∧ ("0123456789abcdef".toList[n]? = some c ∨ "0123456789ABCDEF".toList[n]? = some c)

instance (base : Nat) (c : Char) (n : Nat) : Decidable (Worth base c n) :=
  inferInstanceAs (Decidable (_ ∧ _))

def Spells (digit : Char → Bool) (base : Nat) : Prop :=
  ∀ c, digit c = true ↔ ∃ n, Worth base c n

theorem Worth.mono {base base' : Nat} {c : Char} {n : Nat} (h : Worth base c n)
    (hle : base ≤ base') : Worth base' c n := ⟨Nat.lt_of_lt_of_le h.1 hle, h.2⟩

theorem Worth.induction {base : Nat} {c : Char} {n : Nat} {p : Char → Nat → Prop}
    (hp : ∀ k : Fin 16, k.val < base →
      p "0123456789abcdef".toList[k] k ∧ p "0123456789ABCDEF".toList[k] k)
    (h : Worth base c n) : p c n := by
  obtain ⟨hbase, h | h⟩ := h
  · obtain ⟨hn, rfl⟩ := List.getElem?_eq_some_iff.1 h
    exact (hp ⟨n, hn⟩ hbase).1
  · obtain ⟨hn, rfl⟩ := List.getElem?_eq_some_iff.1 h
    exact (hp ⟨n, hn⟩ hbase).2

theorem Worth.digitValue_eq {base : Nat} {c : Char} {n : Nat} (h : Worth base c n) :
    digitValue c = n := by
  have h16 : ∀ k : Fin 16, digitValue "0123456789abcdef".toList[k] = k ∧
      digitValue "0123456789ABCDEF".toList[k] = k := by decide
  exact h.induction (p := fun c n => digitValue c = n) fun k _ => h16 k

theorem Worth.hexadecimal {base : Nat} {c : Char} {n : Nat} (h : Worth base c n) :
    Radix.hexadecimal.isDigit c = true := by
  have h16 : ∀ k : Fin 16, Radix.hexadecimal.isDigit "0123456789abcdef".toList[k] = true ∧
      Radix.hexadecimal.isDigit "0123456789ABCDEF".toList[k] = true := by decide
  exact h.induction (p := fun c _ => Radix.hexadecimal.isDigit c = true) fun k _ => h16 k

theorem worth_of_between {base : Nat} {first last c : Char} (h : first ≤ c ∧ c ≤ last)
    (hbase : ∀ i < last.toNat + 1 - first.toNat,
      Worth base (Char.ofNat (first.toNat + i)) (digitValue (Char.ofNat (first.toNat + i)))) :
    Worth base c (digitValue c) := by
  have hfirst : first.toNat ≤ c.toNat := h.1
  have hlast : c.toNat ≤ last.toNat := h.2
  have hc := hbase (c.toNat - first.toNat) (by omega)
  rwa [show first.toNat + (c.toNat - first.toNat) = c.toNat by omega, Char.ofNat_toNat] at hc

theorem worth_decimal {c : Char} (h : Number.isDigit c = true) : Worth 10 c (digitValue c) := by
  simp only [Number.isDigit, Bool.and_eq_true, decide_eq_true_eq] at h
  exact worth_of_between h (by decide)

theorem worth_radix {r : Radix} {c : Char} (h : r.isDigit c = true) :
    Worth r.base c (digitValue c) := by
  cases r with
  | binary =>
    simp only [Radix.isDigit, Bool.or_eq_true, beq_iff_eq] at h
    rcases h with rfl | rfl <;> decide
  | octal =>
    simp only [Radix.isDigit, Bool.and_eq_true, decide_eq_true_eq] at h
    exact worth_of_between h (by decide)
  | hexadecimal =>
    simp only [Radix.isDigit, Bool.or_eq_true, Bool.and_eq_true, decide_eq_true_eq] at h
    rcases h with (h | h) | h
    · exact (worth_decimal h).mono (by decide)
    · exact worth_of_between h (by decide)
    · exact worth_of_between h (by decide)

theorem spells_decimal : Spells Number.isDigit 10 := by
  have h16 : ∀ k : Fin 16, k.val < 10 → Number.isDigit "0123456789abcdef".toList[k] = true ∧
      Number.isDigit "0123456789ABCDEF".toList[k] = true := by decide
  exact fun c => ⟨fun h => ⟨_, worth_decimal h⟩, fun ⟨n, h⟩ =>
    h.induction (p := fun c _ => Number.isDigit c = true) h16⟩

theorem spells_radix (r : Radix) : Spells r.isDigit r.base := by
  have h16 : ∀ k : Fin 16, k.val < r.base → r.isDigit "0123456789abcdef".toList[k] = true ∧
      r.isDigit "0123456789ABCDEF".toList[k] = true := by
    cases r <;> decide
  exact fun c => ⟨fun h => ⟨_, worth_radix h⟩, fun ⟨n, h⟩ =>
    h.induction (p := fun c _ => r.isDigit c = true) h16⟩

/-! ## The grammar -/

/-- Digits with at most one separator between two of them, and what the digits are worth. -/
inductive Row (base : Nat) (separator : Option Char) : List Char → List Nat → Prop
  | single {c : Char} {n : Nat} (hc : Worth base c n) : Row base separator [c] [n]
  | cons {c : Char} {n : Nat} {cs : List Char} {ns : List Nat} (hc : Worth base c n)
    (h : Row base separator cs ns) : Row base separator (c :: cs) (n :: ns)
  | separated {c s : Char} {n : Nat} {cs : List Char} {ns : List Nat} (hc : Worth base c n)
    (hs : separator = some s) (h : Row base separator cs ns) :
    Row base separator (c :: s :: cs) (n :: ns)

/-- The number that digits denote, the highest of them in front. -/
def inBase (base : Nat) (ns : List Nat) : Nat := Nat.ofDigits base ns.reverse

/-- The letters behind a leading zero that mark a radix. -/
def Radix.marks : Radix → List Char
  | binary => ['b', 'B']
  | octal => ['o', 'O']
  | hexadecimal => ['x', 'X']

/-- An optional sign, and whether it is a minus. -/
inductive Sign : List Char → Bool → Prop
  | absent : Sign [] false
  | plus : Sign ['+'] false
  | minus : Sign ['-'] true

/-- The digits in front of the point; there may be none. -/
inductive Whole (o : Options) : List Char → List Nat → Prop
  | absent : Whole o [] []
  | digits {cs : List Char} {ns : List Nat} (h : Row 10 o.separator cs ns) : Whole o cs ns

/-- An optional point with digits behind it. -/
inductive Fraction (o : Options) : List Char → List Nat → Prop
  | absent : Fraction o [] []
  | point {cs : List Char} {ns : List Nat} (ho : o.decimal = true)
    (h : Row 10 o.separator cs ns) : Fraction o ('.' :: cs) ns

/-- An optional exponent. -/
inductive Exponent (o : Options) : List Char → Int → Prop
  | absent : Exponent o [] 0
  | mark {m : Char} {sign cs : List Char} {negative : Bool} {ns : List Nat}
    (ho : o.exponent = true) (hm : m = 'e' ∨ m = 'E') (hsign : Sign sign negative)
    (h : Row 10 o.separator cs ns) :
    Exponent o (m :: (sign ++ cs))
      (if negative then -(inBase 10 ns : Int) else inBase 10 ns)

/-- The number that a literal denotes, its sign apart: with a radix whole, otherwise a decimal. -/
inductive Magnitude where
  | whole (n : Nat)
  | decimal (d : Decimal)

def Magnitude.toFloat : Magnitude → Float
  | whole n => ofNat n
  | decimal d => d.toFloat

/-- A literal without its sign, and the number that it denotes. -/
inductive Numeral (o : Options) : List Char → Magnitude → Prop
  | radix {r : Radix} {m : Char} {cs : List Char} {ns : List Nat} (hm : m ∈ r.marks)
    (h : Row r.base o.separator cs ns) :
    Numeral o ('0' :: m :: cs) (.whole (inBase r.base ns))
  | decimal {whole fraction exponent : List Char} {ws fs : List Nat} {e : Int}
    (hw : Whole o whole ws) (hf : Fraction o fraction fs) (hne : whole ++ fraction ≠ [])
    (he : Exponent o exponent e) :
    Numeral o (whole ++ fraction ++ exponent) (.decimal ⟨inBase 10 (ws ++ fs), e - fs.length⟩)

/-- A literal: whether it has a minus, and the number without it. -/
inductive Denotes (o : Options) : List Char → Bool → Magnitude → Prop
  | signed {sign cs : List Char} {negative : Bool} {x : Magnitude} (hsign : Sign sign negative)
    (ho : sign ≠ [] → o.signed = true) (h : Numeral o cs x) :
    Denotes o (sign ++ cs) negative x

/-- The separator is no character that a literal is written with besides. -/
def Options.standsApart (o : Options) : Bool :=
  o.separator.all fun c => !(isLetter c || isDigit c || c == '.' || c == '+' || c == '-')

variable {o : Options} {base : Nat} {separator : Option Char} {cs : List Char} {ns : List Nat}

theorem separator_apart (ho : o.standsApart = true) {c : Char} (hs : o.separator = some c) :
    isLetter c = false ∧ isDigit c = false ∧ c ≠ '.' ∧ c ≠ '+' ∧ c ≠ '-' := by
  simpa [Options.standsApart, hs, and_assoc] using ho

theorem keepsDigits_of_standsApart (ho : o.standsApart = true) : o.keepsDigits = true := by
  unfold Options.keepsDigits
  cases hs : o.separator with
  | none => rfl
  | some c =>
    obtain ⟨hletter, hdigit, -⟩ := separator_apart ho hs
    rw [Option.all_some, Bool.not_eq_true', Bool.eq_false_iff]
    intro h
    simp only [Radix.isDigit, hdigit, Bool.false_or, Bool.or_eq_true, Bool.and_eq_true,
      decide_eq_true_eq] at h
    simp only [isLetter, Bool.or_eq_false_iff, Bool.and_eq_false_iff, decide_eq_false_iff_not]
      at hletter
    rcases h with h | h
    · exact hletter.1.elim (· h.1) (· (Char.le_trans h.2 (by decide)))
    · exact hletter.2.elim (· h.1) (· (Char.le_trans h.2 (by decide)))

/-! ## Rows -/

theorem Row.exists_cons (h : Row base separator cs ns) :
    ∃ c n rest, cs = c :: rest ∧ Worth base c n := by
  cases h with
  | single hc | cons hc | separated hc => exact ⟨_, _, _, rfl, hc⟩

theorem Row.ne_nil (h : Row base separator cs ns) : cs ≠ [] := by
  obtain ⟨c, n, rest, rfl, -⟩ := h.exists_cons
  exact List.cons_ne_nil c rest

theorem Row.mem (h : Row base separator cs ns) {c : Char} (hc : c ∈ cs) :
    (∃ n, Worth base c n) ∨ separator = some c := by
  induction h with
  | single hd =>
    rw [List.mem_singleton.1 hc]
    exact .inl ⟨_, hd⟩
  | cons hd _ ih =>
    rcases List.mem_cons.1 hc with rfl | hc
    · exact .inl ⟨_, hd⟩
    · exact ih hc
  | separated hd hs _ ih =>
    rcases List.mem_cons.1 hc with rfl | hc
    · exact .inl ⟨_, hd⟩
    rcases List.mem_cons.1 hc with rfl | hc
    · exact .inr hs
    · exact ih hc

theorem Row.digits (ho : o.keepsDigits = true) (h : Row base o.separator cs ns) :
    (withoutSeparator o cs).map digitValue = ns ∧
      ∀ c ∈ withoutSeparator o cs, ∃ n, Worth base c n := by
  have keep {c : Char} {n : Nat} (hc : Worth base c n) (cs : List Char) :
      withoutSeparator o (c :: cs) = c :: withoutSeparator o cs :=
    List.filter_cons_of_pos (by simpa using (separator_ne_digit ho hc.hexadecimal).symm)
  induction h with
  | single hc =>
    rw [keep hc]
    exact ⟨congrArg ([·]) hc.digitValue_eq, fun d hd => ⟨_, List.mem_singleton.1 hd ▸ hc⟩⟩
  | cons hc _ ih =>
    rw [keep hc, List.map_cons, ih.1, hc.digitValue_eq]
    exact ⟨rfl, List.forall_mem_cons.2 ⟨⟨_, hc⟩, ih.2⟩⟩
  | @separated c s n cs ns hc hs _ ih =>
    have hout : withoutSeparator o (s :: cs) = withoutSeparator o cs :=
      List.filter_cons_of_neg (by simp [hs])
    rw [keep hc, hout, List.map_cons, ih.1, hc.digitValue_eq]
    exact ⟨rfl, List.forall_mem_cons.2 ⟨⟨_, hc⟩, ih.2⟩⟩

theorem ofDigits_eq (base : Nat) (cs : List Char) :
    ofDigits base cs = inBase base (cs.map digitValue) := by
  induction cs using List.reverseRecOn with
  | nil => rfl
  | append_singleton cs c ih =>
    unfold inBase at ih ⊢
    rw [List.map_append, List.map_singleton, List.reverse_append, List.reverse_singleton,
      List.singleton_append, Nat.ofDigits_cons, ← ih]
    simp [ofDigits, Nat.add_comm]

theorem Row.isDigits (ho : o.keepsDigits = true) (h : Row 10 o.separator cs ns) :
    IsDigits (withoutSeparator o cs) := by
  obtain ⟨hmap, hall⟩ := h.digits ho
  refine ⟨fun hnil => ?_, fun c hc => (spells_decimal c).2 (hall c hc)⟩
  rw [hnil] at hmap
  subst hmap
  cases h

/-! ## Decimal numerals -/

theorem Sign.cases {sign : List Char} {negative : Bool} (h : Sign sign negative) :
    (sign = [] ∨ sign = ['+'] ∨ sign = ['-']) ∧ (negative = true ↔ sign = ['-']) := by
  cases h <;> simp

theorem withoutSeparator_append (cs ds : List Char) :
    withoutSeparator o (cs ++ ds) = withoutSeparator o cs ++ withoutSeparator o ds :=
  List.filter_append ..

theorem Whole.read (ho : o.keepsDigits = true) (h : Whole o cs ns) :
    (withoutSeparator o cs).map digitValue = ns ∧
      (∀ c ∈ withoutSeparator o cs, isDigit c = true) ∧
      (withoutSeparator o cs = [] → cs = []) := by
  cases h with
  | absent => exact ⟨rfl, fun c hc => (nomatch hc), fun _ => rfl⟩
  | digits h =>
    exact ⟨(h.digits ho).1, (h.isDigits ho).2, fun hnil => absurd hnil (h.isDigits ho).1⟩

theorem withoutSeparator_cons {c : Char} (hc : o.separator ≠ some c) (cs : List Char) :
    withoutSeparator o (c :: cs) = c :: withoutSeparator o cs :=
  List.filter_cons_of_pos (by simpa using hc.symm)

theorem Fraction.read (ho : o.standsApart = true) (h : Fraction o cs ns) :
    ∃ point ds, withoutSeparator o cs = point ++ ds ∧ (point = ['.'] ∨ point ++ ds = []) ∧
      ds.map digitValue = ns ∧ (∀ c ∈ ds, isDigit c = true) ∧ (ds = [] → cs = []) := by
  have hkeeps := keepsDigits_of_standsApart ho
  cases h with
  | absent => exact ⟨[], [], rfl, .inr rfl, rfl, fun c hc => (nomatch hc), fun _ => rfl⟩
  | @point cs ns _ h =>
    have hpoint : o.separator ≠ some '.' := fun hs => (separator_apart ho hs).2.2.1 rfl
    refine ⟨['.'], _, withoutSeparator_cons hpoint cs, .inl rfl, (h.digits hkeeps).1,
      (h.isDigits hkeeps).2, fun hnil => absurd hnil (h.isDigits hkeeps).1⟩

theorem Exponent.read (ho : o.standsApart = true) {e : Int} (h : Exponent o cs e) :
    Decimal.readExponent? (withoutSeparator o cs) = some e ∧
      ∀ c ∈ (withoutSeparator o cs).head?, isDigit c = false ∧ c ≠ '.' := by
  have hkeeps := keepsDigits_of_standsApart ho
  cases h with
  | absent => exact ⟨rfl, fun _ hc => nomatch hc⟩
  | @mark m sign cs negative ns _ hm hsign h =>
    have hmark : o.separator ≠ some m := fun hs => by
      have := (separator_apart ho hs).1
      rcases hm with rfl | rfl <;> cases this
    obtain ⟨hcases, hnegative⟩ := hsign.cases
    have hsign : withoutSeparator o sign = sign := by
      rcases hcases with rfl | rfl | rfl
      · rfl
      · exact withoutSeparator_cons (fun hs => (separator_apart ho hs).2.2.2.1 rfl) []
      · exact withoutSeparator_cons (fun hs => (separator_apart ho hs).2.2.2.2 rfl) []
    have hread : Decimal.readSigned? (sign ++ withoutSeparator o cs) =
        some (if negative then -(inBase 10 ns : Int) else inBase 10 ns) := by
      rw [readSigned?_eq hcases (h.isDigits hkeeps), ofDigits_eq, (h.digits hkeeps).1]
      simp only [hnegative]
    rw [withoutSeparator_cons hmark, withoutSeparator_append, hsign]
    rcases hm with rfl | rfl
    · exact ⟨hread, by rintro c ⟨⟩; decide⟩
    · exact ⟨hread, by rintro c ⟨⟩; decide⟩

/-- A decimal numeral is read as it is built: the digits on both sides of the point, moved. -/
theorem read?_decimal (ho : o.standsApart = true) {whole fraction exponent : List Char}
    {ws fs : List Nat} {e : Int} (hw : Whole o whole ws) (hf : Fraction o fraction fs)
    (hne : whole ++ fraction ≠ []) (he : Exponent o exponent e) :
    Decimal.read? (withoutSeparator o (whole ++ fraction ++ exponent)) =
      some ⟨inBase 10 (ws ++ fs), e - fs.length⟩ := by
  obtain ⟨rfl, hwhole, hwnil⟩ := hw.read (keepsDigits_of_standsApart ho)
  obtain ⟨point, ds, hfraction, hpoint, rfl, hds, hfnil⟩ := hf.read ho
  obtain ⟨hread, hhead⟩ := he.read ho
  have hdigits : withoutSeparator o whole ++ ds ≠ [] := by
    intro hnil
    obtain ⟨hnilw, hnilf⟩ := List.append_eq_nil_iff.1 hnil
    exact hne (by rw [hwnil hnilw, hfnil hnilf, List.append_nil])
  rw [withoutSeparator_append, withoutSeparator_append, hfraction,
    read?_eq hwhole hpoint hds hdigits hread hhead, ofDigits_eq, List.map_append, List.length_map]

/-! ## One text, one number -/

theorem Numeral.ne_nil {x : Magnitude} (h : Numeral o cs x) : cs ≠ [] := by
  cases h with
  | radix => exact List.cons_ne_nil _ _
  | decimal _ _ hne _ => exact fun hnil => hne (List.append_eq_nil_iff.1 hnil).1

theorem Whole.mem (h : Whole o cs ns) {c : Char} (hc : c ∈ cs) :
    isDigit c = true ∨ o.separator = some c := by
  cases h with
  | absent => cases hc
  | digits h => exact (h.mem hc).imp_left (spells_decimal c).2

theorem mem_decimal {whole fraction exponent : List Char} {ws fs : List Nat} {e : Int}
    (hw : Whole o whole ws) (hf : Fraction o fraction fs) (he : Exponent o exponent e) {c : Char}
    (hc : c ∈ whole ++ fraction ++ exponent) :
    (isDigit c = true ∨ o.separator = some c) ∨ c ∈ ['.', 'e', 'E', '+', '-'] := by
  have row {cs : List Char} {ns : List Nat} (h : Row 10 o.separator cs ns) (hc : c ∈ cs) :
      isDigit c = true ∨ o.separator = some c := Whole.mem (.digits h) hc
  rcases List.mem_append.1 hc with hc | hc
  · rcases List.mem_append.1 hc with hc | hc
    · exact .inl (hw.mem hc)
    · cases hf with
      | absent => cases hc
      | point _ h =>
        rcases List.mem_cons.1 hc with rfl | hc
        · exact .inr (by decide)
        · exact .inl (row h hc)
  · cases he with
    | absent => cases hc
    | mark _ hm hsign h =>
      rcases List.mem_cons.1 hc with rfl | hc
      · exact .inr (by rcases hm with rfl | rfl <;> decide)
      rcases List.mem_append.1 hc with hc | hc
      · refine .inr ?_
        rcases hsign.cases.1 with rfl | rfl | rfl
        · cases hc
        · rw [List.mem_singleton.1 hc]
          decide
        · rw [List.mem_singleton.1 hc]
          decide
      · exact .inl (row h hc)

theorem Radix.marks_cases {r : Radix} {m : Char} (h : m ∈ r.marks) :
    (r = .binary ∧ (m = 'b' ∨ m = 'B')) ∨ (r = .octal ∧ (m = 'o' ∨ m = 'O')) ∨
      (r = .hexadecimal ∧ (m = 'x' ∨ m = 'X')) := by
  cases r <;> simpa [Radix.marks] using h

theorem Radix.ofMark?_eq_some_iff {m : Char} {r : Radix} : ofMark? m = some r ↔ m ∈ r.marks := by
  constructor
  · intro h
    unfold ofMark? at h
    split at h
    all_goals cases h
    all_goals simp [marks]
  · intro h
    rcases marks_cases h with ⟨rfl, rfl | rfl⟩ | ⟨rfl, rfl | rfl⟩ | ⟨rfl, rfl | rfl⟩ <;> rfl

theorem not_mem_marks (ho : o.standsApart = true) {whole fraction exponent : List Char}
    {ws fs : List Nat} {e : Int} (hw : Whole o whole ws) (hf : Fraction o fraction fs)
    (he : Exponent o exponent e) {c : Char} (hc : c ∈ whole ++ fraction ++ exponent) (r : Radix) :
    c ∉ r.marks := by
  intro hr
  have hmark : isLetter c = true ∧ isDigit c = false ∧ c ∉ ['.', 'e', 'E', '+', '-'] := by
    rcases Radix.marks_cases hr with ⟨-, rfl | rfl⟩ | ⟨-, rfl | rfl⟩ | ⟨-, rfl | rfl⟩ <;> decide
  obtain ⟨hletter, hdigit, hother⟩ := hmark
  rcases mem_decimal hw hf he hc with (h | h) | h
  · rw [hdigit] at h
    cases h
  · rw [(separator_apart ho h).1] at hletter
    cases hletter
  · exact hother h

theorem Row.unique (ho : o.standsApart = true) {ns' : List Nat} (h : Row base o.separator cs ns)
    (h' : Row base o.separator cs ns') : ns = ns' := by
  have hkeeps := keepsDigits_of_standsApart ho
  exact (h.digits hkeeps).1.symm.trans (h'.digits hkeeps).1

theorem Numeral.unique (ho : o.standsApart = true) {x y : Magnitude} (h : Numeral o cs x)
    (h' : Numeral o cs y) : x = y := by
  generalize htext : cs = text at h'
  cases h with
  | radix hm h =>
    cases h' with
    | radix hm' h' =>
      obtain ⟨-, htext⟩ := List.cons.inj htext
      obtain ⟨rfl, rfl⟩ := List.cons.inj htext
      have hmark := (Radix.ofMark?_eq_some_iff.2 hm).symm.trans (Radix.ofMark?_eq_some_iff.2 hm')
      obtain rfl := Option.some.inj hmark
      rw [h.unique ho h']
    | decimal hw hf _ he =>
      have hmem := htext ▸ List.mem_cons_of_mem '0' List.mem_cons_self
      exact absurd hm (not_mem_marks ho hw hf he hmem _)
  | decimal hw hf hne he =>
    cases h' with
    | radix hm' _ =>
      have hmem := htext.symm ▸ List.mem_cons_of_mem '0' List.mem_cons_self
      exact absurd hm' (not_mem_marks ho hw hf he hmem _)
    | decimal hw' hf' hne' he' =>
      have hread := read?_decimal ho hw hf hne he
      rw [htext, read?_decimal ho hw' hf' hne' he', Option.some.injEq] at hread
      rw [hread]

end Calculator.Literal
