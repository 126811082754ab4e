import Calculator.Proofs.Numerals
import Calculator.Proofs.Literals

/-!
# The longest literal

The scan takes the longest prefix of a text that is a literal (`scan_longest`). A row of digits goes
as far as a `Row` can, and where a point or an exponent mark stands behind a row the row ends
there, so each part that is read is the longest one for the parts that are read after it too.
-/

namespace Calculator.Literal

open Number Text

variable {o : Options} {base : Nat} {separator : Option Char} {digit : Char → Bool}
  {cs text rest : List Char} {ns : List Nat}

/-! ## Rows -/

theorem Row.cuts_digitRun (hd : Spells digit base) (h : Row base separator text ns)
    (hp : text <+: cs) (afterDigit : Bool) : text <+: digitRun digit separator afterDigit cs := by
  induction h generalizing cs afterDigit with
  | @single c n hc =>
    obtain ⟨rest, rfl⟩ := hp
    have hdigit := (hd c).2 ⟨n, hc⟩
    simp [digitRun, hdigit]
  | @cons c n text ns hc _ ih =>
    obtain ⟨rest, rfl⟩ := hp
    have hdigit := (hd c).2 ⟨n, hc⟩
    simpa [digitRun, hdigit] using ih (List.prefix_append text rest) true
  | @separated c s n text ns hc hs h ih =>
    obtain ⟨rest, rfl⟩ := hp
    have hdigit := (hd c).2 ⟨n, hc⟩
    obtain ⟨e, m, tail, rfl, he⟩ := h.exists_cons
    have hnext := (hd e).2 ⟨m, he⟩
    have ih (afterDigit : Bool) := ih (List.prefix_append _ rest) afterDigit
    by_cases hsdigit : digit s = true
    · simpa [digitRun, hdigit, hsdigit] using ih true
    · simpa [digitRun, hdigit, hsdigit, hs, hnext] using ih false

theorem exists_row (hd : Spells digit base) (cs : List Char)
    (hne : digitRun digit separator false cs ≠ []) :
    ∃ ns, Row base separator (digitRun digit separator false cs) ns := by
  -- behind a digit there may be none, and behind a separator there is one
  have key (cs : List Char) :
      (∀ {c n}, Worth base c n →
        ∃ ns, Row base separator (c :: digitRun digit separator true cs) ns) ∧
      (cs.head?.any digit = true →
        ∃ ns, Row base separator (digitRun digit separator false cs) ns) := by
    induction cs with
    | nil => exact ⟨fun hc => ⟨_, .single hc⟩, fun h => nomatch h⟩
    | cons d cs ih =>
      constructor
      · intro c n hc
        unfold digitRun
        split
        · next hdigit =>
          obtain ⟨m, hm⟩ := (hd d).1 hdigit
          obtain ⟨ns, h⟩ := ih.1 hm
          exact ⟨_, .cons hc h⟩
        · split
          · next hs =>
            obtain ⟨ns, h⟩ := ih.2 hs.2.2
            exact ⟨_, .separated hc hs.2.1 h⟩
          · exact ⟨_, .single hc⟩
      · intro hhead
        have hdigit : digit d = true := by simpa using hhead
        obtain ⟨m, hm⟩ := (hd d).1 hdigit
        rw [digitRun, if_pos hdigit]
        exact ih.1 hm
  refine (key cs).2 ?_
  cases hrun : digitRun digit separator false cs with
  | nil => exact absurd hrun hne
  | cons c run =>
    obtain ⟨tail, rfl⟩ : ∃ tail, cs = c :: tail := by
      obtain ⟨tail, htail⟩ := digitRun_cuts digit separator false cs
      exact ⟨run ++ tail, by rw [← htail, hrun, List.cons_append]⟩
    simpa using digit_of_digitRun hrun

theorem Row.digitRun_append (hd : Spells digit base) (h : Row base separator text ns)
    (hrest : ∀ c ∈ rest.head?, digit c = false ∧ separator ≠ some c) :
    digitRun digit separator false (text ++ rest) = text := by
  rw [Literal.digitRun_append hrest]
  have hcuts := h.cuts_digitRun hd (List.prefix_refl text) false
  exact (digitRun_cuts digit separator false text).eq_of_length_le hcuts.length_le

/-! ## Decimal numerals -/

theorem ends_row (ho : o.standsApart = true) {c : Char} (hc : c ∈ ['.', 'e', 'E']) :
    isDigit c = false ∧ o.separator ≠ some c := by
  have hclass : isDigit c = false ∧ (isLetter c = true ∨ c = '.') := by
    simp only [List.mem_cons, List.not_mem_nil, or_false] at hc
    rcases hc with rfl | rfl | rfl <;> decide
  obtain ⟨hdigit, hc⟩ := hclass
  refine ⟨hdigit, fun hs => ?_⟩
  obtain ⟨hletter, -, hpoint, -⟩ := separator_apart ho hs
  rcases hc with hc | hc
  · rw [hletter] at hc
    cases hc
  · exact hpoint hc

theorem Whole.digitRun_append (h : Whole o text ns)
    (hrest : ∀ c ∈ rest.head?, isDigit c = false ∧ o.separator ≠ some c) :
    digitRun isDigit o.separator false (text ++ rest) = text := by
  cases h with
  | absent =>
    rw [Literal.digitRun_append hrest]
    rfl
  | digits h => exact h.digitRun_append spells_decimal hrest

theorem Fraction.cuts_fractionRun (h : Fraction o text ns) (hp : text <+: cs) :
    text <+: fractionRun o cs := by
  cases h with
  | absent => exact List.nil_prefix
  | @point text ns ho h =>
    obtain ⟨rest, rfl⟩ := hp
    have hcuts := h.cuts_digitRun spells_decimal (List.prefix_append text rest) false
    obtain ⟨c, n, tail, rfl, -⟩ := h.exists_cons
    rw [List.cons_append, fractionRun, ho]
    split
    · next hrun =>
      rw [← hrun]
      exact List.cons_prefix_cons.2 ⟨rfl, hcuts⟩
    · next hnone =>
      obtain ⟨more, hrun⟩ := hcuts
      exact absurd hrun.symm (hnone _ _ rfl)

theorem Fraction.fractionRun_append (ho : o.standsApart = true) (h : Fraction o text ns) {m : Char}
    (hm : m = 'e' ∨ m = 'E') : fractionRun o (text ++ m :: rest) = text := by
  cases h with
  | absent =>
    rcases hm with rfl | rfl <;> rfl
  | @point text ns hdecimal h =>
    have hrest : ∀ c ∈ (m :: rest).head?, isDigit c = false ∧ o.separator ≠ some c := by
      rintro c ⟨⟩
      exact ends_row ho (by rcases hm with rfl | rfl <;> decide)
    have hrun := h.digitRun_append spells_decimal hrest
    obtain ⟨c, n, tail, rfl, -⟩ := h.exists_cons
    rw [List.cons_append, fractionRun, hdecimal, hrun]

theorem Exponent.cuts_exponentRun {e : Int} (h : Exponent o text e) (hp : text <+: cs) :
    text <+: exponentRun o cs := by
  cases h with
  | absent => exact List.nil_prefix
  | @mark m sign text negative ns ho hm hsign h =>
    obtain ⟨rest, rfl⟩ := hp
    obtain ⟨c, n, tail, rfl, hc⟩ := h.exists_cons
    have hsign : exponentSign (sign ++ c :: tail ++ rest) = sign := by
      rcases hsign.cases.1 with rfl | rfl | rfl
      · have hdigit := (spells_decimal c).2 ⟨n, hc⟩
        have hplus : c ≠ '+' := by rintro rfl; cases hdigit
        have hminus : c ≠ '-' := by rintro rfl; cases hdigit
        simp [exponentSign, hplus, hminus]
      · rfl
      · rfl
    have hcuts := h.cuts_digitRun spells_decimal (List.prefix_append (c :: tail) rest) false
    rw [List.cons_append, exponentRun, if_pos ⟨ho, hm⟩, hsign, List.append_assoc, List.drop_left]
    obtain ⟨more, hrun⟩ := hcuts
    rw [← hrun]
    exact ⟨more, by simp⟩

theorem decimalRun_of_significand {significand : List Char}
    (h : digitRun isDigit o.separator false cs ++
      fractionRun o (cs.drop (digitRun isDigit o.separator false cs).length) = significand)
    (hne : significand ≠ []) :
    decimalRun o cs = significand ++ exponentRun o (cs.drop significand.length) := by
  unfold decimalRun
  dsimp only
  rw [h, if_neg hne]

theorem head_of_fraction_exponent {fraction exponent : List Char} {fs : List Nat} {e : Int}
    (hf : Fraction o fraction fs) (he : Exponent o exponent e) :
    ∀ c ∈ (fraction ++ exponent).head?, c ∈ ['.', 'e', 'E'] := by
  cases hf with
  | point => rintro c ⟨⟩; decide
  | absent =>
    cases he with
    | absent => exact fun c hc => (nomatch hc)
    | mark _ hm => rintro c ⟨⟩; rcases hm with rfl | rfl <;> decide

theorem cuts_decimalRun (ho : o.standsApart = true) {whole fraction exponent : List Char}
    {ws fs : List Nat} {e : Int} (hw : Whole o whole ws) (hf : Fraction o fraction fs)
    (hne : whole ++ fraction ≠ []) (he : Exponent o exponent e)
    (hp : whole ++ fraction ++ exponent <+: cs) :
    whole ++ fraction ++ exponent <+: decimalRun o cs := by
  obtain ⟨rest, rfl⟩ := hp
  have hhead := head_of_fraction_exponent hf he
  by_cases hend : fraction ++ exponent = []
  · -- nothing ends the digits but the end of the row that is read
    obtain ⟨rfl, rfl⟩ := List.append_eq_nil_iff.1 hend
    simp only [List.append_nil] at hne ⊢
    cases hw with
    | absent => exact absurd rfl hne
    | digits h =>
      have hrow := h.cuts_digitRun spells_decimal (List.prefix_append whole rest) false
      have hfull := hrow.trans (List.prefix_append _ (fractionRun o ((whole ++ rest).drop
        (digitRun isDigit o.separator false (whole ++ rest)).length)))
      rw [decimalRun_of_significand rfl fun hnil => hne (List.prefix_nil.1 (hnil ▸ hfull))]
      exact hfull.trans (List.prefix_append _ _)
  · have hwhole : digitRun isDigit o.separator false (whole ++ (fraction ++ exponent ++ rest)) =
        whole := by
      refine hw.digitRun_append fun c hc => ends_row ho (hhead c ?_)
      obtain ⟨d, tail, hcons⟩ := List.exists_cons_of_ne_nil hend
      rw [hcons] at hc ⊢
      exact hc
    rw [List.append_assoc, List.append_assoc whole, List.append_assoc]
    rw [List.append_assoc] at hwhole
    by_cases hnone : exponent = []
    · subst hnone
      have hfraction := hf.cuts_fractionRun (List.prefix_append fraction rest)
      have hfull : whole ++ fraction <+: whole ++ fractionRun o (fraction ++ rest) :=
        (List.prefix_append_right_inj whole).2 hfraction
      rw [List.nil_append] at hwhole
      rw [List.append_nil, List.nil_append,
        decimalRun_of_significand (by rw [hwhole, List.drop_left])
          fun hnil => hne (List.prefix_nil.1 (hnil ▸ hfull))]
      exact hfull.trans (List.prefix_append _ _)
    · have hfraction : fractionRun o (fraction ++ (exponent ++ rest)) = fraction := by
        cases he with
        | absent => exact absurd rfl hnone
        | mark _ hm _ _ => exact hf.fractionRun_append ho hm
      rw [decimalRun_of_significand (by rw [hwhole, List.drop_left, hfraction]) hne,
        ← List.append_assoc, ← List.append_assoc, List.drop_left, List.prefix_append_right_inj]
      exact he.cuts_exponentRun (List.prefix_append exponent rest)

/-! ## Numerals -/

theorem radixRun?_eq_some_iff {r : Radix} {mark digits : List Char} :
    radixRun? o cs = some (r, mark, digits) ↔ ∃ m tail, cs = '0' :: m :: tail ∧ m ∈ r.marks ∧
      mark = ['0', m] ∧ digits ≠ [] ∧ digits = digitRun r.isDigit o.separator false tail := by
  constructor
  · intro h
    unfold radixRun? at h
    split at h
    · next m tail =>
      split at h
      · next r' hr =>
        split at h
        · cases h
        · next d ds hrun =>
          cases h
          have hm := Radix.ofMark?_eq_some_iff.1 hr
          exact ⟨m, tail, rfl, hm, rfl, List.cons_ne_nil d ds, hrun.symm⟩
      · cases h
    · cases h
  · rintro ⟨m, tail, rfl, hm, rfl, hne, rfl⟩
    obtain ⟨d, ds, hrun⟩ := List.exists_cons_of_ne_nil hne
    simp [radixRun?, Radix.ofMark?_eq_some_iff.2 hm, hrun]

/-- The literal, its sign apart, that the scan finds at the start of a text. -/
def numeralRun (o : Options) (cs : List Char) : List Char :=
  match radixRun? o cs with
  | some (_, mark, digits) => mark ++ digits
  | none => decimalRun o cs

theorem Numeral.cuts_numeralRun (ho : o.standsApart = true) {x : Magnitude} (h : Numeral o text x)
    (hp : text <+: cs) : text <+: numeralRun o cs := by
  cases h with
  | @radix r m row ns hm h =>
    obtain ⟨rest, rfl⟩ := hp
    have hcuts := h.cuts_digitRun (spells_radix r) (List.prefix_append row rest) false
    have hne : digitRun r.isDigit o.separator false (row ++ rest) ≠ [] := fun hnil =>
      h.ne_nil (List.prefix_nil.1 (hnil ▸ hcuts))
    have hrun : radixRun? o ('0' :: m :: row ++ rest) =
        some (r, ['0', m], digitRun r.isDigit o.separator false (row ++ rest)) :=
      radixRun?_eq_some_iff.2 ⟨m, row ++ rest, rfl, hm, rfl, hne, rfl⟩
    rw [numeralRun, hrun]
    exact (List.prefix_append_right_inj ['0', m]).2 hcuts
  | @decimal whole fraction exponent ws fs e hw hf hne he =>
    unfold numeralRun
    split
    · -- behind the mark of a radix no decimal numeral goes on
      next r mark digits hrun =>
      obtain ⟨m, tail, rfl, hm, rfl, -, -⟩ := radixRun?_eq_some_iff.1 hrun
      have hmem : m ∉ whole ++ fraction ++ exponent := fun hc => not_mem_marks ho hw hf he hc r hm
      match whole ++ fraction ++ exponent, hp, hmem with
      | [], _, _ => exact List.nil_prefix
      | [c], hp, _ =>
        obtain ⟨rfl, -⟩ := List.cons_prefix_cons.1 hp
        exact ⟨m :: digits, rfl⟩
      | c :: d :: _, hp, hmem =>
        obtain ⟨-, hp⟩ := List.cons_prefix_cons.1 hp
        obtain ⟨rfl, -⟩ := List.cons_prefix_cons.1 hp
        exact absurd (List.mem_cons_of_mem c List.mem_cons_self) hmem
    · exact cuts_decimalRun ho hw hf hne he hp

/-! ## Values -/

theorem exists_whole (cs : List Char) :
    ∃ ns, Whole o (digitRun isDigit o.separator false cs) ns := by
  by_cases hne : digitRun isDigit o.separator false cs = []
  · rw [hne]
    exact ⟨[], .absent⟩
  · obtain ⟨ns, h⟩ := exists_row spells_decimal cs hne
    exact ⟨ns, .digits h⟩

theorem exists_fraction (cs : List Char) : ∃ ns, Fraction o (fractionRun o cs) ns := by
  rcases fractionRun_cases o cs with h | ⟨ho, rest, hne, h⟩
  · rw [h]
    exact ⟨[], .absent⟩
  · obtain ⟨ns, hrow⟩ := exists_row spells_decimal rest hne
    rw [h]
    exact ⟨ns, .point ho hrow⟩

theorem exists_exponent (cs : List Char) : ∃ e, Exponent o (exponentRun o cs) e := by
  rcases exponentRun_cases o cs with h | ⟨ho, m, sign, rest, hm, hsign, hne, h⟩
  · rw [h]
    exact ⟨0, .absent⟩
  · obtain ⟨ns, hrow⟩ := exists_row spells_decimal rest hne
    obtain ⟨negative, hsign⟩ : ∃ negative, Sign sign negative := by
      rcases hsign with rfl | rfl | rfl
      · exact ⟨_, .absent⟩
      · exact ⟨_, .plus⟩
      · exact ⟨_, .minus⟩
    rw [h]
    exact ⟨_, .mark ho hm hsign hrow⟩

theorem exists_decimal (ho : o.standsApart = true) (hne : decimalRun o cs ≠ []) :
    ∃ x, Numeral o (decimalRun o cs) x ∧ decimalValue o (decimalRun o cs) = .ok x.toFloat := by
  obtain ⟨r₁, r₂, hsignificand, hrun⟩ := decimalRun_eq hne
  obtain ⟨ws, hw⟩ := @exists_whole o cs
  obtain ⟨fs, hf⟩ := @exists_fraction o r₁
  obtain ⟨e, he⟩ := @exists_exponent o r₂
  refine ⟨.decimal ⟨inBase 10 (ws ++ fs), e - fs.length⟩, ?_, ?_⟩
  · rw [hrun]
    exact .decimal hw hf hsignificand he
  · rw [decimalValue, hrun, read?_decimal ho hw hf hsignificand he]
    rfl

theorem exists_radix (ho : o.standsApart = true) {r : Radix} {mark digits : List Char}
    (h : radixRun? o cs = some (r, mark, digits)) :
    ∃ x, Numeral o (mark ++ digits) x ∧ radixValue o r digits = .ok x.toFloat := by
  obtain ⟨m, tail, rfl, hm, rfl, hne, rfl⟩ := radixRun?_eq_some_iff.1 h
  obtain ⟨ns, hrow⟩ := exists_row (spells_radix r) tail hne
  obtain ⟨hmap, -⟩ := hrow.digits (keepsDigits_of_standsApart ho)
  refine ⟨.whole (inBase r.base ns), .radix hm hrow, ?_⟩
  unfold radixValue
  split
  · next hnil =>
    exact absurd hnil (withoutSeparator_ne_nil (keepsDigits_of_standsApart ho)
      Radix.hexadecimal_of_isDigit hne)
  · next d ds hds =>
    rw [hds] at hmap
    rw [ofDigits_eq, hmap]
    rfl

/-- The scan finds nothing, or a numeral behind the sign, with the float nearest to it. -/
theorem scan_cases (ho : o.standsApart = true) {sign rest : List Char}
    (hsign : signRun o cs = sign) (hrest : cs.drop sign.length = rest) :
    (numeralRun o rest = [] ∧ scan o cs = .ok .none) ∨
    ∃ x, Numeral o (numeralRun o rest) x ∧
      scan o cs = .ok ⟨sign ++ numeralRun o rest, signedValue sign x.toFloat⟩ := by
  unfold scan numeralRun
  dsimp only
  rw [hsign, hrest]
  cases hradix : radixRun? o rest with
  | some found =>
    obtain ⟨r, mark, digits⟩ := found
    obtain ⟨x, hnumeral, hvalue⟩ := exists_radix ho hradix
    refine .inr ⟨x, hnumeral, ?_⟩
    simp only [hvalue, ← List.append_assoc]
    rfl
  | none =>
    by_cases hnil : decimalRun o rest = []
    · refine .inl ⟨hnil, ?_⟩
      simp only [hnil]
    · obtain ⟨x, hnumeral, hvalue⟩ := exists_decimal ho hnil
      refine .inr ⟨x, hnumeral, ?_⟩
      obtain ⟨c, body, hrun⟩ := List.exists_cons_of_ne_nil hnil
      rw [hrun] at hvalue
      simp only [hrun, hvalue]
      rfl

/-! ## Literals -/

theorem Numeral.exists_cons {x : Magnitude} (h : Numeral o cs x) :
    ∃ c rest, cs = c :: rest ∧ (isDigit c = true ∨ c = '.') := by
  cases h with
  | radix => exact ⟨_, _, rfl, .inl (by decide)⟩
  | decimal hw hf hne he =>
    cases hw with
    | digits h =>
      obtain ⟨c, n, rest, rfl, hc⟩ := h.exists_cons
      exact ⟨c, _, rfl, .inl ((spells_decimal c).2 ⟨n, hc⟩)⟩
    | absent =>
      cases hf with
      | absent => exact absurd rfl hne
      | point => exact ⟨_, _, rfl, .inr rfl⟩

theorem Denotes.exists_numeral {negative : Bool} {x : Magnitude} (h : Denotes o text negative x)
    (hp : text <+: cs) :
    Sign (signRun o cs) negative ∧ ∃ body, text = signRun o cs ++ body ∧ Numeral o body x := by
  obtain ⟨rest, rfl⟩ := hp
  obtain @⟨sign, body, _, _, hsign, ho, h⟩ := h
  have hrun : signRun o (sign ++ body ++ rest) = sign := by
    cases hsign with
    | absent =>
      obtain ⟨c, tail, rfl, hc⟩ := h.exists_cons
      have hplus : c ≠ '+' := by
        rintro rfl
        revert hc
        decide
      have hminus : c ≠ '-' := by
        rintro rfl
        revert hc
        decide
      simp [signRun, hplus, hminus]
    | plus => simp [signRun, ho]
    | minus => simp [signRun, ho]
  rw [hrun]
  exact ⟨hsign, _, rfl, h⟩

theorem exists_sign (o : Options) (cs : List Char) :
    ∃ negative, Sign (signRun o cs) negative ∧ (signRun o cs ≠ [] → o.signed = true) := by
  unfold signRun
  split
  · split
    · next ho => exact ⟨false, .plus, fun _ => ho⟩
    · exact ⟨false, .absent, fun hne => absurd rfl hne⟩
  · split
    · next ho => exact ⟨true, .minus, fun _ => ho⟩
    · exact ⟨false, .absent, fun hne => absurd rfl hne⟩
  · exact ⟨false, .absent, fun hne => absurd rfl hne⟩

/-- A literal at the start of a text has the sign that is read and is within what is found. -/
theorem Denotes.cuts (ho : o.standsApart = true) {negative : Bool} {x : Magnitude}
    (h : Denotes o text negative x) (hp : text <+: cs) :
    Sign (signRun o cs) negative ∧ ∃ body, text = signRun o cs ++ body ∧ Numeral o body x ∧
      body <+: numeralRun o (cs.drop (signRun o cs).length) := by
  obtain ⟨hsign, body, rfl, hbody⟩ := h.exists_numeral hp
  obtain ⟨rest, hrest⟩ := signRun_cuts o cs
  refine ⟨hsign, body, rfl, hbody, hbody.cuts_numeralRun ho ?_⟩
  generalize signRun o cs = sign at hp hrest
  subst hrest
  rwa [List.drop_left, ← List.prefix_append_right_inj sign]

/--
The scan takes the longest prefix that is a literal, and nothing if and only if there is none. Its
value is the float nearest to the number that the prefix denotes, with the sign.
-/
theorem scan_longest (ho : o.standsApart = true) (cs : List Char) :
    ∃ m, scan o cs = .ok m ∧ m.text <+: cs ∧
      (m.text = [] ↔ ∀ text negative x, text <+: cs → text ≠ [] → ¬ Denotes o text negative x) ∧
      (m.text ≠ [] → ∃ negative x, Denotes o m.text negative x) ∧
      (∀ text negative x, text <+: cs → Denotes o text negative x →
        text.length ≤ m.text.length) ∧
      ∀ negative x, Denotes o m.text negative x →
        m.value = if negative then -x.toFloat else x.toFloat := by
  rcases scan_cases ho rfl rfl with ⟨hnil, hscan⟩ | ⟨x, hnumeral, hscan⟩
  · have hnone {text : List Char} {negative : Bool} {x : Magnitude} (hp : text <+: cs) :
        ¬ Denotes o text negative x := by
      intro h
      obtain ⟨-, body, -, hbody, hcuts⟩ := h.cuts ho hp
      rw [hnil] at hcuts
      exact hbody.ne_nil (List.prefix_nil.1 hcuts)
    refine ⟨.none, hscan, List.nil_prefix, ?_, ?_, ?_, ?_⟩
    · exact iff_of_true rfl fun text negative x hp _ => hnone hp
    · exact fun hne => absurd rfl hne
    · exact fun text negative x hp h => absurd h (hnone hp)
    · exact fun negative x h => absurd h (hnone List.nil_prefix)
  · obtain ⟨negative, hsign, hsigned⟩ := exists_sign o cs
    have hliteral := Denotes.signed hsign hsigned hnumeral
    have hcuts := scan_cuts hscan
    have hne : signRun o cs ++ numeralRun o (cs.drop (signRun o cs).length) ≠ [] := fun hnil =>
      hnumeral.ne_nil (List.append_eq_nil_iff.1 hnil).2
    refine ⟨_, hscan, hcuts, ?_, fun _ => ⟨negative, x, hliteral⟩, ?_, ?_⟩
    · exact iff_of_false hne fun h => h _ negative x hcuts hne hliteral
    · intro text negative y hp h
      obtain ⟨-, body, rfl, -, hbody⟩ := h.cuts ho hp
      simpa using hbody.length_le
    · intro negative y h
      obtain ⟨hsign, body, htext, hbody, -⟩ := h.cuts ho hcuts
      obtain rfl := List.append_cancel_left htext
      obtain rfl := hnumeral.unique ho hbody
      simp only [signedValue, hsign.cases.2]

/-- In `-1_0.5e+_3` the literal ends in front of the exponent mark, which no digit follows. -/
theorem scan_longest_fallback :
    Options.standsApart { signed := true } = true ∧
      ∃ m, scan { signed := true } "-1_0.5e+_3".toList = .ok m ∧ m.text = "-1_0.5".toList ∧
        m.value = -(Magnitude.decimal ⟨105, -1⟩).toFloat := by
  have ho : Options.standsApart { signed := true } = true := by decide
  obtain ⟨m, hscan, -, -, -, -, hvalue⟩ := scan_longest ho "-1_0.5e+_3".toList
  have htext : m.text = "-1_0.5".toList := by
    have h : scan { signed := true } "-1_0.5e+_3".toList = .ok ⟨"-1_0.5".toList, _⟩ := rfl
    rw [h] at hscan
    cases hscan
    rfl
  have whole : Whole { signed := true } ['1', '_', '0'] [1, 0] :=
    .digits (.separated (by decide) rfl (.single (by decide)))
  have fraction : Fraction { signed := true } ['.', '5'] [5] := .point rfl (.single (by decide))
  have hnumeral := Numeral.decimal whole fraction (by decide) .absent
  have hnumber : (⟨inBase 10 ([1, 0] ++ [5]), (0 : Int) - [5].length⟩ : Decimal) = ⟨105, -1⟩ := rfl
  rw [hnumber] at hnumeral
  have hliteral : Denotes { signed := true } m.text true (.decimal ⟨105, -1⟩) := by
    rw [htext]
    exact .signed .minus (fun _ => rfl) hnumeral
  have h := hvalue true _ hliteral
  rw [if_pos rfl] at h
  exact ⟨ho, m, hscan, htext, h⟩

end Calculator.Literal
