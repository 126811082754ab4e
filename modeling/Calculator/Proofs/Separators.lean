import Calculator.Literal

/-!
# Separators that are no digits

A separator is taken out of a literal before its value is read. Where it is a digit of no radix
(`keepsDigits`) the digits stay, and every literal that is cut has a value (`exists_scan_eq_ok`). A
digit as a separator leaves nothing of the literal that is written with it alone
(`exists_scan_eq_error`).
-/

namespace Calculator.Literal

open Number

/-- The separator is a digit of no radix. -/
def Options.keepsDigits (o : Options) : Bool :=
  o.separator.all fun c => !Radix.hexadecimal.isDigit c

variable {o : Options} {cs : List Char}

theorem Radix.hexadecimal_of_decimal {c : Char} (h : Number.isDigit c = true) :
    hexadecimal.isDigit c = true := by
  simp [Radix.isDigit, h]

theorem Radix.hexadecimal_of_isDigit {r : Radix} {c : Char} (h : r.isDigit c = true) :
    hexadecimal.isDigit c = true := by
  cases r with
  | binary =>
    simp only [Radix.isDigit, Bool.or_eq_true, beq_iff_eq] at h
    rcases h with rfl | rfl <;> decide
  | octal =>
    simp only [Radix.isDigit, Bool.and_eq_true, decide_eq_true_eq] at h
    refine hexadecimal_of_decimal ?_
    simp only [Number.isDigit, Bool.and_eq_true, decide_eq_true_eq]
    exact ⟨h.1, Char.le_trans h.2 (by decide)⟩
  | hexadecimal => exact h

theorem separator_ne_digit (ho : o.keepsDigits = true) {c : Char}
    (hc : Radix.hexadecimal.isDigit c = true) : o.separator ≠ some c := by
  intro hs
  simp [Options.keepsDigits, hs, hc] at ho

/-! ## Rows of digits -/

theorem mem_digitRun {digit : Char → Bool} {separator : Option Char} {afterDigit : Bool} {c : Char}
    (h : c ∈ digitRun digit separator afterDigit cs) : digit c = true ∨ separator = some c := by
  induction cs generalizing afterDigit with
  | nil => cases h
  | cons d cs ih =>
    unfold digitRun at h
    split at h
    · next hd =>
      rcases List.mem_cons.1 h with rfl | h
      · exact .inl hd
      · exact ih h
    · split at h
      · next hs =>
        rcases List.mem_cons.1 h with rfl | h
        · exact .inr hs.2.1
        · exact ih h
      · cases h

theorem digit_of_digitRun {digit : Char → Bool} {separator : Option Char} {c : Char}
    {run : List Char} (h : digitRun digit separator false cs = c :: run) : digit c = true := by
  cases cs with
  | nil => cases h
  | cons d cs =>
    unfold digitRun at h
    split at h
    · next hd =>
      cases h
      exact hd
    · split at h
      · next hs => exact absurd hs.1 (by decide)
      · cases h

def IsDigits (cs : List Char) : Prop := cs ≠ [] ∧ ∀ c ∈ cs, isDigit c = true

theorem digits_withoutSeparator {digit : Char → Bool} {afterDigit : Bool} {c : Char}
    (h : c ∈ withoutSeparator o (digitRun digit o.separator afterDigit cs)) : digit c = true := by
  obtain ⟨hrun, hs⟩ := List.mem_filter.1 h
  have hs : o.separator ≠ some c := fun e => by simp [e] at hs
  exact (mem_digitRun hrun).resolve_right hs

theorem withoutSeparator_ne_nil (ho : o.keepsDigits = true) {digit : Char → Bool}
    (hdigit : ∀ {c}, digit c = true → Radix.hexadecimal.isDigit c = true)
    (hne : digitRun digit o.separator false cs ≠ []) :
    withoutSeparator o (digitRun digit o.separator false cs) ≠ [] := by
  cases hrun : digitRun digit o.separator false cs with
  | nil => exact absurd hrun hne
  | cons c run =>
    have hs := separator_ne_digit ho (hdigit (digit_of_digitRun hrun))
    rw [withoutSeparator, List.filter_cons_of_pos (by simpa using hs.symm)]
    exact List.cons_ne_nil _ _

theorem isDigits_withoutSeparator (ho : o.keepsDigits = true)
    (hne : digitRun isDigit o.separator false cs ≠ []) :
    IsDigits (withoutSeparator o (digitRun isDigit o.separator false cs)) :=
  ⟨withoutSeparator_ne_nil ho Radix.hexadecimal_of_decimal hne,
    fun _ => digits_withoutSeparator⟩

/-! ## Numerals -/

def IsFraction (cs : List Char) : Prop := ∃ ds, cs = '.' :: ds ∧ IsDigits ds

def IsExponent (cs : List Char) : Prop :=
  ∃ mark sign ds, cs = mark :: sign ++ ds ∧ (mark = 'e' ∨ mark = 'E') ∧
    (sign = [] ∨ sign = ['+'] ∨ sign = ['-']) ∧ IsDigits ds

theorem takeWhile_isDigit {ds rest : List Char} (hds : ∀ c ∈ ds, isDigit c = true)
    (hrest : ∀ c ∈ rest.head?, isDigit c = false) :
    (ds ++ rest).takeWhile isDigit = ds ∧ (ds ++ rest).dropWhile isDigit = rest := by
  rw [List.takeWhile_append_of_pos hds, List.dropWhile_append_of_pos hds]
  cases rest with
  | nil => simp
  | cons c rest => simp [hrest c rfl]

theorem readSigned?_eq {sign ds : List Char}
    (hsign : sign = [] ∨ sign = ['+'] ∨ sign = ['-']) (hds : IsDigits ds) :
    Decimal.readSigned? (sign ++ ds) =
      some (if sign = ['-'] then -(ofDigits 10 ds : Int) else ofDigits 10 ds) := by
  obtain ⟨hne, hall⟩ := hds
  have hdigits : ds ≠ [] ∧ ds.all isDigit = true := ⟨hne, List.all_eq_true.2 hall⟩
  rcases hsign with rfl | rfl | rfl
  · cases ds with
    | nil => exact absurd rfl hne
    | cons d ds =>
      have hd := hall d List.mem_cons_self
      have hplus : d ≠ '+' := by rintro rfl; cases hd
      have hminus : d ≠ '-' := by rintro rfl; cases hd
      simp [Decimal.readSigned?, hplus, hminus, hdigits.2]
  · simp [Decimal.readSigned?, hdigits]
  · simp [Decimal.readSigned?, hdigits]

theorem IsExponent.readExponent?_isSome {cs : List Char} (h : IsExponent cs) :
    (Decimal.readExponent? cs).isSome = true := by
  obtain ⟨mark, sign, ds, rfl, hmark, hsign, hds⟩ := h
  have hread := Option.isSome_of_eq_some (readSigned?_eq hsign hds)
  rcases hmark with rfl | rfl <;> exact hread

theorem IsExponent.head {cs : List Char} (h : IsExponent cs) :
    ∀ c ∈ cs.head?, isDigit c = false ∧ c ≠ '.' := by
  obtain ⟨mark, sign, ds, rfl, hmark, -, -⟩ := h
  rintro c ⟨⟩
  rcases hmark with rfl | rfl <;> decide

theorem read?_eq {whole point ds exponent : List Char} {e : Int}
    (hwhole : ∀ c ∈ whole, isDigit c = true) (hpoint : point = ['.'] ∨ point ++ ds = [])
    (hds : ∀ c ∈ ds, isDigit c = true) (hne : whole ++ ds ≠ [])
    (hread : Decimal.readExponent? exponent = some e)
    (hhead : ∀ c ∈ exponent.head?, isDigit c = false ∧ c ≠ '.') :
    Decimal.read? (whole ++ (point ++ ds) ++ exponent) =
      some ⟨ofDigits 10 (whole ++ ds), e - ds.length⟩ := by
  rw [List.append_assoc]
  unfold Decimal.read?
  rcases hpoint with rfl | hnil
  · obtain ⟨htake, hdrop⟩ := @takeWhile_isDigit whole ('.' :: ds ++ exponent) hwhole
      (by rintro c ⟨⟩; decide)
    obtain ⟨htake', hdrop'⟩ := takeWhile_isDigit hds fun c hc => (hhead c hc).1
    have hne : ¬ (whole = [] ∧ ds = []) := by simpa using hne
    rw [List.singleton_append, htake, hdrop]
    simp [htake', hdrop', hne, hread]
  · obtain ⟨rfl, rfl⟩ := List.append_eq_nil_iff.1 hnil
    obtain ⟨htake, hdrop⟩ := takeWhile_isDigit hwhole fun c hc => (hhead c hc).1
    rw [List.append_nil] at hne
    rw [List.append_nil, List.nil_append, htake, hdrop]
    cases exponent with
    | nil => simp [hne, hread]
    | cons c rest =>
      have hc : c ≠ '.' := (hhead c rfl).2
      simp [hc, hne, hread]

theorem read?_isSome {whole fraction exponent : List Char} (hwhole : ∀ c ∈ whole, isDigit c = true)
    (hfraction : fraction = [] ∨ IsFraction fraction)
    (hexponent : exponent = [] ∨ IsExponent exponent) (hne : whole ++ fraction ≠ []) :
    (Decimal.read? (whole ++ fraction ++ exponent)).isSome = true := by
  obtain ⟨e, hread⟩ : ∃ e, Decimal.readExponent? exponent = some e := by
    rcases hexponent with rfl | h
    · exact ⟨0, rfl⟩
    · exact Option.isSome_iff_exists.1 h.readExponent?_isSome
  have hhead : ∀ c ∈ exponent.head?, isDigit c = false ∧ c ≠ '.' := by
    rcases hexponent with rfl | h
    · rintro c ⟨⟩
    · exact h.head
  rcases hfraction with rfl | ⟨ds, rfl, hds⟩
  · exact Option.isSome_of_eq_some
      (@read?_eq whole [] [] _ _ hwhole (.inr rfl) (fun _ h => nomatch h) hne hread hhead)
  · exact Option.isSome_of_eq_some
      (@read?_eq whole ['.'] ds _ _ hwhole (.inl rfl) hds.2 (by simp [hds.1]) hread hhead)

/-! ## Values of literals -/

theorem fractionRun_cases (o : Options) (cs : List Char) :
    fractionRun o cs = [] ∨ o.decimal = true ∧ ∃ rest,
      digitRun isDigit o.separator false rest ≠ [] ∧
      fractionRun o cs = '.' :: digitRun isDigit o.separator false rest := by
  unfold fractionRun
  split
  · next rest =>
    split
    · next hdecimal hrun => exact .inr ⟨hdecimal, rest, by simp [hrun], by rw [hrun]⟩
    · exact .inl rfl
  · exact .inl rfl

theorem exponentRun_cases (o : Options) (cs : List Char) :
    exponentRun o cs = [] ∨ o.exponent = true ∧ ∃ mark sign rest, (mark = 'e' ∨ mark = 'E') ∧
      (sign = [] ∨ sign = ['+'] ∨ sign = ['-']) ∧ digitRun isDigit o.separator false rest ≠ [] ∧
      exponentRun o cs = mark :: sign ++ digitRun isDigit o.separator false rest := by
  unfold exponentRun
  split
  · exact .inl rfl
  · next c rest =>
    split
    · next hmark =>
      split
      · exact .inl rfl
      · next hrun =>
        refine .inr
          ⟨hmark.1, c, exponentSign rest, _, hmark.2, ?_, by rw [hrun]; simp, by rw [hrun]⟩
        unfold exponentSign
        split <;> simp
    · exact .inl rfl

theorem withoutSeparator_fractionRun (ho : o.keepsDigits = true) (cs : List Char) :
    fractionRun o cs = [] ∨ IsDigits (withoutSeparator o (fractionRun o cs)) ∨
      IsFraction (withoutSeparator o (fractionRun o cs)) := by
  rcases fractionRun_cases o cs with h | ⟨-, rest, hne, h⟩
  · exact .inl h
  · have hds := isDigits_withoutSeparator ho hne
    -- The point goes out with the separators if it is the separator.
    by_cases hs : o.separator = some '.'
    · refine .inr (.inl ?_)
      rw [h, withoutSeparator, List.filter_cons_of_neg (by simp [hs])]
      exact hds
    · have hs' : some '.' ≠ o.separator := fun e => hs e.symm
      refine .inr (.inr ⟨_, ?_, hds⟩)
      rw [h, withoutSeparator, List.filter_cons_of_pos (by simp [hs'])]
      rfl

theorem withoutSeparator_exponentRun (ho : o.keepsDigits = true) (cs : List Char) :
    withoutSeparator o (exponentRun o cs) = [] ∨
      IsExponent (withoutSeparator o (exponentRun o cs)) := by
  rcases exponentRun_cases o cs with h | ⟨-, mark, sign, rest, hmark, hsign, hne, h⟩
  · exact .inl (by rw [h]; rfl)
  · have hmark' : some mark ≠ o.separator := by
      rcases hmark with rfl | rfl <;> exact (separator_ne_digit ho (by decide)).symm
    have hsign' : withoutSeparator o sign = [] ∨ withoutSeparator o sign = ['+'] ∨
        withoutSeparator o sign = ['-'] := by
      rcases hsign with rfl | rfl | rfl
      · exact .inl rfl
      · by_cases hs : some '+' = o.separator <;> simp [withoutSeparator, hs]
      · by_cases hs : some '-' = o.separator <;> simp [withoutSeparator, hs]
    refine .inr ⟨mark, _, _, ?_, hmark, hsign', isDigits_withoutSeparator ho hne⟩
    rw [h, withoutSeparator, List.cons_append, List.filter_cons_of_pos (by simp [hmark']),
      List.filter_append]
    rfl

theorem decimalRun_eq (hne : decimalRun o cs ≠ []) :
    ∃ r₁ r₂, digitRun isDigit o.separator false cs ++ fractionRun o r₁ ≠ [] ∧
      decimalRun o cs =
        digitRun isDigit o.separator false cs ++ fractionRun o r₁ ++ exponentRun o r₂ := by
  unfold decimalRun at hne ⊢
  dsimp only at hne ⊢
  split at hne
  · exact absurd rfl hne
  · next hs =>
    rw [if_neg hs]
    exact ⟨_, _, hs, rfl⟩

theorem read?_decimalRun (ho : o.keepsDigits = true) (hne : decimalRun o cs ≠ []) :
    (Decimal.read? (withoutSeparator o (decimalRun o cs))).isSome = true := by
  obtain ⟨r₁, r₂, hs, hrun⟩ := decimalRun_eq hne
  have happend (a b : List Char) :
      withoutSeparator o (a ++ b) = withoutSeparator o a ++ withoutSeparator o b :=
    List.filter_append ..
  have hdigits : ∀ c ∈ withoutSeparator o (digitRun isDigit o.separator false cs),
      isDigit c = true := fun _ => digits_withoutSeparator
  have hexponent := withoutSeparator_exponentRun ho r₂
  rw [hrun, happend, happend]
  rcases withoutSeparator_fractionRun ho r₁ with hnil | hds | hpoint
  · rw [hnil, List.append_nil] at hs
    have hkept := withoutSeparator_ne_nil ho Radix.hexadecimal_of_decimal hs
    rw [hnil]
    exact read?_isSome hdigits (.inl rfl) hexponent (by simpa [withoutSeparator] using hkept)
  · rw [← List.append_nil (_ ++ withoutSeparator o (fractionRun o r₁))]
    refine read?_isSome ?_ (.inl rfl) hexponent (by simp [hds.1])
    exact fun c hc => (List.mem_append.1 hc).elim (hdigits c) (hds.2 c)
  · have hne : withoutSeparator o (fractionRun o r₁) ≠ [] := by
      obtain ⟨ds, hds, -⟩ := hpoint
      simp [hds]
    exact read?_isSome hdigits (.inr hpoint) hexponent (by simp [hne])

theorem exists_decimalValue (ho : o.keepsDigits = true) (hne : decimalRun o cs ≠ []) :
    ∃ x, decimalValue o (decimalRun o cs) = .ok x := by
  obtain ⟨d, hd⟩ := Option.isSome_iff_exists.1 (read?_decimalRun ho hne)
  exact ⟨d.toFloat, by rw [decimalValue, hd]⟩

theorem exists_radixValue (ho : o.keepsDigits = true) {r : Radix} {mark digits : List Char}
    (h : radixRun? o cs = some (r, mark, digits)) : ∃ x, radixValue o r digits = .ok x := by
  unfold radixRun? at h
  split at h
  · split at h
    · split at h
      · cases h
      · next r' _ d ds hrun =>
        cases h
        have hne := withoutSeparator_ne_nil ho Radix.hexadecimal_of_isDigit
          (hrun ▸ List.cons_ne_nil d ds)
        rw [hrun] at hne
        unfold radixValue
        split
        · next hnil => exact absurd hnil hne
        · exact ⟨_, rfl⟩
    · cases h
  · cases h

theorem exists_scan_eq_ok (ho : o.keepsDigits = true) (cs : List Char) :
    ∃ m, scan o cs = .ok m := by
  unfold scan
  dsimp only
  split
  · next hrun =>
    obtain ⟨x, hx⟩ := exists_radixValue ho hrun
    exact ⟨_, by rw [hx]; rfl⟩
  · split
    · exact ⟨_, rfl⟩
    · next c body hrun =>
      obtain ⟨x, hx⟩ := exists_decimalValue ho (hrun ▸ List.cons_ne_nil c body)
      rw [hrun] at hx
      exact ⟨_, by rw [hx]; rfl⟩

/-- A digit as a separator leaves nothing of the shortest literal that is written with it. -/
theorem exists_scan_eq_error (ho : o.keepsDigits = false) :
    ∃ c cs f, isDigit c = true ∧ cs.length ≤ 2 ∧ scan o (c :: cs) = .error f := by
  obtain ⟨c, hs, hc⟩ : ∃ c, o.separator = some c ∧ Radix.hexadecimal.isDigit c = true := by
    unfold Options.keepsDigits at ho
    cases hs : o.separator with
    | none => simp [hs] at ho
    | some c => exact ⟨c, rfl, by simpa [hs] using ho⟩
  have hout : withoutSeparator o [c] = [] := by simp [withoutSeparator, hs]
  by_cases hd : isDigit c = true
  · have hplus : c ≠ '+' := by rintro rfl; cases hd
    have hminus : c ≠ '-' := by rintro rfl; cases hd
    have hsign : signRun o [c] = [] := by simp [signRun, hplus, hminus]
    have hradix : radixRun? o [c] = none := by simp [radixRun?]
    have hdecimal : decimalRun o [c] = [c] := by
      simp [decimalRun, digitRun, hd, fractionRun, exponentRun]
    refine ⟨c, [], .decimal [], hd, by decide, ?_⟩
    rw [scan, hsign]
    simp only [List.length_nil, List.drop_zero, hradix, hdecimal, decimalValue, hout]
    rfl
  · have hradix : radixRun? o ['0', 'x', c] = some (.hexadecimal, ['0', 'x'], [c]) := by
      simp [radixRun?, Radix.ofMark?, digitRun, hc]
    refine ⟨'0', ['x', c], .integer 16 [], by decide, Nat.le_refl 2, ?_⟩
    rw [scan, show signRun o ['0', 'x', c] = [] from rfl]
    simp only [List.length_nil, List.drop_zero, hradix, radixValue, hout]
    rfl

end Calculator.Literal
