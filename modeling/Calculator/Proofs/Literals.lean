import Calculator.Literal
import Calculator.Text.Identifier

/-!
# Literals in front of other text

A literal that is the whole of a text is also what is cut from a longer text, if what follows
cannot go on a literal: it `Stops` the scan when it starts with none of the name characters, no
point and no separator (`scan_append`).
-/

namespace Calculator.Literal

open Number Text

variable {o : Options} {cs rest : List Char}

/-- No literal goes on over the start of the text. -/
def Stops (o : Options) (rest : List Char) : Prop :=
  ∀ c ∈ rest.head?, isNameChar c = false ∧ c ≠ '.' ∧ o.separator ≠ some c

theorem isNameChar_of_isDigit {c : Char} (h : isDigit c = true) : isNameChar c = true := by
  simp only [isDigit] at h
  simp [isNameChar, h]

theorem isNameChar_of_radixDigit {r : Radix} {c : Char} (h : r.isDigit c = true) :
    isNameChar c = true := by
  cases r with
  | binary =>
    simp only [Radix.isDigit, Bool.or_eq_true, beq_iff_eq] at h
    rcases h with rfl | rfl <;> decide
  | octal =>
    simp only [Radix.isDigit, Bool.and_eq_true, decide_eq_true_eq] at h
    refine isNameChar_of_isDigit ?_
    simp only [isDigit, Bool.and_eq_true, decide_eq_true_eq]
    exact ⟨h.1, Char.le_trans h.2 (by decide)⟩
  | hexadecimal =>
    simp only [Radix.isDigit, Bool.or_eq_true, Bool.and_eq_true, decide_eq_true_eq] at h
    rcases h with (h | h) | h
    · exact isNameChar_of_isDigit h
    · refine isNameChar_of_isLetter ?_
      simp only [isLetter, Bool.or_eq_true, Bool.and_eq_true, decide_eq_true_eq]
      exact .inl ⟨h.1, Char.le_trans h.2 (by decide)⟩
    · refine isNameChar_of_isLetter ?_
      simp only [isLetter, Bool.or_eq_true, Bool.and_eq_true, decide_eq_true_eq]
      exact .inr ⟨h.1, Char.le_trans h.2 (by decide)⟩

theorem isNameChar_of_ofMark? {c : Char} {r : Radix} (h : Radix.ofMark? c = some r) :
    isNameChar c = true := by
  unfold Radix.ofMark? at h
  split at h
  all_goals first | decide | cases h

/-! ## Parts -/

theorem digitRun_append {digit : Char → Bool} {separator : Option Char}
    (hr : ∀ c ∈ rest.head?, digit c = false ∧ separator ≠ some c) (afterDigit : Bool) :
    digitRun digit separator afterDigit (cs ++ rest) =
      digitRun digit separator afterDigit cs := by
  induction cs generalizing afterDigit with
  | nil =>
    cases rest with
    | nil => rfl
    | cons c rest =>
      obtain ⟨hd, hs⟩ := hr c rfl
      simp [digitRun, hd, hs]
  | cons c cs ih =>
    have hhead : (cs ++ rest).head?.any digit = cs.head?.any digit := by
      cases cs with
      | nil =>
        cases rest with
        | nil => rfl
        | cons c rest => simp [(hr c rfl).1]
      | cons _ _ => rfl
    simp only [List.cons_append, digitRun, hhead, ih]

theorem Stops.not_digit (hr : Stops o rest) {digit : Char → Bool}
    (hd : ∀ {c}, digit c = true → isNameChar c = true) :
    ∀ c ∈ rest.head?, digit c = false ∧ o.separator ≠ some c := by
  intro c hc
  obtain ⟨hname, _, hs⟩ := hr c hc
  refine ⟨?_, hs⟩
  rw [Bool.eq_false_iff]
  intro h
  rw [hd h] at hname
  cases hname

theorem radixRun?_append (hr : Stops o rest) : radixRun? o (cs ++ rest) = radixRun? o cs := by
  match cs with
  | [] =>
    cases rest with
    | nil => rfl
    | cons c rest =>
      have hc : c ≠ '0' := by
        rintro rfl
        cases (hr '0' rfl).1
      simp [radixRun?, hc]
  | [c] =>
    cases rest with
    | nil => rfl
    | cons m rest =>
      by_cases hc : c = '0'
      · subst hc
        have hm : Radix.ofMark? m = none := by
          cases h : Radix.ofMark? m with
          | none => rfl
          | some r =>
            have := (hr m rfl).1
            rw [isNameChar_of_ofMark? h] at this
            cases this
        simp [radixRun?, hm]
      · simp [radixRun?, hc]
  | c :: m :: cs =>
    by_cases hc : c = '0'
    · subst hc
      have hrun (r : Radix) : digitRun r.isDigit o.separator false (cs ++ rest) =
          digitRun r.isDigit o.separator false cs :=
        digitRun_append (hr.not_digit isNameChar_of_radixDigit) false
      simp only [List.cons_append, radixRun?, hrun]
    · simp [radixRun?, hc]

theorem fractionRun_append (hr : Stops o rest) : fractionRun o (cs ++ rest) = fractionRun o cs := by
  cases cs with
  | nil =>
    cases rest with
    | nil => rfl
    | cons c rest => simp [fractionRun, (hr c rfl).2.1]
  | cons c cs =>
    by_cases hc : c = '.'
    · subst hc
      have hrun : digitRun isDigit o.separator false (cs ++ rest) =
          digitRun isDigit o.separator false cs :=
        digitRun_append (hr.not_digit isNameChar_of_isDigit) false
      simp only [List.cons_append, fractionRun, hrun]
    · simp [fractionRun, hc]

theorem exponentSign_append (hne : cs ≠ []) : exponentSign (cs ++ rest) = exponentSign cs := by
  cases cs with
  | nil => exact absurd rfl hne
  | cons c cs =>
    simp only [List.cons_append]
    unfold exponentSign
    split <;> split <;> simp_all

theorem signRun_append (hne : cs ≠ []) : signRun o (cs ++ rest) = signRun o cs := by
  cases cs with
  | nil => exact absurd rfl hne
  | cons c cs =>
    simp only [List.cons_append]
    unfold signRun
    split <;> split <;> simp_all

/--
An exponent goes on no further. This is false of a mark and a sign without digits, which a digit
might follow.
-/
theorem exponentRun_append (hr : Stops o rest) (h : exponentRun o cs = cs) :
    exponentRun o (cs ++ rest) = cs := by
  cases cs with
  | nil =>
    cases rest with
    | nil => rfl
    | cons c rest =>
      have hc : ¬ (c = 'e' ∨ c = 'E') := by
        rintro (rfl | rfl) <;> cases (hr _ rfl).1
      simp [exponentRun, hc]
  | cons c cs =>
    rw [List.cons_append]
    rw [exponentRun] at h ⊢
    split at h
    · next hmark =>
      split at h
      · cases h
      · next d ds hrun =>
        have hcs : exponentSign cs ++ d :: ds = cs := (List.cons.inj h).2
        have hne : cs ≠ [] := by
          rw [← hcs]
          simp
        have hlen : (exponentSign cs).length ≤ cs.length := (exponentSign_cuts cs).length_le
        have hrun' : digitRun isDigit o.separator false
            ((cs ++ rest).drop (exponentSign cs).length) = d :: ds := by
          rw [List.drop_append_of_le_length hlen,
            digitRun_append (hr.not_digit isNameChar_of_isDigit), hrun]
        rw [if_pos hmark, exponentSign_append hne, hrun']
        exact h
    · cases h

theorem decimalRun_append (hr : Stops o rest) (h : decimalRun o cs = cs) (hne : cs ≠ []) :
    decimalRun o (cs ++ rest) = cs := by
  have hwhole : digitRun isDigit o.separator false (cs ++ rest) =
      digitRun isDigit o.separator false cs :=
    digitRun_append (hr.not_digit isNameChar_of_isDigit) false
  have hcuts := digitRun_cuts isDigit o.separator false cs
  unfold decimalRun at h ⊢
  rw [hwhole]
  generalize digitRun isDigit o.separator false cs = whole at h hcuts ⊢
  have hfraction : fractionRun o ((cs ++ rest).drop whole.length) =
      fractionRun o (cs.drop whole.length) := by
    rw [List.drop_append_of_le_length hcuts.length_le, fractionRun_append hr]
  have hsig := append_cuts hcuts (fractionRun_cuts o _)
  dsimp only at h ⊢
  rw [hfraction]
  generalize whole ++ fractionRun o (cs.drop whole.length) = significand at h hsig ⊢
  split at h
  · exact absurd h.symm hne
  · next hs =>
    have hexp : exponentRun o (cs.drop significand.length) = cs.drop significand.length := by
      conv => rhs; rw [← h]
      rw [List.drop_left]
    rw [if_neg hs, List.drop_append_of_le_length hsig.length_le, exponentRun_append hr hexp]
    obtain ⟨tail, rfl⟩ := hsig
    rw [List.drop_left]

theorem signRun_of_unsigned (hs : o.signed = false) (cs : List Char) : signRun o cs = [] := by
  unfold signRun
  split <;> simp [hs]

theorem first_of_scan (hs : o.signed = false) {c : Char} {m : Match}
    (h : scan o (c :: cs) = .ok m) (hm : m.text ≠ []) : isDigit c = true ∨ c = '.' := by
  by_cases hd : isDigit c = true
  · exact .inl hd
  by_cases hp : c = '.'
  · exact .inr hp
  have hsign : signRun o (c :: cs) = [] := signRun_of_unsigned hs _
  have hradix : radixRun? o (c :: cs) = none := by
    have hc : c ≠ '0' := by
      rintro rfl
      exact hd (by decide)
    simp [radixRun?, hc]
  have hdecimal : decimalRun o (c :: cs) = [] := by
    simp [decimalRun, digitRun, hd, fractionRun, hp]
  rw [scan, hsign] at h
  simp only [List.length_nil, List.drop_zero, hradix, hdecimal] at h
  cases h
  exact absurd rfl hm

/-- A literal stays what it is in front of other text. -/
theorem scan_append (hr : Stops o rest) {x : Float} (h : scan o cs = .ok ⟨cs, x⟩) (hne : cs ≠ []) :
    scan o (cs ++ rest) = .ok ⟨cs, x⟩ := by
  have hcuts := signRun_cuts o cs
  unfold scan at h ⊢
  rw [signRun_append hne]
  generalize signRun o cs = sign at h hcuts ⊢
  obtain ⟨body, rfl⟩ := hcuts
  dsimp only at h ⊢
  rw [List.append_assoc, List.drop_left, radixRun?_append hr]
  rw [List.drop_left] at h
  split at h
  · exact h
  · split at h
    · exact absurd (congrArg Match.text (Except.ok.inj h)).symm hne
    · next c run hrun =>
      obtain ⟨y, hy, hm⟩ := Result.map_eq_ok_iff.1 h
      obtain rfl : c :: run = body := List.append_cancel_left (congrArg Match.text hm)
      rw [decimalRun_append hr hrun (List.cons_ne_nil _ _)]
      exact h

end Calculator.Literal
