import Calculator.Proofs.Conservation
import Calculator.Proofs.Lexing
import Calculator.Proofs.Readings

/-!
# Names that a parse looks up

A run of name characters that is no identifier is a name where it is bound, and is left to the
scanner where it is not. `asked` lists the runs on which a parse depends so. Another scope in which
the same of them are bound gives the same tokens, and one in which others are bound gives others: a
name stands where a number stood (`parse_again_iff`).
-/

namespace Calculator

open Text

/-- The token is an operand that reads a name. -/
def Token.Names (n : String) (t : Token) : Prop := t.type = .symbol ∧ t.text = n

theorem Token.Names.not_isOperator {n : String} {t : Token} (h : t.Names n) :
    t.isOperator = false := by
  simp [isOperator, h.1]

namespace Lexicon

/-- The run at the start of a text, if it depends on its being bound what stands there. -/
def askedAt (c : Char) (cs : List Char) : List String :=
  if isBlank c = true ∨ (Operator.ofText? (c :: cs)).isSome = true ∨ nameRun (c :: cs) = [] ∨
    isIdentifier (String.ofList (nameRun (c :: cs))) = true then []
  else [String.ofList (nameRun (c :: cs))]

/-- The runs of a text that are read as names only where they are bound. -/
def asked (x : Lexicon) : List Char → List String
  | [] => []
  | c :: cs =>
    match x.pieceAt c cs with
    | .ok (some p) => askedAt c cs ++ x.asked (cs.drop (p.length - 1))
    | _ => askedAt c cs
termination_by cs => cs.length

def binding (x : Lexicon) (bound : String → Bool) : Lexicon := { x with bound }

variable {x : Lexicon} {bound : String → Bool} {c : Char} {cs : List Char} {position : Nat}

/-! ## Pieces -/

theorem mem_askedAt_iff {n : String} :
    n ∈ askedAt c cs ↔ isBlank c = false ∧ Operator.ofText? (c :: cs) = none ∧
      nameRun (c :: cs) ≠ [] ∧ isIdentifier n = false ∧ n = String.ofList (nameRun (c :: cs)) := by
  unfold askedAt
  split
  · next h =>
    simp only [List.not_mem_nil, false_iff]
    rintro ⟨hblank, hoperator, hrun, hidentifier, rfl⟩
    simp [hblank, hoperator, hrun, hidentifier] at h
  · next h =>
    simp only [not_or, Bool.not_eq_true, Option.isSome_eq_false_iff, Option.isNone_iff_eq_none]
      at h
    rw [List.mem_singleton]
    constructor
    · rintro rfl
      exact ⟨h.1, h.2.1, h.2.2.1, h.2.2.2, rfl⟩
    · exact fun hn => hn.2.2.2.2

theorem pieceAt_of_mem_askedAt {n : String} (h : n ∈ askedAt c cs) :
    x.pieceAt c cs =
      if x.bound n = true then .ok (some (.symbol (nameRun (c :: cs))))
      else (x.scanner.scan x.options (c :: cs)).map fun m =>
        if m.text = [] then none else some (.number m) := by
  obtain ⟨hblank, hoperator, hrun, hidentifier, rfl⟩ := mem_askedAt_iff.1 h
  simp [pieceAt, isName, hblank, hoperator, hrun, hidentifier]

theorem pieceAt_binding (h : ∀ n ∈ askedAt c cs, bound n = x.bound n) :
    (x.binding bound).pieceAt c cs = x.pieceAt c cs := by
  unfold pieceAt
  split
  · rfl
  · next hblank =>
    cases hoperator : Operator.ofText? (c :: cs) with
    | some o => rfl
    | none =>
      have hname : (x.binding bound).isName (nameRun (c :: cs)) = x.isName (nameRun (c :: cs)) := by
        by_cases hrun : nameRun (c :: cs) = []
        · simp [isName, hrun]
        by_cases hidentifier : isIdentifier (String.ofList (nameRun (c :: cs))) = true
        · simp [isName, hidentifier]
        have hsame := h _ (mem_askedAt_iff.2
          ⟨by simpa using hblank, hoperator, hrun, by simpa using hidentifier, rfl⟩)
        simp [isName, binding, hsame]
      rw [hname]
      rfl

theorem tokens_of_asked {n : String} (hn : n ∈ askedAt c cs) (hne : bound n ≠ x.bound n)
    {p q : Piece} (hp : x.pieceAt c cs = .ok (some p))
    (hq : (x.binding bound).pieceAt c cs = .ok (some q)) (position : Nat) :
    ∃ t u : Token, p.token? position = some t ∧ q.token? position = some u ∧ t ≠ u ∧
      t.isOperator = false ∧ u.isOperator = false := by
  rw [pieceAt_of_mem_askedAt hn] at hp hq
  have number {r : Piece} {s : Scanner} {o : Literal.Options}
      (h : (s.scan o (c :: cs)).map (fun m => if m.text = [] then none else some (.number m)) =
        .ok (some r)) : ∃ m, r = .number m := by
    obtain ⟨m, _, hm⟩ := Result.map_eq_ok_iff.1 h
    split at hm
    · cases hm
    · exact ⟨m, (Option.some.inj hm).symm⟩
  split at hp
  · next hx =>
    have hbound : ¬ (x.binding bound).bound n = true := fun h => hne (h.trans hx.symm)
    rw [if_neg hbound] at hq
    obtain ⟨m, rfl⟩ := number hq
    cases hp
    exact ⟨_, _, rfl, rfl, nofun, rfl, rfl⟩
  · next hx =>
    have hbound : (x.binding bound).bound n = true := by
      rw [Bool.eq_false_iff.2 hx] at hne
      simpa [binding] using hne
    rw [if_pos hbound] at hq
    obtain ⟨m, rfl⟩ := number hp
    cases hq
    exact ⟨_, _, rfl, rfl, nofun, rfl, rfl⟩

/-! ## Texts -/

theorem scan_binding (h : ∀ n ∈ x.asked cs, bound n = x.bound n) :
    (x.binding bound).scan position cs = x.scan position cs := by
  fun_induction x.scan position cs with
  | case1 => rw [scan]
  | case2 position c cs f hp =>
    rw [asked, hp] at h
    rw [scan, pieceAt_binding h, hp]
  | case3 position c cs hp =>
    rw [asked, hp] at h
    rw [scan, pieceAt_binding h, hp]
  | case4 position c cs p hp ih =>
    rw [asked, hp] at h
    obtain ⟨hhere, hlater⟩ := List.forall_mem_append.1 h
    rw [scan, pieceAt_binding hhere, hp]
    simp only [ih hlater]

theorem agree_of_operands {ts us : List Token} (ht : x.scan position cs = .ok ts)
    (hu : (x.binding bound).scan position cs = .ok us)
    (h : us.filter (!·.isOperator) = ts.filter (!·.isOperator)) :
    ∀ n ∈ x.asked cs, bound n = x.bound n := by
  fun_induction x.scan position cs generalizing ts us with
  | case1 =>
    rw [asked]
    exact fun n hn => absurd hn List.not_mem_nil
  | case2 => cases ht
  | case3 => cases ht
  | case4 position c cs p hp ih =>
    obtain ⟨ts, hts, rfl⟩ := Result.map_eq_ok_iff.1 ht
    rw [asked, hp]
    by_cases hhere : ∀ n ∈ askedAt c cs, bound n = x.bound n
    · refine List.forall_mem_append.2 ⟨hhere, ?_⟩
      rw [scan, pieceAt_binding hhere, hp] at hu
      obtain ⟨us, hus, rfl⟩ := Result.map_eq_ok_iff.1 hu
      rw [List.filter_append, List.filter_append] at h
      exact ih hts hus (List.append_cancel_left h)
    · obtain ⟨n, hn⟩ := Classical.not_forall.1 hhere
      obtain ⟨hn, hne⟩ := Classical.not_imp.1 hn
      rw [scan] at hu
      split at hu
      · cases hu
      · cases hu
      · next q hq =>
        obtain ⟨us, hus, rfl⟩ := Result.map_eq_ok_iff.1 hu
        obtain ⟨t, u, htoken, hutoken, hne, hto, huo⟩ := tokens_of_asked hn hne hp hq position
        rw [htoken, hutoken] at h
        simp [hto, huo] at h
        exact absurd h.1.symm hne

theorem not_isIdentifier_of_asked {n : String} (h : n ∈ x.asked cs) : isIdentifier n = false := by
  fun_induction x.asked cs with
  | case1 => cases h
  | case2 c cs p hp ih =>
    rcases List.mem_append.1 h with h | h
    · exact (mem_askedAt_iff.1 h).2.2.2.1
    · exact ih h
  | case3 c cs hp => exact (mem_askedAt_iff.1 h).2.2.2.1

theorem knows_of_scan {ts : List Token} {t : Token} {n : String}
    (h : x.scan position cs = .ok ts) (ht : t ∈ ts) (hn : t.Names n) : x.Knows n := by
  obtain ⟨htype, rfl⟩ := hn
  obtain ⟨c, rest, p, i, hp, htoken⟩ := exists_piece_of_scan h ht
  rcases pieceAt_cases hp with ⟨rfl, _⟩ | ⟨o, rfl, _⟩ | ⟨rfl, hname⟩ | ⟨m, rfl, _, _⟩
  · cases htoken
  · cases htoken
    cases htype
  · cases htoken
    obtain ⟨hne, hread⟩ := isName_nameRun_iff.1 hname
    exact ⟨isWord_nameRun hne, hread⟩
  · cases htoken
    cases htype

end Lexicon

namespace Settings

variable {s : Settings} {scope scope' : Scope Float} {source : String}

theorem toProgram_of_agree
    (h : ∀ n ∈ (s.lexicon scope).asked source.toList, scope'.contains n = scope.contains n) :
    s.toProgram scope' source = s.toProgram scope source := by
  have hscan : (s.lexicon scope').scan 0 source.toList = (s.lexicon scope).scan 0 source.toList :=
    Lexicon.scan_binding h
  rw [toProgram, toProgram, Lexicon.tokens, Lexicon.tokens, Lexicon.rawTokens, Lexicon.rawTokens,
    hscan]

/-- The operands of a program are those of the text. -/
theorem exists_scan_of_toProgram {program : List Token}
    (h : s.toProgram scope source = .ok program) :
    ∃ us, (s.lexicon scope).scan 0 source.toList = .ok us ∧
      program.filter (!·.isOperator) = us.filter (!·.isOperator) := by
  obtain ⟨_, hts, hof⟩ := toProgram_eq_ok_iff.1 h
  obtain ⟨_, _, us, hscan, rfl⟩ := Lexicon.tokens_eq_ok_iff.1 hts
  obtain ⟨_, _, _, hoperands⟩ := Postfix.of_ofTokens_eq_ok hof
  rw [Token.resolveSigns, Token.filter_resolveSignsFrom] at hoperands
  exact ⟨us, hscan, hoperands⟩

theorem agree_of_toProgram {program : List Token} (h : s.toProgram scope source = .ok program)
    (h' : s.toProgram scope' source = .ok program) :
    ∀ n ∈ (s.lexicon scope).asked source.toList, scope'.contains n = scope.contains n := by
  obtain ⟨us, hscan, hoperands⟩ := exists_scan_of_toProgram h
  obtain ⟨us', hscan', hoperands'⟩ := exists_scan_of_toProgram h'
  exact Lexicon.agree_of_operands hscan hscan' (hoperands'.symm.trans hoperands)

theorem knows_of_toProgram {program : List Token} {t : Token} {n : String}
    (h : s.toProgram scope source = .ok program) (ht : t ∈ program) (hn : t.Names n) :
    (s.lexicon scope).Knows n := by
  obtain ⟨us, hscan, hoperands⟩ := exists_scan_of_toProgram h
  have hmem : t ∈ program.filter (!·.isOperator) :=
    List.mem_filter.2 ⟨ht, by simp [hn.not_isOperator]⟩
  rw [hoperands] at hmem
  exact Lexicon.knows_of_scan hscan (List.mem_filter.1 hmem).1 hn

theorem contains_of_asked {program : List Token} {t : Token} {n : String}
    (h : s.toProgram scope source = .ok program) (ht : t ∈ program) (hn : t.Names n)
    (hasked : n ∈ (s.lexicon scope).asked source.toList) : scope.contains n = true := by
  refine (knows_of_toProgram h ht hn).2.resolve_right fun h => ?_
  rw [Lexicon.not_isIdentifier_of_asked hasked] at h
  cases h

end Settings

namespace Formula

variable {f : Formula} {scope scope' : Scope Float}

def asked (f : Formula) (scope : Scope Float) : List String :=
  (f.settings.lexicon scope).asked f.source.toList

/-- Of the names asked for in one scope the same are bound in another one. -/
def Agrees (f : Formula) (scope scope' : Scope Float) : Prop :=
  ∀ n ∈ f.asked scope, scope'.contains n = scope.contains n

theorem parse_of_agrees (h : f.Agrees scope scope') : f.parse scope' = f.parse scope := by
  rw [parse, parse, Settings.compile, Settings.compile, Settings.toProgram_of_agree h]

/-- Another parse finds the same if and only if the same of the names asked for are bound. -/
theorem parse_again_iff (hparse : (f.parse scope).1 = .ok none) :
    (f.parse scope').2 = (f.parse scope).2 ↔ f.Agrees scope scope' := by
  constructor
  · intro h
    obtain ⟨ts, hts, hprogram⟩ := program_of_parse hparse
    rw [← h] at hprogram
    rcases f.parse_cases scope' with ⟨ts', hts', h'⟩ | ⟨e, _, _, h'⟩ | ⟨x, _, _, h'⟩
    · rw [h'] at hprogram
      obtain rfl : ts' = ts := Option.some.inj hprogram
      exact Settings.agree_of_toProgram hts hts'
    · rw [h'] at hprogram
      cases hprogram
    · rw [h'] at hprogram
      cases hprogram
  · intro h
    rw [parse_of_agrees h]

end Formula

end Calculator
