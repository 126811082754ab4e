import Calculator.Proofs.Lookups

/-!
# The names that a lexer depends on

A word that is an identifier is a name everywhere. Any other starts with no letter, as `1st` and `_`
do, and is a name where it is bound. So a lexer depends on the bound names by these odd ones alone,
and on each of them (`tokens_binding_iff`).
-/

namespace Calculator

open Text

/-- A word that starts with a digit or a mark. -/
def Text.isOdd (name : String) : Bool := isWord name && !name.toList.head?.any isLetter

theorem Text.isOdd_iff {name : String} :
    isOdd name = true ↔ isWord name = true ∧ isIdentifier name = false := by
  unfold isOdd isWord isIdentifier
  cases name.toList with
  | nil => simp
  | cons c cs => cases hc : isLetter c <;> simp [hc]

namespace Lexicon

variable {x : Lexicon} {bound : String → Bool} {name : String}

theorem knows_of_tokens {limits : Limits} {source : String} {ts : List Token} {t : Token}
    (h : x.tokens limits source = .ok ts) (ht : t ∈ ts) (hn : t.Names name) : x.Knows name := by
  obtain ⟨_, _, us, hscan, rfl⟩ := tokens_eq_ok_iff.1 h
  have hoperand : t ∈ (Token.resolveSigns us).filter (!·.isOperator) :=
    List.mem_filter.2 ⟨ht, by simp [hn.not_isOperator]⟩
  rw [Token.resolveSigns, Token.filter_resolveSignsFrom] at hoperand
  exact knows_of_scan hscan (List.mem_filter.1 hoperand).1 hn

/-! ## Texts of one token -/

theorem tokens_word {limits : Limits} (h : x.Knows name) (hlength : name.length ≤ limits.length) :
    x.tokens limits name = .ok [.ofSymbol name 0] := by
  have hend : ∀ c ∈ ([] : List Char).head?, isNameChar c = false := nofun
  have hscan := scan_word h hend 0
  rw [List.append_nil, scan] at hscan
  exact tokens_eq_ok_iff.2 ⟨hlength, limits.tokens_pos, _, hscan, rfl⟩

/-- The text as a whole is one unsigned literal, and its first word is not bound. -/
structure IsLiteral (x : Lexicon) (text : String) (v : Float) : Prop where
  scanner : x.scanner = .literals
  unsigned : x.options.signed = false
  nonempty : text ≠ ""
  whole : Literal.scan x.options text.toList = .ok ⟨text.toList, v⟩
  unbound : nameRun text.toList = [] ∨ x.bound (String.ofList (nameRun text.toList)) = false

theorem IsLiteral.not_isName {text : String} {v : Float} (h : x.IsLiteral text v) :
    x.isName (nameRun text.toList) = false := by
  rw [Bool.eq_false_iff, ne_eq, isName_nameRun_iff]
  rintro ⟨hrun, hread⟩
  have hbound := h.unbound.resolve_left hrun
  cases hcs : text.toList with
  | nil => exact h.nonempty (String.toList_eq_nil_iff.1 hcs)
  | cons c cs =>
    have hwhole := h.whole
    rw [hcs] at hwhole hread hbound
    have hfirst := first_of_literal h.unsigned hwhole (List.cons_ne_nil c cs)
    rw [hbound, not_isIdentifier_nameRun hfirst.2] at hread
    simp at hread

theorem tokens_literal {limits : Limits} {text : String} {v : Float} (h : x.IsLiteral text v)
    (hlength : text.length ≤ limits.length) : x.tokens limits text = .ok [.ofNumber text v 0] := by
  have hne : text.toList ≠ [] := fun hnil => h.nonempty (String.toList_eq_nil_iff.1 hnil)
  have hname : x.isName (nameRun (text.toList ++ [])) = false := by
    rw [List.append_nil]
    exact h.not_isName
  have hend : Literal.Stops x.options [] := nofun
  have hscan := scan_literal h.scanner h.unsigned h.whole hne hend hname 0
  rw [List.append_nil, scan] at hscan
  exact tokens_eq_ok_iff.2 ⟨hlength, limits.tokens_pos, _, hscan, rfl⟩

/-! ## Sets of bound names -/

theorem isOdd_of_asked {cs : List Char} {n : String} (h : n ∈ x.asked cs) : isOdd n = true := by
  refine isOdd_iff.2 ⟨?_, not_isIdentifier_of_asked h⟩
  fun_induction x.asked cs with
  | case1 => cases h
  | case2 c cs p hp ih =>
    rcases List.mem_append.1 h with h | h
    · obtain ⟨_, _, hrun, _, rfl⟩ := mem_askedAt_iff.1 h
      exact isWord_nameRun hrun
    · exact ih h
  | case3 c cs hp =>
    obtain ⟨_, _, hrun, _, rfl⟩ := mem_askedAt_iff.1 h
    exact isWord_nameRun hrun

/-- An odd word by itself is a name if and only if it is bound. -/
theorem tokens_odd_iff (h : isOdd name = true) {limits : Limits}
    (hlength : name.length ≤ limits.length) :
    x.tokens limits name = .ok [.ofSymbol name 0] ↔ x.bound name = true := by
  obtain ⟨hword, hidentifier⟩ := isOdd_iff.1 h
  constructor
  · intro htokens
    have hnames : (Token.ofSymbol name 0).Names name := ⟨rfl, rfl⟩
    obtain ⟨_, hbound | hname⟩ := knows_of_tokens htokens List.mem_cons_self hnames
    · exact hbound
    · rw [hidentifier] at hname
      cases hname
  · exact fun hbound => tokens_word ⟨hword, .inl hbound⟩ hlength

/--
Two sets of bound names give every source the same tokens, or the same error, within all limits, if
and only if they have the same odd words.
-/
theorem tokens_binding_iff :
    (∀ limits source, (x.binding bound).tokens limits source = x.tokens limits source) ↔
      ∀ n, isOdd n = true → bound n = x.bound n := by
  constructor
  · intro h n hn
    obtain ⟨limits, hroom⟩ : ∃ limits : Limits, n.length ≤ limits.length :=
      ⟨{ length := n.length + 1, length_pos := Nat.succ_pos _ }, Nat.le_succ _⟩
    have hiff : bound n = true ↔ x.bound n = true := by
      rw [← tokens_odd_iff (x := x) hn hroom, ← h, tokens_odd_iff hn hroom]
      rfl
    exact Bool.eq_iff_iff.2 hiff
  · intro h limits source
    have hscan : (x.binding bound).scan 0 source.toList = x.scan 0 source.toList :=
      scan_binding fun n hn => h n (isOdd_of_asked hn)
    rw [tokens, rawTokens, hscan, tokens, rawTokens]

end Lexicon

end Calculator
