import Calculator.Proofs.Rejection

/-!
# Parentheses, counted

Whether a list is converted can be read off by counting (`ofTokens_paired`): no part at its front
may close more groups than it opens (`Covered`), and in all it closes as many (`Paired`). Where a
count goes wrong there is one parenthesis to blame, the first that is too many (`FirstExtra`) or the
last that has no partner (`LastUnpartnered`), and its position is the one in the error.

The conversion itself does not count. The groups that it holds open are the parentheses on its
stack, and `openAfter?` follows them: `run_length` ties their number to the counts, `exists_close`
finds where an open group closed.
-/

namespace Calculator.Nesting

variable {bound : Nat} {groups groups' ts rest : List Token} {t : Token}

def opened (ts : List Token) : Nat := ts.countP (·.isA .openParen)

def closed (ts : List Token) : Nat := ts.countP (·.isA .closeParen)

/-- No part at the front closes more groups than it opens. -/
def Covered (ts : List Token) : Prop := ∀ p, p <+: ts → closed p ≤ opened p

/-- The parentheses are balanced. -/
structure Paired (ts : List Token) : Prop where
  covered : Covered ts
  total : opened ts = closed ts

/-- What follows an open parenthesis holds its partner, with a balanced list in between. -/
def Partnered (rest : List Token) : Prop :=
  ∃ inner close tail, rest = inner ++ close :: tail ∧ close.isA .closeParen = true ∧ Paired inner

def FirstExtra (ts : List Token) (t : Token) : Prop :=
  ∃ before rest, ts = before ++ t :: rest ∧ t.isA .closeParen = true ∧ Covered before ∧
    opened (before ++ [t]) < closed (before ++ [t])

def LastUnpartnered (ts : List Token) (t : Token) : Prop :=
  ∃ before rest, ts = before ++ t :: rest ∧ t.isA .openParen = true ∧ ¬ Partnered rest ∧
    ∀ mid u tail, rest = mid ++ u :: tail → u.isA .openParen = true → Partnered tail

/-! ## Counts -/

theorem opened_append (ts us : List Token) : opened (ts ++ us) = opened ts + opened us :=
  List.countP_append

theorem closed_append (ts us : List Token) : closed (ts ++ us) = closed ts + closed us :=
  List.countP_append

theorem counts_open (ht : t.isA .openParen = true) : opened [t] = 1 ∧ closed [t] = 0 := by
  simp [opened, closed, ht, not_isA_closeParen ht]

theorem counts_close (ht : t.isA .closeParen = true) : opened [t] = 0 ∧ closed [t] = 1 := by
  simp [opened, closed, ht, not_isA_openParen ht]

theorem counts_other (ht : t.isParenthesis = false) : opened [t] = 0 ∧ closed [t] = 0 := by
  obtain ⟨ho, hc⟩ := Bool.or_eq_false_iff.1 ht
  simp [opened, closed, ho, hc]

theorem openAfter?_length (h : openAfter? groups t = some groups') :
    groups'.length + closed [t] = groups.length + opened [t] := by
  rcases openAfter?_cases h with ⟨ht, rfl⟩ | ⟨ht, g, rfl⟩ | ⟨ht, rfl⟩
  · have := counts_open ht
    rw [List.length_cons]
    omega
  · have := counts_close ht
    rw [List.length_cons]
    omega
  · have := counts_other ht
    omega

theorem run_length (h : ts.foldlM openAfter? groups = some groups') :
    groups'.length + closed ts = groups.length + opened ts := by
  induction ts generalizing groups with
  | nil =>
    cases h
    rfl
  | cons t ts ih =>
    obtain ⟨mid, hmid, h⟩ := Option.bind_eq_some_iff.1 h
    have hfirst := openAfter?_length hmid
    have hrest := ih h
    rw [← List.singleton_append, opened_append, closed_append]
    omega

theorem exists_run_iff : (∃ groups', ts.foldlM openAfter? groups = some groups') ↔
    ∀ p, p <+: ts → closed p ≤ groups.length + opened p := by
  constructor
  · -- a part at the front can be followed too, and the groups left open are its surplus
    rintro ⟨groups', h⟩ p ⟨rest, rfl⟩
    rw [List.foldlM_append] at h
    obtain ⟨mid, hmid, -⟩ := Option.bind_eq_some_iff.1 h
    have := run_length hmid
    omega
  · intro h
    induction ts generalizing groups with
    | nil => exact ⟨groups, rfl⟩
    | cons t ts ih =>
      have hfirst := h [t] ⟨ts, rfl⟩
      obtain ⟨mid, hmid⟩ : ∃ mid, openAfter? groups t = some mid := by
        cases hopen : openAfter? groups t with
        | some mid => exact ⟨mid, rfl⟩
        | none =>
          obtain ⟨ht, rfl⟩ := openAfter?_eq_none hopen
          have := counts_close ht
          rw [List.length_nil] at hfirst
          omega
      have hlength := openAfter?_length hmid
      obtain ⟨groups', hrun⟩ := @ih mid fun p hp => by
        have := h ([t] ++ p) (List.cons_prefix_cons.2 ⟨rfl, hp⟩)
        rw [opened_append, closed_append] at this
        omega
      exact ⟨groups', by rw [List.foldlM_cons, hmid]; exact hrun⟩

theorem covered_iff : Covered ts ↔ ∃ groups, ts.foldlM openAfter? [] = some groups := by
  rw [exists_run_iff]
  simp only [Covered, List.length_nil, Nat.zero_add]

/-- Counting and following the groups agree on what is balanced. -/
theorem paired_iff : Paired ts ↔ Balanced ts := by
  constructor
  · rintro ⟨hcovered, htotal⟩
    obtain ⟨groups, hrun⟩ := covered_iff.1 hcovered
    have hlength := run_length hrun
    have hnil : groups = [] := List.eq_nil_of_length_eq_zero (by
      rw [List.length_nil] at hlength
      omega)
    rwa [hnil] at hrun
  · intro h
    have hlength := run_length h
    exact ⟨covered_iff.2 ⟨[], h⟩, by rw [List.length_nil] at hlength; omega⟩

/-! ## The parenthesis to blame -/

theorem Balanced.partnered {mid tail : List Token} (h : Balanced (mid ++ t :: tail))
    (ht : t.isA .openParen = true) : Partnered tail := by
  rw [Balanced, List.foldlM_append] at h
  obtain ⟨groups, -, h⟩ := Option.bind_eq_some_iff.1 h
  rw [List.foldlM_cons, openAfter?_open ht] at h
  obtain ⟨inner, close, rest, rfl, hc, hinner, -⟩ := @exists_close tail [] groups t h
  exact ⟨inner, close, rest, rfl, hc, paired_iff.2 hinner⟩

theorem Balanced.not_partnered (h : Balanced ts) : ¬ Partnered ts := by
  rintro ⟨inner, close, tail, rfl, hc, hinner⟩
  have hcounts := counts_close hc
  have hcovered := (paired_iff.2 h).covered (inner ++ [close]) (by simp)
  rw [opened_append, closed_append, hinner.total] at hcovered
  omega

theorem run_innermost {g : Token} {outer : List Token}
    (h : ts.foldlM openAfter? groups = some (g :: outer)) :
    (∃ front, groups = front ++ g :: outer ∧ ts.foldlM openAfter? front = some []) ∨
    ∃ before rest, ts = before ++ g :: rest ∧ g.isA .openParen = true ∧ Balanced rest := by
  induction ts generalizing groups with
  | nil =>
    cases h
    exact .inl ⟨[], rfl, rfl⟩
  | cons t ts ih =>
    obtain ⟨mid, hmid, h⟩ := Option.bind_eq_some_iff.1 h
    -- what is open behind the first token was open in front of it, or is that token
    rcases ih h with ⟨front, rfl, hfront⟩ | ⟨before, rest, rfl, hg, hrest⟩
    · rcases openAfter?_cases hmid with ⟨ht, hcons⟩ | ⟨ht, g', rfl⟩ | ⟨ht, rfl⟩
      · cases front with
        | nil =>
          obtain ⟨rfl, rfl⟩ := List.cons.inj hcons
          exact .inr ⟨[], ts, rfl, ht, hfront⟩
        | cons u front =>
          obtain ⟨rfl, rfl⟩ := List.cons.inj hcons
          exact .inl ⟨front, rfl, by simp [ht, hfront]⟩
      · exact .inl ⟨g' :: front, rfl, by simp [ht, hfront]⟩
      · exact .inl ⟨front, rfl, by simp [ht, hfront]⟩
    · exact .inr ⟨t :: before, rest, rfl, hg, hrest⟩

theorem lastUnpartnered_of_run {outer : List Token}
    (h : ts.foldlM openAfter? [] = some (t :: outer)) : LastUnpartnered ts t := by
  rcases run_innermost h with ⟨front, hnil, -⟩ | ⟨before, rest, rfl, ht, hrest⟩
  · simp at hnil
  · refine ⟨before, rest, rfl, ht, hrest.not_partnered, ?_⟩
    rintro mid u tail rfl hu
    exact hrest.partnered hu

theorem Misnests.cases_run {cause : Cause} (h : Misnests bound groups ts cause) :
    (∃ before t rest, ts = before ++ t :: rest ∧ t.isA .closeParen = true ∧
      before.foldlM openAfter? groups = some [] ∧ cause = .unbalanced t.position) ∨
    (∃ p groups', p <+: ts ∧ p.foldlM openAfter? groups = some groups' ∧ bound < groups'.length) ∨
    ∃ g outer, ts.foldlM openAfter? groups = some (g :: outer) ∧ cause = .unclosed g.position := by
  induction h with
  | @unbalanced t ts ht => exact .inl ⟨[], t, ts, rfl, ht, rfl, rfl⟩
  | @tooDeep groups ts t ht hdepth =>
    refine .inr (.inl ⟨[t], t :: groups, ⟨ts, rfl⟩, ?_, ?_⟩)
    · simp [ht]
    · rw [List.length_cons]
      omega
  | unclosed g outer => exact .inr (.inr ⟨g, outer, rfl, rfl⟩)
  | @later groups groups' ts t cause hopen _ _ ih =>
    rcases ih with ⟨before, u, rest, rfl, hu, hrun, rfl⟩ | ⟨p, deep, hp, hrun, hlt⟩ |
      ⟨g, outer, hrun, rfl⟩
    · exact .inl ⟨t :: before, u, rest, rfl, hu, by simp [hopen, hrun], rfl⟩
    · have hp : t :: p <+: t :: ts := List.cons_prefix_cons.2 ⟨rfl, hp⟩
      exact .inr (.inl ⟨t :: p, deep, hp, by simp [hopen, hrun], hlt⟩)
    · exact .inr (.inr ⟨g, outer, by simp [hopen, hrun], rfl⟩)

theorem Misnests.blames {cause : Cause} (h : Misnests bound [] ts cause)
    (hdepth : ∀ p, p <+: ts → opened p - closed p ≤ bound) :
    (∃ t, FirstExtra ts t ∧ cause = .unbalanced t.position) ∨
    ∃ t, Covered ts ∧ closed ts < opened ts ∧ LastUnpartnered ts t ∧
      cause = .unclosed t.position := by
  rcases h.cases_run with ⟨before, t, rest, rfl, ht, hrun, rfl⟩ | ⟨p, groups, hp, hrun, hlt⟩ |
    ⟨t, outer, hrun, rfl⟩
  · refine .inl ⟨t, ⟨before, rest, rfl, ht, covered_iff.2 ⟨[], hrun⟩, ?_⟩, rfl⟩
    have hpaired := paired_iff.2 hrun
    have hcounts := counts_close ht
    rw [opened_append, closed_append, hpaired.total]
    omega
  · have hlength := run_length hrun
    have hle := hdepth p hp
    rw [List.length_nil] at hlength
    omega
  · have hlength := run_length hrun
    refine .inr ⟨t, covered_iff.2 ⟨_, hrun⟩, ?_, lastUnpartnered_of_run hrun, rfl⟩
    rw [List.length_nil, List.length_cons] at hlength
    omega

theorem FirstExtra.not_covered (h : FirstExtra ts t) : ¬ Covered ts := by
  obtain ⟨before, rest, rfl, -, -, hlt⟩ := h
  intro hcovered
  have := hcovered (before ++ [t]) (by simp)
  omega

end Calculator.Nesting

namespace Calculator.Postfix

open Nesting

variable {limits : Limits} {source : Option String} {ts : List Token}

/-- What becomes of a list that is not nested too deeply, by its counts alone. -/
theorem ofTokens_by_counts (source : Option String) (hts : ∀ t ∈ ts, t.Consistent)
    (hdepth : ∀ p, p <+: ts → opened p - closed p ≤ limits.depth) :
    (Paired ts ∧ ∃ program, ofTokens limits source ts = .ok program) ∨
    (∃ t, FirstExtra ts t ∧ ofTokens limits source ts =
      .error (.error { cause := .unbalanced t.position, expression := source })) ∨
    ∃ t, Covered ts ∧ closed ts < opened ts ∧ LastUnpartnered ts t ∧ ofTokens limits source ts =
      .error (.error { cause := .unclosed t.position, expression := source }) := by
  rcases ofTokens_cases limits source hts with ⟨program, h⟩ | ⟨e, he, hmis, hexpression⟩
  · obtain ⟨hbalanced, -⟩ := balanced_of_ofTokens h
    exact .inl ⟨paired_iff.2 hbalanced, program, h⟩
  · obtain ⟨cause, expression⟩ := e
    rcases hmis.blames hdepth with ⟨t, ht, rfl⟩ | ⟨t, hcovered, hlt, ht, rfl⟩
    · rcases hexpression with ⟨_, h⟩ | rfl
      · cases h
      · exact .inr (.inl ⟨t, ht, he⟩)
    · rcases hexpression with ⟨_, h⟩ | rfl
      · cases h
      · exact .inr (.inr ⟨t, hcovered, hlt, ht, he⟩)

/--
A list that is not nested too deeply is converted if and only if its parentheses are balanced.
Otherwise the error is at the first closing parenthesis that is too many or, if there is none, at
the last open one without a partner.
-/
theorem ofTokens_paired (hts : ∀ t ∈ ts, t.Consistent)
    (hdepth : ∀ p, p <+: ts → opened p - closed p ≤ limits.depth) :
    ((∃ program, ofTokens limits source ts = .ok program) ↔ Paired ts) ∧
    ((∃ p, p <+: ts ∧ opened p < closed p) → ∃ t, FirstExtra ts t ∧ ofTokens limits source ts =
      .error (.error { cause := .unbalanced t.position, expression := source })) ∧
    (Covered ts → closed ts < opened ts → ∃ t, LastUnpartnered ts t ∧ ofTokens limits source ts =
      .error (.error { cause := .unclosed t.position, expression := source })) := by
  have hfails {p : Problem} (h : ofTokens limits source ts = .error p) :
      ¬ ∃ program, ofTokens limits source ts = .ok program := by
    rintro ⟨program, hok⟩
    rw [h] at hok
    cases hok
  rcases ofTokens_by_counts source hts hdepth with ⟨hpaired, hok⟩ | ⟨t, ht, herror⟩ |
    ⟨t, hcovered, hlt, ht, herror⟩
  · refine ⟨iff_of_true hok hpaired, ?_, fun _ hlt => ?_⟩
    · rintro ⟨p, hp, hlt⟩
      exact absurd (hpaired.covered p hp) (Nat.not_le.2 hlt)
    · exact absurd hpaired.total (Nat.ne_of_gt hlt)
  · have hnot := ht.not_covered
    refine ⟨iff_of_false (hfails herror) fun h => hnot h.covered, fun _ => ⟨t, ht, herror⟩, ?_⟩
    exact fun hcovered _ => absurd hcovered hnot
  · have hodd : ¬ Paired ts := fun h => Nat.ne_of_gt hlt h.total
    refine ⟨iff_of_false (hfails herror) hodd, ?_, fun _ _ => ⟨t, ht, herror⟩⟩
    rintro ⟨p, hp, hlt⟩
    exact absurd (hcovered p hp) (Nat.not_le.2 hlt)

/-- In `a * (b + (c)` the inner group is closed, so the first parenthesis is to blame. -/
theorem ofTokens_paired_innerClosed :
    ∃ t, LastUnpartnered [.ofSymbol "a" 0, .ofOperator .mul 2, .ofOperator .openParen 4,
        .ofSymbol "b" 5, .ofOperator .add 7, .ofOperator .openParen 9, .ofSymbol "c" 10,
        .ofOperator .closeParen 11] t ∧
      ofTokens {} none [.ofSymbol "a" 0, .ofOperator .mul 2, .ofOperator .openParen 4,
        .ofSymbol "b" 5, .ofOperator .add 7, .ofOperator .openParen 9, .ofSymbol "c" 10,
        .ofOperator .closeParen 11] = .error (.error { cause := .unclosed t.position }) ∧
      t.position = 4 := by
  let ts : List Token := [.ofSymbol "a" 0, .ofOperator .mul 2, .ofOperator .openParen 4,
    .ofSymbol "b" 5, .ofOperator .add 7, .ofOperator .openParen 9, .ofSymbol "c" 10,
    .ofOperator .closeParen 11]
  have hts : ∀ t ∈ ts, t.Consistent := by
    unfold Token.Consistent
    decide
  have hfew : opened ts ≤ ({} : Limits).depth := by decide
  have hdepth (p : List Token) (hp : p <+: ts) : opened p - closed p ≤ ({} : Limits).depth := by
    have hle : opened p ≤ opened ts := hp.sublist.countP_le
    omega
  have hcovered : Covered ts := covered_iff.2 ⟨_, rfl⟩
  obtain ⟨t, ht, herror⟩ := (ofTokens_paired hts hdepth).2.2 hcovered (by decide)
  refine ⟨t, ht, herror, ?_⟩
  have hposition : ofTokens {} none ts = .error (.error { cause := .unclosed 4 }) := rfl
  rw [hposition] at herror
  injection herror with h
  injection h with h
  injection h with h
  injection h with h
  exact h.symm

end Calculator.Postfix
