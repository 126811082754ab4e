import Calculator.Proofs.Conservation

/-!
# Lists that are not converted

A list of tokens is converted if and only if it is balanced and not nested too deeply
(`exists_ofTokens_iff`). Otherwise it `Misnests`: the first token at which its groups go wrong, or
the innermost group still open at its end, is the cause that the conversion gives
(`exists_error_iff`). The operators that wait have no part in this, as long as they are operators
(`Armed`).
-/

namespace Calculator.Nesting

/--
The first thing wrong with the groups of a list, some being open in front of it: a closing
parenthesis without a partner, one group too many, or a group that is still open at the end.
-/
inductive Misnests (bound : Nat) : List Token → List Token → Cause → Prop
  | unbalanced {t : Token} {ts : List Token} (ht : t.isA .closeParen = true) :
    Misnests bound [] (t :: ts) (.unbalanced t.position)
  | tooDeep {groups ts : List Token} {t : Token} (ht : t.isA .openParen = true)
    (hdepth : groups.length = bound) :
    Misnests bound groups (t :: ts) (.limit ⟨.depth, bound, bound + 1⟩)
  | unclosed (g : Token) (groups : List Token) :
    Misnests bound (g :: groups) [] (.unclosed g.position)
  | later {groups groups' ts : List Token} {t : Token} {cause : Cause}
    (ht : openAfter? groups t = some groups') (hdepth : groups'.length ≤ bound)
    (h : Misnests bound groups' ts cause) : Misnests bound groups (t :: ts) cause

variable {bound : Nat} {groups ts : List Token}

theorem Misnests.not_balanced {cause : Cause} (h : Misnests bound groups ts cause)
    (hbalanced : ts.foldlM openAfter? groups = some []) : bound < deepest groups.length ts := by
  induction h with
  | unbalanced ht => simp [openAfter?, ht, not_isA_openParen ht] at hbalanced
  | @tooDeep groups ts t ht hdepth =>
    have := le_deepest (groups.length + 1) ts
    rw [deepest, depthAfter_open ht]
    omega
  | unclosed g groups => cases hbalanced
  | @later groups groups' ts t cause ht _ _ ih =>
    rw [List.foldlM_cons, ht] at hbalanced
    have := ih hbalanced
    rw [deepest, depthAfter_length ht]
    omega

theorem Misnests.deep {excess : Excess} (h : Misnests bound groups ts (.limit excess)) :
    bound < deepest groups.length ts := by
  generalize hcause : Cause.limit excess = cause at h
  induction h with
  | unbalanced | unclosed => cases hcause
  | @tooDeep groups ts t ht hdepth =>
    have := le_deepest (groups.length + 1) ts
    rw [deepest, depthAfter_open ht]
    omega
  | @later groups groups' ts t cause ht _ _ ih =>
    have := ih hcause
    rw [deepest, depthAfter_length ht]
    omega

theorem Misnests.cases_parenthesis {bound : Nat} {groups ts : List Token} {cause : Cause}
    (h : Misnests bound groups ts cause) (hgroups : ∀ g ∈ groups, g.isA .openParen = true) :
    (∃ t ∈ ts, t.isA .closeParen = true ∧ cause = .unbalanced t.position) ∨
    (∃ g ∈ groups ++ ts, g.isA .openParen = true ∧ cause = .unclosed g.position) ∨
    cause = .limit ⟨.depth, bound, bound + 1⟩ := by
  induction h with
  | @unbalanced t ts ht => exact .inl ⟨t, List.mem_cons_self, ht, rfl⟩
  | tooDeep => exact .inr (.inr rfl)
  | unclosed g groups =>
    have hg := hgroups g List.mem_cons_self
    exact .inr (.inl ⟨g, List.mem_append_left _ List.mem_cons_self, hg, rfl⟩)
  | @later groups groups' ts t cause hopen _ _ ih =>
    have hafter : (∀ g ∈ groups', g.isA .openParen = true) ∧ groups' ⊆ t :: groups := by
      rcases openAfter?_cases hopen with ⟨ht, rfl⟩ | ⟨_, g, rfl⟩ | ⟨_, rfl⟩
      · exact ⟨List.forall_mem_cons.2 ⟨ht, hgroups⟩, List.Subset.refl _⟩
      · exact ⟨(List.forall_mem_cons.1 hgroups).2, by simp⟩
      · exact ⟨hgroups, List.subset_cons_self _ _⟩
    rcases ih hafter.1 with ⟨u, hu, hclose, rfl⟩ | ⟨g, hg, hg', rfl⟩ | hlimit
    · exact .inl ⟨u, List.mem_cons_of_mem t hu, hclose, rfl⟩
    · refine .inr (.inl ⟨g, ?_, hg', rfl⟩)
      rcases List.mem_append.1 hg with hg | hg
      · rcases List.mem_cons.1 (hafter.2 hg) with rfl | hg
        · exact List.mem_append_right _ List.mem_cons_self
        · exact List.mem_append_left _ hg
      · exact List.mem_append_right _ (List.mem_cons_of_mem t hg)
    · exact .inr (.inr hlimit)

theorem Misnests.unique {cause cause' : Cause} (h : Misnests bound groups ts cause)
    (h' : Misnests bound groups ts cause') : cause = cause' := by
  induction h with
  | unbalanced ht =>
    cases h' with
    | unbalanced => rfl
    | tooDeep ht' => rw [not_isA_openParen ht] at ht'; cases ht'
    | later hopen => simp [openAfter?, ht, not_isA_openParen ht] at hopen
  | tooDeep ht hdepth =>
    cases h' with
    | unbalanced ht' => rw [not_isA_openParen ht'] at ht; cases ht
    | tooDeep => rfl
    | later hopen hdepth' =>
      rw [openAfter?_open ht] at hopen
      cases hopen
      rw [List.length_cons] at hdepth'
      omega
  | unclosed g groups =>
    cases h'
    rfl
  | later hopen hdepth _ ih =>
    cases h' with
    | unbalanced ht => simp [openAfter?, ht, not_isA_openParen ht] at hopen
    | tooDeep ht hdepth' =>
      rw [openAfter?_open ht] at hopen
      cases hopen
      rw [List.length_cons] at hdepth
      omega
    | later hopen' _ h' =>
      rw [hopen] at hopen'
      cases hopen'
      exact ih h'

end Calculator.Nesting

namespace Calculator.Postfix

open Nesting

variable {limits : Limits} {source : Option String} {s s' : Conversion} {t : Token}
  {groups ts : List Token}

/-! ## One token -/

theorem exists_splitStack {stack : List Token} (ht : t.operator?.isSome = true)
    (hstack : ∀ u ∈ stack, u.operator?.isSome = true) :
    ∃ r, splitStack t stack = .ok r := by
  have hoperator {u : Token} (hu : u.operator?.isSome = true) : ∃ o, u.operator = .ok o := by
    obtain ⟨o, ho⟩ := Option.isSome_iff_exists.1 hu
    exact ⟨o, Token.operator_eq_ok_iff.2 ho⟩
  obtain ⟨p, hp⟩ := hoperator ht
  induction stack with
  | nil => exact ⟨_, rfl⟩
  | cons top rest ih =>
    obtain ⟨htop, hrest⟩ := List.forall_mem_cons.1 hstack
    obtain ⟨o, ho⟩ := hoperator htop
    obtain ⟨b, hb⟩ : ∃ b, bindsFirst top t = .ok b := by
      unfold bindsFirst
      split
      · exact ⟨_, rfl⟩
      · rw [ho, hp]
        exact ⟨_, rfl⟩
    obtain ⟨⟨popped, kept⟩, hsplit⟩ := ih hrest
    rw [splitStack, hb, Result.ok_bind]
    cases b with
    | false => exact ⟨_, rfl⟩
    | true =>
      rw [if_pos rfl, hsplit]
      exact ⟨_, rfl⟩

/-- What waits has an operator, if all that is read has. -/
def Armed (s : Conversion) : Prop := ∀ u ∈ s.stack, u.operator?.isSome = true

theorem Armed.step (hs : Armed s) (ht : t.Consistent) (h : step limits source s t = .ok s') :
    Armed s' := by
  rcases step_cases h with ⟨-, rfl⟩ | ⟨ho, -, rfl⟩ | ⟨-, popped, u, below, hstack, -, -, rfl⟩ |
    ⟨hop, -, popped, kept, hsplit, rfl⟩
  · exact hs
  · exact List.forall_mem_cons.2 ⟨ht (Token.isOperator_of_isA ho), hs⟩
  · refine fun v hv => hs v ?_
    rw [hstack]
    exact List.mem_append_right _ (List.mem_cons_of_mem _ hv)
  · refine List.forall_mem_cons.2 ⟨ht hop, fun v hv => hs v ?_⟩
    rw [(splitStack_eq_ok hsplit).1]
    exact List.mem_append_right _ hv

theorem Tracks.step_eq_error {p : Problem} (hs : Tracks groups s) (harmed : Armed s)
    (ht : t.Consistent) (h : Postfix.step limits source s t = .error p) :
    (t.isA .closeParen = true ∧ groups = [] ∧
      p = .error { cause := .unbalanced t.position, expression := source }) ∨
    (t.isA .openParen = true ∧ limits.depth < groups.length + 1 ∧
      p = .error { cause := .limit ⟨.depth, limits.depth, groups.length + 1⟩ }) := by
  unfold Postfix.step at h
  split at h
  · cases h
  split at h
  · next ho =>
    refine .inr ⟨ho, ?_⟩
    rcases Result.bind_eq_error_iff.1 h with h | ⟨_, _, h⟩
    · rw [← hs.depth]
      exact Limits.require_eq_error_iff.1 h
    · cases h
  split at h
  · next hc =>
    refine .inl ⟨hc, ?_⟩
    unfold closeGroup at h
    dsimp only at h
    split at h
    · next hnone =>
      cases h
      refine ⟨?_, rfl⟩
      have hwaits : s.stack.takeWhile (!·.isA .openParen) = s.stack := by
        have h := @List.takeWhile_append_dropWhile _ (!·.isA .openParen) s.stack
        rwa [hnone, List.append_nil] at h
      rw [← hs.opened, List.filter_eq_nil_iff]
      intro u hu
      rw [← hwaits] at hu
      simpa using List.all_eq_true.1 List.all_takeWhile u hu
    · cases h
  · next hop _ _ =>
    obtain ⟨⟨popped, kept⟩, hsplit⟩ := exists_splitStack (ht (by simpa using hop)) harmed
    rw [pushOperator, hsplit] at h
    cases h

/-! ## All tokens -/

/-- What goes wrong with the groups is what the conversion fails with, and nothing else is. -/
theorem Tracks.run_cases (hs : Tracks groups s) (harmed : Armed s)
    (hdepth : groups.length ≤ limits.depth) (hts : ∀ t ∈ ts, t.Consistent) :
    (∃ program, (ts.foldlM (Postfix.step limits source) s >>= finish source) = .ok program) ∨
    ∃ e, (ts.foldlM (Postfix.step limits source) s >>= finish source) = .error (.error e) ∧
      Misnests limits.depth groups ts e.cause ∧
      ((∃ excess, e = { cause := .limit excess }) ∨ e.expression = source) := by
  induction ts generalizing groups s with
  | nil =>
    show (∃ program, finish source s = .ok program) ∨ ∃ e, finish source s = .error (.error e) ∧ _
    unfold finish
    cases hfind : s.stack.find? (·.isA .openParen) with
    | none => exact .inl ⟨_, rfl⟩
    | some g =>
      have hhead : groups.head? = some g := by
        rw [← hs.opened, List.head?_filter, hfind]
      obtain ⟨outer, rfl⟩ := List.head?_eq_some_iff.1 hhead
      exact .inr ⟨_, rfl, .unclosed g outer, .inr rfl⟩
  | cons t ts ih =>
    obtain ⟨ht, hts⟩ := List.forall_mem_cons.1 hts
    rw [List.foldlM_cons]
    cases hstep : Postfix.step limits source s t with
    | error p =>
      rcases hs.step_eq_error harmed ht hstep with ⟨hc, rfl, rfl⟩ | ⟨ho, hlt, rfl⟩
      · exact .inr ⟨_, rfl, .unbalanced hc, .inr rfl⟩
      · have heq : groups.length = limits.depth := by omega
        rw [heq]
        exact .inr ⟨_, rfl, .tooDeep ho heq, .inl ⟨_, rfl⟩⟩
    | ok s' =>
      obtain ⟨groups', hopen, hs', hdepth'⟩ := hs.step hstep
      rcases ih hs' (harmed.step ht hstep) (hdepth' hdepth) hts with hok | ⟨e, he, hmis, hexpr⟩
      · exact .inl hok
      · exact .inr ⟨e, he, .later hopen (hdepth' hdepth) hmis, hexpr⟩

theorem ofTokens_cases (limits : Limits) (source : Option String) (hts : ∀ t ∈ ts, t.Consistent) :
    (∃ program, ofTokens limits source ts = .ok program) ∨
    ∃ e, ofTokens limits source ts = .error (.error e) ∧ Misnests limits.depth [] ts e.cause ∧
      ((∃ excess, e = { cause := .limit excess }) ∨ e.expression = source) :=
  Tracks.empty.run_cases (fun _ hu => nomatch hu) (Nat.zero_le _) hts

theorem exists_ofTokens_iff (hts : ∀ t ∈ ts, t.Consistent) :
    (∃ program, ofTokens limits source ts = .ok program) ↔
      Balanced ts ∧ deepest 0 ts ≤ limits.depth := by
  constructor
  · rintro ⟨program, h⟩
    exact balanced_of_ofTokens h
  · rintro ⟨hbalanced, hdeep⟩
    rcases ofTokens_cases limits source hts with h | ⟨e, _, hmis, _⟩
    · exact h
    · exact absurd (hmis.not_balanced hbalanced) (Nat.not_lt.2 hdeep)

theorem exists_error_iff (hts : ∀ t ∈ ts, t.Consistent) {cause : Cause} :
    (∃ e, ofTokens limits source ts = .error (.error e) ∧ e.cause = cause) ↔
      Misnests limits.depth [] ts cause := by
  constructor
  · rintro ⟨e, he, rfl⟩
    rcases ofTokens_cases limits source hts with ⟨program, h⟩ | ⟨e', he', hmis, _⟩
    · rw [h] at he
      cases he
    · rw [he'] at he
      cases he
      exact hmis
  · intro hmis
    rcases ofTokens_cases limits source hts with ⟨program, h⟩ | ⟨e, he, hmis', _⟩
    · obtain ⟨hbalanced, hdeep⟩ := balanced_of_ofTokens h
      exact absurd (hmis.not_balanced hbalanced) (Nat.not_lt.2 hdeep)
    · exact ⟨e, he, hmis'.unique hmis⟩

theorem step_eq_of_ok {limits' : Limits} {s₁ s₂ : Conversion} (h₁ : step limits source s t = .ok s₁)
    (h₂ : step limits' source s t = .ok s₂) : s₁ = s₂ := by
  unfold step at h₁ h₂
  split at h₁
  · next hop =>
    rw [if_pos hop] at h₂
    exact Except.ok.inj (h₁.symm.trans h₂)
  · next hop =>
    rw [if_neg hop] at h₂
    split at h₁
    · next ho =>
      rw [if_pos ho] at h₂
      rw [(openGroup_eq_ok h₁).2, (openGroup_eq_ok h₂).2]
    · next ho =>
      rw [if_neg ho] at h₂
      exact Except.ok.inj (h₁.symm.trans h₂)

theorem run_eq_of_ok {limits' : Limits} {s₁ s₂ : Conversion}
    (h₁ : ts.foldlM (step limits source) s = .ok s₁)
    (h₂ : ts.foldlM (step limits' source) s = .ok s₂) : s₁ = s₂ := by
  induction ts generalizing s with
  | nil => exact Except.ok.inj (h₁.symm.trans h₂)
  | cons t ts ih =>
    obtain ⟨s', hs, h₁⟩ := Result.bind_eq_ok_iff.1 h₁
    obtain ⟨s'', hs', h₂⟩ := Result.bind_eq_ok_iff.1 h₂
    obtain rfl := step_eq_of_ok hs hs'
    exact ih h₁ h₂

theorem ofTokens_eq_of_ok {limits' : Limits} {p₁ p₂ : List Token}
    (h₁ : ofTokens limits source ts = .ok p₁) (h₂ : ofTokens limits' source ts = .ok p₂) :
    p₁ = p₂ := by
  obtain ⟨s₁, hs₁, h₁⟩ := Result.bind_eq_ok_iff.1 h₁
  obtain ⟨s₂, hs₂, h₂⟩ := Result.bind_eq_ok_iff.1 h₂
  obtain rfl := run_eq_of_ok hs₁ hs₂
  exact Except.ok.inj (h₁.symm.trans h₂)

end Calculator.Postfix
