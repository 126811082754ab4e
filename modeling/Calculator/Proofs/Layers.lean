import Calculator.Proofs.Grammar
import Calculator.Proofs.Parentheses

/-!
# Layers of waiting operators

`Reaches` lists the points that a conversion comes to: between two tokens, and whenever an operator
has gone out for the token that is next. What waits there is `Layered`: the open parentheses on the
stack are those of the tokens read that have no partner among them (`StillOpen`), the depth is their
number, and they cut the stack into layers. Within a layer every operator binds tighter than those
below it, or as tightly and both group to the right (`layered_of_reaches`).

Nothing is supposed of the tokens. One without an operator stops the conversion as soon as it meets
another in its layer. `reaches_last` ties the points inside a step to the step: they lead to where
nothing more goes out, and there the token is put on the stack or closes its group.
-/

namespace Calculator.Nesting

variable {ts rest gs groups : List Token} {g : Token}

/-- The open parentheses of a list that have no partner in it, in their order. -/
inductive StillOpen : List Token → List Token → Prop
  | nil : StillOpen [] []
  | opened {t : Token} {ts gs : List Token} (ht : t.isA .openParen = true) (hts : ¬ Partnered ts)
      (h : StillOpen ts gs) : StillOpen (t :: ts) (t :: gs)
  | passed {t : Token} {ts gs : List Token} (ht : t.isA .openParen = true → Partnered ts)
      (h : StillOpen ts gs) : StillOpen (t :: ts) gs

/-! ## Parentheses without a partner -/

theorem Partnered.append (h : Partnered ts) (us : List Token) : Partnered (ts ++ us) := by
  obtain ⟨inner, close, tail, rfl, hc, hinner⟩ := h
  exact ⟨inner, close, tail ++ us, by simp, hc, hinner⟩

theorem not_partnered_append (hts : ¬ Partnered ts) (hg : g.isA .openParen = true)
    (hrest : Balanced rest) : ¬ Partnered (ts ++ g :: rest) := by
  rintro ⟨inner, close, tail, heq, hc, hinner⟩
  have hne : g ≠ close := by
    rintro rfl
    rw [not_isA_closeParen hg] at hc
    cases hc
  rcases List.append_eq_append_iff.1 heq with ⟨front, rfl, hfront⟩ | ⟨front, rfl, hfront⟩
  · -- the partner stands behind `g`, whose own partner is then in between
    cases front with
    | nil => exact hne (List.cons.inj hfront).1
    | cons u front =>
      obtain ⟨rfl, rfl⟩ := List.cons.inj hfront
      exact hrest.not_partnered (((paired_iff.1 hinner).partnered hg).append _)
  · cases front with
    | nil => exact hne (List.cons.inj hfront).1.symm
    | cons u front =>
      obtain ⟨rfl, rfl⟩ := List.cons.inj hfront
      exact hts ⟨inner, close, front, rfl, hc, hinner⟩

theorem Balanced.stillOpen (h : Balanced ts) : StillOpen ts [] := by
  have hall : ∀ mid t tail, ts = mid ++ t :: tail → t.isA .openParen = true → Partnered tail := by
    rintro mid t tail rfl ht
    exact h.partnered ht
  clear h
  induction ts with
  | nil => exact .nil
  | cons t ts ih =>
    refine .passed (hall [] t ts rfl) (ih fun mid u tail hts => ?_)
    exact hall (t :: mid) u tail (by rw [hts, List.cons_append])

theorem StillOpen.snoc (h : StillOpen ts gs) (hg : g.isA .openParen = true)
    (hrest : Balanced rest) : StillOpen (ts ++ g :: rest) (gs ++ [g]) := by
  induction h with
  | nil => exact .opened hg hrest.not_partnered hrest.stillOpen
  | opened ht hts _ ih => exact .opened ht (not_partnered_append hts hg hrest) ih
  | passed ht _ ih => exact .passed (fun hopen => (ht hopen).append _) ih

theorem run_inside {inner : List Token} (h : ts.foldlM openAfter? inner = some groups)
    (outer : List Token) : ts.foldlM openAfter? (inner ++ outer) = some (groups ++ outer) := by
  induction ts generalizing inner with
  | nil =>
    cases h
    rfl
  | cons t ts ih =>
    obtain ⟨mid, hmid, h⟩ := Option.bind_eq_some_iff.1 h
    have hrest := ih h
    rcases openAfter?_cases hmid with ⟨ht, rfl⟩ | ⟨ht, g, rfl⟩ | ⟨ht, rfl⟩
    · rw [List.foldlM_cons, openAfter?_open ht]
      exact hrest
    · rw [List.foldlM_cons, List.cons_append, openAfter?_close ht]
      exact hrest
    · rw [List.foldlM_cons, openAfter?_other ht]
      exact hrest

theorem stillOpen_of_run (h : ts.foldlM openAfter? [] = some groups) :
    StillOpen ts groups.reverse := by
  induction groups generalizing ts with
  | nil => exact Balanced.stillOpen h
  | cons g outer ih =>
    rcases run_innermost h with ⟨front, hnil, -⟩ | ⟨before, rest, rfl, hg, hrest⟩
    · simp at hnil
    · rw [List.foldlM_append] at h
      obtain ⟨mid, hmid, h⟩ := Option.bind_eq_some_iff.1 h
      have hrun : rest.foldlM openAfter? (g :: mid) = some (g :: mid) := run_inside hrest (g :: mid)
      rw [List.foldlM_cons, openAfter?_open hg] at h
      obtain rfl : mid = outer := (List.cons.inj (Option.some.inj (hrun.symm.trans h))).2
      rw [List.reverse_cons]
      exact (ih hmid).snoc hg hrest

end Calculator.Nesting

namespace Calculator.Postfix

open Nesting Grammar

variable {limits : Limits} {source : Option String} {s s' : Conversion} {t top : Token}
  {ts read stack below : List Token}

/-! ## Layers -/

/-- The upper operator binds tighter, or as tightly and both group to the right. -/
def Over (upper lower : Token) : Prop :=
  ∃ o p, upper.operator? = some o ∧ lower.operator? = some p ∧
    (p.precedence < o.precedence ∨
      p.precedence = o.precedence ∧ p.associativity = .right ∧ o.associativity = .right)

/-- Operators and open parentheses, and between two parentheses ever tighter operators. -/
structure Tiered (stack : List Token) : Prop where
  waiting : ∀ u ∈ stack, u.isOperator = true ∧ u.isA .closeParen = false
  tighter : ∀ layer, layer <:+: stack → (∀ u ∈ layer, u.isA .openParen = false) →
    layer.Pairwise Over

/-- What a conversion holds when it has read some tokens. -/
structure Layered (read : List Token) (s : Conversion) : Prop where
  tiered : Tiered s.stack
  depth : s.depth = s.stack.countP (·.isA .openParen)
  opened : StillOpen read (s.stack.filter (·.isA .openParen)).reverse

theorem Over.trans {u v w : Token} (h : Over u v) (h' : Over v w) : Over u w := by
  obtain ⟨o, p, ho, hp, h⟩ := h
  obtain ⟨p', q, hp', hq, h'⟩ := h'
  obtain rfl : p = p' := Option.some.inj (hp.symm.trans hp')
  refine ⟨o, q, ho, hq, ?_⟩
  rcases h with h | ⟨h, -, ho⟩
  · exact .inl (by omega)
  · rcases h' with h' | ⟨h', hq, -⟩
    · exact .inl (by omega)
    · exact .inr ⟨h'.trans h, hq, ho⟩

theorem over_of_bindsFirst (h : bindsFirst top t = .ok false)
    (htop : top.isOperator = true ∧ top.isParenthesis = false)
    (ht : t.isOperator = true ∧ t.isParenthesis = false) : Over t top := by
  unfold bindsFirst at h
  rw [(Bool.or_eq_false_iff.1 htop.2).1] at h
  obtain ⟨o, ho, h⟩ := Result.bind_eq_ok_iff.1 h
  obtain ⟨p, hp, h⟩ := Result.bind_eq_ok_iff.1 h
  have ho := Token.operator_eq_ok_iff.1 ho
  have hp := Token.operator_eq_ok_iff.1 hp
  obtain ⟨hloose, hsame⟩ := Bool.or_eq_false_iff.1 (Except.ok.inj h)
  refine ⟨p, o, hp, ho, ?_⟩
  rcases Nat.lt_or_eq_of_le (Nat.not_lt.1 (of_decide_eq_false hloose)) with hlt | heq
  · exact .inl hlt
  · have hright : p.associativity = .right := by
      cases ha : p.associativity with
      | left => simp [heq, ha] at hsame
      | right => rfl
    have htop := @Token.isGrouping_eq_false top o (by simp [Token.isA, htop.1, ho]) htop.2
    have ht := @Token.isGrouping_eq_false t p (by simp [Token.isA, ht.1, hp]) ht.2
    exact .inr ⟨heq, (associativity_eq htop ht heq).trans hright, hright⟩

theorem Tiered.nil : Tiered [] where
  waiting := nofun
  tighter := by
    intro layer hlayer _
    rw [List.infix_nil.1 hlayer]
    exact .nil

theorem Tiered.rest {sent : List Token} (h : Tiered (sent ++ below)) : Tiered below where
  waiting := fun u hu => h.waiting u (List.mem_append_right _ hu)
  tighter := fun layer hlayer => h.tighter layer (hlayer.trans (List.suffix_append _ _).isInfix)

theorem Tiered.cons (h : Tiered stack) (ht : t.isOperator = true ∧ t.isA .closeParen = false)
    (hover : t.isA .openParen = false → ∀ layer, layer <+: stack →
      (∀ u ∈ layer, u.isA .openParen = false) → ∀ u ∈ layer, Over t u) : Tiered (t :: stack) where
  waiting := List.forall_mem_cons.2 ⟨ht, h.waiting⟩
  tighter := by
    intro layer hlayer hopen
    rcases List.infix_cons_iff.1 hlayer with hlayer | hlayer
    · cases layer with
      | nil => exact .nil
      | cons u layer =>
        obtain ⟨rfl, hlower⟩ := List.cons_prefix_cons.1 hlayer
        obtain ⟨hu, hopen⟩ := List.forall_mem_cons.1 hopen
        exact List.pairwise_cons.2
          ⟨hover hu layer hlower hopen, h.tighter layer hlower.isInfix hopen⟩
    · exact h.tighter layer hlayer hopen

theorem Tiered.group (h : Tiered stack) (ht : t.isA .openParen = true) : Tiered (t :: stack) := by
  refine h.cons ⟨Token.isOperator_of_isA ht, not_isA_closeParen ht⟩ fun hopen => ?_
  rw [ht] at hopen
  cases hopen

theorem Tiered.operator (h : Tiered stack) (hop : t.isOperator = true)
    (hpar : t.isParenthesis = false)
    (hover : ∀ top ∈ stack.head?, top.isA .openParen = false → Over t top) :
    Tiered (t :: stack) := by
  refine h.cons ⟨hop, (Bool.or_eq_false_iff.1 hpar).2⟩ fun _ layer hlayer hopen => ?_
  cases layer with
  | nil => nofun
  | cons top layer =>
    have htighter := h.tighter _ hlayer.isInfix hopen
    obtain ⟨rest, rfl⟩ := hlayer
    have htop : Over t top := hover top rfl (hopen top List.mem_cons_self)
    refine List.forall_mem_cons.2 ⟨htop, fun v hv => ?_⟩
    exact htop.trans (List.rel_of_pairwise_cons htighter hv)

theorem bindsFirst_of_splitStack {popped kept : List Token}
    (h : splitStack t stack = .ok (popped, kept)) :
    ∀ top ∈ kept.head?, bindsFirst top t = .ok false := by
  induction stack generalizing popped with
  | nil =>
    cases h
    nofun
  | cons u rest ih =>
    obtain ⟨b, hb, h⟩ := Result.bind_eq_ok_iff.1 h
    cases b with
    | false =>
      cases h
      rintro top ⟨⟩
      exact hb
    | true =>
      obtain ⟨⟨popped', kept'⟩, hsplit, h⟩ := Result.bind_eq_ok_iff.1 h
      cases h
      exact ih hsplit

theorem Tiered.step (hs : Tiered s.stack) (h : Postfix.step limits source s t = .ok s') :
    Tiered s'.stack := by
  rcases step_cases h with ⟨-, rfl⟩ | ⟨ho, -, rfl⟩ | ⟨-, popped, u, below, hstack, -, -, rfl⟩ |
    ⟨hop, hpar, popped, kept, hsplit, rfl⟩
  · exact hs
  · exact hs.group ho
  · rw [hstack, ← List.singleton_append, ← List.append_assoc] at hs
    exact hs.rest
  · rw [(splitStack_eq_ok hsplit).1] at hs
    refine hs.rest.operator hop hpar fun top htop hopen => ?_
    have hwaiting := hs.rest.waiting top (List.mem_of_mem_head? htop)
    refine over_of_bindsFirst (bindsFirst_of_splitStack hsplit top htop) ⟨hwaiting.1, ?_⟩ ⟨hop, hpar⟩
    rw [Token.isParenthesis, hopen, hwaiting.2]
    rfl

theorem Tiered.run (hs : Tiered s.stack)
    (h : ts.foldlM (Postfix.step limits source) s = .ok s') : Tiered s'.stack := by
  induction ts generalizing s with
  | nil =>
    cases h
    exact hs
  | cons t ts ih =>
    obtain ⟨mid, hmid, h⟩ := Result.bind_eq_ok_iff.1 h
    exact ih (hs.step hmid) h

/-! ## Points -/

/--
A waiting operator goes out for the token that is read: for a closing parenthesis all that waits in
its group, for another operator what binds first.
-/
inductive Yields : Token → Token → Prop
  | closing {top t : Token} (ht : t.isA .closeParen = true) (htop : top.isA .openParen = false) :
      Yields top t
  | first {top t : Token} (hop : t.isOperator = true) (hpar : t.isParenthesis = false)
      (hfirst : bindsFirst top t = .ok true) : Yields top t

/-- What the conversion of a list holds at the points it comes to, and what it has read by then. -/
inductive Reaches (limits : Limits) (source : Option String) (ts : List Token) :
    List Token → Conversion → Prop
  /-- Between two tokens. -/
  | between {read : List Token} {s : Conversion} (hread : read <+: ts)
      (h : read.foldlM (step limits source) {} = .ok s) : Reaches limits source ts read s
  /-- When one more operator has gone out for the next token. -/
  | sending {read below : List Token} {s : Conversion} {t top : Token}
      (h : Reaches limits source ts read s) (hnext : read ++ [t] <+: ts)
      (hstack : s.stack = top :: below) (htop : Yields top t) :
      Reaches limits source ts read ⟨s.output ++ [top], below, s.depth⟩

theorem Yields.not_open (h : Yields top t) : top.isA .openParen = false := by
  cases h with
  | closing _ htop => exact htop
  | first _ _ hfirst => exact not_open_of_bindsFirst hfirst

theorem Reaches.sends {sent : List Token} (h : Reaches limits source ts read s)
    (hnext : read ++ [t] <+: ts) (hstack : s.stack = sent ++ below)
    (hsent : ∀ u ∈ sent, Yields u t) :
    Reaches limits source ts read ⟨s.output ++ sent, below, s.depth⟩ := by
  induction sent generalizing s with
  | nil =>
    rw [List.append_nil, ← List.nil_append below, ← hstack]
    exact h
  | cons u sent ih =>
    obtain ⟨hu, hsent⟩ := List.forall_mem_cons.1 hsent
    have hone := ih (.sending h hnext hstack hu) rfl hsent
    rwa [List.append_assoc] at hone

/-- The points inside a step lead to its end: when nothing more goes out for the token, it waits or
closes its group. -/
theorem reaches_last (h : read.foldlM (step limits source) {} = .ok s)
    (hnext : read ++ [t] <+: ts) (hstep : step limits source s t = .ok s')
    (hop : t.isOperator = true) (ho : t.isA .openParen = false) :
    ∃ last, Reaches limits source ts read last ∧ (∀ top ∈ last.stack.head?, ¬ Yields top t) ∧
      (t.isParenthesis = false ∧ s' = { last with stack := t :: last.stack } ∨
        t.isA .closeParen = true ∧ ∃ u below, last.stack = u :: below ∧ u.isA .openParen = true ∧
          s' = ⟨last.output, below, last.depth - 1⟩) := by
  have hreaches : Reaches limits source ts read s :=
    .between ((List.prefix_append read [t]).trans hnext) h
  rcases step_cases hstep with ⟨hoperand, -⟩ | ⟨hopen, -, -⟩ |
    ⟨hc, popped, u, below, hstack, hpopped, hu, rfl⟩ | ⟨-, hpar, popped, kept, hsplit, rfl⟩
  · rw [hop] at hoperand
    cases hoperand
  · rw [ho] at hopen
    cases hopen
  · refine ⟨_, hreaches.sends hnext hstack fun v hv => .closing hc (hpopped v hv), ?_, ?_⟩
    · rintro top ⟨⟩ hyields
      rw [hyields.not_open] at hu
      cases hu
    · exact .inr ⟨hc, u, below, rfl, hu, rfl⟩
  · obtain ⟨hstack, hfirst⟩ := splitStack_eq_ok hsplit
    refine ⟨_, hreaches.sends hnext hstack fun v hv => .first hop hpar (hfirst v hv), ?_, ?_⟩
    · intro top htop hyields
      have hwaits := bindsFirst_of_splitStack hsplit top htop
      cases hyields with
      | closing hc => simp [Token.isParenthesis, hc] at hpar
      | first _ _ hfirst =>
        rw [hwaits] at hfirst
        cases hfirst
    · exact .inl ⟨hpar, rfl⟩

/-! ## The invariant -/

theorem layered_of_run (h : read.foldlM (step limits source) {} = .ok s) : Layered read s := by
  obtain ⟨groups, hgroups, htracks, -⟩ := Tracks.empty.run (Nat.zero_le _) h
  refine ⟨Tiered.nil.run h, ?_, ?_⟩
  · rw [List.countP_eq_length_filter, htracks.opened, htracks.depth]
  · rw [htracks.opened]
    exact stillOpen_of_run hgroups

theorem Layered.send (h : Layered read s) (hstack : s.stack = top :: below)
    (htop : top.isA .openParen = false) (out : List Token) :
    Layered read ⟨out, below, s.depth⟩ := by
  obtain ⟨htiered, hdepth, hopened⟩ := h
  rw [hstack] at htiered hdepth hopened
  rw [List.countP_cons_of_neg (by simp [htop])] at hdepth
  rw [List.filter_cons_of_neg (by simp [htop])] at hopened
  exact ⟨@Tiered.rest below [top] htiered, hdepth, hopened⟩

/--
At every point the stack holds operators and the parentheses still open, whose number is the depth,
and between two of these parentheses ever tighter operators.
-/
theorem layered_of_reaches (h : Reaches limits source ts read s) : Layered read s := by
  induction h with
  | between _ h => exact layered_of_run h
  | sending _ _ hstack htop ih => exact ih.send hstack htop.not_open _

/-- In `a = (b ** ** !c * d` the `!` has gone out for `*`, and the powers are next. -/
theorem layered_of_reaches_malformed :
    Layered [.ofSymbol "a" 0, .ofOperator .assign 2, .ofOperator .openParen 4, .ofSymbol "b" 5,
        .ofOperator .pow 7, .ofOperator .pow 10, .ofOperator .not 13, .ofSymbol "c" 14]
      ⟨[.ofSymbol "a" 0, .ofSymbol "b" 5, .ofSymbol "c" 14, .ofOperator .not 13],
        [.ofOperator .pow 10, .ofOperator .pow 7, .ofOperator .openParen 4,
          .ofOperator .assign 2], 1⟩ := by
  let read : List Token := [.ofSymbol "a" 0, .ofOperator .assign 2, .ofOperator .openParen 4,
    .ofSymbol "b" 5, .ofOperator .pow 7, .ofOperator .pow 10, .ofOperator .not 13,
    .ofSymbol "c" 14]
  let ts : List Token := read ++ [.ofOperator .mul 16, .ofSymbol "d" 18]
  have hbetween : Reaches {} none ts read
      ⟨[.ofSymbol "a" 0, .ofSymbol "b" 5, .ofSymbol "c" 14],
        [.ofOperator .not 13, .ofOperator .pow 10, .ofOperator .pow 7, .ofOperator .openParen 4,
          .ofOperator .assign 2], 1⟩ :=
    .between (List.prefix_append _ _) rfl
  have hyields : Yields (.ofOperator .not 13) (.ofOperator .mul 16) := .first rfl rfl rfl
  exact layered_of_reaches (.sending hbetween ⟨[.ofSymbol "d" 18], rfl⟩ rfl hyields)

end Calculator.Postfix
