import Calculator.Proofs.Conversion
import Calculator.Proofs.Conservation

/-!
# Groups

A group acts as one operand, whatever stands in it and around it (`ofTokens_group`). What waits
below an open parenthesis is neither sent out nor looked at while the group is read (`step_above`),
what is out already is only added to (`step_after`), and at the closing parenthesis all that the
group sends out is out.
-/

namespace Calculator.Postfix

open Nesting

variable {limits : Limits} {source : Option String} {s s' base : Conversion}
  {opening closing t : Token} {groups below ts us : List Token}

/-! ## Above an open parenthesis -/

/-- The state on top of another one: its output behind, its stack above, its groups inside. -/
def Conversion.above (s base : Conversion) : Conversion :=
  ⟨base.output ++ s.output, s.stack ++ base.stack, base.depth + s.depth⟩

theorem splitStack_above (ho : opening.isA .openParen = true) (t : Token) (stack : List Token) :
    splitStack t (stack ++ opening :: below) =
      (splitStack t stack).map fun r => (r.1, r.2 ++ opening :: below) := by
  induction stack with
  | nil =>
    rw [List.nil_append, splitStack, splitStack, bindsFirst_open ho]
    rfl
  | cons top rest ih =>
    rw [List.cons_append, splitStack, splitStack]
    cases bindsFirst top t with
    | error f => rfl
    | ok b =>
      cases b with
      | false => rfl
      | true =>
        simp only [Result.ok_bind, if_true, ih]
        cases splitStack t rest <;> rfl

theorem Tracks.depth_pos (hs : Tracks groups s) {u : Token} (hu : u ∈ s.stack)
    (ho : u.isA .openParen = true) : 0 < s.depth := by
  have hmem : u ∈ s.stack.filter (·.isA .openParen) := List.mem_filter.2 ⟨hu, ho⟩
  rw [hs.opened] at hmem
  rw [hs.depth]
  exact List.length_pos_of_mem hmem

/-- A step does the same above an open parenthesis, if the limit allows for the groups below it. -/
theorem step_above (hbase : base.stack = opening :: below) (ho : opening.isA .openParen = true)
    (hs : Tracks groups s) (h : step limits source s t = .ok s')
    (hdepth : base.depth + s'.depth ≤ limits.depth) :
    step limits source (s.above base) t = .ok (s'.above base) := by
  rcases step_cases h with ⟨hop, rfl⟩ | ⟨ht, -, rfl⟩ |
    ⟨hc, popped, u, rest, hstack, hpopped, hu, rfl⟩ | ⟨hop, hpar, popped, kept, hsplit, rfl⟩
  · rw [step_operand ⟨t, hop⟩]
    simp [Conversion.above]
  · rw [step_open ht hdepth]
    rfl
  · have hpositive := hs.depth_pos (by simp [hstack]) hu
    have habove : s.above base =
        ⟨base.output ++ s.output, popped ++ u :: (rest ++ base.stack), base.depth + s.depth⟩ := by
      simp [Conversion.above, hstack]
    rw [habove, step_close hc hu hpopped]
    simp only [Conversion.above, List.append_assoc, Except.ok.injEq, Conversion.mk.injEq, true_and]
    omega
  · have habove : splitStack t (s.above base).stack = .ok (popped, kept ++ base.stack) := by
      rw [Conversion.above, hbase, splitStack_above ho, hsplit]
      rfl
    rw [step_push hop hpar habove]
    simp [Conversion.above]

theorem run_above (hbase : base.stack = opening :: below) (ho : opening.isA .openParen = true)
    (hs : Tracks groups s) (h : ts.foldlM (step limits source) s = .ok s')
    (hdepth : deepest (base.depth + s.depth) ts ≤ limits.depth) :
    ts.foldlM (step limits source) (s.above base) = .ok (s'.above base) := by
  induction ts generalizing groups s with
  | nil =>
    cases h
    rfl
  | cons t ts ih =>
    obtain ⟨mid, hmid, h⟩ := Result.bind_eq_ok_iff.1 h
    obtain ⟨groups', hopen, hmid', -⟩ := hs.step hmid
    rw [deepest, hs.depth, depthAfter_add_length hopen, ← hmid'.depth] at hdepth
    have hle := le_deepest (base.depth + mid.depth) ts
    rw [List.foldlM_cons, step_above hbase ho hs hmid (by omega), Result.ok_bind]
    exact ih hmid' h (by omega)

/-! ## Behind what is out -/

def Conversion.after (s : Conversion) (out : List Token) : Conversion :=
  { s with output := out ++ s.output }

theorem step_after (s : Conversion) (out : List Token) (t : Token) :
    step limits source (s.after out) t = (step limits source s t).map (·.after out) := by
  simp only [step, openGroup, closeGroup, pushOperator, Conversion.after]
  split
  · rw [List.append_assoc]
    rfl
  split
  · cases limits.require .depth (s.depth + 1) <;> rfl
  split
  · cases s.stack.dropWhile (fun u => !u.isA .openParen) with
    | nil => rfl
    | cons u below =>
      dsimp only
      rw [List.append_assoc]
      rfl
  · cases splitStack t s.stack with
    | error f => rfl
    | ok r =>
      dsimp only
      rw [List.append_assoc]
      rfl

/-- What becomes of a state when the rest of the tokens is read. -/
def complete (limits : Limits) (source : Option String) (s : Conversion) (ts : List Token) :
    Except Problem (List Token) :=
  ts.foldlM (step limits source) s >>= finish source

theorem complete_cons (s : Conversion) (t : Token) (ts : List Token) :
    complete limits source s (t :: ts) =
      step limits source s t >>= (complete limits source · ts) := by
  unfold complete
  rw [List.foldlM_cons]
  cases step limits source s t <;> rfl

theorem complete_append (s : Conversion) (ts us : List Token) :
    complete limits source s (ts ++ us) =
      ts.foldlM (step limits source) s >>= (complete limits source · us) := by
  unfold complete
  rw [List.foldlM_append]
  cases ts.foldlM (step limits source) s <;> rfl

theorem complete_after (s : Conversion) (out ts : List Token) :
    complete limits source (s.after out) ts = (complete limits source s ts).map (out ++ ·) := by
  induction ts generalizing s with
  | nil =>
    show finish source (s.after out) = (finish source s).map (out ++ ·)
    unfold finish Conversion.after
    dsimp only
    split
    · rfl
    · rw [List.append_assoc]
      rfl
  | cons t ts ih =>
    rw [complete_cons, complete_cons, step_after]
    cases step limits source s t with
    | error p => rfl
    | ok mid => exact ih mid

/-! ## Tokens -/

theorem mem_of_step (h : step limits source s t = .ok s') {u : Token}
    (hu : u ∈ s'.output ++ s'.stack) : u ∈ s.output ++ s.stack ∨ u = t := by
  rcases step_cases h with ⟨-, rfl⟩ | ⟨-, -, rfl⟩ | ⟨-, popped, v, below, hstack, -, -, rfl⟩ |
    ⟨-, -, popped, kept, hsplit, rfl⟩
  · simp only [List.mem_append, List.mem_singleton] at hu ⊢
    grind
  · simp only [List.mem_append, List.mem_cons] at hu ⊢
    grind
  · simp only [hstack, List.mem_append, List.mem_cons] at hu ⊢
    grind
  · simp only [(splitStack_eq_ok hsplit).1, List.mem_append, List.mem_cons] at hu ⊢
    grind

theorem mem_of_run (h : ts.foldlM (step limits source) s = .ok s') {u : Token}
    (hu : u ∈ s'.output ++ s'.stack) : u ∈ s.output ++ s.stack ∨ u ∈ ts := by
  induction ts generalizing s with
  | nil =>
    cases h
    exact .inl hu
  | cons t ts ih =>
    obtain ⟨mid, hmid, h⟩ := Result.bind_eq_ok_iff.1 h
    rcases ih h with hu | hu
    · rcases mem_of_step hmid hu with hu | rfl
      · exact .inl hu
      · exact .inr List.mem_cons_self
    · exact .inr (List.mem_cons_of_mem t hu)

theorem mem_of_complete {program : List Token} (h : complete limits source s ts = .ok program)
    {u : Token} (hu : u ∈ program) : u ∈ s.output ++ s.stack ∨ u ∈ ts := by
  obtain ⟨last, hrun, hfinish⟩ := Result.bind_eq_ok_iff.1 h
  obtain ⟨rfl, -⟩ := finish_eq_ok hfinish
  exact mem_of_run hrun hu

/-! ## A group is an operand -/

/-- The list with a program in place of a token. -/
def splice (x : Token) (program ts : List Token) : List Token :=
  ts.flatMap fun t => if t = x then program else [t]

theorem splice_of_not_mem {x : Token} (hx : x ∉ ts) (program : List Token) :
    splice x program ts = ts := by
  induction ts with
  | nil => rfl
  | cons t ts ih =>
    obtain ⟨hne, hx⟩ := List.ne_and_not_mem_of_not_mem_cons hx
    have ih : ts.flatMap (fun t => if t = x then program else [t]) = ts := ih hx
    rw [splice, List.flatMap_cons, if_neg (Ne.symm hne), ih, List.singleton_append]

theorem splice_append {x : Token} (hts : x ∉ ts) (hus : x ∉ us) (program : List Token) :
    splice x program (ts ++ x :: us) = ts ++ (program ++ us) := by
  have hts := splice_of_not_mem hts program
  have hus := splice_of_not_mem hus program
  unfold splice at hts hus ⊢
  rw [List.flatMap_append, List.flatMap_cons, hts, hus, if_pos rfl]

theorem complete_splice {x : Token} (hx : x ∉ s.output ++ s.stack) (hts : x ∉ ts)
    (program : List Token) :
    complete limits source ⟨s.output ++ program, s.stack, s.depth⟩ ts =
      (complete limits source ⟨s.output ++ [x], s.stack, s.depth⟩ ts).map (splice x program) := by
  let rest : Conversion := ⟨[], s.stack, s.depth⟩
  have hrest (out : List Token) : ⟨s.output ++ out, s.stack, s.depth⟩ =
      rest.after (s.output ++ out) := by
    simp [Conversion.after, rest]
  rw [hrest program, hrest [x], complete_after, complete_after]
  cases htail : complete limits source rest ts with
  | error p => rfl
  | ok tail =>
    have hout : x ∉ s.output := fun h => hx (List.mem_append_left _ h)
    have hmore : x ∉ tail := fun h =>
      (mem_of_complete htail h).elim (fun h => hx (List.mem_append_right _ h)) hts
    show Except.ok (s.output ++ program ++ tail) =
      Except.ok (splice x program (s.output ++ [x] ++ tail))
    rw [List.append_assoc, List.append_assoc, List.singleton_append, splice_append hout hmore]

theorem complete_group {program : List Token} (ho : opening.isA .openParen = true)
    (hc : closing.isA .closeParen = true) (hts : ofTokens limits source ts = .ok program)
    (hdepth : deepest (s.depth + 1) ts ≤ limits.depth) (us : List Token) :
    complete limits source s (opening :: (ts ++ closing :: us)) =
      complete limits source ⟨s.output ++ program, s.stack, s.depth⟩ us := by
  obtain ⟨last, hrun, hfinish⟩ := Result.bind_eq_ok_iff.1 hts
  obtain ⟨rfl, hwaits⟩ := finish_eq_ok hfinish
  have hlast : last.depth = 0 := by
    obtain ⟨groups, -, htracks, -⟩ := Tracks.empty.run (Nat.zero_le _) hrun
    rw [htracks.depth, ← htracks.opened,
      List.filter_eq_nil_iff.2 fun u hu => by simp [hwaits u hu]]
    rfl
  let base : Conversion := ⟨s.output, opening :: s.stack, s.depth + 1⟩
  have hle := le_deepest (s.depth + 1) ts
  have habove : ts.foldlM (step limits source) base = .ok (last.above base) := by
    have hrun := @run_above _ _ _ _ base _ _ _ _ rfl ho .empty hrun hdepth
    rwa [show ({} : Conversion).above base = base by simp [Conversion.above]] at hrun
  have hclose : step limits source (last.above base) closing =
      .ok ⟨s.output ++ (last.output ++ last.stack), s.stack, s.depth⟩ := by
    have hstate : last.above base =
        ⟨s.output ++ last.output, last.stack ++ opening :: s.stack, s.depth + 1⟩ := by
      simp [Conversion.above, base, hlast]
    rw [hstate, step_close hc ho hwaits, List.append_assoc, Nat.add_sub_cancel]
  rw [complete_cons, step_open ho (Nat.le_trans hle hdepth), Result.ok_bind, complete_append,
    habove, Result.ok_bind, complete_cons, hclose, Result.ok_bind]

theorem deepest_mono {depth depth' : Nat} (h : depth ≤ depth') (ts : List Token) :
    deepest depth ts ≤ deepest depth' ts := by
  induction ts generalizing depth depth' with
  | nil => exact h
  | cons t ts ih =>
    have hnext : depthAfter depth t ≤ depthAfter depth' t := by
      unfold depthAfter
      split
      · omega
      · split <;> omega
    have := ih hnext
    rw [deepest, deepest]
    omega

/--
A group acts as one operand, whatever stands in it and around it: its tokens come out where an
operand in its place would, and what fails with the one fails with the other.
-/
theorem ofTokens_group {pre post program : List Token} {x : Token}
    (ho : opening.isA .openParen = true) (hc : closing.isA .closeParen = true)
    (hx : x.isOperator = false) (hpre : x ∉ pre) (hpost : x ∉ post)
    (hts : ofTokens limits source ts = .ok program)
    (hdeep : deepest 0 (pre ++ opening :: ts) ≤ limits.depth) :
    ofTokens limits source (pre ++ opening :: ts ++ closing :: post) =
        (ofTokens limits source (pre ++ x :: post)).map (splice x program) ∧
      ofTokens limits source (opening :: ts ++ [closing]) = .ok program := by
  have hcomplete (us : List Token) : ofTokens limits source us = complete limits source {} us := rfl
  have happend : pre ++ opening :: ts ++ closing :: post =
      pre ++ opening :: (ts ++ closing :: post) := by
    simp
  rw [deepest_append] at hdeep
  constructor
  · rw [happend, hcomplete, hcomplete, complete_append, complete_append]
    cases hrun : pre.foldlM (step limits source) {} with
    | error p => rfl
    | ok s =>
      obtain ⟨groups, hgroups, htracks, -⟩ := Tracks.empty.run (Nat.zero_le _) hrun
      have hdepth : pre.foldl depthAfter 0 = s.depth :=
        (foldl_depthAfter_length hgroups).trans htracks.depth.symm
      rw [hdepth, deepest, depthAfter_open ho] at hdeep
      rw [Result.ok_bind, Result.ok_bind, complete_group ho hc hts (by omega), complete_cons,
        step_operand ⟨x, hx⟩, Result.ok_bind]
      have hheld : x ∉ s.output ++ s.stack := fun h =>
        (mem_of_run hrun h).elim List.not_mem_nil hpre
      exact complete_splice hheld hpost program
  · have hdepth : deepest (0 + 1) ts ≤ limits.depth := by
      rw [deepest, depthAfter_open ho] at hdeep
      have hmono : 0 + 1 ≤ pre.foldl depthAfter 0 + 1 := by omega
      have := deepest_mono hmono ts
      omega
    rw [hcomplete, List.cons_append, complete_group ho hc hts hdepth]
    simp [complete, finish, pure, Except.pure]

/-- In `n * (a + b c) ** d` the group comes out as a whole, though `b` and `c` have no operator. -/
theorem ofTokens_group_sideBySide :
    ofTokens {} none [.ofSymbol "a" 5, .ofOperator .add 7, .ofSymbol "b" 9, .ofSymbol "c" 11] =
        .ok [.ofSymbol "a" 5, .ofSymbol "b" 9, .ofSymbol "c" 11, .ofOperator .add 7] ∧
      ofTokens {} none ([.ofSymbol "n" 0, .ofOperator .mul 2] ++ .ofOperator .openParen 4 ::
          [.ofSymbol "a" 5, .ofOperator .add 7, .ofSymbol "b" 9, .ofSymbol "c" 11] ++
          .ofOperator .closeParen 12 :: [.ofOperator .pow 14, .ofSymbol "d" 17]) =
        .ok [.ofSymbol "n" 0, .ofSymbol "a" 5, .ofSymbol "b" 9, .ofSymbol "c" 11,
          .ofOperator .add 7, .ofSymbol "d" 17, .ofOperator .pow 14, .ofOperator .mul 2] := by
  have ho : (Token.ofOperator .openParen 4).isA .openParen = true := rfl
  have hc : (Token.ofOperator .closeParen 12).isA .closeParen = true := rfl
  have hx : (Token.ofSymbol "x" 4).isOperator = false := rfl
  have hpre : Token.ofSymbol "x" 4 ∉ [.ofSymbol "n" 0, .ofOperator .mul 2] := by decide
  have hpost : Token.ofSymbol "x" 4 ∉ [.ofOperator .pow 14, .ofSymbol "d" 17] := by decide
  have hts : ofTokens {} none
      [.ofSymbol "a" 5, .ofOperator .add 7, .ofSymbol "b" 9, .ofSymbol "c" 11] =
        .ok [.ofSymbol "a" 5, .ofSymbol "b" 9, .ofSymbol "c" 11, .ofOperator .add 7] := rfl
  refine ⟨hts, (ofTokens_group ho hc hx hpre hpost hts (by decide)).1.trans ?_⟩
  rfl

end Calculator.Postfix
