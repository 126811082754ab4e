import Calculator.Postfix
import Calculator.Proofs.Nesting
import Calculator.Result

/-!
# What the conversion keeps

`step_cases` lists all that one token can do to a conversion. Between two tokens the parentheses
that wait are the groups that are open, never too many (`Tracks`), and every other token that was
read is out or waits. `Marks` follows each of them by the index at which it was read: equal tokens
are told apart, and an operand can be seen to come out before the operators behind it. So a list
that is converted is balanced and within the limit, and what comes out is a rearrangement of its
other tokens (`ofTokens_rearranges`).
-/

namespace Calculator.Postfix

open Nesting

variable {limits : Limits} {source : Option String} {s s' : Conversion} {t : Token}
  {groups ts : List Token}

theorem splitStack_eq_ok {stack popped kept : List Token}
    (h : splitStack t stack = .ok (popped, kept)) :
    stack = popped ++ kept ∧ ∀ u ∈ popped, bindsFirst u t = .ok true := by
  induction stack generalizing popped kept with
  | nil =>
    cases h
    exact ⟨rfl, fun u hu => nomatch hu⟩
  | cons top rest ih =>
    obtain ⟨b, hb, h⟩ := Result.bind_eq_ok_iff.1 h
    cases b with
    | false =>
      cases h
      exact ⟨rfl, fun u hu => nomatch hu⟩
    | true =>
      obtain ⟨⟨popped', kept'⟩, hsplit, h⟩ := Result.bind_eq_ok_iff.1 h
      cases h
      obtain ⟨rfl, hall⟩ := ih hsplit
      refine ⟨rfl, fun u hu => ?_⟩
      rcases List.mem_cons.1 hu with rfl | hu
      · exact hb
      · exact hall u hu

theorem not_open_of_bindsFirst {u : Token} (h : bindsFirst u t = .ok true) :
    u.isA .openParen = false := by
  rw [Bool.eq_false_iff]
  intro hu
  simp [bindsFirst, hu] at h

theorem openGroup_eq_ok (h : openGroup limits s t = .ok s') :
    s.depth + 1 ≤ limits.depth ∧ s' = { s with stack := t :: s.stack, depth := s.depth + 1 } := by
  obtain ⟨_, hd, h⟩ := Result.bind_eq_ok_iff.1 h
  cases h
  exact ⟨Limits.require_eq_ok_iff.1 hd, rfl⟩

theorem closeGroup_eq_ok (h : closeGroup source s t = .ok s') :
    ∃ popped u below, s.stack = popped ++ u :: below ∧
      (∀ v ∈ popped, v.isA .openParen = false) ∧ u.isA .openParen = true ∧
      s' = ⟨s.output ++ popped, below, s.depth - 1⟩ := by
  unfold closeGroup at h
  dsimp only at h
  split at h
  · cases h
  · next u below hbelow =>
    cases h
    have hne : s.stack.dropWhile (fun v => !v.isA .openParen) ≠ [] := by simp [hbelow]
    have hu := List.head_dropWhile_not _ hne
    simp only [hbelow, List.head_cons, Bool.not_eq_false'] at hu
    refine ⟨_, u, below, ?_, fun v hv => ?_, hu, rfl⟩
    · rw [← hbelow, List.takeWhile_append_dropWhile]
    · simpa using List.all_eq_true.1 List.all_takeWhile v hv

theorem pushOperator_eq_ok (h : pushOperator s t = .ok s') :
    ∃ popped kept, splitStack t s.stack = .ok (popped, kept) ∧
      s' = ⟨s.output ++ popped, t :: kept, s.depth⟩ := by
  unfold pushOperator at h
  split at h
  · next popped kept hsplit =>
    cases h
    exact ⟨popped, kept, hsplit, rfl⟩
  · cases h

/-- All that one token can do. -/
theorem step_cases (h : step limits source s t = .ok s') :
    (t.isOperator = false ∧ s' = { s with output := s.output ++ [t] }) ∨
    (t.isA .openParen = true ∧ s.depth + 1 ≤ limits.depth ∧
      s' = { s with stack := t :: s.stack, depth := s.depth + 1 }) ∨
    (t.isA .closeParen = true ∧ ∃ popped u below, s.stack = popped ++ u :: below ∧
      (∀ v ∈ popped, v.isA .openParen = false) ∧ u.isA .openParen = true ∧
      s' = ⟨s.output ++ popped, below, s.depth - 1⟩) ∨
    (t.isOperator = true ∧ t.isParenthesis = false ∧ ∃ popped kept,
      splitStack t s.stack = .ok (popped, kept) ∧
      s' = ⟨s.output ++ popped, t :: kept, s.depth⟩) := by
  unfold step at h
  split at h
  · next hop =>
    cases h
    exact .inl ⟨by simpa using hop, rfl⟩
  · next hop =>
    split at h
    · next ho => exact .inr (.inl ⟨ho, openGroup_eq_ok h⟩)
    · next ho =>
      split at h
      · next hc => exact .inr (.inr (.inl ⟨hc, closeGroup_eq_ok h⟩))
      · next hc =>
        have hpar : t.isParenthesis = false := by simp [Token.isParenthesis, ho, hc]
        exact .inr (.inr (.inr ⟨by simpa using hop, hpar, pushOperator_eq_ok h⟩))

/-! ## Groups -/

theorem filter_of_not_open {popped : List Token} (h : ∀ u ∈ popped, u.isA .openParen = false)
    (rest : List Token) :
    (popped ++ rest).filter (·.isA .openParen) = rest.filter (·.isA .openParen) := by
  have hnone : popped.filter (·.isA .openParen) = [] :=
    List.filter_eq_nil_iff.2 fun u hu => by simp [h u hu]
  rw [List.filter_append, hnone, List.nil_append]

/-- The parentheses that wait are the open groups, and the depth is their number. -/
structure Tracks (groups : List Token) (s : Conversion) : Prop where
  opened : s.stack.filter (·.isA .openParen) = groups
  depth : s.depth = groups.length

theorem Tracks.empty : Tracks [] {} := ⟨rfl, rfl⟩

theorem Tracks.step (hs : Tracks groups s) (h : step limits source s t = .ok s') :
    ∃ groups', openAfter? groups t = some groups' ∧ Tracks groups' s' ∧
      (groups.length ≤ limits.depth → groups'.length ≤ limits.depth) := by
  obtain ⟨hopened, hdepth⟩ := hs
  rcases step_cases h with ⟨hop, rfl⟩ | ⟨ho, hd, rfl⟩ |
    ⟨hc, popped, u, below, hstack, hpopped, hu, rfl⟩ | ⟨hop, hpar, popped, kept, hsplit, rfl⟩
  · have hpar := Token.isParenthesis_of_not_isOperator hop
    exact ⟨groups, openAfter?_other hpar groups, ⟨hopened, hdepth⟩, id⟩
  · refine ⟨t :: groups, openAfter?_open ho groups, ⟨?_, ?_⟩, fun _ => ?_⟩
    · simp [ho, hopened]
    · rw [List.length_cons, hdepth]
    · rwa [List.length_cons, ← hdepth]
  · have houter : groups = u :: below.filter (·.isA .openParen) := by
      rw [← hopened, hstack, filter_of_not_open hpopped]
      simp [hu]
    subst houter
    rw [List.length_cons] at hdepth
    refine ⟨_, openAfter?_close hc u _, ⟨rfl, ?_⟩, fun hle => ?_⟩
    · show s.depth - 1 = _
      omega
    · rw [List.length_cons] at hle
      omega
  · obtain ⟨hstack, hfirst⟩ := splitStack_eq_ok hsplit
    have ho : t.isA .openParen = false := (Bool.or_eq_false_iff.1 hpar).1
    rw [hstack, filter_of_not_open fun u hu => not_open_of_bindsFirst (hfirst u hu)] at hopened
    exact ⟨groups, openAfter?_other hpar groups, ⟨by simp [ho, hopened], hdepth⟩, id⟩

theorem Tracks.run (hs : Tracks groups s) (hdepth : groups.length ≤ limits.depth)
    (h : ts.foldlM (Postfix.step limits source) s = .ok s') :
    ∃ groups', ts.foldlM openAfter? groups = some groups' ∧ Tracks groups' s' ∧
      deepest groups.length ts ≤ limits.depth := by
  induction ts generalizing groups s with
  | nil =>
    cases h
    exact ⟨groups, rfl, hs, hdepth⟩
  | cons t ts ih =>
    obtain ⟨mid, hmid, h⟩ := Result.bind_eq_ok_iff.1 h
    obtain ⟨inner, hopen, htracks, hle⟩ := hs.step hmid
    obtain ⟨groups', hrun, hlast, hdeepest⟩ := ih htracks (hle hdepth) h
    refine ⟨groups', by simp [hopen, hrun], hlast, ?_⟩
    rw [deepest, depthAfter_length hopen]
    omega

theorem finish_eq_ok {program : List Token} (h : finish source s = .ok program) :
    program = s.output ++ s.stack ∧ ∀ u ∈ s.stack, u.isA .openParen = false := by
  unfold finish at h
  split at h
  · cases h
  · next hnone =>
    cases h
    exact ⟨rfl, by simpa [List.find?_eq_none] using hnone⟩

theorem balanced_of_ofTokens {program : List Token} (h : ofTokens limits source ts = .ok program) :
    Balanced ts ∧ deepest 0 ts ≤ limits.depth := by
  obtain ⟨s, hrun, hfinish⟩ := Result.bind_eq_ok_iff.1 h
  obtain ⟨groups, hgroups, htracks, hdeepest⟩ := Tracks.empty.run (Nat.zero_le _) hrun
  have hnil : groups = [] := by
    rw [← htracks.opened, List.filter_eq_nil_iff]
    intro u hu
    simp [(finish_eq_ok hfinish).2 u hu]
  rw [hnil] at hgroups
  exact ⟨hgroups, hdeepest⟩

/-! ## Tokens -/

/--
The tokens that are out and those that wait, each with the index at which it was read. They are
those that were read, but for the parentheses of closed groups. Operands do not wait, so they are
out in their order and before any operator that was read after them.
-/
structure Marks (ts : List Token) (s : Conversion) (out held : List (Token × Nat)) : Prop where
  output : out.map Prod.fst = s.output
  stack : held.map Prod.fst = s.stack
  operators : ∀ m ∈ held, m.1.isOperator = true
  tokens : (out ++ held.filter (!·.1.isA .openParen)).Perm (ts.zipIdx.filter (!·.1.isParenthesis))
  operands : out.filter (!·.1.isOperator) = ts.zipIdx.filter (!·.1.isOperator)
  ordered : out.Pairwise fun m n => m.1.isOperator = true → n.1.isOperator = false → m.2 < n.2

theorem zipIdx_snoc (ts : List Token) (t : Token) :
    (ts ++ [t]).zipIdx = ts.zipIdx ++ [(t, ts.length)] := by
  simp [List.zipIdx_append]

theorem filter_zipIdx_snoc (ht : t.isParenthesis = false) (ts : List Token) :
    (ts ++ [t]).zipIdx.filter (!·.1.isParenthesis) =
      ts.zipIdx.filter (!·.1.isParenthesis) ++ [(t, ts.length)] := by
  simp [zipIdx_snoc, ht]

theorem perm_snoc {α : Type} (as bs : List α) (a : α) : (as ++ a :: bs).Perm (as ++ bs ++ [a]) :=
  List.perm_middle.trans (List.perm_append_singleton a (as ++ bs)).symm

variable {out held popped kept : List (Token × Nat)}

theorem Marks.empty : Marks [] {} [] [] := by
  constructor <;> simp

theorem Marks.index_lt (hs : Marks ts s out held) {m : Token × Nat} (hm : m ∈ out) :
    m.2 < ts.length := by
  have hmem : m ∈ ts.zipIdx.filter (!·.1.isParenthesis) :=
    hs.tokens.subset (List.mem_append_left _ hm)
  exact List.snd_lt_of_mem_zipIdx (List.mem_filter.1 hmem).1

theorem Marks.operand (hs : Marks ts s out held) (ht : t.isOperator = false) (d : Nat) :
    Marks (ts ++ [t]) ⟨s.output ++ [t], s.stack, d⟩ (out ++ [(t, ts.length)]) held where
  output := by simp [hs.output]
  stack := hs.stack
  operators := hs.operators
  tokens := by
    have hpar := Token.isParenthesis_of_not_isOperator ht
    rw [filter_zipIdx_snoc hpar, List.append_assoc, List.singleton_append]
    exact (perm_snoc _ _ _).trans (hs.tokens.append_right _)
  operands := by simp [zipIdx_snoc, hs.operands, ht]
  ordered := by
    -- all that is out was read before
    refine List.pairwise_append.2 ⟨hs.ordered, List.pairwise_singleton _ _, ?_⟩
    intro m hm n hn _ _
    rw [List.mem_singleton.1 hn]
    exact hs.index_lt hm

theorem Marks.wait (hs : Marks ts s out held) (hop : t.isOperator = true)
    (hc : t.isA .closeParen = false) (d : Nat) :
    Marks (ts ++ [t]) ⟨s.output, t :: s.stack, d⟩ out ((t, ts.length) :: held) where
  output := hs.output
  stack := by simp [hs.stack]
  operators := List.forall_mem_cons.2 ⟨hop, hs.operators⟩
  tokens := by
    by_cases ho : t.isA .openParen = true
    · simpa [zipIdx_snoc, Token.isParenthesis, ho] using hs.tokens
    · have hpar : t.isParenthesis = false := by simp [Token.isParenthesis, ho, hc]
      rw [filter_zipIdx_snoc hpar, List.filter_cons_of_pos (by simpa using ho)]
      exact (perm_snoc _ _ _).trans (hs.tokens.append_right _)
  operands := by simp [zipIdx_snoc, hs.operands, hop]
  ordered := hs.ordered

theorem Marks.close {m : Token × Nat} (hs : Marks ts s out (m :: held))
    (hm : m.1.isA .openParen = true) (hc : t.isA .closeParen = true) (d : Nat) :
    Marks (ts ++ [t]) ⟨s.output, held.map Prod.fst, d⟩ out held where
  output := hs.output
  stack := rfl
  operators := (List.forall_mem_cons.1 hs.operators).2
  tokens := by
    have hpar : t.isParenthesis = true := by simp [Token.isParenthesis, hc]
    simpa [zipIdx_snoc, hpar, hm] using hs.tokens
  operands := by simp [zipIdx_snoc, hs.operands, Token.isOperator_of_isA hc]
  ordered := hs.ordered

/-- What waits may go out, down to the innermost group. -/
theorem Marks.send (hs : Marks ts s out (popped ++ kept))
    (hpopped : ∀ m ∈ popped, m.1.isA .openParen = false) (d : Nat) :
    Marks ts ⟨s.output ++ popped.map Prod.fst, kept.map Prod.fst, d⟩ (out ++ popped) kept where
  output := by simp [hs.output]
  stack := rfl
  operators := fun m hm => hs.operators m (List.mem_append_right _ hm)
  tokens := by
    have hall : popped.filter (!·.1.isA .openParen) = popped :=
      List.filter_eq_self.2 fun m hm => by simp [hpopped m hm]
    have htokens := hs.tokens
    rwa [List.filter_append, hall, ← List.append_assoc] at htokens
  operands := by
    have hnone : popped.filter (!·.1.isOperator) = [] :=
      List.filter_eq_nil_iff.2 fun m hm => by simp [hs.operators m (List.mem_append_left _ hm)]
    rw [List.filter_append, hnone, List.append_nil]
    exact hs.operands
  ordered := by
    -- operators alone are sent, and the order asks nothing of a later operator
    have hop (m : Token × Nat) (hm : m ∈ popped) : m.1.isOperator = true :=
      hs.operators m (List.mem_append_left _ hm)
    refine List.pairwise_append.2 ⟨hs.ordered, ?_, ?_⟩
    · refine List.pairwise_of_forall_mem_list fun m _ n hn _ hoperand => ?_
      rw [hop n hn] at hoperand
      cases hoperand
    · intro m _ n hn _ hoperand
      rw [hop n hn] at hoperand
      cases hoperand

theorem Marks.step (hs : Marks ts s out held) (h : step limits source s t = .ok s') :
    ∃ out' held', Marks (ts ++ [t]) s' out' held' := by
  have hheld := hs.stack
  rcases step_cases h with ⟨hop, rfl⟩ | ⟨ho, _, rfl⟩ |
    ⟨hc, popped, u, below, hstack, hpopped, hu, rfl⟩ | ⟨hop, hpar, popped, kept, hsplit, rfl⟩
  · exact ⟨_, _, hs.operand hop _⟩
  · exact ⟨_, _, hs.wait (Token.isOperator_of_isA ho) (not_isA_closeParen ho) _⟩
  · rw [hstack] at hheld
    obtain ⟨sent, rest, rfl, rfl, hrest⟩ := List.map_eq_append_iff.1 hheld
    obtain ⟨m, kept, rfl, rfl, rfl⟩ := List.map_eq_cons_iff.1 hrest
    have hsent := hs.send (fun n hn => hpopped n.1 (List.mem_map_of_mem hn)) s.depth
    exact ⟨_, _, hsent.close hu hc _⟩
  · obtain ⟨hstack, hfirst⟩ := splitStack_eq_ok hsplit
    rw [hstack] at hheld
    obtain ⟨sent, rest, rfl, rfl, rfl⟩ := List.map_eq_append_iff.1 hheld
    have hsent := hs.send
      (fun n hn => not_open_of_bindsFirst (hfirst n.1 (List.mem_map_of_mem hn))) s.depth
    exact ⟨_, _, hsent.wait hop (Bool.or_eq_false_iff.1 hpar).2 _⟩

theorem Marks.run {us : List Token} (hs : Marks ts s out held)
    (h : us.foldlM (Postfix.step limits source) s = .ok s') :
    ∃ out' held', Marks (ts ++ us) s' out' held' := by
  induction us generalizing ts s out held with
  | nil =>
    cases h
    rw [List.append_nil]
    exact ⟨out, held, hs⟩
  | cons t us ih =>
    obtain ⟨mid, hmid, h⟩ := Result.bind_eq_ok_iff.1 h
    obtain ⟨out', held', hmarks⟩ := hs.step hmid
    rw [← List.singleton_append, ← List.append_assoc]
    exact ih hmarks h

theorem Marks.finish (hs : Marks ts s out held) {program : List Token}
    (h : finish source s = .ok program) : Marks ts ⟨program, [], 0⟩ (out ++ held) [] := by
  obtain ⟨rfl, hwaits⟩ := finish_eq_ok h
  rw [← hs.stack] at hwaits ⊢
  rw [← List.append_nil held] at hs
  exact hs.send (fun m hm => hwaits m.1 (List.mem_map_of_mem hm)) 0

theorem exists_marks {program : List Token} (h : ofTokens limits source ts = .ok program) :
    ∃ out, Marks ts ⟨program, [], 0⟩ out [] := by
  obtain ⟨s, hrun, hfinish⟩ := Result.bind_eq_ok_iff.1 h
  obtain ⟨out, held, hmarks⟩ := Marks.empty.run hrun
  exact ⟨out ++ held, hmarks.finish hfinish⟩

theorem of_ofTokens_eq_ok {program : List Token} (h : ofTokens limits source ts = .ok program) :
    Balanced ts ∧ deepest 0 ts ≤ limits.depth ∧
      program.Perm (ts.filter (!·.isParenthesis)) ∧
      program.filter (!·.isOperator) = ts.filter (!·.isOperator) := by
  obtain ⟨hbalanced, hdeepest⟩ := balanced_of_ofTokens h
  obtain ⟨out, hmarks⟩ := exists_marks h
  have hfst (p : Token → Bool) : (ts.zipIdx.filter (p ·.1)).map Prod.fst = ts.filter p := by
    have hmap : (ts.zipIdx.map Prod.fst).filter p =
        (ts.zipIdx.filter (p ·.1)).map Prod.fst := List.filter_map
    rwa [List.zipIdx_map_fst, eq_comm] at hmap
  refine ⟨hbalanced, hdeepest, ?_, ?_⟩
  · have htokens := hmarks.tokens.map Prod.fst
    rwa [List.filter_nil, List.append_nil, hmarks.output, hfst (!·.isParenthesis)] at htokens
  · have hoperands := congrArg (List.map Prod.fst) hmarks.operands
    rw [hfst (!·.isOperator)] at hoperands
    have hout : out.map Prod.fst = program := hmarks.output
    rw [← hoperands, ← hout, List.filter_map]
    rfl

/--
Nothing is lost, made twice or made up: each token but the parentheses comes out once, from its own
place. The operands come out in their order, and no operator before an operand in front of it.
-/
theorem ofTokens_rearranges {program : List Token} (h : ofTokens limits source ts = .ok program) :
    ∃ order : List (Token × Nat), order.map Prod.fst = program ∧
      order.Perm (ts.zipIdx.filter (!·.1.isParenthesis)) ∧
      order.filter (!·.1.isOperator) = ts.zipIdx.filter (!·.1.isOperator) ∧
      order.Pairwise fun m n => m.1.isOperator = true → n.1.isOperator = false → m.2 < n.2 := by
  obtain ⟨order, hmarks⟩ := exists_marks h
  have htokens := hmarks.tokens
  rw [List.filter_nil, List.append_nil] at htokens
  exact ⟨order, hmarks.output, htokens, hmarks.operands, hmarks.ordered⟩

/-- In `a + * (b b) - c` operators and operands are missing, and one token occurs twice. -/
theorem ofTokens_rearranges_malformed :
    ∃ order : List (Token × Nat), order.map Prod.fst =
        [.ofSymbol "a" 0, .ofSymbol "b" 7, .ofSymbol "b" 7, .ofOperator .mul 4,
          .ofOperator .add 2, .ofSymbol "c" 14, .ofOperator .sub 12] ∧
      order.Perm [(.ofSymbol "a" 0, 0), (.ofOperator .add 2, 1), (.ofOperator .mul 4, 2),
        (.ofSymbol "b" 7, 4), (.ofSymbol "b" 7, 5), (.ofOperator .sub 12, 7),
        (.ofSymbol "c" 14, 8)] ∧
      order.Pairwise fun m n => m.1.isOperator = true → n.1.isOperator = false → m.2 < n.2 := by
  have h : ofTokens {} none [.ofSymbol "a" 0, .ofOperator .add 2, .ofOperator .mul 4,
      .ofOperator .openParen 6, .ofSymbol "b" 7, .ofSymbol "b" 7, .ofOperator .closeParen 10,
      .ofOperator .sub 12, .ofSymbol "c" 14] =
    .ok [.ofSymbol "a" 0, .ofSymbol "b" 7, .ofSymbol "b" 7, .ofOperator .mul 4,
      .ofOperator .add 2, .ofSymbol "c" 14, .ofOperator .sub 12] := rfl
  obtain ⟨order, hprogram, htokens, -, hordered⟩ := ofTokens_rearranges h
  exact ⟨order, hprogram, htokens, hordered⟩

end Calculator.Postfix
