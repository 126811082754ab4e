import Calculator.Proofs.Lexing
import Calculator.Proofs.Tokens

/-!
# Tilings

The tokens of a text are pieces of it that lie side by side and leave only blanks. `Stands` says
what may stand where, in terms of longest spellings and longest runs; `Tiles` says that tokens cover
the text between two indices, and `Stuck` that nothing can start. A lexer whose scanner takes from
the start of the text finds the tiling if there is one, and otherwise stops at the first index where
it is stuck (`rawTokens_tiles`).
-/

namespace Calculator

open Text

/-! ## Longest matches -/

theorem Text.first_of_cuts {c : Char} {piece cs : List Char} (h : piece <+: c :: cs)
    (hne : piece ≠ []) : c ∈ piece.head? := by
  cases piece with
  | nil => exact absurd rfl hne
  | cons d ds => rw [(List.cons_prefix_cons.1 h).1]; rfl

theorem Text.eq_of_cuts {piece piece' cs : List Char} (h : piece <+: cs) (h' : piece' <+: cs)
    (hlength : piece.length = piece'.length) : piece = piece' :=
  (List.prefix_of_prefix_length_le h h' (Nat.le_of_eq hlength)).eq_of_length hlength

/-- The longest run of name characters at the start of a text; it may be empty. -/
structure Text.IsRun (run cs : List Char) : Prop where
  cuts : run <+: cs
  named : ∀ c ∈ run, isNameChar c = true
  longest : ∀ r, r <+: cs → (∀ c ∈ r, isNameChar c = true) → r.length ≤ run.length

theorem Text.isRun_nameRun (cs : List Char) : IsRun (nameRun cs) cs where
  cuts := List.takeWhile_prefix _
  named := List.all_eq_true.1 List.all_takeWhile
  longest := by
    rintro r ⟨rest, rfl⟩ hr
    rw [nameRun, List.takeWhile_append_of_pos hr, List.length_append]
    exact Nat.le_add_right _ _

theorem Text.IsRun.eq {run cs : List Char} (h : IsRun run cs) : run = nameRun cs := by
  have hrun := isRun_nameRun cs
  have hlength : run.length = (nameRun cs).length :=
    Nat.le_antisymm (hrun.longest run h.cuts h.named) (h.longest _ hrun.cuts hrun.named)
  exact eq_of_cuts h.cuts hrun.cuts hlength

namespace Operator

/-- The longest spelling at the start of a text is this operator's; a sign is read as binary. -/
structure Leads (o : Operator) (cs : List Char) : Prop where
  binary : o.asRead = o
  cuts : o.lexeme.toList <+: cs
  longest : ∀ p : Operator, p.lexeme.toList <+: cs → p.lexeme.length ≤ o.lexeme.length

theorem mem_spelled_iff {o : Operator} : o ∈ spelled ↔ o.asRead = o := by
  rw [spelled_eq]
  cases o <;> decide

theorem asRead_mem_spelled (o : Operator) : o.asRead ∈ spelled := by
  rw [spelled_eq]
  cases o <;> decide

theorem spelled_pairwise : spelled.Pairwise fun o p => p.lexeme.length ≤ o.lexeme.length := by
  rw [spelled_eq]
  decide

theorem asRead_eq_of_lexeme {o p : Operator} (h : o.lexeme = p.lexeme) : o.asRead = p.asRead := by
  have hall : (all.all fun o => all.all fun p => o.lexeme != p.lexeme || o.asRead == p.asRead) =
      true := by decide +kernel
  have := List.all_eq_true.1 (List.all_eq_true.1 hall o (mem_all o)) p (mem_all p)
  simpa [h] using this

theorem Leads.unique {o p : Operator} {cs : List Char} (ho : o.Leads cs) (hp : p.Leads cs) :
    o = p := by
  have hlength : o.lexeme.toList.length = p.lexeme.toList.length := by
    rw [String.length_toList, String.length_toList]
    exact Nat.le_antisymm (hp.longest o ho.cuts) (ho.longest p hp.cuts)
  have hlexeme := eq_of_cuts ho.cuts hp.cuts hlength
  rw [← ho.binary, ← hp.binary]
  exact asRead_eq_of_lexeme (String.toList_inj.1 hlexeme)

theorem ofText?_eq_none_iff {cs : List Char} :
    ofText? cs = none ↔ ∀ o : Operator, ¬ o.lexeme.toList <+: cs := by
  rw [ofText?, List.find?_eq_none]
  constructor
  · intro h o ho
    have := h o.asRead o.asRead_mem_spelled
    rw [lexeme_asRead, List.isPrefixOf_iff_prefix] at this
    exact this ho
  · exact fun h o _ => by simpa using h o

theorem leads_of_ofText? {cs : List Char} {o : Operator} (h : ofText? cs = some o) :
    o.Leads cs where
  binary := mem_spelled_iff.1 (List.mem_of_find?_eq_some h)
  cuts := ofText?_cuts h
  longest := by
    intro p hp
    obtain ⟨_, before, after, hspelled, hbefore⟩ := List.find?_eq_some_iff_append.1 h
    have hmem := p.asRead_mem_spelled
    have hsorted := spelled_pairwise
    rw [hspelled] at hmem hsorted
    rw [← lexeme_asRead p] at hp ⊢
    rcases List.mem_append.1 hmem with hmem | hmem
    · have := hbefore _ hmem
      rw [List.isPrefixOf_iff_prefix.2 hp] at this
      cases this
    · rcases List.mem_cons.1 hmem with hmem | hmem
      · exact Nat.le_of_eq (by rw [hmem])
      · exact List.rel_of_pairwise_cons (List.pairwise_append.1 hsorted).2.1 hmem

theorem ofText?_eq_some_iff {cs : List Char} {o : Operator} :
    ofText? cs = some o ↔ o.Leads cs := by
  refine ⟨leads_of_ofText?, fun h => ?_⟩
  cases hp : ofText? cs with
  | none => exact absurd h.cuts (ofText?_eq_none_iff.1 hp o)
  | some p => rw [(leads_of_ofText? hp).unique h]

end Operator

namespace Token

def stop (t : Token) : Nat := t.position + t.text.length

end Token

namespace Lexicon

/-! ## What stands where -/

/-- Neither a blank nor an operator nor a name starts the text. -/
structure Unclaimed (x : Lexicon) (cs : List Char) : Prop where
  blank : ∀ c ∈ cs.head?, isBlank c = false
  operator : ∀ o : Operator, ¬ o.lexeme.toList <+: cs
  name : ∀ run, IsRun run cs →
    run = [] ∨ x.bound (String.ofList run) = false ∧ isIdentifier (String.ofList run) = false

/-- The token stands at the start of the text. -/
inductive Stands (x : Lexicon) (cs : List Char) : Token → Prop
  | operator {o : Operator} (i : Nat) : o.Leads cs → Stands x cs (.ofOperator o i)
  | symbol {run : List Char} (i : Nat) : IsRun run cs → run ≠ [] →
      x.bound (String.ofList run) = true ∨ isIdentifier (String.ofList run) = true →
      Stands x cs (.ofSymbol (String.ofList run) i)
  | number {m : Literal.Match} (i : Nat) : x.Unclaimed cs →
      x.scanner.scan x.options cs = .ok m → m.text ≠ [] →
      Stands x cs (.ofNumber (String.ofList m.text) m.value i)

/-- The text starts with a character where nothing can start. -/
structure Stuck (x : Lexicon) (cs : List Char) (c : Char) : Prop where
  head : cs.head? = some c
  unclaimed : x.Unclaimed cs
  scanner : ∃ m, x.scanner.scan x.options cs = .ok m ∧ m.text = []

variable {x : Lexicon} {c : Char} {cs : List Char} {t : Token}

theorem pieceAt_of_unclaimed (h : x.Unclaimed (c :: cs)) :
    x.pieceAt c cs = (x.scanner.scan x.options (c :: cs)).map fun m =>
      if m.text = [] then none else some (.number m) := by
  have hname : x.isName (nameRun (c :: cs)) = false := by
    rw [Bool.eq_false_iff, ne_eq, isName_nameRun_iff]
    rintro ⟨hne, hname⟩
    rcases h.name _ (isRun_nameRun _) with hrun | ⟨hbound, hidentifier⟩
    · exact hne hrun
    · simp [hbound, hidentifier] at hname
  simp [pieceAt, h.blank c rfl, Operator.ofText?_eq_none_iff.2 h.operator, hname]

theorem rule_cases (x : Lexicon) (c : Char) (cs : List Char) (i : Nat) :
    isBlank c = true ∨ (∃ t, t.position = i ∧ x.Stands (c :: cs) t) ∨ x.Stuck (c :: cs) c ∨
      x.Unclaimed (c :: cs) ∧ ∃ f, x.scanner.scan x.options (c :: cs) = .error f := by
  by_cases hblank : isBlank c = true
  · exact .inl hblank
  refine .inr ?_
  cases ho : Operator.ofText? (c :: cs) with
  | some o => exact .inl ⟨_, rfl, .operator i (Operator.ofText?_eq_some_iff.1 ho)⟩
  | none =>
    by_cases hname : x.isName (nameRun (c :: cs)) = true
    · obtain ⟨hne, hread⟩ := isName_nameRun_iff.1 hname
      exact .inl ⟨_, rfl, .symbol i (isRun_nameRun _) hne hread⟩
    have hunclaimed : x.Unclaimed (c :: cs) := by
      refine ⟨by simpa using hblank, Operator.ofText?_eq_none_iff.1 ho, fun run hrun => ?_⟩
      rw [isName_nameRun_iff, not_and, not_or, Bool.not_eq_true, Bool.not_eq_true] at hname
      rw [hrun.eq]
      by_cases hne : nameRun (c :: cs) = []
      · exact .inl hne
      · exact .inr (hname hne)
    cases hm : x.scanner.scan x.options (c :: cs) with
    | error f => exact .inr (.inr ⟨hunclaimed, f, rfl⟩)
    | ok m =>
      by_cases hne : m.text = []
      · exact .inr (.inl ⟨rfl, hunclaimed, m, hm, hne⟩)
      · exact .inl ⟨_, rfl, .number i hunclaimed hm hne⟩

theorem Stands.not_blank (h : x.Stands (c :: cs) t) : isBlank c = false := by
  cases h with
  | @operator o i h =>
    exact o.not_blank_lexeme c (first_of_cuts h.cuts o.lexeme_ne_nil)
  | symbol i h hne =>
    exact not_blank_of_isNameChar (h.named c (List.mem_of_mem_head? (first_of_cuts h.cuts hne)))
  | number i h => exact h.blank c rfl

theorem Stands.exists_piece (h : x.Stands (c :: cs) t) :
    ∃ p : Piece, x.pieceAt c cs = .ok (some p) ∧ p.token? t.position = some t := by
  have hblank := h.not_blank
  cases h with
  | operator i h => exact ⟨_, pieceAt_operator hblank (Operator.ofText?_eq_some_iff.2 h), rfl⟩
  | symbol i h hne hread =>
    obtain rfl := h.eq
    have hhead : isNameChar c = true :=
      h.named c (List.mem_of_mem_head? (first_of_cuts h.cuts hne))
    have ho : Operator.ofText? (c :: cs) = none := Operator.ofText?_of_isNameChar hhead cs
    have hname : x.isName (nameRun (c :: cs)) = true := isName_nameRun_iff.2 ⟨hne, hread⟩
    exact ⟨.symbol (nameRun (c :: cs)), by simp [pieceAt, hblank, ho, hname], rfl⟩
  | number i h hm hne =>
    refine ⟨.number _, ?_, rfl⟩
    rw [pieceAt_of_unclaimed h, hm]
    simp [Except.map, hne]

theorem length_of_token? {p : Piece} {i : Nat} (h : p.token? i = some t) :
    t.text.length = p.length := by
  cases p with
  | blank => cases h
  | operator o =>
    cases h
    rfl
  | symbol name =>
    cases h
    exact String.length_ofList
  | number m =>
    cases h
    exact String.length_ofList

theorem Stands.text_cuts (hx : x.scanner.Cuts) (h : x.Stands cs t) :
    t.text.toList <+: cs ∧ t.text.toList ≠ [] := by
  cases h with
  | operator i h => exact ⟨h.cuts, Operator.lexeme_ne_nil _⟩
  | symbol i h hne =>
    rw [Token.ofSymbol, String.toList_ofList]
    exact ⟨h.cuts, hne⟩
  | number i h hm hne =>
    rw [Token.ofNumber, String.toList_ofList]
    exact ⟨hx _ _ _ hm, hne⟩

theorem Stands.length_pos (hx : x.scanner.Cuts) (h : x.Stands cs t) : 0 < t.text.length := by
  rw [← String.length_toList]
  exact List.length_pos_iff.2 (h.text_cuts hx).2

/-! ## Steps -/

theorem scan_stands (hx : x.scanner.Cuts) (h : x.Stands cs t) :
    x.scan t.position cs = (x.scan t.stop (cs.drop t.text.length)).map (t :: ·) := by
  obtain ⟨hcuts, hne⟩ := h.text_cuts hx
  cases cs with
  | nil => exact absurd (List.prefix_nil.1 hcuts) hne
  | cons c cs =>
    obtain ⟨p, hp, ht⟩ := h.exists_piece
    have hlength := length_of_token? ht
    obtain ⟨n, hn⟩ := Nat.exists_eq_add_of_lt (h.length_pos hx)
    rw [scan, hp]
    simp only [ht, ← hlength, hn, Token.stop, Nat.zero_add, Nat.add_sub_cancel,
      List.drop_succ_cons, Option.toList_some, List.singleton_append]

theorem scan_stuck (h : x.Stuck cs c) (position : Nat) :
    x.scan position cs = .error (.error { cause := .unknownCharacter c position }) := by
  cases cs with
  | nil => cases h.head
  | cons d cs =>
    obtain rfl := Option.some.inj h.head
    obtain ⟨m, hm, hnil⟩ := h.scanner
    rw [scan, pieceAt_of_unclaimed h.unclaimed, hm]
    simp [Except.map, hnil]

/-! ## Tilings -/

/-- The tokens lie on a text from one index to another, side by side, and leave only blanks. -/
structure Tiles (x : Lexicon) (source : List Char) (i j : Nat) (ts : List Token) : Prop where
  bounds : i ≤ j ∧ j ≤ source.length
  inside : ∀ t ∈ ts, i ≤ t.position ∧ t.stop ≤ j
  nonempty : ∀ t ∈ ts, t.position < t.stop
  ordered : ts.Pairwise fun t u => t.stop ≤ u.position
  text : ∀ t ∈ ts, (source.drop t.position).take t.text.length = t.text.toList
  blank : ∀ k c, i ≤ k → k < j → source[k]? = some c →
    (∀ t ∈ ts, ¬ (t.position ≤ k ∧ k < t.stop)) → isBlank c = true
  stands : ∀ t ∈ ts, x.Stands (source.drop t.position) t

namespace Tiles

variable {source : List Char} {i j : Nat} {ts : List Token}

theorem empty (x : Lexicon) (h : i ≤ source.length) : x.Tiles source i i [] where
  bounds := ⟨Nat.le_refl i, h⟩
  inside := nofun
  nonempty := nofun
  ordered := .nil
  text := nofun
  blank := by omega
  stands := nofun

theorem cons_blank (hc : source[i]? = some c) (hblank : isBlank c = true)
    (h : x.Tiles source (i + 1) j ts) : x.Tiles source i j ts where
  bounds := ⟨Nat.le_of_succ_le h.bounds.1, h.bounds.2⟩
  inside := fun t ht => ⟨Nat.le_of_succ_le (h.inside t ht).1, (h.inside t ht).2⟩
  nonempty := h.nonempty
  ordered := h.ordered
  text := h.text
  blank := by
    intro k d hk hkj hd houtside
    rcases Nat.eq_or_lt_of_le hk with rfl | hk
    · rw [hc] at hd
      exact Option.some.inj hd ▸ hblank
    · exact h.blank k d hk hkj hd houtside
  stands := h.stands

theorem cons_token (hx : x.scanner.Cuts) (hi : t.position = i) (ht : x.Stands (source.drop i) t)
    (h : x.Tiles source t.stop j ts) : x.Tiles source i j (t :: ts) := by
  have hcuts := (ht.text_cuts hx).1
  have hlt : t.position < t.stop := Nat.lt_add_of_pos_right (ht.length_pos hx)
  have hbounds := h.bounds
  refine ⟨⟨by omega, hbounds.2⟩, ?_, ?_, ?_, ?_, ?_, ?_⟩
  · refine List.forall_mem_cons.2 ⟨⟨by omega, hbounds.1⟩, fun u hu => ?_⟩
    have := h.inside u hu
    omega
  · exact List.forall_mem_cons.2 ⟨hlt, h.nonempty⟩
  · exact List.pairwise_cons.2 ⟨fun u hu => (h.inside u hu).1, h.ordered⟩
  · refine List.forall_mem_cons.2 ⟨?_, h.text⟩
    rw [hi, ← String.length_toList]
    exact (List.prefix_iff_eq_take.1 hcuts).symm
  · intro k c hk hkj hc houtside
    obtain ⟨hhere, hlater⟩ := List.forall_mem_cons.1 houtside
    exact h.blank k c (by omega) hkj hc hlater
  · exact List.forall_mem_cons.2 ⟨hi ▸ ht, h.stands⟩

theorem cases (h : x.Tiles source i j ts) :
    (i = j ∧ ts = []) ∨
      (∃ c, source[i]? = some c ∧ isBlank c = true ∧ x.Tiles source (i + 1) j ts) ∨
      ∃ t us, ts = t :: us ∧ t.position = i ∧ x.Stands (source.drop i) t ∧ i < t.stop ∧
        x.Tiles source t.stop j us := by
  have hbounds := h.bounds
  rcases Nat.eq_or_lt_of_le hbounds.1 with rfl | hlt
  · refine .inl ⟨rfl, List.eq_nil_iff_forall_not_mem.2 fun t ht => ?_⟩
    have hinside := h.inside t ht
    have hnonempty := h.nonempty t ht
    omega
  by_cases hhead : ∃ t us, ts = t :: us ∧ t.position = i
  · obtain ⟨t, us, rfl, hi⟩ := hhead
    obtain ⟨hafter, hordered⟩ := List.pairwise_cons.1 h.ordered
    have hinside := List.forall_mem_cons.1 h.inside
    have hnonempty := List.forall_mem_cons.1 h.nonempty
    have hstands := List.forall_mem_cons.1 h.stands
    refine .inr (.inr ⟨t, us, rfl, hi, hi ▸ hstands.1, by omega, ?_⟩)
    refine ⟨⟨hinside.1.2, hbounds.2⟩, fun u hu => ⟨hafter u hu, (hinside.2 u hu).2⟩, hnonempty.2,
      hordered, (List.forall_mem_cons.1 h.text).2, fun k c hk hkj hc houtside => ?_, hstands.2⟩
    exact h.blank k c (by omega) hkj hc (List.forall_mem_cons.2 ⟨by omega, houtside⟩)
  -- no token starts here, so none covers the character that stands here
  have hlater : ∀ t ∈ ts, i + 1 ≤ t.position := by
    intro t ht
    have hinside := h.inside t ht
    refine Nat.lt_of_le_of_ne hinside.1 fun hi => hhead ?_
    cases ts with
    | nil => cases ht
    | cons u us =>
      refine ⟨u, us, rfl, ?_⟩
      rcases List.mem_cons.1 ht with rfl | ht
      · exact hi.symm
      · have hu := (h.inside u List.mem_cons_self).1
        have := h.nonempty u List.mem_cons_self
        have := List.rel_of_pairwise_cons h.ordered ht
        omega
  obtain ⟨c, hc⟩ : ∃ c, source[i]? = some c :=
    ⟨_, List.getElem?_eq_getElem (Nat.lt_of_lt_of_le hlt hbounds.2)⟩
  have hblank : isBlank c = true := h.blank i c (Nat.le_refl i) hlt hc fun t ht => by
    have := hlater t ht
    omega
  exact .inr (.inl ⟨c, hc, hblank, ⟨hlt, hbounds.2⟩, fun t ht => ⟨hlater t ht, (h.inside t ht).2⟩,
    h.nonempty, h.ordered, h.text, fun k d hk => h.blank k d (Nat.le_of_succ_le hk), h.stands⟩)

theorem scan (hx : x.scanner.Cuts) (h : x.Tiles source i j ts) :
    x.scan i (source.drop i) = (x.scan j (source.drop j)).map (ts ++ ·) := by
  induction hn : j - i using Nat.strongRecOn generalizing i ts with
  | ind n ih =>
    have hbounds := h.bounds
    rcases h.cases with ⟨rfl, rfl⟩ | ⟨c, hc, hblank, hrest⟩ | ⟨t, us, rfl, rfl, ht, hlt, hrest⟩
    · cases x.scan i (source.drop i) <;> rfl
    · obtain ⟨hi, rfl⟩ := List.getElem?_eq_some_iff.1 hc
      rw [List.drop_eq_getElem_cons hi, scan_blank hblank]
      have := hrest.bounds
      exact ih (j - (i + 1)) (by omega) hrest rfl
    · have := hrest.bounds
      rw [scan_stands hx ht, List.drop_drop, ← Token.stop, ih (j - t.stop) (by omega) hrest rfl]
      cases x.scan j (source.drop j) <;> rfl

end Tiles

/-- From every index there is a tiling up to the end of the text or up to where nothing starts. -/
theorem exists_tiles (hx : x.scanner.Cuts) {source : List Char} {i : Nat}
    (hi : i ≤ source.length) :
    ∃ j ts, x.Tiles source i j ts ∧ (j = source.length ∨ (∃ c, x.Stuck (source.drop j) c) ∨
      ∃ f, x.scan j (source.drop j) = .error (.fault f)) := by
  induction hn : source.length - i using Nat.strongRecOn generalizing i with
  | ind n ih =>
    rcases Nat.eq_or_lt_of_le hi with rfl | hlt
    · exact ⟨_, [], .empty x hi, .inl rfl⟩
    have hdrop := List.drop_eq_getElem_cons hlt
    rcases x.rule_cases source[i] (source.drop (i + 1)) i with
      hblank | ⟨t, ht, hstands⟩ | hstuck | ⟨hunclaimed, f, hf⟩
    · obtain ⟨j, ts, htiles, hend⟩ := ih (source.length - (i + 1)) (by omega) hlt rfl
      exact ⟨j, ts, htiles.cons_blank (List.getElem?_eq_getElem hlt) hblank, hend⟩
    · rw [← hdrop] at hstands
      have hpos := hstands.length_pos hx
      have hlength := (hstands.text_cuts hx).1.length_le
      rw [String.length_toList, List.length_drop] at hlength
      have hstop : t.stop = i + t.text.length := by rw [Token.stop, ht]
      obtain ⟨j, ts, htiles, hend⟩ :=
        ih (source.length - t.stop) (by omega) (i := t.stop) (by omega) rfl
      exact ⟨j, t :: ts, htiles.cons_token hx ht hstands, hend⟩
    · exact ⟨i, [], .empty x hi, .inr (.inl ⟨_, hdrop ▸ hstuck⟩)⟩
    · refine ⟨i, [], .empty x hi, .inr (.inr ⟨.literal f, ?_⟩)⟩
      rw [hdrop, Lexicon.scan, pieceAt_of_unclaimed hunclaimed, hf]
      rfl

/-! ## Sources -/

def Cursor (x : Lexicon) (source : List Char) (p : Nat) : Prop := ∃ ts, x.Tiles source 0 p ts

theorem scan_eq_ok_iff_tiles (hx : x.scanner.Cuts) {source : List Char} {ts : List Token} :
    x.scan 0 source = .ok ts ↔ x.Tiles source 0 source.length ts := by
  constructor
  · intro h
    obtain ⟨j, us, htiles, hend⟩ := exists_tiles hx (Nat.zero_le source.length)
    have hscan := htiles.scan hx
    rw [List.drop_zero, h] at hscan
    obtain ⟨vs, hvs, rfl⟩ := Result.map_eq_ok_iff.1 hscan.symm
    rcases hend with rfl | ⟨c, hstuck⟩ | ⟨f, hf⟩
    · rw [List.drop_length, scan] at hvs
      cases hvs
      rwa [List.append_nil]
    · rw [scan_stuck hstuck] at hvs
      cases hvs
    · rw [hf] at hvs
      cases hvs
  · intro h
    have hscan := h.scan hx
    rw [List.drop_zero, List.drop_length] at hscan
    rw [hscan, scan]
    exact congrArg Except.ok (List.append_nil ts)

theorem scan_of_cursor (hx : x.scanner.Cuts) {source : List Char} {p : Nat}
    (hp : x.Cursor source p) (h : x.Stuck (source.drop p) c) :
    x.scan 0 source = .error (.error { cause := .unknownCharacter c p }) := by
  obtain ⟨ts, htiles⟩ := hp
  have hscan := htiles.scan hx
  rw [List.drop_zero, scan_stuck h] at hscan
  exact hscan

theorem scan_eq_error_iff_stuck (hx : x.scanner.Cuts) {source : List Char} {p : Nat} :
    x.scan 0 source = .error (.error { cause := .unknownCharacter c p }) ↔
      x.Cursor source p ∧ x.Stuck (source.drop p) c ∧
        ∀ q d, x.Cursor source q → x.Stuck (source.drop q) d → p ≤ q := by
  constructor
  · intro h
    have first : ∀ q d, x.Cursor source q → x.Stuck (source.drop q) d → c = d ∧ p = q := by
      intro q d hq hd
      have hscan := scan_of_cursor hx hq hd
      rw [h] at hscan
      cases hscan
      exact ⟨rfl, rfl⟩
    obtain ⟨j, us, htiles, hend⟩ := exists_tiles hx (Nat.zero_le source.length)
    rcases hend with rfl | ⟨d, hstuck⟩ | ⟨f, hf⟩
    · rw [(scan_eq_ok_iff_tiles hx).2 htiles] at h
      cases h
    · obtain ⟨rfl, rfl⟩ := first j d ⟨us, htiles⟩ hstuck
      exact ⟨⟨us, htiles⟩, hstuck, fun q e hq he => Nat.le_of_eq (first q e hq he).2⟩
    · have hscan := htiles.scan hx
      rw [List.drop_zero, hf, h] at hscan
      cases hscan
  · exact fun ⟨hp, hstuck, _⟩ => scan_of_cursor hx hp hstuck

/-- The tokens of a source are its tiling, and without one the error is at the first index where
nothing can start. -/
theorem rawTokens_tiles (x : Lexicon) (hx : x.scanner.Cuts) (limits : Limits) (source : String) :
    (∀ ts, x.rawTokens limits source = .ok ts ↔
      source.length ≤ limits.length ∧ ts.length ≤ limits.tokens ∧
        x.Tiles source.toList 0 source.length ts) ∧
    ∀ e c p, x.rawTokens limits source = .error (.error e) ∧ e.cause = .unknownCharacter c p ↔
      e = { cause := .unknownCharacter c p, expression := some source } ∧
        source.length ≤ limits.length ∧ x.Cursor source.toList p ∧
        x.Stuck (source.toList.drop p) c ∧
        ∀ q d, x.Cursor source.toList q → x.Stuck (source.toList.drop q) d → p ≤ q := by
  refine ⟨fun ts => ?_, fun e c p => ?_⟩
  · rw [rawTokens_eq_ok_iff, scan_eq_ok_iff_tiles hx, String.length_toList]
    exact and_congr_right' and_comm
  · rw [← scan_eq_error_iff_stuck hx, ← Result.map_eq_error_iff (f := Token.resolveSigns), ← tokens,
      tokens_eq_error_iff]
    constructor
    · rintro ⟨⟨_, h⟩ | ⟨hlength, q, hscan, hq⟩ | ⟨_, _, _, _, h⟩, hcause⟩
      · cases h
        cases hcause
      · rcases scan_eq_error hscan with ⟨f, rest, _, rfl⟩ | ⟨d, i, rfl⟩
        · cases hq
        · cases hq
          cases hcause
          exact ⟨rfl, hlength, hscan⟩
      · cases h
        cases hcause
    · rintro ⟨rfl, hlength, hscan⟩
      exact ⟨.inr (.inl ⟨hlength, _, hscan, rfl⟩), rfl⟩

/-- The tokens of `1st <=.5`. -/
def ordinalTokens : List Token :=
  [.ofNumber "1" (Number.Decimal.mk 1 0).toFloat 0, .ofSymbol "st" 1, .ofOperator .le 4,
    .ofNumber ".5" (Number.Decimal.mk 5 (-1)).toFloat 6]

/-- Where `1st` is no name, the scanner takes less than the run that was looked at. -/
theorem rawTokens_ordinal :
    Scanner.literals.Cuts ∧ ({} : Lexicon).Tiles "1st <=.5".toList 0 8 ordinalTokens := by
  have hhalf : ({} : Lexicon).scan 6 ['.', '5'] = .ok (ordinalTokens.drop 3) := by
    refine (@scan_piece {} '.' ['5'] []
      (.number ⟨['.', '5'], (Number.Decimal.mk 5 (-1)).toFloat⟩) _ 6 rfl rfl rfl).trans ?_
    rw [scan]
    rfl
  have hle : ({} : Lexicon).scan 4 ['<', '=', '.', '5'] = .ok (ordinalTokens.drop 2) :=
    (@scan_piece {} '<' ['='] ['.', '5'] (.operator .le) _ 4 rfl rfl rfl).trans
      (congrArg (Except.map _) hhalf)
  have hst : ({} : Lexicon).scan 1 ['s', 't', ' ', '<', '=', '.', '5'] =
      .ok (ordinalTokens.drop 1) :=
    (@scan_piece {} 's' ['t'] [' ', '<', '=', '.', '5'] (.symbol ['s', 't']) _ 1 rfl rfl rfl).trans
      (congrArg (Except.map _) ((scan_blank (by decide) 3).trans hle))
  have hscan : ({} : Lexicon).scan 0 "1st <=.5".toList = .ok ordinalTokens :=
    (@scan_piece {} '1' [] ['s', 't', ' ', '<', '=', '.', '5']
      (.number ⟨['1'], (Number.Decimal.mk 1 0).toFloat⟩) _ 0 rfl rfl rfl).trans
      (congrArg (Except.map _) hst)
  refine ⟨Scanner.literals_cuts, ?_⟩
  exact (((rawTokens_tiles {} Scanner.literals_cuts {} "1st <=.5").1 _).1
    (rawTokens_eq_ok_iff.2 ⟨by decide, hscan, by decide⟩)).2.2

/-- Where the empty name is bound, a number may stand although the run in front of it is bound: the
run is empty. -/
theorem rawTokens_emptyName :
    ¬ ∀ (x : Lexicon) (limits : Limits) (source : String) (ts : List Token), x.scanner.Cuts →
      x.rawTokens limits source = .ok ts → ∀ t ∈ ts, t.type = .number →
        ∀ run, IsRun run (source.toList.drop t.position) →
          x.bound (String.ofList run) = false ∧ isIdentifier (String.ofList run) = false := by
  intro h
  have hscan : ({ bound := (· == "") } : Lexicon).scan 0 ".5".toList =
      .ok [.ofNumber ".5" (Number.Decimal.mk 5 (-1)).toFloat 0] := by
    refine (@scan_piece { bound := (· == "") } '.' ['5'] []
      (.number ⟨['.', '5'], (Number.Decimal.mk 5 (-1)).toFloat⟩) _ 0 rfl rfl rfl).trans ?_
    rw [scan]
    rfl
  have hunbound := h _ {} ".5" _ Scanner.literals_cuts
    (rawTokens_eq_ok_iff.2 ⟨by decide, hscan, by decide⟩) _ List.mem_cons_self rfl []
    (isRun_nameRun ['.', '5'])
  cases hunbound.1

end Lexicon

end Calculator
