import Calculator.Proofs.Outcomes
import Calculator.Proofs.Signs
import Calculator.Proofs.Tiling

/-!
# Positions

A token `StandsIn` a source if its text is found at its position. The tokens that a lexer cuts stand
in the source, signs are resolved in place and the conversion reorders tokens only, so all that is
said about them points into the source: the position of an error is that of the character or the
parenthesis that it is about, and a failed evaluation shows a token that stands in the source that
the formula has now, whatever was done to the symbols meanwhile (`positions_point`).

Parentheses stand at their positions whatever the scanner takes (`Token.SpeltIn`), and so do the
errors of a parse; for the tokens of literals it must cut them from the source.
-/

namespace Calculator

open Text (isBlank)

namespace Token

/-- The text of the token, which is not empty, is found in the source at its position. -/
def StandsIn (t : Token) (source : String) : Prop :=
  t.text ≠ "" ∧ (source.toList.drop t.position).take t.text.length = t.text.toList

/-- The operator of the token is spelled at its position. -/
def SpeltIn (source : List Char) (t : Token) : Prop :=
  ∀ o, t.isA o = true → o.lexeme.toList <+: source.drop t.position

variable {source : List Char} {t : Token} {c : Char}

theorem SpeltIn.getElem? (h : t.SpeltIn source) {o : Operator} (ho : t.isA o = true)
    (hc : o.lexeme.toList = [c]) : source[t.position]? = some c := by
  obtain ⟨rest, hrest⟩ := h o ho
  rw [← List.head?_drop, ← hrest, hc]
  rfl

theorem SpeltIn.asUnary (h : t.SpeltIn source) : t.asUnary.SpeltIn source := by
  rcases asUnary_cases t with ⟨ht, hsign⟩ | ⟨ht, hsign⟩ | ⟨_, _, hsign⟩
  · intro o ho
    rw [hsign] at ho ⊢
    obtain rfl := Option.some.inj (operator?_of_isA ho)
    exact h .add ht
  · intro o ho
    rw [hsign] at ho ⊢
    obtain rfl := Option.some.inj (operator?_of_isA ho)
    exact h .sub ht
  · rwa [hsign]

theorem StandsIn.asUnary {source : String} (h : t.StandsIn source) : t.asUnary.StandsIn source := by
  rcases asUnary_cases t with ⟨_, hsign⟩ | ⟨_, hsign⟩ | ⟨_, _, hsign⟩ <;> rw [hsign] <;> exact h

end Token

namespace Lexicon

variable {x : Lexicon} {source cs : List Char} {position : Nat} {ts : List Token}

theorem length_pos_of_pieceAt {c : Char} {p : Piece} (h : x.pieceAt c cs = .ok (some p)) :
    0 < p.length := by
  rcases pieceAt_cases h with ⟨rfl, _⟩ | ⟨o, rfl, _⟩ | ⟨rfl, hname⟩ | ⟨m, rfl, _, hne⟩
  · exact Nat.one_pos
  · rcases o.length_lexeme with hlength | hlength <;> rw [Piece.length, hlength] <;> decide
  · exact List.length_pos_iff.2 (isName_nameRun_iff.1 hname).1
  · exact List.length_pos_iff.2 hne

theorem drop_add_length {c : Char} {p : Piece} (hp : x.pieceAt c cs = .ok (some p))
    (h : source.drop position = c :: cs) :
    source.drop (position + p.length) = cs.drop (p.length - 1) := by
  obtain ⟨n, hn⟩ := Nat.exists_eq_add_of_lt (length_pos_of_pieceAt hp)
  rw [← List.drop_drop, h, hn, Nat.zero_add, Nat.add_sub_cancel, List.drop_succ_cons]

/-- Every operator is spelled where its token is, whatever the scanner takes in between. -/
theorem speltIn_of_scan (h : x.scan position cs = .ok ts) (hcs : source.drop position = cs) :
    ∀ t ∈ ts, t.SpeltIn source := by
  fun_induction x.scan position cs generalizing ts with
  | case1 =>
    cases h
    exact fun t ht => absurd ht List.not_mem_nil
  | case2 => cases h
  | case3 => cases h
  | case4 position c cs p hp ih =>
    obtain ⟨us, hus, rfl⟩ := Result.map_eq_ok_iff.1 h
    refine List.forall_mem_append.2 ⟨fun t ht o ho => ?_, ih hus (drop_add_length hp hcs)⟩
    have htoken := Option.mem_toList.1 ht
    rcases pieceAt_cases hp with ⟨rfl, _⟩ | ⟨i, rfl, hi⟩ | ⟨rfl, _⟩ | ⟨m, rfl, _⟩
    · cases htoken
    · cases htoken
      obtain rfl := Option.some.inj (Token.operator?_of_isA ho)
      rw [← hcs] at hi
      exact Operator.ofText?_cuts hi
    · cases htoken
      cases ho
    · cases htoken
      cases ho

theorem not_blank_of_pieceAt {c : Char} (h : x.pieceAt c cs = .ok none) : isBlank c = false := by
  rw [Bool.eq_false_iff]
  intro hc
  rw [pieceAt_blank hc] at h
  cases h

theorem character_of_scan_error {e : Error} (h : x.scan position cs = .error (.error e))
    (hcs : source.drop position = cs) :
    ∃ c i, e = { cause := .unknownCharacter c i } ∧ source[i]? = some c ∧ isBlank c = false := by
  fun_induction x.scan position cs with
  | case1 => cases h
  | case2 => cases h
  | case3 position c cs hp =>
    cases h
    exact ⟨c, position, rfl, by rw [← List.head?_drop, hcs]; rfl, not_blank_of_pieceAt hp⟩
  | case4 position c cs p hp ih =>
    exact ih (Result.map_eq_error_iff.1 h) (drop_add_length hp hcs)

end Lexicon

/-! ## Errors -/

/-- The error names the source and points at what it is about: a character that is no blank, or a
parenthesis. One about a limit has no position, and the limit is exceeded. -/
def Error.PointsInto (e : Error) (source : String) : Prop :=
  e.expression = some source ∧
    match e.cause with
    | .unknownCharacter c i =>
      e.position = some (i : Int) ∧ source.toList[i]? = some c ∧ isBlank c = false
    | .unbalanced i => e.position = some (i : Int) ∧ source.toList[i]? = some ')'
    | .unclosed i => e.position = some (i : Int) ∧ source.toList[i]? = some '('
    | .limit x => e.position = none ∧ x.bound < x.actual
    | _ => False

theorem Nesting.Misnests.pointsInto {bound : Nat} {ts : List Token} {cause : Cause}
    {source : String} (h : Misnests bound [] ts cause)
    (hts : ∀ t ∈ ts, t.SpeltIn source.toList) : Error.PointsInto ⟨cause, some source⟩ source := by
  rcases h.cases_parenthesis nofun with ⟨t, ht, hclose, rfl⟩ | ⟨g, hg, hopen, rfl⟩ | rfl
  · exact ⟨rfl, rfl, (hts t ht).getElem? hclose rfl⟩
  · exact ⟨rfl, rfl, (hts g hg).getElem? hopen rfl⟩
  · exact ⟨rfl, rfl, Nat.lt_succ_self bound⟩

namespace Settings

variable {s : Settings} {scope : Scope Float} {source : String}

theorem standsIn_of_scan (hx : s.scanner.Cuts) {ts : List Token}
    (h : (s.lexicon scope).scan 0 source.toList = .ok ts) : ∀ t ∈ ts, t.StandsIn source := by
  have hcuts : (s.lexicon scope).scanner.Cuts := hx
  have htiles := (Lexicon.scan_eq_ok_iff_tiles hcuts).1 h
  intro t ht
  refine ⟨fun hempty => ((htiles.stands t ht).text_cuts hcuts).2 ?_, htiles.text t ht⟩
  rw [hempty]
  rfl

theorem Refuses.pointsInto {cause : Cause} (h : s.Refuses scope source cause) :
    Error.PointsInto ⟨cause, some source⟩ source := by
  cases h with
  | length h => exact ⟨rfl, rfl, h⟩
  | character _ h =>
    obtain ⟨c, i, rfl, hc, hblank⟩ := Lexicon.character_of_scan_error h rfl
    exact ⟨rfl, rfl, hc, hblank⟩
  | tokens _ _ h => exact ⟨rfl, rfl, h⟩
  | groups _ hscan _ h =>
    exact h.pointsInto (Token.forall_resolveSignsFrom (fun _ ht => ht.asUnary)
      (Lexicon.speltIn_of_scan hscan rfl) false)

theorem standsIn_of_toProgram (hx : s.scanner.Cuts) {program : List Token}
    (h : s.toProgram scope source = .ok program) : ∀ t ∈ program, t.StandsIn source := by
  intro t ht
  obtain ⟨ts, htokens, hperm⟩ := perm_of_toProgram h
  obtain ⟨_, _, us, hscan, rfl⟩ := Lexicon.tokens_eq_ok_iff.1 htokens
  have hmem := (List.mem_filter.1 (hperm.mem_iff.1 ht)).1
  exact Token.forall_resolveSignsFrom (fun _ hu => hu.asUnary) (standsIn_of_scan hx hscan) false t
    hmem

end Settings

/-! ## Failures -/

namespace Evaluation

variable {actions : ActionTable} {m m' : Machine} {t u : Token} {ts : List Token} {e : Failure}

theorem token_of_resolve {scope : Scope Float} {operator : Option Token} {x : Operand}
    (h : resolve scope operator x = .error e) : e.token = x.token? := by
  cases x with
  | number y => cases h
  | token t =>
    unfold resolve at h
    dsimp only at h
    split at h
    · cases h
    · split at h <;> cases h
      rfl
    · cases h
      rfl

theorem token_of_assign {scope : Scope Float} {operator : Token} {target : Operand} {x : Float}
    (h : assign scope operator target x = .error e) :
    e.token = some (target.token?.getD operator) := by
  cases target with
  | number y =>
    cases h
    rfl
  | token t =>
    unfold assign at h
    dsimp only at h
    split at h
    · split at h <;> cases h
      rfl
    · cases h
      rfl

theorem Operand.eq_of_token? {x : Operand} (h : x.token? = some u) : x = .token u := by
  cases x with
  | number y => cases h
  | token t => exact congrArg Operand.token (Option.some.inj h)

/-- An operator that fails is about itself or about a token that it takes from the stack. -/
theorem token_of_execute {o : Operator} (h : execute actions m t o = .error (.failure e))
    (hu : e.token = some u) : u = t ∨ .token u ∈ m.stack := by
  rcases execute_failure_cases h with ⟨x, hx, hread⟩ | ⟨_, right, left, rest, x, hstack, hassign⟩ |
    ⟨rfl, _⟩
  · rw [token_of_resolve hread] at hu
    exact .inr (Operand.eq_of_token? hu ▸ List.mem_of_mem_take hx)
  · rw [token_of_assign hassign] at hu
    have hleft : left ∈ m.stack := by simp [hstack]
    cases htoken : left.token? with
    | none =>
      rw [htoken] at hu
      exact .inl (Option.some.inj hu).symm
    | some v =>
      rw [htoken] at hu
      obtain rfl : v = u := Option.some.inj hu
      exact .inr (Operand.eq_of_token? htoken ▸ hleft)
  · exact .inl (Option.some.inj hu).symm

theorem token_of_step (h : step actions m t = .error (.failure e)) (hu : e.token = some u) :
    u = t ∨ .token u ∈ m.stack := by
  unfold step at h
  split at h
  · split at h
    · cases h
    · split at h
      · cases h
        exact .inl (Option.some.inj hu).symm
      · exact token_of_execute h hu
  · cases h

theorem token_of_result (h : result m = .error e) (hu : e.token = some u) :
    .token u ∈ m.stack := by
  unfold result at h
  split at h
  · next x hstack =>
    rw [token_of_resolve h] at hu
    rw [hstack, Operand.eq_of_token? hu]
    exact List.mem_cons_self
  · cases h
    obtain ⟨x, hx, hu⟩ := Option.bind_eq_some_iff.1 hu
    exact Operand.eq_of_token? hu ▸ List.mem_reverse.1 (List.mem_of_getElem? hx)

theorem token_of_evaluate {scope scope' : Scope Float}
    (h : evaluate actions scope ts = (.error (.failure e), scope')) (hu : e.token = some u) :
    u ∈ ts := by
  have hstart : Confined ts (fun _ => True) { scope } := ⟨trivial, nofun⟩
  have hkept : KeptBy ts fun _ => True := fun _ _ _ _ _ _ _ _ _ => trivial
  have hconfined : ∀ t, .token t ∈ (run actions { scope } ts).2.stack → t ∈ ts :=
    (hstart.run hkept fun _ ht => ht).stack
  unfold evaluate at h
  split at h
  · next halt m hrun =>
    cases h
    rw [hrun] at hconfined
    obtain ⟨done, t, rest, rfl, _, hstep⟩ := exists_step_of_run hrun
    rcases token_of_step hstep hu with rfl | hstack
    · exact List.mem_append_right done List.mem_cons_self
    · exact hconfined u hstack
  · next m hrun =>
    obtain ⟨hresult, _⟩ := Prod.mk.inj h
    rw [hrun] at hconfined
    exact hconfined u (token_of_result (mapError_failure_iff.1 hresult) hu)

end Evaluation

/-! ## Formulas -/

namespace Formula

variable {f : Formula} {scope : Scope Float}

/-- What the formula knows of its source points into the source. -/
structure Pointed (f : Formula) : Prop where
  scanner : f.settings.scanner.Cuts
  error (e : Error) (h : f.error = some e) : e.PointsInto f.source
  program (ts : List Token) (h : f.program = some ts) : ∀ t ∈ ts, t.StandsIn f.source

theorem pointed_of_unread (hx : f.settings.scanner.Cuts) (h : f.reading = .none) : f.Pointed where
  scanner := hx
  error := by
    intro e he
    rw [error, h] at he
    cases he
  program := by
    intro ts hts
    rw [Formula.program, h] at hts
    cases hts

theorem pointsInto_of_parse {e : Error} (h : (f.parse scope).1 = .ok (some e)) :
    e.PointsInto f.source := by
  obtain ⟨hrefuses, hexpression⟩ := parse_eq_error_iff.1 h
  obtain ⟨cause, expression⟩ := e
  obtain rfl : expression = some f.source := hexpression
  exact hrefuses.pointsInto

theorem pointed_parse (hx : f.settings.scanner.Cuts) (scope : Scope Float) :
    (f.parse scope).2.Pointed := by
  rcases f.parse_cases scope with ⟨ts, hts, h⟩ | ⟨e, _, _, h⟩ | ⟨x, _, _, h⟩
  · rw [h]
    refine ⟨hx, fun e he => ?_, fun us hus => ?_⟩
    · cases he
    · obtain rfl : ts = us := Option.some.inj hus
      exact Settings.standsIn_of_toProgram hx hts
  · have hpoints : e.PointsInto f.source := pointsInto_of_parse (congrArg Prod.fst h)
    rw [h]
    refine ⟨hx, fun d hd => ?_, fun us hus => ?_⟩
    · obtain rfl : e = d := Option.some.inj hd
      exact hpoints
    · cases hus
  · rw [h]
    exact pointed_of_unread hx rfl

theorem Pointed.standsIn (hf : f.Pointed) {e : Evaluation.Failure} {t : Token}
    (h : (f.evaluate scope).1 = .ok (.error e)) (ht : e.token = some t) : t.StandsIn f.source := by
  unfold evaluate at h
  split at h
  · cases h
  · next ts hts =>
    split at h
    · cases h
    · next d s hrun =>
      cases h
      exact hf.program ts hts t (Evaluation.token_of_evaluate hrun ht)
    · cases h

end Formula

namespace Workspace

variable {cs : List Command} {name : String} {p : Placed}

theorem pointed_after (hadds : ∀ c ∈ cs, ∀ f, c.Adds f →
      f.reading = .none ∧ f.settings.scanner.Cuts)
    (hp : (({} : Workspace).after cs).formulas name = some p) : p.formula.Pointed :=
  forall_formulas (P := Formula.Pointed)
    (fun _ _ hf => Formula.pointed_of_unread hf.scanner rfl)
    (fun _ scope hf => Formula.pointed_parse hf.scanner scope)
    (fun _ _ hq => absurd hq formulas_empty)
    (fun c hc f hf => Formula.pointed_of_unread (hadds c hc f hf).2 (hadds c hc f hf).1) hp

/--
In every run, where scanners take from the start of the text, what is said of a formula points into
its source: the error with which a parse replies, as long as the formula keeps it, and the token
that a failed evaluation shows, whatever was done to the symbols since the parse.
-/
theorem positions_point (hadds : ∀ c ∈ cs, ∀ f, c.Adds f →
      f.reading = .none ∧ f.settings.scanner.Cuts)
    (hp : (({} : Workspace).after cs).formulas name = some p) :
    (∀ e, p.formula.error = some e → e.PointsInto p.formula.source) ∧
    (∀ e, ((({} : Workspace).after cs).run (.formula name .parse)).reply =
        .formula (.ok (.parsed (some e))) → e.PointsInto p.formula.source) ∧
    ∀ e t, ((({} : Workspace).after cs).run (.formula name .evaluate)).reply =
        .formula (.ok (.outcome (.error e))) → e.token = some t →
        t.StandsIn p.formula.source := by
  have hpointed := pointed_after hadds hp
  refine ⟨hpointed.error, fun e h => ?_, fun e t h ht => ?_⟩
  · rw [run_parse hp] at h
    have hreply := Result.mapError_eq_ok_iff.1 (Reply.formula.inj h)
    obtain ⟨_, hparse, hsome⟩ := Result.map_eq_ok_iff.1 hreply
    cases hsome
    rw [← Formula.source_parse p.formula]
    exact (Formula.pointed_parse hpointed.scanner _).error e (Formula.error_of_parse hparse)
  · simp only [run, runFormula, hp] at h
    obtain ⟨_, hevaluate, hoff⟩ := Result.map_eq_ok_iff.1 (Reply.formula.inj h)
    cases hoff
    exact hpointed.standsIn hevaluate ht

/-- A formula is parsed, and `1st` bound afterwards. -/
def boundLate (f : Formula) : List Command :=
  [.add "f" { formula := f }, .formula "f" .parse, .formula "f" (.setSymbol "1st" 10)]

/-- What is left over of `1st` is the name behind the numeral. -/
theorem positions_point_boundLate :
    let f : Formula := { source := "1st" }
    (∀ c ∈ boundLate f, ∀ g, c.Adds g → g.reading = .none ∧ g.settings.scanner.Cuts) ∧
      ((({} : Workspace).after (boundLate f)).run (.formula "f" .evaluate)).reply =
        .formula (.ok (.outcome (.error (.leftover 2 (some (.ofSymbol "st" 1)))))) ∧
      (Token.ofSymbol "st" 1).StandsIn "1st" := by
  intro f
  have hadds : ∀ c ∈ boundLate f, ∀ g, c.Adds g →
      g.reading = .none ∧ g.settings.scanner.Cuts := by
    intro c hc g hg
    simp only [boundLate, List.mem_cons, List.not_mem_nil, or_false] at hc
    rcases hc with rfl | rfl | rfl
    · obtain rfl := hg
      exact ⟨rfl, Scanner.literals_cuts⟩
    · cases hg
    · cases hg
  have hparsed : (({} : Workspace).after (boundLate f)).formulas "f" =
      some ⟨(f.parse {}).2, 0⟩ := rfl
  rw [Worksheet.parse_ordinal] at hparsed
  have hreply : ((({} : Workspace).after (boundLate f)).run (.formula "f" .evaluate)).reply =
      .formula (.ok (.outcome (.error (.leftover 2 (some (.ofSymbol "st" 1)))))) := by
    simp only [run, runFormula, hparsed]
    rfl
  obtain ⟨_, _, hshown⟩ := positions_point hadds hparsed
  exact ⟨hadds, hreply, hshown _ _ hreply rfl⟩

end Workspace

end Calculator
