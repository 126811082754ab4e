import Calculator.Proofs.Rereading

/-!
# The footprint of a program

What a program reads of a scope and what it writes to it is known from its tokens alone. It reads no
names but its `symbols`: on a scope that holds `only` these it ends as it does on the whole scope
(`evaluate_only`). It binds no names but those that are the left operand of an assignment, which
`assigned` finds on the trees that the machine's operands follow: all other variables stay as they
are (`only_evaluate`).
-/

namespace Calculator

namespace Token

/-- The names that the tokens read, in their order. -/
def symbols (ts : List Token) : List String := (ts.filter (·.type == .symbol)).map text

theorem mem_symbols_iff {ts : List Token} {n : String} : n ∈ symbols ts ↔ ∃ t ∈ ts, t.Names n := by
  simp [symbols, Names, and_assoc]

end Token

/-! ## Names that are assigned -/

namespace Tree

def name? : Tree → Option String
  | leaf t => if t.token.type = .symbol then some t.token.text else none
  | _ => none

end Tree

namespace Token

/-- The name that a token assigns to when it joins the trees on top of a stack. -/
def assignedAt (stack : List Tree) (t : Token) : List String :=
  match stack with
  | _ :: left :: _ => if t.isA .assign then left.name?.toList else []
  | _ => []

/-- The names that tokens assign to, some trees being read in front of them. Behind an operator
without its operands nothing is assigned any more. -/
def assignedFrom (stack : List Tree) : List Token → List String
  | [] => []
  | t :: ts => assignedAt stack t ++
    match Tree.shift stack t with
    | some stack => assignedFrom stack ts
    | none => []

/-- The names that the assignments of a program have on their left. -/
def assigned (ts : List Token) : List String := assignedFrom [] ts

theorem mem_of_mem_assignedFrom {ns : List String} {stack : List Tree} {ts : List Token}
    (hstack : ∀ e ∈ stack, ∀ n, e.name? = some n → n ∈ ns)
    (hts : ∀ t ∈ ts, ∀ n, t.Names n → n ∈ ns) {n : String} (hn : n ∈ assignedFrom stack ts) :
    n ∈ ns := by
  induction ts generalizing stack with
  | nil => cases hn
  | cons t ts ih =>
    obtain ⟨ht, hts⟩ := List.forall_mem_cons.1 hts
    rw [assignedFrom, List.mem_append] at hn
    rcases hn with hn | hn
    · unfold assignedAt at hn
      split at hn
      · next right left rest =>
        split at hn
        · have hleft : left ∈ right :: left :: rest :=
            List.mem_cons_of_mem _ List.mem_cons_self
          exact hstack left hleft n (Option.mem_toList.1 hn)
        · cases hn
      · cases hn
    · split at hn
      · next stack' hshift =>
        refine ih (fun e he m hm => ?_) hts hn
        rcases Tree.shift_cases hshift with ⟨u, rfl, rfl⟩ | ⟨u, rfl, a, rest, rfl, rfl⟩ |
          ⟨u, rfl, a, b, rest, rfl, rfl⟩
        · rcases List.mem_cons.1 he with rfl | he
          · rw [Tree.name?, Option.ite_none_right_eq_some] at hm
            exact ht m ⟨hm.1, Option.some.inj hm.2⟩
          · exact hstack e he m hm
        · rcases List.mem_cons.1 he with rfl | he
          · cases hm
          · exact hstack e (List.mem_cons_of_mem _ he) m hm
        · rcases List.mem_cons.1 he with rfl | he
          · cases hm
          · exact hstack e (List.mem_cons_of_mem _ (List.mem_cons_of_mem _ he)) m hm
      · cases hn

theorem mem_symbols_of_mem_assigned {ts : List Token} {n : String} (hn : n ∈ assigned ts) :
    n ∈ symbols ts :=
  mem_of_mem_assignedFrom (List.forall_mem_nil _)
    (fun t ht _ hname => mem_symbols_iff.2 ⟨t, ht, hname⟩) hn

end Token

namespace Evaluation

variable {actions : ActionTable} {m m' : Machine} {t : Token} {ts : List Token} {stack : List Tree}

/-- A step writes to a scope only what its token assigns to. -/
theorem assigned_of_step (h : step actions m t = .ok m') (hm : Follows m.stack stack) :
    m'.scope = m.scope ∨
      ∃ n ∈ Token.assignedAt stack t, ∃ x, m.scope.set n x = .ok m'.scope := by
  rcases scope_of_step h with ⟨_, hsame⟩ | ⟨right, u, rest, x, hassign, hstack, _, hname, hset⟩
  · exact .inl hsame
  rw [hstack] at hm
  obtain ⟨e, es, rfl, hleft⟩ := hm.exists_cons
  cases hleft with
  | token v hrest =>
    refine .inr ⟨v.token.text, ?_, x, hset⟩
    simp [Token.assignedAt, hassign, Tree.name?, hname.1]

theorem run_assigns {P : Scope Float → Prop}
    (hP : ∀ n ∈ Token.assignedFrom stack ts, ∀ s x s', Scope.set s n x = .ok s' → P s → P s')
    (hm : Follows m.stack stack) (h : P m.scope) : P (run actions m ts).2.scope := by
  induction ts generalizing m stack with
  | nil => exact h
  | cons t ts ih =>
    rw [run]
    split
    · next m' hstep =>
      obtain ⟨stack', hshift, hm'⟩ := exists_shift hstep hm
      rw [Token.assignedFrom, hshift] at hP
      obtain ⟨hhere, hlater⟩ := List.forall_mem_append.1 hP
      refine ih hlater hm' ?_
      rcases assigned_of_step hstep hm with hsame | ⟨n, hn, x, hset⟩
      · rwa [hsame]
      · exact hhere n hn _ _ _ hset h
    · exact h

end Evaluation

/-! ## Scopes of some names -/

namespace Bindings

variable {α : Type}

def only (b : Bindings α) (names : List String) : Bindings α :=
  ⟨b.entries.filter fun e => e.1 ∈ names, b.nodup.sublist (List.filter_sublist.map _)⟩

theorem mem_names_only {b : Bindings α} {names : List String} {n : String} :
    n ∈ (b.only names).entries.map Prod.fst ↔ n ∈ names ∧ n ∈ b.entries.map Prod.fst := by
  simp only [only, List.mem_map, List.mem_filter, decide_eq_true_eq]
  constructor
  · rintro ⟨e, ⟨he, hnames⟩, rfl⟩
    exact ⟨hnames, e, he, rfl⟩
  · rintro ⟨hnames, e, he, rfl⟩
    exact ⟨e, ⟨he, hnames⟩, rfl⟩

theorem find?_only {names : List String} {n : String} (h : n ∈ names) (b : Bindings α) :
    (b.only names).find? n = b.find? n := by
  obtain ⟨entries, nodup⟩ := b
  simp only [only, find?]
  clear nodup
  induction entries with
  | nil => rfl
  | cons e es ih =>
    obtain ⟨m, x⟩ := e
    by_cases hn : n = m
    · subst hn
      simp [h]
    · have hb : (n == m) = false := by simpa using hn
      by_cases hm : m ∈ names
      · simp [hm, List.lookup_cons, hb, ih]
      · simp [hm, List.lookup_cons, hb, ih]

theorem only_replaceIn (name : String) (x : α) (entries : List (String × α))
    (names : List String) :
    (replaceIn name x entries).filter (fun e => e.1 ∈ names) =
      replaceIn name x (entries.filter fun e => e.1 ∈ names) := by
  rw [replaceIn, List.filter_map, replaceIn]
  congr 2
  funext e
  simp only [Function.comp_apply]
  split
  · next h => rw [h]
  · rfl

theorem replaceIn_of_not_mem {name : String} {entries : List (String × α)}
    (h : name ∉ entries.map Prod.fst) (x : α) : replaceIn name x entries = entries := by
  refine (List.map_congr_left fun e he => if_neg ?_).trans (List.map_id entries)
  rintro rfl
  exact h (List.mem_map_of_mem he)

theorem only_insert_of_mem {names : List String} {n : String} (h : n ∈ names) (b : Bindings α)
    (x : α) : (b.insert n x).only names = (b.only names).insert n x := by
  apply ext
  by_cases hn : n ∈ b.entries.map Prod.fst
  · have honly : n ∈ (b.only names).entries.map Prod.fst := mem_names_only.2 ⟨h, hn⟩
    rw [insert, dif_pos hn, insert, dif_pos honly]
    exact only_replaceIn n x b.entries names
  · have honly : n ∉ (b.only names).entries.map Prod.fst := fun h => hn (mem_names_only.1 h).2
    rw [insert, dif_neg hn, insert, dif_neg honly]
    simp [only, h]

theorem only_insert_of_not_mem {names : List String} {n : String} (h : n ∉ names)
    (b : Bindings α) (x : α) : (b.insert n x).only names = b.only names := by
  apply ext
  by_cases hn : n ∈ b.entries.map Prod.fst
  · have honly : n ∉ (b.only names).entries.map Prod.fst := fun hn => h (mem_names_only.1 hn).1
    rw [insert, dif_pos hn]
    exact (only_replaceIn n x b.entries names).trans (replaceIn_of_not_mem honly x)
  · rw [insert, dif_neg hn]
    simp [only, h]

end Bindings

namespace Scope

variable {α : Type} {s t : Scope α} {names : List String} {n : String}

def only (s : Scope α) (names : List String) : Scope α := { s with vars := s.vars.only names }

theorem find?_only (h : n ∈ names) (s : Scope α) : (s.only names).find? n = s.find? n := by
  rw [find?, only, Bindings.find?_only h, find?]

theorem set_only (h : n ∈ names) (s : Scope α) (x : α) :
    (s.only names).set n x = (s.set n x).map (·.only names) := by
  rw [set, set, isConstant, isConstant, only]
  split
  · rfl
  · rw [← Bindings.only_insert_of_mem h]
    rfl

theorem only_of_set (h : n ∉ names) {x : α} (hset : s.set n x = .ok t) :
    t.only names = s.only names := by
  obtain ⟨_, rfl⟩ := set_eq_ok_iff.1 hset
  rw [only, only, Bindings.only_insert_of_not_mem h]

end Scope

/-! ## What a program reads -/

namespace Evaluation

variable {actions : ActionTable} {m m' : Machine} {t : Token} {ts : List Token}
  {names : List String}

def Machine.only (m : Machine) (names : List String) : Machine :=
  { m with scope := m.scope.only names }

def Operand.ReadsOnly (x : Operand) (names : List String) : Prop :=
  ∀ t n, x = .token t → t.Names n → n ∈ names

theorem resolve_only {x : Operand} (hx : x.ReadsOnly names) (scope : Scope Float)
    (operator : Option Token) :
    resolve (scope.only names) operator x = resolve scope operator x := by
  cases x with
  | number v => rfl
  | token t =>
    unfold resolve
    dsimp only
    split
    · rfl
    · next htype =>
      rw [Scope.find?_only (hx t t.text rfl ⟨htype, rfl⟩)]
    · rfl

theorem assign_only {target : Operand} (hx : target.ReadsOnly names) (scope : Scope Float)
    (operator : Token) (x : Float) :
    assign (scope.only names) operator target x =
      (assign scope operator target x).map (·.only names) := by
  cases target with
  | number v => rfl
  | token t =>
    unfold assign
    dsimp only
    split
    · next htype =>
      rw [Scope.set_only (hx t t.text rfl ⟨htype, rfl⟩)]
      cases scope.set t.text x <;> rfl
    · rfl

theorem execute_only {o : Operator} (hm : ∀ x ∈ m.stack, x.ReadsOnly names) :
    execute actions (m.only names) t o = (execute actions m t o).map (·.only names) := by
  obtain ⟨stack, scope⟩ := m
  unfold execute
  dsimp only [Machine.only] at hm ⊢
  split
  · next a rest _ =>
    rw [resolve_only (hm a List.mem_cons_self)]
    cases resolve scope t a with
    | error e => rfl
    | ok x =>
      simp only [Result.ok_mapError, Result.ok_bind]
      cases applyUnary actions o x <;> rfl
  · next right left rest _ =>
    have hright := hm right List.mem_cons_self
    have hleft := hm left (List.mem_cons_of_mem _ List.mem_cons_self)
    rw [resolve_only hright, resolve_only hleft]
    split
    · cases resolve scope t right with
      | error e => rfl
      | ok x =>
        simp only [Result.ok_mapError, Result.ok_bind]
        rw [assign_only hleft]
        cases assign scope t left x <;> rfl
    · cases resolve scope t left with
      | error e => rfl
      | ok x =>
        cases resolve scope t right with
        | error e => rfl
        | ok y =>
          simp only [Result.ok_mapError, Result.ok_bind]
          cases applyBinary actions o x y <;> rfl
  · rfl

theorem step_only (hm : ∀ x ∈ m.stack, x.ReadsOnly names) :
    step actions (m.only names) t = (step actions m t).map (·.only names) := by
  unfold step
  split
  · split
    · rfl
    · split
      · rfl
      · exact execute_only hm
  · rfl

theorem readsOnly_of_step (h : step actions m t = .ok m')
    (hm : ∀ x ∈ m.stack, x.ReadsOnly names) (ht : ∀ n, t.Names n → n ∈ names) :
    ∀ x ∈ m'.stack, x.ReadsOnly names := by
  intro x hx u n hu hn
  subst hu
  rcases mem_stack_of_step h hx with ⟨rfl, _⟩ | hx
  · exact ht n hn
  · exact hm _ hx u n rfl hn

/-- A run is the same on the names that it reads as on the whole scope. -/
theorem run_only (hm : ∀ x ∈ m.stack, x.ReadsOnly names)
    (hts : ∀ t ∈ ts, ∀ n, t.Names n → n ∈ names) :
    run actions (m.only names) ts = ((run actions m ts).1, (run actions m ts).2.only names) ∧
      ∀ x ∈ (run actions m ts).2.stack, x.ReadsOnly names := by
  induction ts generalizing m with
  | nil => exact ⟨rfl, hm⟩
  | cons t ts ih =>
    obtain ⟨ht, hts⟩ := List.forall_mem_cons.1 hts
    rw [run, run, step_only hm]
    cases hstep : step actions m t with
    | error e => exact ⟨rfl, hm⟩
    | ok m' => exact ih (readsOnly_of_step hstep hm ht) hts

theorem result_only (hm : ∀ x ∈ m.stack, x.ReadsOnly names) :
    result (m.only names) = result m := by
  unfold result
  dsimp only [Machine.only]
  split
  · next x hstack => exact resolve_only (hm x (hstack ▸ List.mem_cons_self)) m.scope none
  · rfl

theorem evaluate_only (hts : ∀ t ∈ ts, ∀ n, t.Names n → n ∈ names) (scope : Scope Float) :
    evaluate actions (scope.only names) ts =
      ((evaluate actions scope ts).1, (evaluate actions scope ts).2.only names) := by
  have hstart : ∀ x ∈ ({ scope } : Machine).stack, x.ReadsOnly names := nofun
  obtain ⟨hrun, hstack⟩ := @run_only actions _ _ _ hstart hts
  have honly : run actions { scope := scope.only names } ts = _ := hrun
  rw [evaluate, evaluate, honly]
  rcases hend : run actions { scope } ts with ⟨_ | h, m⟩
  · rw [hend] at hstack
    dsimp only
    rw [result_only hstack]
    rfl
  · rfl

end Evaluation

namespace Formula

variable {f : Formula} {scope scope' : Scope Float} {names : List String}

def reads (f : Formula) : List String := Token.symbols (f.program.getD [])

def writes (f : Formula) : List String := Token.assigned (f.program.getD [])

theorem mem_reads_of_mem_writes {n : String} (hn : n ∈ f.writes) : n ∈ f.reads :=
  Token.mem_symbols_of_mem_assigned hn

theorem knows_of_mem_reads {n : String} (h : n ∈ (f.parse scope).2.reads) :
    (f.settings.lexicon scope).Knows n := by
  rcases f.parse_cases scope with ⟨ts, hts, hparse⟩ | ⟨e, _, _, hparse⟩ | ⟨x, _, _, hparse⟩ <;>
    rw [hparse] at h
  · obtain ⟨t, ht, hname⟩ := Token.mem_symbols_iff.1 (show n ∈ Token.symbols ts from h)
    exact Settings.knows_of_toProgram hts ht hname
  · cases h
  · cases h

theorem evaluate_only (hreads : ∀ n ∈ f.reads, n ∈ names) (scope : Scope Float) :
    f.evaluate (scope.only names) = ((f.evaluate scope).1, (f.evaluate scope).2.only names) := by
  rw [reads] at hreads
  unfold evaluate
  cases hts : f.program with
  | none => rfl
  | some ts =>
    rw [hts] at hreads
    have hnames : ∀ t ∈ ts, ∀ n, t.Names n → n ∈ names := fun t ht n hn =>
      hreads n (Token.mem_symbols_iff.2 ⟨t, ht, hn⟩)
    dsimp only
    rw [Evaluation.evaluate_only hnames]
    rcases Evaluation.evaluate f.settings.actions scope ts with ⟨(e | x) | x, s⟩ <;> rfl

theorem evaluate_of_only (hreads : ∀ n ∈ f.reads, n ∈ names)
    (h : scope.only names = scope'.only names) :
    (f.evaluate scope).1 = (f.evaluate scope').1 ∧
      (f.evaluate scope).2.only names = (f.evaluate scope').2.only names := by
  have hscope := f.evaluate_only hreads scope
  rw [h, f.evaluate_only hreads scope'] at hscope
  exact ⟨(congrArg Prod.fst hscope).symm, (congrArg Prod.snd hscope).symm⟩

theorem only_evaluate (hwrites : ∀ n ∈ f.writes, n ∉ names) (scope : Scope Float) :
    (f.evaluate scope).2.only names = scope.only names := by
  rw [writes] at hwrites
  cases hts : f.program with
  | none =>
    unfold evaluate
    rw [hts]
  | some ts =>
    rw [hts] at hwrites
    rw [Formula.evaluate_snd hts, Evaluation.evaluate_snd]
    refine Evaluation.run_assigns (P := fun s => s.only names = scope.only names) ?_ .nil rfl
    exact fun n hn s x s' hset hs => (Scope.only_of_set (hwrites n hn) hset).trans hs

end Formula

end Calculator
