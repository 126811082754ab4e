import Calculator.Proofs.Readings

/-!
# What is shared

Tables and formulas of a workspace refer to numbered scopes, and two of them share what they both
refer to. `Change` lists what one command can do to a workspace: it lets its `subject` refer to a
new scope, or to one that it is given, and writes at most to the scope that it works on
(`target?`). What it leaves there is `written?`, which asks only what the command does to a scope
alone. From this follows for every run what is read where (`shares_after`): what is written to a
scope by all that refer to it and by nobody else, so a copy and its original stay apart as long as
neither is given what the other one refers to.
-/

namespace Calculator

theorem Worksheet.settings_run (w : Worksheet) (c : Command) :
    (w.run c).sheet.formula.settings = w.formula.settings := by
  rw [formula_run]
  cases c with
  | parse => exact w.formula.settings_parse w.scope
  | _ => rfl

theorem Worksheet.replaceSymbols_cases (w : Worksheet) (symbols : Bindings Float) :
    (w.replaceSymbols symbols).fresh = true ∨
      (w.replaceSymbols symbols).fresh = false ∧ (w.replaceSymbols symbols).sheet = w := by
  unfold replaceSymbols
  split
  · exact .inl rfl
  · exact .inr ⟨rfl, rfl⟩

theorem Worksheet.fresh_run {w : Worksheet} {c : Command}
    (hc : ∀ symbols, c ≠ .replaceSymbols symbols) : (w.run c).fresh = false := by
  cases c with
  | replaceSymbols symbols => exact absurd rfl (hc symbols)
  | setSymbol n x =>
    rw [run, setSymbol]
    split <;> rfl
  | _ => rfl

/-- What a command leaves in the scope of a worksheet, unless it puts another scope in its place. -/
def Worksheet.written (w : Worksheet) : Command → Scope Float
  | .reset => w.scope.clear
  | .evaluate => (w.formula.evaluate w.scope).2
  | .setSymbol n x =>
    if w.scope.isConstant n then w.scope else { w.scope with vars := w.scope.vars.insert n x }
  | .deleteSymbol n => w.scope.delete n
  | .defineConstant n x => w.scope.define n x
  | _ => w.scope

theorem Worksheet.scope_run {w : Worksheet} {c : Command}
    (hc : ∀ symbols, c ≠ .replaceSymbols symbols) : (w.run c).sheet.scope = w.written c := by
  cases c with
  | replaceSymbols symbols => exact absurd rfl (hc symbols)
  | setSymbol n x =>
    rw [run, setSymbol, written, Scope.set]
    cases w.scope.isConstant n <;> rfl
  | _ => rfl

namespace Workspace

variable {w v : Workspace} {c : Command} {a b : Place} {i : Nat}

/-! ## Subjects and targets -/

/-- The name that a command may let refer to something else. -/
def Command.subject : Command → Place
  | .newTable n _ | .nameTable n _ | .table n _ => .table n
  | .add n _ | .addOn n _ _ | .formula n _ | .move n _ | .drop n | .copy _ n _ => .formula n

/-- The number of the scope that a command works on; new symbols for a formula have a scope of their
own. -/
def target? (w : Workspace) : Command → Option Nat
  | .table n _ => w.tables n
  | .formula _ (.replaceSymbols _) => none
  | .formula n _ => (w.formulas n).map Placed.scope
  | _ => none

/-- What the scope that a command works on reads as afterwards. -/
def written? (w : Workspace) : Command → Option (Scope Float)
  | .table n d => (w.scope? (.table n)).map fun s => (s.run d).2
  | .formula n d => (w.sheet? n).map fun s => s.written d
  | _ => none

def Command.On (n : String) : Command → Prop
  | .formula m _ | .move m _ => m = n
  | _ => False

/-- The command lets a place refer to a scope that is already there. -/
def Gives (w : Workspace) (a : Place) (i : Nat) : Command → Prop
  | .addOn n _ place | .move n place => a = .formula n ∧ w.locate place = some i
  | .nameTable n place => a = .table n ∧ w.locate place = some i
  | _ => False

/-! ## One command -/

/-- What a command can do to a workspace. -/
inductive Change (w : Workspace) (c : Command) : Workspace → Prop
  | none : Change w c w
  | written (i : Nat) (s : Scope Float) : w.target? c = some i → Change w c (w.setScope i s)
  | updated (n : String) (p : Placed) (f : Formula) (s : Scope Float) : c.subject = .formula n →
      w.formulas n = some p → w.target? c = some p.scope →
      Change w c ((w.setScope p.scope s).setFormula n (some ⟨f, p.scope⟩))
  | added (n : String) (sheet : Worksheet) : c.subject = .formula n → w.target? c = none →
      Change w c (w.addSheet n sheet)
  | tabled (n : String) (s : Scope Float) : c.subject = .table n → w.target? c = none →
      Change w c ((w.store s).setTable n w.next)
  | named (n : String) (i : Nat) : c.subject = .table n → w.target? c = none →
      w.Gives (.table n) i c → Change w c (w.setTable n i)
  | given (n : String) (f : Formula) (i : Nat) : c.subject = .formula n → w.target? c = none →
      w.Gives (.formula n) i c → Change w c (w.setFormula n (some ⟨f, i⟩))
  | dropped (n : String) : c.subject = .formula n → w.target? c = none →
      Change w c (w.setFormula n none)

theorem locate_of_target (htarget : w.target? c = some i) : w.locate c.subject = some i := by
  cases c with
  | table n d => exact htarget
  | formula n d => cases d <;> first | exact htarget | cases htarget
  | _ => cases htarget

theorem change_runFormula {n : String} {p : Placed} (hp : w.formulas n = some p)
    (d : Worksheet.Command) : Change w (.formula n d) (w.runFormula n d).workspace := by
  by_cases hd : ∃ symbols, d = .replaceSymbols symbols
  · obtain ⟨symbols, rfl⟩ := hd
    simp only [runFormula, hp]
    rcases (w.sheet p).replaceSymbols_cases symbols with hfresh | ⟨hfresh, hsheet⟩
    · rw [Worksheet.run, if_pos hfresh]
      exact .added n _ rfl rfl
    · rw [Worksheet.run, hfresh, hsheet, if_neg Bool.false_ne_true]
      have hsame : (w.setScope p.scope (w.scopes p.scope)).setFormula n (some p) = w := by
        rw [setScope_self, setFormula_self hp]
      exact hsame.symm ▸ .none
  · have hfresh : ((w.sheet p).run d).fresh = false :=
      Worksheet.fresh_run fun symbols h => hd ⟨symbols, h⟩
    have htarget : w.target? (.formula n d) = some p.scope := by
      cases d with
      | replaceSymbols symbols => exact absurd ⟨symbols, rfl⟩ hd
      | _ => exact congrArg (Option.map Placed.scope) hp
    simp only [runFormula, hp, hfresh, if_neg Bool.false_ne_true]
    exact .updated n p _ _ rfl hp htarget

theorem change_run (w : Workspace) (c : Command) : Change w c (w.run c).workspace := by
  cases c with
  | newTable n s => exact .tabled n s rfl rfl
  | nameTable n place =>
    simp only [run]
    split
    · exact .none
    · next i hi => exact .named n i rfl rfl ⟨rfl, hi⟩
  | table n d =>
    simp only [run, runTable]
    split
    · exact .none
    · next i hi => exact .written i _ hi
  | add n sheet => exact .added n sheet rfl rfl
  | addOn n f place =>
    simp only [run]
    split
    · exact .none
    · next i hi => exact .given n f i rfl rfl ⟨rfl, hi⟩
  | formula n d =>
    cases hp : w.formulas n with
    | none =>
      simp only [run, runFormula, hp]
      exact .none
    | some p => exact change_runFormula hp d
  | move n place =>
    simp only [run]
    split
    · next p i hp hi => exact .given n p.formula i rfl rfl ⟨rfl, hi⟩
    · exact .none
  | copy n target source =>
    simp only [run]
    split
    · exact .none
    · exact .added target _ rfl rfl
  | drop n => exact .dropped n rfl rfl

theorem Change.formulas (h : Change w c v) {n : String} (hn : c.subject ≠ .formula n) :
    v.formulas n = w.formulas n := by
  have other {m : String} (hm : c.subject = .formula m) : n ≠ m := by
    rintro rfl
    exact hn hm
  cases h with
  | updated m p f s hm => simp [setFormula, setScope, other hm]
  | added m sheet hm => simp [addSheet, store, setFormula, setScope, other hm]
  | given m f i hm => simp [setFormula, other hm]
  | dropped m hm => simp [setFormula, other hm]
  | _ => rfl

theorem Change.tables (h : Change w c v) {n : String} (hn : c.subject ≠ .table n) :
    v.tables n = w.tables n := by
  have other {m : String} (hm : c.subject = .table m) : n ≠ m := by
    rintro rfl
    exact hn hm
  cases h with
  | tabled m s hm => simp [setTable, store, setScope, other hm]
  | named m i hm => simp [setTable, other hm]
  | _ => rfl

theorem Change.locate (h : Change w c v) (hb : b ≠ c.subject) : v.locate b = w.locate b := by
  cases b with
  | table n => exact h.tables hb.symm
  | formula n => exact congrArg (Option.map Placed.scope) (h.formulas hb.symm)

theorem Change.next_le (h : Change w c v) : w.next ≤ v.next := by
  cases h <;> first | exact Nat.le_refl _ | exact Nat.le_succ _

theorem Change.scopes (h : Change w c v) (hi : i < w.next) (htarget : w.target? c ≠ some i) :
    v.scopes i = w.scopes i := by
  have old : i ≠ w.next := Nat.ne_of_lt hi
  cases h with
  | written j s hj =>
    have hne : i ≠ j := by
      rintro rfl
      exact htarget hj
    simp [setScope, hne]
  | updated n p f s hn hp hj =>
    have hne : i ≠ p.scope := by
      rintro rfl
      exact htarget hj
    simp [setFormula, setScope, hne]
  | added n sheet => simp [addSheet, store, setFormula, setScope, old]
  | tabled n s => simp [setTable, store, setScope, old]
  | _ => rfl

/-- A place refers to what it did, to a new scope, or to one that it is given, if to any. -/
theorem Change.locate_cases (h : Change w c v) (hi : v.locate a = some i) :
    w.locate a = some i ∨ a = c.subject ∧ (i = w.next ∧ w.next < v.next ∨ w.Gives a i c) := by
  refine (Classical.em (a = c.subject)).elim (fun ha => ?_) fun ha => .inl (h.locate ha ▸ hi)
  cases h with
  | none => exact .inl hi
  | written j s => exact .inl hi
  | updated n p f s hn hp =>
    obtain rfl := ha.trans hn
    simp only [Workspace.locate, setFormula, if_true, Option.map_some, Option.some.injEq] at hi
    exact .inl (by simp [Workspace.locate, hp, hi])
  | added n sheet hn =>
    obtain rfl := ha.trans hn
    simp only [Workspace.locate, addSheet, setFormula, if_true, Option.map_some,
      Option.some.injEq] at hi
    exact .inr ⟨ha, .inl ⟨hi.symm, Nat.lt_succ_self _⟩⟩
  | tabled n s hn =>
    obtain rfl := ha.trans hn
    simp only [Workspace.locate, setTable, if_true, Option.some.injEq] at hi
    exact .inr ⟨ha, .inl ⟨hi.symm, Nat.lt_succ_self _⟩⟩
  | named n j hn _ hgives =>
    obtain rfl := ha.trans hn
    simp only [Workspace.locate, setTable, if_true, Option.some.injEq] at hi
    exact .inr ⟨ha, .inr (hi ▸ hgives)⟩
  | given n f j hn _ hgives =>
    obtain rfl := ha.trans hn
    simp only [Workspace.locate, setFormula, if_true, Option.map_some, Option.some.injEq] at hi
    exact .inr ⟨ha, .inr (hi ▸ hgives)⟩
  | dropped n hn =>
    obtain rfl := ha.trans hn
    simp [Workspace.locate, setFormula] at hi

theorem Change.locate_subject (h : Change w c v) (htarget : w.target? c = some i) :
    v.locate c.subject = some i := by
  have hsubject := locate_of_target htarget
  cases h with
  | none => exact hsubject
  | written j s => exact hsubject
  | updated n p f s hn hp hj =>
    rw [hn, ← htarget, hj]
    simp [Workspace.locate, setFormula]
  | added n sheet _ hfree => simp [htarget] at hfree
  | tabled n s _ hfree => simp [htarget] at hfree
  | named n j _ hfree => simp [htarget] at hfree
  | given n f j _ hfree => simp [htarget] at hfree
  | dropped n _ hfree => simp [htarget] at hfree

/-- The scope that a command works on holds what the command leaves there. -/
theorem scopes_of_target (htarget : w.target? c = some i) :
    some ((w.run c).workspace.scopes i) = w.written? c := by
  cases c with
  | table n d =>
    have hi : w.tables n = some i := htarget
    simp [run, runTable, written?, scope?, locate, hi, setScope]
  | formula n d =>
    have hd : ∀ symbols, d ≠ .replaceSymbols symbols := by
      rintro symbols rfl
      cases htarget
    obtain ⟨p, hp, rfl⟩ : ∃ p, w.formulas n = some p ∧ p.scope = i := by
      have hsubject := locate_of_target htarget
      simpa [locate, Command.subject] using hsubject
    have hscope : ((w.sheet p).run d).sheet.scope = (w.sheet p).written d :=
      Worksheet.scope_run hd
    have hfresh : ((w.sheet p).run d).fresh = false := Worksheet.fresh_run hd
    simp [run, runFormula, written?, sheet?, hp, hfresh, setFormula, setScope, hscope]
  | _ => cases htarget

/-! ## Numbers in use -/

def Closed (w : Workspace) : Prop := ∀ a i, w.locate a = some i → i < w.next

theorem Closed.change (hw : w.Closed) (h : Change w c v) : v.Closed := by
  intro a i hi
  have hnext := h.next_le
  rcases h.locate_cases hi with hi | ⟨_, ⟨rfl, hlt⟩ | hgives⟩
  · exact Nat.lt_of_lt_of_le (hw a i hi) hnext
  · exact hlt
  · have hplace : ∃ place, w.locate place = some i := by
      cases c <;> first | exact ⟨_, hgives.2⟩ | cases hgives
    obtain ⟨place, hplace⟩ := hplace
    exact Nat.lt_of_lt_of_le (hw place i hplace) hnext

theorem closed_empty : ({} : Workspace).Closed := by
  intro a i hi
  cases a <;> cases hi

theorem Closed.after (hw : w.Closed) (cs : List Command) : (w.after cs).Closed := by
  induction cs generalizing w with
  | nil => exact hw
  | cons c cs ih => exact ih (hw.change (change_run w c))

theorem Closed.scope?_of_not_target (hw : w.Closed) (h : Change w c v) (hb : b ≠ c.subject)
    (htarget : ∀ j, w.locate b = some j → w.target? c ≠ some j) : v.scope? b = w.scope? b := by
  rw [scope?, h.locate hb, scope?]
  cases hj : w.locate b with
  | none => rfl
  | some j => exact congrArg some (h.scopes (hw b j hj) (htarget j hj))

/-- What a command leaves alone, and where the changes of the scope it works on are seen. -/
structure Frame (w : Workspace) (c : Command) : Prop where
  formulas (n : String) (hn : c.subject ≠ .formula n) :
    (w.run c).workspace.formulas n = w.formulas n
  tables (n : String) (hn : c.subject ≠ .table n) : (w.run c).workspace.tables n = w.tables n
  scopes (i : Nat) (hi : i < w.next) (htarget : w.target? c ≠ some i) :
    (w.run c).workspace.scopes i = w.scopes i
  settings (n : String) (p : Placed) (hp : w.formulas n = some p) (hc : c.On n) :
    ∃ q, (w.run c).workspace.formulas n = some q ∧ q.formula.settings = p.formula.settings
  /-- What a place is given it refers to, unless there is no formula to be moved. -/
  given (a : Place) (i : Nat) (h : w.Gives a i c)
    (hmove : ∀ n place, c = .move n place → (w.formulas n).isSome = true) :
    (w.run c).workspace.locate a = some i
  /-- Otherwise it goes on referring to what it did, or to a new scope. -/
  refers (a : Place) (i : Nat) (hi : (w.run c).workspace.locate a = some i) :
    w.locate a = some i ∨ a = c.subject ∧ (i = w.next ∨ w.Gives a i c)
  /-- Wherever the scope is referred to, it reads as the command leaves it. -/
  seen (i : Nat) (b : Place) (htarget : w.target? c = some i) (hb : w.locate b = some i) :
    (w.run c).workspace.locate b = some i ∧ (w.run c).workspace.scope? b = w.written? c
  /-- Elsewhere nothing has changed. -/
  unseen (b : Place) (hb : b ≠ c.subject)
    (htarget : ∀ i, w.locate b = some i → w.target? c ≠ some i) :
    (w.run c).workspace.locate b = w.locate b ∧ (w.run c).workspace.scope? b = w.scope? b

theorem settings_run {n : String} {p : Placed} (hp : w.formulas n = some p) (hc : c.On n) :
    ∃ q, (w.run c).workspace.formulas n = some q ∧ q.formula.settings = p.formula.settings := by
  cases c with
  | formula m d =>
    cases hc
    have hsettings := Worksheet.settings_run (w.sheet p) d
    simp only [run, runFormula, hp]
    split
    · exact ⟨_, if_pos rfl, hsettings⟩
    · exact ⟨_, if_pos rfl, hsettings⟩
  | move m place =>
    cases hc
    cases hi : w.locate place with
    | none => exact ⟨p, by simp [run, hp, hi], rfl⟩
    | some i => exact ⟨{ p with scope := i }, by simp [run, hp, hi, setFormula], rfl⟩
  | _ => cases hc

theorem locate_of_gives (h : w.Gives a i c)
    (hmove : ∀ n place, c = .move n place → (w.formulas n).isSome = true) :
    (w.run c).workspace.locate a = some i := by
  cases c with
  | nameTable n place =>
    obtain ⟨rfl, hi⟩ := h
    simp only [run, hi]
    simp [locate, setTable]
  | addOn n f place =>
    obtain ⟨rfl, hi⟩ := h
    simp only [run, hi]
    simp [locate, setFormula]
  | move n place =>
    obtain ⟨rfl, hi⟩ := h
    obtain ⟨p, hp⟩ := Option.isSome_iff_exists.1 (hmove n place rfl)
    simp only [run, hp, hi]
    simp [locate, setFormula]
  | _ => cases h

/-- The command leaves the formula of a name in its place. -/
def Command.Leaves (n : String) (c : Command) : Prop := c.subject = .formula n → c.On n

theorem settings_after {n : String} {p : Placed} (hp : w.formulas n = some p) {cs : List Command}
    (hcs : ∀ c ∈ cs, c.Leaves n) :
    ∃ q, (w.after cs).formulas n = some q ∧ q.formula.settings = p.formula.settings := by
  induction cs generalizing w p with
  | nil => exact ⟨p, hp, rfl⟩
  | cons c cs ih =>
    obtain ⟨hc, hcs⟩ := List.forall_mem_cons.1 hcs
    by_cases hsubject : c.subject = .formula n
    · obtain ⟨r, hr, hsettings⟩ := settings_run hp (hc hsubject)
      obtain ⟨q, hq, hq'⟩ := ih hr hcs
      exact ⟨q, hq, hq'.trans hsettings⟩
    · exact ih (((change_run w c).formulas hsubject).trans hp) hcs

theorem Closed.frame (hw : w.Closed) (c : Command) : w.Frame c := by
  have h := change_run w c
  refine ⟨fun n => h.formulas, fun n => h.tables, fun i => h.scopes, fun n p => settings_run,
    fun a i => locate_of_gives, fun a i hi => ?_, fun i b htarget hb => ?_, fun b hb htarget =>
      ⟨h.locate hb, hw.scope?_of_not_target h hb htarget⟩⟩
  · rcases h.locate_cases hi with hi | ⟨ha, ⟨hnext, -⟩ | hgives⟩
    · exact .inl hi
    · exact .inr ⟨ha, .inl hnext⟩
    · exact .inr ⟨ha, .inr hgives⟩
  have hsubject := h.locate_subject htarget
  have hlocate : (w.run c).workspace.locate b = some i := by
    rcases Classical.em (b = c.subject) with rfl | hne
    · exact hsubject
    · rw [h.locate hne, hb]
  exact ⟨hlocate, by rw [scope?, hlocate, ← scopes_of_target htarget, Option.map_some]⟩

/-! ## Places that share nothing -/

def Apart (w : Workspace) (a b : Place) : Prop := ∀ i, w.locate a = some i → w.locate b ≠ some i

/-- In no step of a run is one of two places given what the other one refers to. -/
def NeverShares (w : Workspace) (a b : Place) : List Command → Prop
  | [] => True
  | c :: cs =>
    (∀ i, w.Gives a i c → w.locate b ≠ some i) ∧ (∀ i, w.Gives b i c → w.locate a ≠ some i) ∧
      NeverShares (w.run c).workspace a b cs

theorem Apart.change (hw : w.Closed) (hne : a ≠ b) (hab : w.Apart a b) (h : Change w c v)
    (ha : ∀ i, w.Gives a i c → w.locate b ≠ some i)
    (hb : ∀ i, w.Gives b i c → w.locate a ≠ some i) : v.Apart a b := by
  intro i hai hbi
  rcases h.locate_cases hai with hai | ⟨hasubject, hai⟩
  · rcases h.locate_cases hbi with hbi | ⟨_, ⟨hnext, _⟩ | hgives⟩
    · exact hab i hai hbi
    · exact Nat.ne_of_lt (hw a i hai) hnext
    · exact hb i hgives hai
  · have hbold : w.locate b = some i := by
      rw [← h.locate fun hbsubject => hne (hasubject.trans hbsubject.symm)]
      exact hbi
    rcases hai with ⟨hnext, _⟩ | hgives
    · exact Nat.ne_of_lt (hw b i hbold) hnext
    · exact ha i hgives hbold

theorem Apart.after (hw : w.Closed) (hne : a ≠ b) (hab : w.Apart a b) {cs : List Command}
    (hcs : w.NeverShares a b cs) : (w.after cs).Apart a b := by
  induction cs generalizing w with
  | nil => exact hab
  | cons c cs ih =>
    obtain ⟨ha, hb, hcs⟩ := hcs
    have h := change_run w c
    exact ih (hw.change h) (hab.change hw hne h ha hb) hcs

/-- A command is run through a place, or otherwise works on the scope that the place refers to. -/
def Through (w : Workspace) (a : Place) (c : Command) : Prop :=
  c.subject = a ∨ ∃ i, w.locate a = some i ∧ w.target? c = some i

theorem Apart.scope?_run (hw : w.Closed) (hab : w.Apart a b) (hne : a ≠ b) (hc : w.Through a c) :
    (w.run c).workspace.scope? b = w.scope? b := by
  rcases hc with rfl | ⟨i, ha, htarget⟩
  · refine hw.scope?_of_not_target (change_run w c) hne.symm fun i hi htarget => ?_
    exact hab i (locate_of_target htarget) hi
  · refine hw.scope?_of_not_target (change_run w c) ?_ fun j hb hj => ?_
    · rintro rfl
      exact hab i ha (locate_of_target htarget)
    · cases htarget.symm.trans hj
      exact hab i ha hb

theorem Apart.symm (hab : w.Apart a b) : w.Apart b a := fun i hb ha => hab i ha hb

/-! ## Copies and replacements -/

/-- A copy has a scope of its own that reads like the one copied, and stays apart from it through
every run in which neither is given what the other one refers to. -/
structure CopiesApart (w : Workspace) (n m : String) (source : Option String) : Prop where
  contents : (w.run (.copy n m source)).workspace.scope? (.formula m) = w.scope? (.formula n)
  original : (w.run (.copy n m source)).workspace.scope? (.formula n) = w.scope? (.formula n)
  own (b : Place) (hb : b ≠ .formula m) :
    (w.run (.copy n m source)).workspace.Apart (.formula m) b
  apart (cs : List Command) (c : Command)
    (hcs : (w.run (.copy n m source)).workspace.NeverShares (.formula n) (.formula m) cs) :
    let u := (w.run (.copy n m source)).workspace.after cs
    u.Apart (.formula n) (.formula m) ∧
      (u.Through (.formula n) c →
        (u.run c).workspace.scope? (.formula m) = u.scope? (.formula m)) ∧
      (u.Through (.formula m) c →
        (u.run c).workspace.scope? (.formula n) = u.scope? (.formula n))

theorem Closed.copiesApart (hw : w.Closed) {n m : String} {p : Placed} (hp : w.formulas n = some p)
    (hnm : n ≠ m) (source : Option String) : w.CopiesApart n m source := by
  have hrun : (w.run (.copy n m source)).workspace = w.addSheet m ((w.sheet p).copy source) := by
    simp [run, sheet?, hp]
  have hm : (w.addSheet m ((w.sheet p).copy source)).locate (.formula m) = some w.next := by
    simp [locate, addSheet, setFormula]
  have hplace : Place.formula n ≠ .formula m := fun h => hnm (Place.formula.inj h)
  have own (b : Place) (hb : b ≠ .formula m) :
      (w.run (.copy n m source)).workspace.Apart (.formula m) b := by
    intro i hi hbi
    rw [(change_run w (.copy n m source)).locate hb] at hbi
    rw [hrun, hm] at hi
    exact Nat.ne_of_lt (hw b i hbi) (Option.some.inj hi).symm
  refine ⟨?_, ?_, own, fun cs c hcs => ?_⟩
  · rw [hrun, scope?, hm]
    simp [addSheet, store, setFormula, setScope, Worksheet.copy, sheet, scope?, locate, hp]
  · exact hw.scope?_of_not_target (change_run w (.copy n m source)) hplace fun i _ htarget => by
      cases htarget
  · have hclosed := hw.change (change_run w (.copy n m source))
    have hapart := (own _ hplace).symm.after hclosed hplace hcs
    have hclosed := hclosed.after cs
    exact ⟨hapart, hapart.scope?_run hclosed hplace, hapart.symm.scope?_run hclosed hplace.symm⟩

theorem Closed.find?_setSymbol (hw : w.Closed) {n x : String} {y : Float} {p : Placed}
    (hp : w.formulas n = some p) (hx : (w.scopes p.scope).isConstant x = false)
    (hb : w.locate b = some p.scope) :
    ((w.run (.formula n (.setSymbol x y))).workspace.scope? b).bind (·.find? x) = some y := by
  have htarget : w.target? (.formula n (.setSymbol x y)) = some p.scope :=
    congrArg (Option.map Placed.scope) hp
  rw [((hw.frame _).seen p.scope b htarget hb).2]
  simp [written?, sheet?, hp, Worksheet.written, sheet, hx, Scope.find?, Bindings.find?_insert]

/--
In every session, each command changes its subject alone, and of the scopes the one it works on,
which all that refer to it read as the command leaves it; a value bound through one formula is read
through the others; a copy stays apart from its original; and new symbols for one formula are not
seen by others.
-/
theorem shares_after (cs : List Command) :
    (∀ c, (({} : Workspace).after cs).Frame c) ∧
    (∀ n x y p, let w := ({} : Workspace).after cs
      w.formulas n = some p → (w.scopes p.scope).isConstant x = false →
        ∀ b, w.locate b = some p.scope →
          ((w.run (.formula n (.setSymbol x y))).workspace.scope? b).bind (·.find? x) = some y) ∧
    (∀ n m p source, (({} : Workspace).after cs).formulas n = some p → n ≠ m →
      (({} : Workspace).after cs).CopiesApart n m source) ∧
    ∀ n symbols, let w := ({} : Workspace).after cs
      let v := (w.run (.formula n (.replaceSymbols symbols))).workspace
      (∀ i < w.next, v.scopes i = w.scopes i) ∧
        ∀ b, b ≠ .formula n → v.locate b = w.locate b ∧ v.scope? b = w.scope? b := by
  have hclosed := closed_empty.after cs
  refine ⟨hclosed.frame, fun n x y p hp hx b hb => hclosed.find?_setSymbol hp hx hb,
    fun n m p source hp hnm => hclosed.copiesApart hp hnm source, fun n symbols => ?_⟩
  have hframe := hclosed.frame (.formula n (.replaceSymbols symbols))
  exact ⟨fun i hi => hframe.scopes i hi nofun, fun b hb => hframe.unseen b hb nofun⟩

/-- Two formulas on one scope that is made for the first. -/
def pair (f g : Formula) : List Command := [.add "f" ⟨f, {}⟩, .addOn "g" g (.formula "f")]

/-- Operations on the copy, and on its scope under a name of its own. -/
def onCopy : List Command :=
  [.formula "h" (.setSymbol "x" 2), .nameTable "t" (.formula "h"), .table "t" (.set "y" 3)]

theorem shares_after_pair :
    let w := ({} : Workspace).after (pair {} {})
    let v := (w.run (.copy "f" "h" none)).workspace
    let read (w : Workspace) (b : Place) := (w.scope? b).bind (·.find? "x")
    w.formulas "f" = some ⟨{}, 0⟩ ∧ (w.scopes 0).isConstant "x" = false ∧
      w.locate (.formula "g") = some 0 ∧
      read (w.run (.formula "f" (.setSymbol "x" 1))).workspace (.formula "g") = some 1 ∧
      "f" ≠ "h" ∧ v.NeverShares (.formula "f") (.formula "h") onCopy ∧
      (v.after onCopy).Through (.formula "h") (.table "t" (.set "x" 5)) ∧
      read ((v.after onCopy).run (.table "t" (.set "x" 5))).workspace (.formula "f") = none ∧
      w.target? (.formula "f" (.setSymbol "x" 1)) = some 0 ∧
      (w.run (.formula "f" (.setSymbol "x" 1))).workspace.scope? (.formula "g") =
        some ⟨Bindings.empty.insert "x" 1, .empty⟩ := by
  intro w v read
  obtain ⟨hframe, hbound, hcopies, _⟩ := shares_after (pair {} {})
  have hf : w.formulas "f" = some ⟨{}, 0⟩ := rfl
  have hg : w.locate (.formula "g") = some 0 := rfl
  have hne : "f" ≠ "h" := by decide
  have htarget : w.target? (.formula "f" (.setSymbol "x" 1)) = some 0 := rfl
  have hcs : v.NeverShares (.formula "f") (.formula "h") onCopy := by
    simp [onCopy, NeverShares, Gives]
  have hthrough : (v.after onCopy).Through (.formula "h") (.table "t" (.set "x" 5)) :=
    .inr ⟨1, rfl, rfl⟩
  have hcopy := (hcopies "f" "h" ⟨{}, 0⟩ none hf hne).apart onCopy (.table "t" (.set "x" 5)) hcs
  have hunread : read ((v.after onCopy).run (.table "t" (.set "x" 5))).workspace (.formula "f") =
      none := by
    show (Workspace.scope? _ _).bind _ = _
    rw [hcopy.2.2 hthrough]
    rfl
  have hread := hbound "f" "x" 1 ⟨{}, 0⟩ hf rfl (.formula "g") hg
  exact ⟨hf, rfl, hg, hread, hne, hcs, hthrough, hunread, htarget,
    ((hframe _).seen 0 (.formula "g") htarget hg).2.trans rfl⟩

end Workspace

end Calculator
