import Calculator.Proofs.Footprint
import Calculator.Proofs.Sharing

/-!
# Scopes of identifiers

A scope is `Legible` if all names in it are identifiers. A text can make it no other: it is read as
a name where it is an identifier or bound already, and a program binds the names that are written in
it. So where commands bring no names of their own all scopes and programs stay legible, and what a
parse finds depends on the source alone, whenever it takes place (`legible_after`).
-/

namespace Calculator

open Text (isIdentifier)

namespace Scope

variable {s t : Scope Float} {n : String}

/-- All names are identifiers. -/
def Legible (s : Scope Float) : Prop := ∀ n, s.contains n = true → isIdentifier n = true

theorem Legible.set (h : s.Legible) (hn : isIdentifier n = true) {x : Float}
    (hset : s.set n x = .ok t) : t.Legible := by
  intro m hm
  rw [contains_of_set hset, Bool.or_eq_true, beq_iff_eq] at hm
  rcases hm with rfl | hm
  · exact hn
  · exact h m hm

theorem Legible.delete (h : s.Legible) (n : String) : (s.delete n).Legible := by
  intro m hm
  rw [contains_delete, Bool.or_eq_true, Bool.and_eq_true] at hm
  rcases hm with ⟨_, hm⟩ | hm
  · exact h m hm
  · exact h m (contains_of_isConstant hm)

theorem Legible.clear (h : s.Legible) : s.clear.Legible := by
  intro m hm
  rw [Scope.clear, contains, Bool.or_eq_true] at hm
  rcases hm with hm | hm
  · cases hm
  · exact h m (contains_of_isConstant hm)

end Scope

namespace Formula

variable {f : Formula} {s t : Scope Float}

/-- All names in the program are identifiers. -/
def Legible (f : Formula) : Prop := ∀ n ∈ f.reads, isIdentifier n = true

theorem legible_of_unread (h : f.reading = .none) : f.Legible := by
  intro n hn
  rw [reads, program, h] at hn
  cases hn

theorem legible_parse (hs : s.Legible) (f : Formula) : (f.parse s).2.Legible :=
  fun n hn => (knows_of_mem_reads hn).2.elim (hs n) id

theorem legible_evaluate (hf : f.Legible) (hs : s.Legible) : (f.evaluate s).2.Legible := by
  refine evaluate_keeps (P := Scope.Legible) (fun ts hts t ht n hn s x s' hset hs => ?_) hs
  refine hs.set (hf n ?_) hset
  rw [reads, hts]
  exact Token.mem_symbols_iff.2 ⟨t, ht, hn⟩

theorem parse_of_legible (hs : s.Legible) (ht : t.Legible) (f : Formula) :
    f.parse t = f.parse s := by
  have unbound {r : Scope Float} (hr : r.Legible) {n : String}
      (hn : n ∈ f.asked s) : r.contains n = false := by
    rw [Bool.eq_false_iff]
    intro hbound
    have hidentifier := hr n hbound
    rw [Lexicon.not_isIdentifier_of_asked hn] at hidentifier
    cases hidentifier
  exact parse_of_agrees fun n hn => (unbound ht hn).trans (unbound hs hn).symm

end Formula

namespace Worksheet

variable {w : Worksheet} {c : Command}

/-- The command binds names that no program of a formula has to hold. -/
def Command.BringsNames : Command → Prop
  | .setSymbol _ _ | .defineConstant _ _ | .replaceSymbols _ => True
  | _ => False

structure Legible (w : Worksheet) : Prop where
  formula : w.formula.Legible
  scope : w.scope.Legible

theorem Legible.run (h : w.Legible) (hc : ¬ c.BringsNames) : (w.run c).sheet.Legible := by
  obtain ⟨hformula, hscope⟩ := h
  cases c with
  | load source => exact ⟨Formula.legible_of_unread rfl, hscope⟩
  | reset => exact ⟨Formula.legible_of_unread rfl, hscope.clear⟩
  | parse => exact ⟨Formula.legible_parse hscope w.formula, hscope⟩
  | evaluate => exact ⟨hformula, Formula.legible_evaluate hformula hscope⟩
  | deleteSymbol n => exact ⟨hformula, hscope.delete n⟩
  | setSymbol | defineConstant | replaceSymbols => exact absurd trivial hc
  | _ => exact ⟨hformula, hscope⟩

end Worksheet

namespace Workspace

variable {w : Workspace} {c : Command} {cs ds : List Command} {name : String} {p : Placed}

/-- The command binds names itself, or brings a scope or a formula from outside. -/
def Command.BringsNames : Command → Prop
  | .formula _ c => c.BringsNames
  | .move _ _ | .copy _ _ _ | .drop _ => False
  | _ => True

/-- All that is referred to is legible, and so are all programs. -/
structure Legible (w : Workspace) : Prop where
  scope {a : Place} {i : Nat} (h : w.locate a = some i) : (w.scopes i).Legible
  formula {name : String} {p : Placed} (h : w.formulas name = some p) : p.formula.Legible

namespace Legible

theorem sheet (h : w.Legible) (hp : w.formulas name = some p) : (w.sheet p).Legible :=
  ⟨h.formula hp, h.scope (a := .formula name) (congrArg (Option.map Placed.scope) hp)⟩

theorem setScope (h : w.Legible) {s : Scope Float} (hs : s.Legible) (i : Nat) :
    (w.setScope i s).Legible := by
  refine ⟨fun {a j} hj => ?_, h.formula⟩
  have hold : w.locate a = some j := by cases a <;> exact hj
  dsimp only [Workspace.setScope]
  split
  · exact hs
  · exact h.scope hold

theorem store (h : w.Legible) {s : Scope Float} (hs : s.Legible) : (w.store s).Legible := by
  refine ⟨fun {a j} hj => (h.setScope hs w.next).scope (a := a) ?_, h.formula⟩
  cases a <;> exact hj

theorem setFormula (h : w.Legible) {q : Option Placed}
    (hq : ∀ p, q = some p → p.formula.Legible ∧ (w.scopes p.scope).Legible) (name : String) :
    (w.setFormula name q).Legible := by
  constructor
  · rintro (n | n) i hi
    · exact h.scope (a := .table n) hi
    · simp only [locate, Workspace.setFormula] at hi
      split at hi
      · obtain ⟨p, hp, rfl⟩ := Option.map_eq_some_iff.1 hi
        exact (hq p hp).2
      · exact h.scope (a := .formula n) hi
  · intro n p hp
    simp only [Workspace.setFormula] at hp
    split at hp
    · exact (hq p hp).1
    · exact h.formula hp

theorem addSheet (h : w.Legible) {s : Worksheet} (hs : s.Legible) (name : String) :
    (w.addSheet name s).Legible := by
  refine (h.store hs.scope).setFormula (fun p hp => ?_) name
  cases hp
  refine ⟨hs.formula, ?_⟩
  simpa only [Workspace.store, Workspace.setScope, if_pos] using hs.scope

theorem run (h : w.Legible) (hc : ¬ c.BringsNames) : (w.run c).workspace.Legible := by
  cases c with
  | formula n d =>
    simp only [Workspace.run, runFormula]
    split
    · exact h
    · next p hp =>
      have hsheet := (h.sheet hp).run hc
      dsimp only
      split
      · exact h.addSheet hsheet n
      · refine (h.setScope hsheet.scope p.scope).setFormula (fun q hq => ?_) n
        cases hq
        refine ⟨hsheet.formula, ?_⟩
        simpa only [Workspace.setScope, if_pos] using hsheet.scope
  | move n place =>
    simp only [Workspace.run]
    split
    · next p i hp hi =>
      refine h.setFormula (fun q hq => ?_) n
      cases hq
      exact ⟨h.formula (p := p) hp, h.scope hi⟩
    · exact h
  | copy n target source =>
    simp only [Workspace.run]
    split
    · exact h
    · next s hs =>
      obtain ⟨p, hp, rfl⟩ := Option.map_eq_some_iff.1 hs
      have hcopy : (p.formula.copy source).Legible := Formula.legible_of_unread rfl
      exact h.addSheet (s := (w.sheet p).copy source) ⟨hcopy, (h.sheet hp).scope⟩ target
  | drop n =>
    refine h.setFormula (fun q hq => ?_) n
    cases hq
  | _ => exact absurd trivial hc

theorem after (h : w.Legible) (hcs : ∀ c ∈ cs, ¬ c.BringsNames) : (w.after cs).Legible := by
  induction cs generalizing w with
  | nil => exact h
  | cons c cs ih =>
    obtain ⟨hc, hcs⟩ := List.forall_mem_cons.1 hcs
    exact ih (h.run hc) hcs

end Legible

/--
From formulas that are not parsed and scopes of identifiers no source leads to other names, whatever
is loaded, parsed, evaluated, reset, copied and moved. A parse finds the same whenever it reads the
same source of a formula.
-/
theorem legible_after (hformulas : ∀ n p, w.formulas n = some p → p.formula.reading = .none)
    (hscopes : ∀ place s, w.scope? place = some s → s.Legible)
    (hcs : ∀ c ∈ cs, ¬ c.BringsNames) :
    (∀ place s, (w.after cs).scope? place = some s → s.Legible) ∧
      ∀ name p, (w.after cs).formulas name = some p → ∀ ds : List Command,
        (∀ d ∈ ds, ¬ d.BringsNames ∧ d.Leaves name) →
        ∃ q, (w.after (cs ++ ds)).formulas name = some q ∧
          (q.formula.source = p.formula.source →
            q.formula.parse ((w.after (cs ++ ds)).scopes q.scope) =
              p.formula.parse ((w.after cs).scopes p.scope)) := by
  have hw : w.Legible := by
    refine ⟨fun {a i} hi => hscopes a _ ?_, fun hp => Formula.legible_of_unread (hformulas _ _ hp)⟩
    rw [scope?, hi, Option.map_some]
  have hafter := hw.after hcs
  constructor
  · intro place s hs
    obtain ⟨i, hi, rfl⟩ := Option.map_eq_some_iff.1 hs
    exact hafter.scope hi
  · intro name p hp ds hds
    rw [show w.after (cs ++ ds) = (w.after cs).after ds from List.foldl_append]
    obtain ⟨q, hq, hsettings⟩ := settings_after hp fun d hd => (hds d hd).2
    have hlater := hafter.after fun d hd => (hds d hd).1
    refine ⟨q, hq, fun hsource => ?_⟩
    rw [Formula.parse_congr hsource hsettings]
    exact Formula.parse_of_legible (hafter.sheet hp).scope (hlater.sheet hq).scope p.formula

def withX : Scope Float := { vars := Bindings.empty.insert "x" 1 }

def sharing (f : Formula) : Workspace :=
  ({} : Workspace).after [.newTable "t" withX, .addOn "a" f (.table "t")]

def rounds : List Command :=
  [.formula "a" .parse, .formula "a" .evaluate, .formula "a" (.load "st = x")]

/-- That `st` is bound meanwhile does not show in another parse. -/
theorem legible_after_rounds :
    let f : Formula := { source := "st = x" }
    (∀ n p, (sharing f).formulas n = some p → p.formula.reading = .none) ∧
      (∀ place s, (sharing f).scope? place = some s → s.Legible) ∧
      ∃ q, ((sharing f).after (.copy "a" "b" none :: rounds)).formulas "a" = some q ∧
        q.formula.parse (((sharing f).after (.copy "a" "b" none :: rounds)).scopes q.scope) =
          f.parse withX := by
  intro f
  have hformulas : ∀ n p, (sharing f).formulas n = some p → p.formula.reading = .none := by
    intro n p hp
    have hsharing : (sharing f).formulas n = if n = "a" then some ⟨f, 0⟩ else none := rfl
    rw [hsharing] at hp
    split at hp <;> cases hp
    rfl
  have hwithX : withX.Legible := by
    have hempty : ({} : Scope Float).Legible := by
      intro n hn
      cases hn
    exact hempty.set (n := "x") (x := 1) (by decide) rfl
  have hscopes : ∀ place s, (sharing f).scope? place = some s → s.Legible := by
    rintro place s hs
    obtain ⟨i, hi, rfl⟩ := Option.map_eq_some_iff.1 hs
    have hzero : i = 0 := by
      cases place with
      | table n =>
        have hlocate : (sharing f).locate (.table n) = if n = "t" then some 0 else none := rfl
        rw [hlocate] at hi
        split at hi <;> cases hi
        rfl
      | formula n =>
        have hlocate : (sharing f).locate (.formula n) =
          (if n = "a" then some (⟨f, 0⟩ : Placed) else none).map Placed.scope := rfl
        rw [hlocate] at hi
        split at hi <;> cases hi
        rfl
    exact hzero ▸ hwithX
  have hcopy : ∀ c ∈ [Command.copy "a" "b" none], ¬ c.BringsNames := by
    simp [Command.BringsNames]
  have hrounds : ∀ d ∈ rounds, ¬ d.BringsNames ∧ d.Leaves "a" := by
    simp [rounds, Command.BringsNames, Worksheet.Command.BringsNames, Command.Leaves, Command.On]
  obtain ⟨_, hparse⟩ := legible_after hformulas hscopes hcopy
  obtain ⟨q, hq, hsame⟩ := hparse "a" ⟨f, 0⟩ rfl rounds hrounds
  have hsource : (((sharing f).after (.copy "a" "b" none :: rounds)).formulas "a").map
      (·.formula.source) = some "st = x" := rfl
  have hqsource := (congrArg (Option.map (·.formula.source)) hq).symm.trans hsource
  exact ⟨hformulas, hscopes, q, hq, hsame (Option.some.inj hqsource)⟩

end Workspace

end Calculator
