import Calculator.Literal

/-!
# Scanners

A scanner cuts a number from the start of the remaining text; the lexer asks it
where neither an operator nor a name stands. `literals` reads number literals,
`tally` counts strokes, and `pairs` takes two characters at a time. `Cuts` says
that what a scanner takes is the beginning of the text it was given.
-/

namespace Calculator

open Literal

structure Scanner where
  scan : Options → List Char → Except Fault Match

namespace Scanner

def literals : Scanner := ⟨Literal.scan⟩

/-- A row of `#`, worth their number. -/
def tally : Scanner :=
  ⟨fun _ cs =>
    let strokes := cs.takeWhile (· == '#')
    .ok ⟨strokes, Number.ofNat strokes.length⟩⟩

/-- The next two characters, worth the length of the remaining text. -/
def pairs : Scanner := ⟨fun _ cs => .ok ⟨cs.take 2, Number.ofNat cs.length⟩⟩

/-- Finds literals without separators and reads none of them: what would have to be taken out of
their texts is no text. -/
def unreadable (kind : String) : Scanner :=
  ⟨fun o cs => do
    let m ← Literal.scan { o with separator := .none } cs
    if m.text = [] then return m else throw (.separator kind)⟩

def Cuts (s : Scanner) : Prop :=
  ∀ o cs m, s.scan o cs = .ok m → m.text <+: cs

theorem literals_cuts : literals.Cuts := fun _ _ _ h => scan_cuts h

theorem tally_cuts : tally.Cuts := by
  rintro o cs m ⟨⟩
  exact List.takeWhile_prefix _

theorem pairs_cuts : pairs.Cuts := by
  rintro o cs m ⟨⟩
  exact List.take_prefix _ _

theorem unreadable_cuts (kind : String) : (unreadable kind).Cuts := by
  intro o cs m h
  obtain ⟨n, hn, h⟩ := Result.bind_eq_ok_iff.1 h
  split at h
  · cases h
    exact scan_cuts hn
  · cases h

end Scanner

end Calculator
