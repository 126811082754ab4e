import Calculator.Proofs.Positions

/-!
# Carets

The context of an error shows its message, the source and a caret, the latter two indented alike.
The caret stands as many columns to the right as the position says, and so under the character that
a failed parse is about if the source is a single line. Of several lines it is the last that stands
above the caret, and it starts at the left edge: wherever the character is, the caret is under the
one that the last line has two columns right of the position, if it is that long
(`Formula.caretUnder_iff`).
-/

namespace Calculator

namespace Text

def lines (cs : List Char) : List (List Char) := cs.splitOn '\n'

/-- The last line of a text is blanks and a caret, and above the caret there is the character. -/
def CaretUnder (text : List Char) (c : Char) : Prop :=
  ∃ (front : List (List Char)) (above : List Char) (column : Nat),
    lines text = front ++ [above, List.replicate column ' ' ++ ['^']] ∧ above[column]? = some c

theorem getLast?_lines_append (cs ds : List Char) :
    (lines (cs ++ '\n' :: ds)).getLast? = (lines ds).getLast? := by
  rw [lines, List.splitOn_append_cons_self, List.getLast?_append, lines,
    List.getLast?_eq_some_getLast (List.splitOn_ne_nil '\n' ds), Option.some_or]

theorem lines_of_not_mem {cs : List Char} (h : '\n' ∉ cs) : lines cs = [cs] :=
  List.splitOn_eq_singleton h

end Text

open Text

/-! ## Contexts -/

namespace Error

variable {e : Error} {source : String} {p : Nat} {c : Char}

theorem lines_context (hsource : e.expression = some source)
    (hposition : e.position = some (p : Int)) :
    lines e.context.toList = lines e.message.toList ++ lines (' ' :: ' ' :: source.toList) ++
      [List.replicate (p + 2) ' ' ++ ['^']] := by
  have hcontext : e.context.toList = e.message.toList ++ '\n' ::
      ((' ' :: ' ' :: source.toList) ++ '\n' :: (List.replicate (p + 2) ' ' ++ ['^'])) := by
    simp [context, hsource, hposition, caret, List.replicate_succ, ToString.toString]
  have hcaret : '\n' ∉ List.replicate (p + 2) ' ' ++ ['^'] := by simp
  rw [hcontext, lines, List.splitOn_append_cons_self, List.splitOn_append_cons_self,
    List.splitOn_eq_singleton hcaret, List.append_assoc]
  rfl

/-- The line above the caret is the last one of the indented source. -/
theorem caretUnder_context_iff (hsource : e.expression = some source)
    (hposition : e.position = some (p : Int)) :
    CaretUnder e.context.toList c ↔
      ∃ above ∈ (lines (' ' :: ' ' :: source.toList)).getLast?, above[p + 2]? = some c := by
  have hlines := lines_context hsource hposition
  have hne : lines (' ' :: ' ' :: source.toList) ≠ [] := List.splitOn_ne_nil _ _
  obtain ⟨before, last, hsplit⟩ := (List.eq_nil_or_concat _).resolve_left hne
  rw [List.concat_eq_append] at hsplit
  rw [hsplit, ← List.append_assoc, List.append_assoc _ [last], List.singleton_append] at hlines
  rw [hsplit, List.getLast?_concat]
  constructor
  · rintro ⟨front, above, column, htext, habove⟩
    obtain ⟨-, htail⟩ := List.append_inj' (hlines.symm.trans htext) rfl
    obtain ⟨rfl, hcaret⟩ := List.cons.inj htail
    have hcolumn : p + 2 = column := by
      have hlength := congrArg List.length (List.cons.inj hcaret).1
      simpa using hlength
    exact ⟨last, rfl, hcolumn ▸ habove⟩
  · rintro ⟨above, habove, hc⟩
    obtain rfl := Option.some.inj habove
    exact ⟨_, _, p + 2, hlines, hc⟩

theorem caretUnder_context_of_getElem? (hsource : e.expression = some source)
    (hposition : e.position = some (p : Int)) (hc : source.toList[p]? = some c) :
    CaretUnder e.context.toList c ↔
      '\n' ∉ source.toList ∨ ∃ last ∈ (lines source.toList).getLast?, last[p + 2]? = some c := by
  rw [caretUnder_context_iff hsource hposition]
  by_cases h : '\n' ∈ source.toList
  · obtain ⟨front, back, hsplit⟩ := List.append_of_mem h
    have hlast : (lines (' ' :: ' ' :: source.toList)).getLast? =
        (lines source.toList).getLast? := by
      rw [hsplit, getLast?_lines_append]
      exact getLast?_lines_append (' ' :: ' ' :: front) back
    rw [hlast]
    simp [h]
  · have hindented : '\n' ∉ ' ' :: ' ' :: source.toList := by simp [h]
    rw [lines_of_not_mem hindented]
    simp [h, hc]

end Error

/-! ## Parses that fail -/

theorem Error.PointsInto.exists_character {e : Error} {source : String} {i : Int}
    (h : e.PointsInto source) (hi : e.position = some i) :
    ∃ (p : Nat) (c : Char), i = p ∧ source.toList[p]? = some c := by
  obtain ⟨-, h⟩ := h
  split at h
  · next c p _ => exact ⟨p, c, Option.some.inj (hi.symm.trans h.1), h.2.1⟩
  · next p _ => exact ⟨p, ')', Option.some.inj (hi.symm.trans h.1), h.2⟩
  · next p _ => exact ⟨p, '(', Option.some.inj (hi.symm.trans h.1), h.2⟩
  · cases hi.symm.trans h.1
  · exact h.elim

namespace Formula

variable {f : Formula} {scope : Scope Float} {e : Error} {i : Int}

/--
A failed parse with a position is about the character there. Its context ends in a line of blanks
and a caret, and the caret is under that character exactly if the source is one line, or its last
line happens to have the same character two columns right of the position.
-/
theorem caretUnder_iff (h : (f.parse scope).1 = .ok (some e)) (hi : e.position = some i) :
    ∃ (p : Nat) (c : Char), i = p ∧ f.source.toList[p]? = some c ∧
      (∃ blanks, (lines e.context.toList).getLast? = some (List.replicate blanks ' ' ++ ['^'])) ∧
      (CaretUnder e.context.toList c ↔
        '\n' ∉ f.source.toList ∨ ∃ last ∈ (lines f.source.toList).getLast?, last[p + 2]? = some c) := by
  have hpoints := pointsInto_of_parse h
  obtain ⟨p, c, rfl, hc⟩ := hpoints.exists_character hi
  refine ⟨p, c, rfl, hc, ⟨p + 2, ?_⟩, Error.caretUnder_context_of_getElem? hpoints.1 hi hc⟩
  rw [Error.lines_context hpoints.1 hi, List.getLast?_append]
  rfl

theorem parse_tab : (Formula.parse { source := "\t)" } {}).1 =
    .ok (some { cause := .unbalanced 1, expression := some "\t)" }) := by
  have hscan : Lexicon.scan {} 0 "\t)".toList = .ok [.ofOperator .closeParen 1] := by
    refine (Lexicon.scan_blank (by decide) 0).trans ?_
    refine (@Lexicon.scan_operator {} [] .closeParen (.inl rfl) 1).trans ?_
    rw [Lexicon.scan]
    rfl
  exact parse_eq_error_iff.2 ⟨.groups (by decide) hscan (by decide) (.unbalanced rfl), rfl⟩

theorem caretUnder_tab :
    (Formula.parse { source := "\t)" } {}).1 =
        .ok (some { cause := .unbalanced 1, expression := some "\t)" }) ∧
      CaretUnder (Error.context { cause := .unbalanced 1, expression := some "\t)" }).toList ')' := by
  refine ⟨parse_tab, ?_⟩
  obtain ⟨p, c, hp, hc, -, hunder⟩ := caretUnder_iff parse_tab rfl
  obtain rfl : 1 = p := Int.ofNat.inj hp
  obtain rfl : ')' = c := Option.some.inj hc
  exact hunder.2 (.inl (by decide))

/-- On a second line the caret is not under the character. -/
theorem not_caretUnder_secondLine :
    ∃ e, (Formula.parse { source := "x\n@" } {}).1 = .ok (some e) ∧ e.position = some 2 ∧
      "x\n@".toList[2]? = some '@' ∧ ¬ CaretUnder e.context.toList '@' := by
  have hscan : Lexicon.scan {} 0 "x\n@".toList =
      .error (.error { cause := .unknownCharacter '@' 2 }) := by
    refine (@Lexicon.scan_piece {} 'x' [] ['\n', '@'] (.symbol ['x']) _ 0 rfl rfl rfl).trans ?_
    rw [Lexicon.scan_blank (by decide), Lexicon.scan]
    rfl
  have hrefuses : Settings.Refuses {} {} "x\n@" (.unknownCharacter '@' 2) :=
    @Settings.Refuses.character {} {} "x\n@" { cause := .unknownCharacter '@' 2 } (by decide) hscan
  refine ⟨{ cause := .unknownCharacter '@' 2, expression := some "x\n@" },
    parse_eq_error_iff.2 ⟨hrefuses, rfl⟩, rfl, rfl, fun hunder => ?_⟩
  obtain ⟨above, habove, hc⟩ := (Error.caretUnder_context_iff rfl rfl).1 hunder
  cases habove
  cases hc

end Formula

end Calculator
