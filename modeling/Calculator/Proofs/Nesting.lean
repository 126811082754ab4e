import Calculator.Proofs.Tree

/-!
# Nesting of groups

`openAfter?` follows the groups that are open, the innermost first, and fails at a closing
parenthesis that has no partner. A list is `Balanced` if it closes every group that it opens and
no other. `deepest` is the greatest number of groups that are open at once.
-/

namespace Calculator.Nesting

/-- The open groups after one token more; none if there is no group to close. -/
def openAfter? (groups : List Token) (t : Token) : Option (List Token) :=
  if t.isA .openParen then some (t :: groups)
  else if t.isA .closeParen then
    match groups with
    | [] => none
    | _ :: outer => some outer
  else some groups

def Balanced (ts : List Token) : Prop := ts.foldlM openAfter? [] = some []

def depthAfter (depth : Nat) (t : Token) : Nat :=
  if t.isA .openParen then depth + 1
  else if t.isA .closeParen then depth - 1
  else depth

/-- The greatest number of groups open at once, some being open in front of the list. -/
def deepest (depth : Nat) : List Token → Nat
  | [] => depth
  | t :: ts => max depth (deepest (depthAfter depth t) ts)

theorem not_isA_closeParen {t : Token} (h : t.isA .openParen = true) : t.isA .closeParen = false :=
  Token.not_isA h (by decide)

theorem not_isA_openParen {t : Token} (h : t.isA .closeParen = true) : t.isA .openParen = false :=
  Token.not_isA h (by decide)

/-! ## Open groups -/

@[simp] theorem openAfter?_open {t : Token} (h : t.isA .openParen = true) (groups : List Token) :
    openAfter? groups t = some (t :: groups) := by
  simp [openAfter?, h]

@[simp] theorem openAfter?_close {t : Token} (h : t.isA .closeParen = true) (g : Token)
    (groups : List Token) : openAfter? (g :: groups) t = some groups := by
  simp [openAfter?, h, not_isA_openParen h]

@[simp] theorem openAfter?_other {t : Token} (h : t.isParenthesis = false) (groups : List Token) :
    openAfter? groups t = some groups := by
  simp only [Token.isParenthesis, Bool.or_eq_false_iff] at h
  simp [openAfter?, h]

/-- All that one token can do to the open groups. -/
theorem openAfter?_cases {groups groups' : List Token} {t : Token}
    (h : openAfter? groups t = some groups') :
    (t.isA .openParen = true ∧ groups' = t :: groups) ∨
    (t.isA .closeParen = true ∧ ∃ g, groups = g :: groups') ∨
    (t.isParenthesis = false ∧ groups' = groups) := by
  unfold openAfter? at h
  split at h
  · next ht => exact .inl ⟨ht, (Option.some.inj h).symm⟩
  · next ht =>
    split at h
    · next ht' =>
      split at h
      · cases h
      · next g outer =>
        cases h
        exact .inr (.inl ⟨ht', g, rfl⟩)
    · next ht' =>
      cases h
      exact .inr (.inr ⟨by simp [Token.isParenthesis, ht, ht'], rfl⟩)

theorem openAfter?_eq_none {groups : List Token} {t : Token} (h : openAfter? groups t = none) :
    t.isA .closeParen = true ∧ groups = [] := by
  unfold openAfter? at h
  split at h
  · cases h
  split at h
  · next ht =>
    cases groups with
    | nil => exact ⟨ht, rfl⟩
    | cons g outer => cases h
  · cases h

theorem exists_close {ts groups outer : List Token} {g : Token}
    (h : ts.foldlM openAfter? (groups ++ g :: outer) = some []) :
    ∃ inner close rest, ts = inner ++ close :: rest ∧ close.isA .closeParen = true ∧
      inner.foldlM openAfter? groups = some [] ∧ rest.foldlM openAfter? outer = some [] := by
  induction ts generalizing groups with
  | nil => simp at h
  | cons t ts ih =>
    obtain ⟨mid, hmid, h⟩ := Option.bind_eq_some_iff.1 h
    rcases openAfter?_cases hmid with ⟨ht, rfl⟩ | ⟨ht, g', hg⟩ | ⟨ht, rfl⟩
    · obtain ⟨inner, close, rest, rfl, hc, hi, hr⟩ := @ih (t :: groups) h
      exact ⟨t :: inner, close, rest, rfl, hc, by simp [ht, hi], hr⟩
    · cases groups with
      | nil =>
        obtain ⟨rfl, rfl⟩ := List.cons.inj hg
        exact ⟨[], t, ts, rfl, ht, rfl, h⟩
      | cons g₁ groups =>
        obtain ⟨rfl, rfl⟩ := List.cons.inj hg
        obtain ⟨inner, close, rest, rfl, hc, hi, hr⟩ := ih h
        exact ⟨t :: inner, close, rest, rfl, hc, by simp [ht, hi], hr⟩
    · obtain ⟨inner, close, rest, rfl, hc, hi, hr⟩ := ih h
      exact ⟨t :: inner, close, rest, rfl, hc, by simp [ht, hi], hr⟩

theorem Balanced.group {t : Token} {ts : List Token} (h : Balanced (t :: ts))
    (ht : t.isA .openParen = true) :
    ∃ inner close rest, ts = inner ++ close :: rest ∧ close.isA .closeParen = true ∧
      Balanced inner ∧ Balanced rest := by
  have h' : ts.foldlM openAfter? ([] ++ t :: []) = some [] := by simpa [Balanced, ht] using h
  exact exists_close h'

theorem Balanced.tail {t : Token} {ts : List Token} (h : Balanced (t :: ts))
    (ht : t.isParenthesis = false) : Balanced ts := by
  simpa [Balanced, ht] using h

theorem Balanced.not_close {t : Token} {ts : List Token} (h : Balanced (t :: ts)) :
    t.isA .closeParen = false := by
  obtain ⟨mid, hmid, _⟩ := Option.bind_eq_some_iff.1 h
  rcases openAfter?_cases hmid with ⟨ht, _⟩ | ⟨_, g, hg⟩ | ⟨ht, _⟩
  · exact not_isA_closeParen ht
  · cases hg
  · exact (Bool.or_eq_false_iff.1 ht).2

/-! ## Depth -/

@[simp] theorem depthAfter_open {t : Token} (h : t.isA .openParen = true) (depth : Nat) :
    depthAfter depth t = depth + 1 := by
  simp [depthAfter, h]

@[simp] theorem depthAfter_close {t : Token} (h : t.isA .closeParen = true) (depth : Nat) :
    depthAfter depth t = depth - 1 := by
  simp [depthAfter, h, not_isA_openParen h]

@[simp] theorem depthAfter_other {t : Token} (h : t.isParenthesis = false) (depth : Nat) :
    depthAfter depth t = depth := by
  simp only [Token.isParenthesis, Bool.or_eq_false_iff] at h
  simp [depthAfter, h]

theorem depthAfter_add_length {groups groups' : List Token} {t : Token}
    (h : openAfter? groups t = some groups') (depth : Nat) :
    depthAfter (depth + groups.length) t = depth + groups'.length := by
  rcases openAfter?_cases h with ⟨ht, rfl⟩ | ⟨ht, g, rfl⟩ | ⟨ht, rfl⟩ <;> simp [ht, Nat.add_assoc]

theorem depthAfter_length {groups groups' : List Token} {t : Token}
    (h : openAfter? groups t = some groups') : depthAfter groups.length t = groups'.length := by
  simpa using depthAfter_add_length h 0

theorem foldl_depthAfter_length {groups groups' ts : List Token}
    (h : ts.foldlM openAfter? groups = some groups') :
    ts.foldl depthAfter groups.length = groups'.length := by
  induction ts generalizing groups with
  | nil =>
    cases h
    rfl
  | cons t ts ih =>
    obtain ⟨mid, hmid, h⟩ := Option.bind_eq_some_iff.1 h
    rw [List.foldl_cons, depthAfter_length hmid]
    exact ih h

theorem le_deepest (depth : Nat) (ts : List Token) : depth ≤ deepest depth ts := by
  cases ts with
  | nil => exact Nat.le_refl _
  | cons t ts => exact Nat.le_max_left _ _

theorem deepest_append (depth : Nat) (ts us : List Token) :
    deepest depth (ts ++ us) = max (deepest depth ts) (deepest (ts.foldl depthAfter depth) us) := by
  induction ts generalizing depth with
  | nil =>
    have := le_deepest depth us
    simp only [List.nil_append, deepest, List.foldl_nil]
    omega
  | cons t ts ih => simp [deepest, ih, Nat.max_assoc]

end Calculator.Nesting
