import Calculator.Result
import Calculator.Scope.Command

/-!
# What a scope refuses

`Refuses` lists what is refused: to bind a constant, to remove what is no variable and to read what
is not there. Whatever reads a name before it removes it looks at variables and constants but
removes variables only, and so refuses where a name is found but cannot go.

A scope refuses nothing else, and it is then as it was before; of bindings in order those stay that
precede the first constant (`refusals_leave_intact`).
-/

namespace Calculator

namespace Bindings

variable {α : Type}

def insertAll (b : Bindings α) (pairs : List (String × α)) : Bindings α :=
  pairs.foldl (fun b p => b.insert p.1 p.2) b

theorem entries_insert_of_not_mem {b : Bindings α} {n : String} (h : n ∉ b.names) (x : α) :
    (b.insert n x).entries = b.entries ++ [(n, x)] := by
  have hnew : n ∉ b.entries.map Prod.fst := h
  rw [insert, dif_neg hnew]

theorem entries_insertAll {b : Bindings α} {es : List (String × α)}
    (h : ((b.entries ++ es).map Prod.fst).Nodup) :
    (b.insertAll es).entries = b.entries ++ es := by
  induction es generalizing b with
  | nil => exact (List.append_nil _).symm
  | cons p es ih =>
    have hnew : p.1 ∉ b.names := by
      rw [List.map_append, List.map_cons] at h
      exact fun hp => (List.nodup_append.1 h).2.2 _ hp _ List.mem_cons_self rfl
    have hentries := entries_insert_of_not_mem hnew p.2
    have hsame : (b.insert p.1 p.2).entries ++ es = b.entries ++ p :: es := by
      rw [hentries, List.append_assoc, List.singleton_append]
    rw [← hsame] at h ⊢
    exact ih h

theorem empty_insertAll (b : Bindings α) : empty.insertAll b.entries = b :=
  ext (entries_insertAll (b := empty) b.nodup)

end Bindings

namespace Scope

variable {α : Type} {s : Scope α} {n : String} {x : α} {e : Refusal} {default? : Option α}
  {before es : List (String × α)} {b : Bindings α}

/-- Among the names to bind a constant comes behind others that are none. -/
def FirstConstant (s : Scope α) (es before : List (String × α)) (n : String) : Prop :=
  (∀ p ∈ before, s.isConstant p.1 = false) ∧ s.isConstant n = true ∧
    ∃ x after, es = before ++ (n, x) :: after

/-- The commands that a scope refuses, and why. -/
inductive Refuses (s : Scope α) : Command α → Refusal → Prop
  | set {n : String} {x : α} (hn : s.isConstant n = true) : Refuses s (.set n x) (.constant n)
  | put {n : String} {x : α} (hn : s.isConstant n = true) : Refuses s (.put n x) (.constant n)
  | remove {n : String} (hn : s.hasVariable n = false) : Refuses s (.remove n) (.missing n)
  | read {n : String} (hn : s.contains n = false) : Refuses s (.read n) (.missing n)
  /-- A default does not help where a constant is found. -/
  | takeConstant {n : String} {default? : Option α} (hn : s.isConstant n = true)
    (hvariable : s.hasVariable n = false) : Refuses s (.take n default?) (.missing n)
  | takeMissing {n : String} (hn : s.contains n = false) : Refuses s (.take n none) (.missing n)
  | takeFirstConstant {n : String} {ns : List String} (hvars : s.vars.names = [])
    (hconstants : s.constants.names = n :: ns) : Refuses s .takeFirst (.missing n)
  | takeFirstEmpty (hvars : s.vars.names = []) (hconstants : s.constants.names = []) :
    Refuses s .takeFirst .empty
  | update {es before : List (String × α)} {n : String} (h : s.FirstConstant es before n) :
    Refuses s (.update es) (.constant n)

/-! ## Operations -/

theorem find?_eq_none_iff :
    s.find? n = none ↔ s.hasVariable n = false ∧ s.isConstant n = false := by
  rw [← Option.isNone_iff_eq_none, ← Option.not_isSome, find?_isSome, Bool.not_eq_true']
  exact Bool.or_eq_false_iff

theorem set_of_isConstant (hn : s.isConstant n = true) (x : α) :
    s.set n x = .error (.constant n) := by
  rw [set, if_pos hn]

theorem set_of_not_isConstant (hn : s.isConstant n = false) (x : α) :
    s.set n x = .ok { s with vars := s.vars.insert n x } := by
  rw [set, hn, if_neg Bool.false_ne_true]

theorem set_eq_error_iff : s.set n x = .error e ↔ s.isConstant n = true ∧ e = .constant n := by
  unfold set
  cases s.isConstant n <;> simp [eq_comm]

theorem remove_eq_error_iff :
    s.remove n = .error e ↔ s.hasVariable n = false ∧ e = .missing n := by
  unfold remove
  cases s.hasVariable n <;> simp [eq_comm]

theorem read_eq_error_iff : s.read n = .error e ↔ s.contains n = false ∧ e = .missing n := by
  rw [read, ← find?_isSome]
  cases s.find? n <;> simp [eq_comm]

theorem take_eq_error_iff :
    s.take n default? = .error e ↔
      ((s.isConstant n = true ∧ s.hasVariable n = false) ∨
        (s.contains n = false ∧ default? = none)) ∧ e = .missing n := by
  have hcontains : s.contains n = (s.hasVariable n || s.isConstant n) := rfl
  unfold take
  cases hfind : s.find? n with
  | some y =>
    have hfound := find?_isSome s n
    rw [hfind, Option.isSome_some, hcontains] at hfound
    rw [Result.map_eq_error_iff, remove_eq_error_iff, hcontains, ← hfound]
    revert hfound
    cases s.hasVariable n <;> cases s.isConstant n <;> simp
  | none =>
    obtain ⟨hvariable, hconstant⟩ := find?_eq_none_iff.1 hfind
    rw [hcontains, hvariable, hconstant]
    cases default? with
    | some y => simp
    | none => simpa using eq_comm

theorem takeFirst_of_variable {rest : List (String × α)} (h : s.vars.entries = (n, x) :: rest) :
    s.takeFirst = .ok ((n, x), s.delete n) := by
  have hnames : s.names = n :: (rest.map Prod.fst ++ s.visibleConstants) := by
    rw [names, Bindings.names, h]
    rfl
  have hvariable : s.hasVariable n = true := by
    rw [hasVariable, Bindings.contains, Bindings.names, h]
    simp
  have hread : s.find? n = some x := by
    rw [find?, Bindings.find?, h]
    simp
  simp [takeFirst, hnames, take, hread, remove, hvariable, Except.map]

/-- Without variables a constant is found first, which cannot be removed. -/
theorem takeFirst_of_no_variable (h : s.vars.names = []) :
    s.takeFirst = .error (s.constants.names.head?.elim .empty .missing) := by
  have hvariable (n : String) : s.vars.contains n = false := by
    rw [Bindings.contains, h, List.contains_nil]
  have hnames : s.names = s.constants.names := by simp [names, visibleConstants, h, hvariable]
  rw [takeFirst, hnames]
  cases hconstants : s.constants.names with
  | nil => rfl
  | cons n ns =>
    have hn : s.isConstant n = true := by simp [isConstant, Bindings.contains, hconstants]
    exact Result.map_eq_error_iff.2
      (take_eq_error_iff.2 ⟨.inl ⟨hn, hvariable n⟩, rfl⟩)

theorem entries_delete_first {rest : List (String × α)} (h : s.vars.entries = (n, x) :: rest) :
    (s.delete n).vars.entries = rest := by
  have hnodup := s.vars.nodup
  rw [h, List.map_cons, List.nodup_cons] at hnodup
  have hrest : ∀ p ∈ rest, p.1 ≠ n := by
    rintro p hp rfl
    exact hnodup.1 (List.mem_map.2 ⟨p, hp, rfl⟩)
  simpa [delete, Bindings.erase, h] using hrest

theorem getOrSet_of_some {y : α} (h : s.find? n = some y) (x : α) :
    s.getOrSet n x = .ok (y, s) := by
  simp [getOrSet, h]

theorem getOrSet_of_none (h : s.find? n = none) (x : α) :
    s.getOrSet n x = .ok (x, { s with vars := s.vars.insert n x }) := by
  simp [getOrSet, h, set_of_not_isConstant (find?_eq_none_iff.1 h).2, Except.map]

/-! ## Bindings in order -/

theorem setAll_of_not_isConstant (h : ∀ p ∈ es, s.isConstant p.1 = false) :
    s.setAll es = (none, { s with vars := s.vars.insertAll es }) := by
  induction es generalizing s with
  | nil => rfl
  | cons p es ih =>
    obtain ⟨hp, hes⟩ := List.forall_mem_cons.1 h
    rw [setAll, set_of_not_isConstant hp]
    exact ih hes

theorem setAll_of_firstConstant (h : s.FirstConstant es before n) :
    s.setAll es = (some (.constant n), { s with vars := s.vars.insertAll before }) := by
  obtain ⟨hbefore, hn, x, after, rfl⟩ := h
  induction before generalizing s with
  | nil =>
    rw [List.nil_append, setAll, set_of_isConstant hn]
    rfl
  | cons p before ih =>
    obtain ⟨hp, hbefore⟩ := List.forall_mem_cons.1 hbefore
    rw [List.cons_append, setAll, set_of_not_isConstant hp]
    exact ih hbefore hn

theorem firstConstant_cases (s : Scope α) (es : List (String × α)) :
    (∀ p ∈ es, s.isConstant p.1 = false) ∨ ∃ before n, s.FirstConstant es before n := by
  cases hfirst : es.find? fun p => s.isConstant p.1 with
  | none => exact .inl (by simpa using hfirst)
  | some p =>
    obtain ⟨hp, before, after, rfl, hbefore⟩ := List.find?_eq_some_iff_append.1 hfirst
    exact .inr ⟨before, p.1, by simpa using hbefore, hp, p.2, after, rfl⟩

theorem setAll_eq_error_iff :
    (s.setAll es).1 = some e ↔ ∃ before n, s.FirstConstant es before n ∧ e = .constant n := by
  constructor
  · intro h
    rcases s.firstConstant_cases es with hall | ⟨before, n, hfirst⟩
    · rw [setAll_of_not_isConstant hall] at h
      cases h
    · rw [setAll_of_firstConstant hfirst] at h
      cases h
      exact ⟨before, n, hfirst, rfl⟩
  · rintro ⟨before, n, hfirst, rfl⟩
    rw [setAll_of_firstConstant hfirst]

theorem withVariables_of_not_isConstant (h : ∀ p ∈ b.entries, s.isConstant p.1 = false) :
    s.withVariables b = .ok { s with vars := b } := by
  have hclear : ∀ p ∈ b.entries, s.clear.isConstant p.1 = false := h
  rw [withVariables, setAll_of_not_isConstant hclear]
  simp only [clear, Bindings.empty_insertAll]

theorem withVariables_of_firstConstant (h : s.FirstConstant b.entries before n) :
    s.withVariables b = .error (.constant n) := by
  have hclear : s.clear.FirstConstant b.entries before n := h
  rw [withVariables, setAll_of_firstConstant hclear]

/-! ## Commands -/

theorem written_eq_error_iff {reply : Reply α} {r : Except Refusal (Scope α)} :
    (s.written reply r).1 = .error e ↔ r = .error e := by
  cases r <;> simp [written]

theorem taken_eq_error_iff {γ : Type} {reply : γ → Reply α} {r : Except Refusal (γ × Scope α)} :
    (s.taken reply r).1 = .error e ↔ r = .error e := by
  rcases r with e' | ⟨a, t⟩ <;> simp [taken]

theorem run_takeFirst_eq_error_iff :
    (s.run .takeFirst).1 = .error e ↔ s.Refuses .takeFirst e := by
  rw [run, taken_eq_error_iff]
  cases hvars : s.vars.entries with
  | nil =>
    have hnames : s.vars.names = [] := by rw [Bindings.names, hvars, List.map_nil]
    rw [takeFirst_of_no_variable hnames, Except.error.injEq]
    constructor
    · rintro rfl
      cases hconstants : s.constants.names with
      | nil => exact .takeFirstEmpty hnames hconstants
      | cons n ns => exact .takeFirstConstant hnames hconstants
    · rintro (_ | _) <;> simp_all
  | cons p rest =>
    rw [takeFirst_of_variable hvars]
    have hnames : s.vars.names ≠ [] := by simp [Bindings.names, hvars]
    constructor
    · intro h
      cases h
    · rintro (_ | _) <;> contradiction

theorem run_update_eq_error_iff :
    (s.run (.update es)).1 = .error e ↔ s.Refuses (.update es) e := by
  have hreply : (s.run (.update es)).1 = .error e ↔ (s.setAll es).1 = some e := by
    rw [run]
    rcases s.setAll es with ⟨_ | _, _⟩ <;> simp [updated]
  rw [hreply, setAll_eq_error_iff]
  constructor
  · rintro ⟨before, n, hfirst, rfl⟩
    exact .update hfirst
  · intro h
    cases h with
    | update hfirst => exact ⟨_, _, hfirst, rfl⟩

/-- A command is refused exactly where `Refuses` says so, and for this reason. -/
theorem run_eq_error_iff {c : Command α} : (s.run c).1 = .error e ↔ s.Refuses c e := by
  cases c with
  | set n x =>
    rw [run, written_eq_error_iff, set_eq_error_iff]
    constructor
    · rintro ⟨hn, rfl⟩
      exact .set hn
    · intro h
      cases h with
      | set hn => exact ⟨hn, rfl⟩
  | put n x =>
    rw [run, written_eq_error_iff, set_eq_error_iff]
    constructor
    · rintro ⟨hn, rfl⟩
      exact .put hn
    · intro h
      cases h with
      | put hn => exact ⟨hn, rfl⟩
  | remove n =>
    rw [run, written_eq_error_iff, remove_eq_error_iff]
    constructor
    · rintro ⟨hn, rfl⟩
      exact .remove hn
    · intro h
      cases h with
      | remove hn => exact ⟨hn, rfl⟩
  | read n =>
    rw [run, Result.map_eq_error_iff, read_eq_error_iff]
    constructor
    · rintro ⟨hn, rfl⟩
      exact .read hn
    · intro h
      cases h with
      | read hn => exact ⟨hn, rfl⟩
  | take n default? =>
    rw [run, taken_eq_error_iff, take_eq_error_iff]
    constructor
    · rintro ⟨⟨hn, hvariable⟩ | ⟨hn, rfl⟩, rfl⟩
      · exact .takeConstant hn hvariable
      · exact .takeMissing hn
    · rintro (_ | _) <;> simp_all
  | takeFirst => exact run_takeFirst_eq_error_iff
  | getOrSet n x =>
    refine ⟨fun h => ?_, nofun⟩
    rw [run, taken_eq_error_iff] at h
    cases hfind : s.find? n with
    | none =>
      rw [getOrSet_of_none hfind] at h
      cases h
    | some y =>
      rw [getOrSet_of_some hfind] at h
      cases h
  | update es => exact run_update_eq_error_iff
  | _ => exact ⟨nofun, nofun⟩

theorem written_snd_of_error {reply : Reply α} {r : Except Refusal (Scope α)}
    (h : (s.written reply r).1 = .error e) : (s.written reply r).2 = s := by
  rw [written_eq_error_iff.1 h, written]

theorem taken_snd_of_error {γ : Type} {reply : γ → Reply α} {r : Except Refusal (γ × Scope α)}
    (h : (s.taken reply r).1 = .error e) : (s.taken reply r).2 = s := by
  rw [taken_eq_error_iff.1 h, taken]

theorem run_snd_of_error {c : Command α} (h : (s.run c).1 = .error e)
    (hc : ∀ es, c ≠ .update es) : (s.run c).2 = s := by
  cases c with
  | set | put | remove => exact written_snd_of_error h
  | take | takeFirst | getOrSet => exact taken_snd_of_error h
  | read => rfl
  | update es => exact absurd rfl (hc es)
  | _ => cases h

/--
What is refused is refused for a reason that the scope shows beforehand. Then variables and
constants are as before, or hold in addition the bindings that precede the first constant. Of the
readable names the first variable is taken first, and a name can always be read or else bound.
-/
theorem refusals_leave_intact (s : Scope α) :
    (∀ c e, (s.run c).1 = .error e ↔ s.Refuses c e) ∧
      (∀ c e, s.Refuses c e → (∀ es, c ≠ .update es) → (s.run c).2 = s) ∧
      (∀ es before n, s.FirstConstant es before n → s.run (.update es) =
        (.error (.constant n), { s with vars := s.vars.insertAll before })) ∧
      (∀ n x rest, s.vars.entries = (n, x) :: rest →
        ∃ t, s.run .takeFirst = (.ok (.entry (n, x)), t) ∧ t.vars.entries = rest ∧
          t.constants = s.constants) ∧
      ∀ n x, s.run (.getOrSet n x) =
        match s.find? n with
        | some y => (.ok (.value y), s)
        | none => (.ok (.value x), { s with vars := s.vars.insert n x }) := by
  refine ⟨fun c e => run_eq_error_iff, fun c e h hc => ?_, fun es before n h => ?_,
    fun n x rest h => ?_, fun n x => ?_⟩
  · exact run_snd_of_error (run_eq_error_iff.2 h) hc
  · rw [run, setAll_of_firstConstant h, updated]
  · refine ⟨s.delete n, ?_, entries_delete_first h, rfl⟩
    rw [run, takeFirst_of_variable h, taken]
  · cases hfind : s.find? n with
    | none => rw [run, getOrSet_of_none hfind, taken]
    | some y => rw [run, getOrSet_of_some hfind, taken]

/-- The name `k` is a variable and a constant, `c` a constant alone. -/
def shadowing : Scope Float where
  vars := (Bindings.empty.insert "a" 1).insert "k" 2
  constants := (Bindings.empty.insert "k" 3).insert "c" 4

theorem refusals_leave_intact_shadowing :
    (shadowing.run (.take "c" (some 0))).1 = .error (.missing "c") ∧
      (shadowing.run (.take "c" (some 0))).2 = shadowing ∧
      shadowing.run (.update [("b", 5), ("c", 6), ("d", 7)]) =
        (.error (.constant "c"), { shadowing with vars := shadowing.vars.insertAll [("b", 5)] }) ∧
      ∃ t, shadowing.run .takeFirst = (.ok (.entry ("a", 1)), t) ∧ t.vars.entries = [("k", 2)] := by
  obtain ⟨hiff, hsame, hupdate, hfirst, _⟩ := refusals_leave_intact shadowing
  have hconstant : shadowing.isConstant "c" = true := by decide
  have hrefused : shadowing.Refuses (.take "c" (some 0)) (.missing "c") :=
    .takeConstant hconstant (by decide)
  have hblocked : shadowing.FirstConstant [("b", 5), ("c", 6), ("d", 7)] [("b", 5)] "c" :=
    ⟨List.forall_mem_singleton.2 (by decide), hconstant, 6, [("d", 7)], rfl⟩
  obtain ⟨t, ht, hentries, _⟩ := hfirst "a" 1 [("k", 2)] rfl
  exact ⟨(hiff _ _).2 hrefused, hsame _ _ hrefused nofun, hupdate _ _ _ hblocked, t, ht, hentries⟩

end Scope

end Calculator
