import Calculator.Proofs.Constants
import Calculator.Proofs.Refusals
import Calculator.Tables
import Mathlib.Data.List.Basic
import Mathlib.Data.List.Induction
import Mathlib.Data.List.TakeWhile

/-!
# What can be seen of a scope

The names of a scope, their number, whether a name is there and what it reads as are all found in
variables and constants, each in a way of its own. `ViewsAgree` says that they tell the same.

Whatever a command does comes down to a few writes of one name each (`run_snd`), and so a run has a
record of writes. `boundSince` follows a single name through a record, and the variables stand in
the order that it gives. They stay apart from the constants where they are, since no command lets a
constant become a variable (`views_agree`).
-/

namespace Calculator.Scope

variable {α : Type} {s : Scope α} {n : String}

/-! ## Writes -/

inductive Write (α : Type) where
  | bind (name : String) (x : α)
  | unbind (name : String)
  | define (name : String) (x : α)
  | clear

def apply (s : Scope α) : Write α → Scope α
  | .bind n x => { s with vars := s.vars.insert n x }
  | .unbind n => s.delete n
  | .define n x => s.define n x
  | .clear => s.clear

def binds (es : List (String × α)) : List (Write α) := es.map fun e => .bind e.1 e.2

/-- What a command writes. To unbind what is no variable changes nothing. -/
def writes (s : Scope α) : Command α → List (Write α)
  | .set n x | .put n x => if s.isConstant n then [] else [.bind n x]
  | .delete n | .remove n | .take n _ => [.unbind n]
  | .define n x => [.define n x]
  | .clear => [.clear]
  | .takeFirst => (s.vars.names.head?.map .unbind).toList
  | .getOrSet n x => if s.contains n then [] else [.bind n x]
  | .update es => binds (es.takeWhile fun e => !s.isConstant e.1)
  | .read _ | .get _ _ | .has _ | .contains _ | .isConstant _ | .names | .items | .size => []

theorem delete_of_not_hasVariable (h : s.hasVariable n = false) : s.delete n = s := by
  have hne : ∀ e ∈ s.vars.entries, e.1 ≠ n := by
    rintro e he rfl
    have hmem : e.1 ∈ s.vars.names := List.mem_map.2 ⟨e, he, rfl⟩
    rw [Bindings.mem_names, ← hasVariable, h] at hmem
    cases hmem
  have hvars : s.vars.erase n = s.vars := by
    apply Bindings.ext
    rw [Bindings.erase, List.filter_eq_self]
    simpa using hne
  rw [delete, hvars]

theorem foldl_binds (s : Scope α) (es : List (String × α)) :
    (binds es).foldl apply s = { s with vars := s.vars.insertAll es } := by
  induction es generalizing s with
  | nil => rfl
  | cons e es ih => exact ih _

theorem remove_snd (s : Scope α) (n : String) (reply : Reply α) :
    (s.written reply (s.remove n)).2 = s.delete n := by
  unfold remove
  cases h : s.hasVariable n with
  | false => exact (delete_of_not_hasVariable h).symm
  | true => rfl

theorem take_snd (s : Scope α) (n : String) (default? : Option α) :
    (s.taken .value (s.take n default?)).2 = s.delete n := by
  unfold take
  cases hfind : s.find? n with
  | some y =>
    unfold remove
    cases h : s.hasVariable n with
    | false => exact (delete_of_not_hasVariable h).symm
    | true => rfl
  | none =>
    rw [delete_of_not_hasVariable (find?_eq_none_iff.1 hfind).1]
    cases default? <;> rfl

theorem takeFirst_snd (s : Scope α) :
    (s.taken .entry s.takeFirst).2 = (s.writes .takeFirst).foldl apply s := by
  cases hvars : s.vars.entries with
  | nil =>
    have hnames : s.vars.names = [] := by rw [Bindings.names, hvars, List.map_nil]
    rw [takeFirst_of_no_variable hnames, writes, hnames]
    rfl
  | cons e rest =>
    have hnames : s.vars.names = e.1 :: rest.map Prod.fst := by
      rw [Bindings.names, hvars, List.map_cons]
    rw [takeFirst_of_variable hvars, writes, hnames]
    rfl

theorem getOrSet_snd (s : Scope α) (n : String) (x : α) :
    (s.taken .value (s.getOrSet n x)).2 = (s.writes (.getOrSet n x)).foldl apply s := by
  rw [writes, ← find?_isSome]
  cases hfind : s.find? n with
  | none =>
    rw [getOrSet_of_none hfind]
    rfl
  | some y =>
    rw [getOrSet_of_some hfind]
    rfl

theorem setAll_snd (s : Scope α) (es : List (String × α)) :
    (s.setAll es).2 = (s.writes (.update es)).foldl apply s := by
  rw [writes, foldl_binds]
  rcases s.firstConstant_cases es with hall | ⟨before, n, hfirst⟩
  · rw [setAll_of_not_isConstant hall, List.takeWhile_eq_self_iff.2 (by simpa using hall)]
  · rw [setAll_of_firstConstant hfirst]
    obtain ⟨hbefore, hn, x, after, rfl⟩ := hfirst
    rw [List.takeWhile_append_of_pos (by simpa using hbefore),
      List.takeWhile_cons_of_neg (by simp [hn]), List.append_nil]

/-- A command does what it writes. -/
theorem run_snd (s : Scope α) (c : Command α) : (s.run c).2 = (s.writes c).foldl apply s := by
  have ofSet (n : String) (x : α) (reply : Reply α) : (s.written reply (s.set n x)).2 =
      (if s.isConstant n then [] else [.bind n x] : List (Write α)).foldl apply s := by
    unfold set
    cases s.isConstant n <;> rfl
  cases c with
  | set n x | put n x => exact ofSet n x _
  | remove n => exact s.remove_snd n .nothing
  | take n default? => exact s.take_snd n default?
  | takeFirst => exact s.takeFirst_snd
  | getOrSet n x => exact s.getOrSet_snd n x
  | update es =>
    rw [run, updated_snd]
    exact s.setAll_snd es
  | _ => rfl

/-! ## Runs -/

def after (s : Scope α) (cs : List (Command α)) : Scope α := cs.foldl (fun s c => (s.run c).2) s

def allWrites (s : Scope α) : List (Command α) → List (Write α)
  | [] => []
  | c :: cs => s.writes c ++ (s.run c).2.allWrites cs

/-- How a scope came about: the variables that it was made with, and all that was written then. -/
def record (s : Scope α) (cs : List (Command α)) : List (Write α) :=
  binds s.vars.entries ++ s.allWrites cs

theorem foldl_allWrites (s : Scope α) (cs : List (Command α)) :
    (s.allWrites cs).foldl apply s = s.after cs := by
  induction cs generalizing s with
  | nil => rfl
  | cons c cs ih =>
    rw [allWrites, List.foldl_append, ← run_snd, ih]
    rfl

theorem foldl_record (s : Scope α) (cs : List (Command α)) :
    (s.record cs).foldl apply s.clear = s.after cs := by
  have hstart : (binds s.vars.entries).foldl apply s.clear = s := by
    rw [foldl_binds]
    simp only [clear, Bindings.empty_insertAll]
  rw [record, List.foldl_append, hstart, foldl_allWrites]

/-! ## Order -/

/-- What a write with its index makes of the start of a name: overwriting is no new start. -/
def Write.start (n : String) (since : Option Nat) : Write α × Nat → Option Nat
  | (.bind m _, i) => if m = n then since.or (some i) else since
  | (.unbind m, _) | (.define m _, _) => if m = n then none else since
  | (.clear, _) => none

/-- The write since which a name is bound without interruption, if it is. -/
def boundSince (n : String) (ws : List (Write α)) : Option Nat :=
  ws.zipIdx.foldl (Write.start n) none

/-- One name has been bound for longer than another. -/
def Precedes (ws : List (Write α)) (m n : String) : Prop :=
  ∃ i j, boundSince m ws = some i ∧ boundSince n ws = some j ∧ i < j

theorem boundSince_snoc (n : String) (ws : List (Write α)) (w : Write α) :
    boundSince n (ws ++ [w]) = Write.start n (boundSince n ws) (w, ws.length) := by
  rw [boundSince, List.zipIdx_append, List.foldl_append, boundSince]
  simp

/-- The variables are the names that are bound, in the order in which they have been. -/
structure Ordered (ws : List (Write α)) (b : Bindings α) : Prop where
  mem_names (n : String) : n ∈ b.names ↔ (boundSince n ws).isSome = true
  lt_length {n : String} {i : Nat} (h : boundSince n ws = some i) : i < ws.length
  pairwise : b.names.Pairwise (Precedes ws)

namespace Ordered

variable {ws : List (Write α)} {b : Bindings α}

theorem pairwise_of_kept (h : Ordered ws b) {ws' : List (Write α)} {names : List String}
    (hnames : names.Sublist b.names)
    (hkept : ∀ m ∈ names, boundSince m ws' = boundSince m ws) : names.Pairwise (Precedes ws') := by
  refine (h.pairwise.sublist hnames).imp_of_mem fun {m n} hm hn hprecedes => ?_
  rw [Precedes, hkept m hm, hkept n hn]
  exact hprecedes

theorem bind (h : Ordered ws b) (n : String) (x : α) :
    Ordered (ws ++ [.bind n x]) (b.insert n x) := by
  have hstart (m : String) : boundSince m (ws ++ [.bind n x]) =
      if n = m then (boundSince m ws).or (some ws.length) else boundSince m ws :=
    boundSince_snoc m ws _
  have hkept : ∀ m ∈ b.names, boundSince m (ws ++ [.bind n x]) = boundSince m ws := by
    intro m hm
    obtain ⟨i, hi⟩ := Option.isSome_iff_exists.1 ((h.mem_names m).1 hm)
    rw [hstart, hi, Option.some_or, ite_self]
  refine ⟨fun m => ?_, fun {m i} hi => ?_, ?_⟩
  · rw [Bindings.mem_names, Bindings.contains_insert, Bool.or_eq_true, beq_iff_eq,
      ← Bindings.mem_names, h.mem_names, hstart]
    by_cases hm : n = m
    · simp [hm]
    · have hm' : m ≠ n := fun e => hm e.symm
      simp [hm, hm']
  · rw [List.length_append, List.length_singleton]
    rw [hstart] at hi
    split at hi
    · rcases Option.or_eq_some_iff.1 hi with hi | ⟨_, hi⟩
      · exact Nat.lt_succ_of_lt (h.lt_length hi)
      · cases hi
        omega
    · exact Nat.lt_succ_of_lt (h.lt_length hi)
  · rw [Bindings.names_insert]
    split
    · exact h.pairwise_of_kept (List.Sublist.refl _) hkept
    · next hnew =>
      have hnone : boundSince n ws = none := by
        rw [← Option.not_isSome_iff_eq_none, ← h.mem_names]
        exact hnew
      refine List.pairwise_append.2 ⟨h.pairwise_of_kept (List.Sublist.refl _) hkept,
        List.pairwise_singleton _ _, fun m hm k hk => ?_⟩
      obtain rfl := List.mem_singleton.1 hk
      obtain ⟨i, hi⟩ := Option.isSome_iff_exists.1 ((h.mem_names m).1 hm)
      refine ⟨i, ws.length, (hkept m hm).trans hi, ?_, h.lt_length hi⟩
      rw [hstart, if_pos rfl, hnone, Option.none_or]

theorem unbind (h : Ordered ws b) {w : Write α}
    (hw : ∀ m t i, Write.start m t (w, i) = if n = m then none else t) :
    Ordered (ws ++ [w]) (b.erase n) := by
  have hstart (m : String) :
      boundSince m (ws ++ [w]) = if n = m then none else boundSince m ws :=
    (boundSince_snoc m ws w).trans (hw m _ _)
  have hmem (m : String) : m ∈ (b.erase n).names ↔ m ≠ n ∧ m ∈ b.names := by
    rw [Bindings.names_erase, List.mem_filter, decide_eq_true_eq, and_comm]
  refine ⟨fun m => ?_, fun {m i} hi => ?_, ?_⟩
  · rw [hmem, h.mem_names, hstart]
    by_cases hm : n = m
    · simp [hm]
    · have hm' : m ≠ n := fun e => hm e.symm
      simp [hm, hm']
  · rw [hstart] at hi
    rw [List.length_append, List.length_singleton]
    split at hi
    · cases hi
    · exact Nat.lt_succ_of_lt (h.lt_length hi)
  · refine h.pairwise_of_kept ?_ fun m hm => ?_
    · rw [Bindings.names_erase]
      exact List.filter_sublist
    · rw [hstart, if_neg fun e => ((hmem m).1 hm).1 e.symm]

theorem clear (ws : List (Write α)) : Ordered (ws ++ [.clear]) (.empty : Bindings α) := by
  have hstart (m : String) : boundSince m (ws ++ [.clear]) = none := boundSince_snoc m ws _
  refine ⟨fun m => ?_, fun {m i} hi => ?_, .nil⟩
  · rw [hstart]
    exact ⟨nofun, nofun⟩
  · rw [hstart] at hi
    cases hi

theorem apply (h : Ordered ws s.vars) (w : Write α) : Ordered (ws ++ [w]) (s.apply w).vars := by
  cases w with
  | bind n x => exact h.bind n x
  | unbind n => exact h.unbind fun _ _ _ => rfl
  | define n x => exact h.unbind fun _ _ _ => rfl
  | clear => exact .clear ws

theorem foldl (ws : List (Write α)) (s : Scope α) :
    Ordered ws (ws.foldl Scope.apply s.clear).vars := by
  induction ws using List.reverseRecOn with
  | nil => exact ⟨fun _ => ⟨nofun, nofun⟩, nofun, .nil⟩
  | append_singleton ws w ih =>
    rw [List.foldl_append]
    exact ih.apply w

end Ordered

/-! ## Views -/

/-- All views of a scope tell the same. -/
structure ViewsAgree (s : Scope α) : Prop where
  names_nodup : s.names.Nodup
  names_eq : s.names = s.vars.names ++ s.constants.names.filter fun n => !s.hasVariable n
  size_eq : s.size = s.names.length
  contains_iff (n : String) : s.contains n = true ↔ n ∈ s.names
  read_iff (n : String) : (∃ x, s.read n = .ok x) ↔ n ∈ s.names
  names_items : s.items.map Prod.fst = s.names
  read_item (e : String × α) (he : e ∈ s.items) : s.read e.1 = .ok e.2

theorem mem_names_iff (s : Scope α) (n : String) : n ∈ s.names ↔ s.contains n = true := by
  rw [names, visibleConstants, List.mem_append, List.mem_filter, Bindings.mem_names,
    Bindings.mem_names, contains]
  cases s.vars.contains n <;> simp

theorem read_eq_ok_iff {x : α} : s.read n = .ok x ↔ s.find? n = some x := by
  unfold read
  cases s.find? n <;> simp

theorem viewsAgree (s : Scope α) : s.ViewsAgree where
  names_nodup := by
    refine List.nodup_append.2 ⟨s.vars.nodup, s.constants.nodup.sublist List.filter_sublist, ?_⟩
    rintro n hn m hm rfl
    have hvisible := (List.mem_filter.1 hm).2
    rw [Bindings.mem_names.1 hn] at hvisible
    cases hvisible
  names_eq := rfl
  size_eq := s.size_eq_length_names
  contains_iff n := (s.mem_names_iff n).symm
  read_iff n := by
    rw [mem_names_iff, ← find?_isSome, Option.isSome_iff_exists]
    simp only [read_eq_ok_iff]
  names_items := by
    have hitem : ∀ n ∈ s.names, ((s.find? n).map fun x => (n, x)).map Prod.fst = some n := by
      intro n hn
      rw [mem_names_iff, ← find?_isSome] at hn
      obtain ⟨x, hx⟩ := Option.isSome_iff_exists.1 hn
      rw [hx, Option.map_some, Option.map_some]
    rw [items, List.map_filterMap, List.filterMap_congr hitem, List.filterMap_some]
  read_item e he := read_eq_ok_iff.2 (find?_of_mem_items he)

/-- The name is a variable and a constant. -/
def Shadows (s : Scope α) (n : String) : Prop := s.hasVariable n = true ∧ s.isConstant n = true

theorem KeepsConstants.shadows {t : Scope α} (h : s.KeepsConstants t) (hn : t.Shadows n) :
    s.Shadows n := by
  have hconstant : s.isConstant n = true := (h.isConstant n).symm.trans hn.2
  exact ⟨h.variable_of n hconstant hn.1, hconstant⟩

theorem shadows_run {c : Command α} (hn : (s.run c).2.Shadows n) : s.Shadows n := by
  cases c with
  | define m x =>
    obtain ⟨hvariable, hconstant⟩ := hn
    rw [hasVariable, run, define, Bindings.contains_erase, Bool.and_eq_true, bne_iff_ne]
      at hvariable
    rw [isConstant, run, define, Bindings.contains_insert, Bool.or_eq_true, beq_iff_eq]
      at hconstant
    exact ⟨hvariable.2, hconstant.resolve_left hvariable.1⟩
  | _ => exact (keepsConstants_run id).shadows hn

theorem shadows_after {cs : List (Command α)} (hn : (s.after cs).Shadows n) : s.Shadows n := by
  induction cs generalizing s with
  | nil => exact hn
  | cons c cs ih => exact shadows_run (ih hn)

/--
After any commands the views of a scope agree: first stand the variables, each where it was bound,
and then the constants that none of them hides. No name becomes both, and a copy is answered like
the scope that it was made of.
-/
theorem views_agree (s : Scope α) (cs ds : List (Command α)) :
    (s.after cs).ViewsAgree ∧ Ordered (s.record cs) (s.after cs).vars ∧
      (∀ n, (s.after (cs ++ ds)).Shadows n → (s.after cs).Shadows n) ∧
      ∀ (t : Tables) (name target : String) (u : Scope Given), t.scope? name = some u →
        let v := (t.run (.copy name target)).2
        v.scope? target = some u ∧
          (∀ c, (v.run (.scope target c)).1 = (v.run (.scope name c)).1) ∧
          (v.run (.compare name target)).1 = .flag true := by
  refine ⟨viewsAgree _, ?_, fun n hn => ?_, fun t name target u hu => ?_⟩
  · rw [← foldl_record]
    exact .foldl _ s
  · have happend : s.after (cs ++ ds) = (s.after cs).after ds := List.foldl_append
    exact shadows_after (happend ▸ hn)
  · intro v
    have htarget : v.scope? target = some u := by simp [v, Tables.run, hu, Tables.put]
    have hname : v.scope? name = some u := by
      simp only [v, Tables.run, hu, Tables.put]
      split <;> rfl
    refine ⟨htarget, fun c => ?_, Tables.compare_copy hu⟩
    have htarget' : (v.after 1).scope? target = some u := htarget
    have hname' : (v.after 1).scope? name = some u := hname
    simp only [Tables.run, Tables.runScope, htarget', hname']

/-- A variable is overwritten, removed and bound again. -/
def rebound : List (Command Float) := [.put "a" 9, .delete "a", .put "b" 5, .put "a" 6]

/-- A table that is made of `shadowing`. -/
def shadowingTable : Tables := (({} : Tables).run (.add "t" shadowing)).2

theorem views_agree_rebound :
    (shadowing.after rebound).names = ["k", "b", "a", "c"] ∧
      (shadowing.after rebound).size = 4 ∧
      Precedes (shadowing.record rebound) "b" "a" ∧
      (shadowing.after (rebound ++ [.put "d" 1])).Shadows "k" ∧
      (shadowing.after rebound).Shadows "k" ∧
      (shadowingTable.scope? "t").isSome = true ∧
      ((shadowingTable.run (.copy "t" "u")).2.run (.compare "t" "u")).1 = .flag true := by
  obtain ⟨hviews, hordered, hshadows, hcopies⟩ := views_agree shadowing rebound [.put "d" 1]
  have hnames : (shadowing.after rebound).names = ["k", "b", "a", "c"] := by decide
  have hvars : (shadowing.after rebound).vars.names = ["k", "b", "a"] := by decide
  have hpairwise := hordered.pairwise
  rw [hvars] at hpairwise
  have htail := (List.pairwise_cons.1 hpairwise).2
  have hlater : (shadowing.after (rebound ++ [.put "d" 1])).Shadows "k" := ⟨by decide, by decide⟩
  obtain ⟨u, hu⟩ : ∃ u, shadowingTable.scope? "t" = some u := ⟨_, rfl⟩
  refine ⟨hnames, ?_, (List.pairwise_cons.1 htail).1 "a" List.mem_cons_self, hlater,
    hshadows "k" hlater, Option.isSome_iff_exists.2 ⟨u, hu⟩, (hcopies _ "t" "u" u hu).2.2⟩
  rw [hviews.size_eq, hnames]
  rfl

end Calculator.Scope
