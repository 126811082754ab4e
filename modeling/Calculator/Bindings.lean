/-!
# Bindings of names to values

`Bindings` keeps names with their values in the order in which the names were
first bound. Binding a name again keeps its place; erasing it and binding it
anew moves it to the end. No name occurs twice. `map` changes the values alone.
-/

namespace Calculator

structure Bindings (α : Type) where
  entries : List (String × α)
  nodup : (entries.map Prod.fst).Nodup

namespace Bindings

variable {α β : Type}

def empty : Bindings α := ⟨[], List.nodup_nil⟩

def names (b : Bindings α) : List String := b.entries.map Prod.fst

def size (b : Bindings α) : Nat := b.entries.length

def find? (b : Bindings α) (name : String) : Option α := b.entries.lookup name

def contains (b : Bindings α) (name : String) : Bool := b.names.contains name

def replaceIn (name : String) (x : α) (entries : List (String × α)) :
    List (String × α) :=
  entries.map fun e => if e.1 = name then (name, x) else e

theorem map_fst_replaceIn (name : String) (x : α) (entries : List (String × α)) :
    (replaceIn name x entries).map Prod.fst = entries.map Prod.fst := by
  simp only [replaceIn, List.map_map]
  apply List.map_congr_left
  intro e _
  simp only [Function.comp_apply]
  split <;> simp_all

/-- Binds a name, in its old place or at the end. -/
def insert (b : Bindings α) (name : String) (x : α) : Bindings α :=
  if h : name ∈ b.entries.map Prod.fst then
    ⟨replaceIn name x b.entries, by rw [map_fst_replaceIn]; exact b.nodup⟩
  else
    ⟨b.entries ++ [(name, x)], by
      rw [List.map_append, List.nodup_append]
      refine ⟨b.nodup, by simp, ?_⟩
      intro n hn m hm
      simp only [List.map_cons, List.map_nil, List.mem_singleton] at hm
      rintro rfl
      exact h (hm ▸ hn)⟩

def erase (b : Bindings α) (name : String) : Bindings α :=
  ⟨b.entries.filter fun e => e.1 ≠ name, b.nodup.sublist (List.filter_sublist.map _)⟩

/-- Binds the pairs in order; a later pair for a name wins. -/
def ofList (pairs : List (String × α)) : Bindings α :=
  pairs.foldl (fun b p => b.insert p.1 p.2) empty

def map (f : α → β) (b : Bindings α) : Bindings β :=
  ⟨b.entries.map fun e => (e.1, f e.2), by
    rw [List.map_map]
    exact b.nodup⟩

/-! ## What an operation does to the view -/

theorem ext {a b : Bindings α} (h : a.entries = b.entries) : a = b := by
  cases a
  cases b
  simp_all

theorem mem_names {b : Bindings α} {name : String} :
    name ∈ b.names ↔ b.contains name = true := by
  simp [contains]

theorem names_map (f : α → β) (b : Bindings α) : (b.map f).names = b.names := by
  simp [map, names, Function.comp_def]

theorem names_insert (b : Bindings α) (name : String) (x : α) :
    (b.insert name x).names = if name ∈ b.names then b.names else b.names ++ [name] := by
  unfold insert names
  split <;> simp_all [map_fst_replaceIn]

theorem names_erase (b : Bindings α) (name : String) :
    (b.erase name).names = b.names.filter (· ≠ name) := by
  simp [erase, names, List.filter_map, Function.comp_def]

theorem find?_isSome (b : Bindings α) (name : String) :
    (b.find? name).isSome = b.contains name := by
  obtain ⟨entries, nodup⟩ := b
  simp only [find?, contains, names]
  clear nodup
  induction entries with
  | nil => rfl
  | cons e es ih =>
    obtain ⟨n, x⟩ := e
    by_cases h : name = n
    · simp [h]
    · have h' : (name == n) = false := by simpa using h
      simp [List.lookup_cons, h', ih, h]

theorem lookup_replaceIn (name n : String) (x : α) (entries : List (String × α)) :
    (replaceIn name x entries).lookup n =
      if n = name ∧ name ∈ entries.map Prod.fst then some x else entries.lookup n := by
  induction entries with
  | nil => simp [replaceIn]
  | cons e es ih =>
    obtain ⟨m, y⟩ := e
    simp only [replaceIn, List.map_cons] at ih ⊢
    by_cases hm : m = name
    · subst hm
      by_cases hn : n = m
      · simp [hn]
      · have hb : (n == m) = false := by simpa using hn
        simp [List.lookup_cons, hb, ih, hn]
    · by_cases hn : n = m
      · subst hn
        simp [hm]
      · have hb : (n == m) = false := by simpa using hn
        have hm' : ¬name = m := fun h => hm h.symm
        have mem_iff : name ∈ m :: es.map Prod.fst ↔ name ∈ es.map Prod.fst := by
          simp only [List.mem_cons, hm', false_or]
        simp only [hm, if_false, List.lookup_cons, hb, ih, mem_iff]

theorem lookup_append_single (entries : List (String × α)) (name n : String) (x : α)
    (h : name ∉ entries.map Prod.fst) :
    (entries ++ [(name, x)]).lookup n = if n = name then some x else entries.lookup n := by
  induction entries with
  | nil =>
    by_cases hn : n = name
    · simp [hn]
    · have hb : (n == name) = false := by simpa using hn
      simp [List.lookup_cons, hb, hn]
  | cons e es ih =>
    obtain ⟨m, y⟩ := e
    simp only [List.map_cons, List.mem_cons, not_or] at h
    have ih := ih h.2
    by_cases hn : n = m
    · subst hn
      have hne : ¬n = name := fun e => h.1 e.symm
      simp [hne]
    · have hb : (n == m) = false := by simpa using hn
      simp [List.lookup_cons, hb, ih]

theorem find?_map (f : α → β) (b : Bindings α) (name : String) :
    (b.map f).find? name = (b.find? name).map f := by
  obtain ⟨entries, nodup⟩ := b
  simp only [map, find?]
  clear nodup
  induction entries with
  | nil => rfl
  | cons e es ih =>
    obtain ⟨m, y⟩ := e
    by_cases h : name = m
    · simp [h]
    · have h' : (name == m) = false := by simpa using h
      simp [List.lookup_cons, h', ih]

theorem find?_insert (b : Bindings α) (name n : String) (x : α) :
    (b.insert name x).find? n = if n = name then some x else b.find? n := by
  unfold insert find?
  split
  · next h => simp [lookup_replaceIn, h]
  · next h => exact lookup_append_single _ _ _ _ h

theorem find?_erase (b : Bindings α) (name n : String) :
    (b.erase name).find? n = if n = name then none else b.find? n := by
  obtain ⟨entries, nodup⟩ := b
  simp only [erase, find?]
  clear nodup
  induction entries with
  | nil => simp
  | cons e es ih =>
    obtain ⟨m, y⟩ := e
    by_cases hm : m = name
    · subst hm
      by_cases hn : n = m
      · simpa [hn] using ih
      · have hb : (n == m) = false := by simpa using hn
        simpa [List.lookup_cons, hb, hn] using ih
    · by_cases hn : n = m
      · subst hn
        simp [hm]
      · have hb : (n == m) = false := by simpa using hn
        simpa [List.lookup_cons, hb, hm] using ih

end Bindings

end Calculator
