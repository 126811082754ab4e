import Calculator.Proofs.GivenLimits
import Mathlib.Data.List.Nodup

/-!
# Spellings of the keys of a configuration

A `Respelling` gives any keys of a configuration and of its limits their other spelling. An object
in which no setting is given twice is read alike under every choice: as the same configuration, or
with the same errors, in which only the key at the head of a location is spelled anew
(`ofSetting_respell`). The order of keys does not matter either, but for that of unknown ones.

Both kinds of keys are compared through their plain spelling (`fieldKey`, `limitKey`), which
determines a key of the object where no setting is given twice.
-/

namespace Calculator

namespace Setting

variable {fields fields' : List (String × Setting)} {key : String}

theorem field?_eq_none_iff : field? fields key = none ↔ key ∉ fields.map Prod.fst := by
  rw [field?, List.lookup_eq_none_iff]
  constructor
  · intro h hmem
    obtain ⟨f, hf, rfl⟩ := List.mem_map.1 hmem
    simpa using h f (List.mem_reverse.2 hf)
  · intro h f hf
    exact bne_iff_ne.2 fun heq => h (heq ▸ List.mem_map_of_mem (List.mem_reverse.1 hf))

theorem field?_eq_some_iff (hnodup : (fields.map Prod.fst).Nodup) {v : Setting} :
    field? fields key = some v ↔ (key, v) ∈ fields := by
  rw [field?, List.lookup_eq_some_iff]
  constructor
  · rintro ⟨before, after, hfields, -⟩
    rw [← List.mem_reverse, hfields]
    simp
  · intro hmem
    obtain ⟨before, after, hfields⟩ := List.append_of_mem (List.mem_reverse.2 hmem)
    refine ⟨before, after, hfields, fun f hf => bne_iff_ne.2 ?_⟩
    rintro rfl
    rw [← List.reverse_reverse fields, hfields, List.map_reverse, List.nodup_reverse,
      List.map_append, List.map_cons, List.nodup_append] at hnodup
    exact hnodup.2.2 _ (List.mem_map_of_mem hf) _ List.mem_cons_self rfl

theorem field?_perm (hnodup : (fields.map Prod.fst).Nodup) (h : fields.Perm fields') :
    field? fields key = field? fields' key := by
  ext v
  rw [field?_eq_some_iff hnodup, field?_eq_some_iff ((h.map Prod.fst).nodup_iff.1 hnodup),
    h.mem_iff]

theorem field?_map {g : String → String} {value : String → Setting → Setting}
    (h : ∀ f ∈ fields, g f.1 = g key → f.1 = key) :
    field? (fields.map fun f => (g f.1, value f.1 f.2)) (g key) =
      (field? fields key).map (value key) := by
  induction fields using List.reverseRecOn with
  | nil => rfl
  | append_singleton fields f ih =>
    rw [List.forall_mem_append] at h
    have hlast := h.2 f List.mem_cons_self
    rw [field?, List.map_append, List.reverse_append, List.map_singleton, List.reverse_singleton,
      List.singleton_append, List.lookup_cons, field?, List.reverse_append,
      List.reverse_singleton, List.singleton_append, List.lookup_cons]
    by_cases hf : f.1 = key
    · subst hf
      simp
    · have hg : (g key == g f.1) = false := beq_eq_false_iff_ne.2 fun heq => hf (hlast heq.symm)
      have hkey : (key == f.1) = false := beq_eq_false_iff_ne.2 fun heq => hf heq.symm
      rw [hg, hkey]
      exact ih h.1

end Setting

namespace Config

variable {fields fields' entries entries' : List (String × Setting)} {key camel snake : String}

/-! ## Keys -/

/-- The keys of a configuration that have two spellings, each with its plain one. -/
def fieldSpellings : List (String × String) :=
  [("numberOptions", "number_options"), ("includeDefaultConstants", "include_default_constants")]

theorem options_spelled : ("numberOptions", "number_options") ∈ fieldSpellings := by decide

theorem switch_spelled :
    ("includeDefaultConstants", "include_default_constants") ∈ fieldSpellings := by decide

def fieldKey (key : String) : String :=
  match fieldSpellings.find? fun p => p.1 == key with
  | some p => p.2
  | none => key

def hasOneSpelling (key : String) : Bool := fieldSpellings.all fun p => key != p.1 && key != p.2

theorem fieldKey_eq_iff (hp : (camel, snake) ∈ fieldSpellings) :
    fieldKey key = snake ↔ key = camel ∨ key = snake := by
  unfold fieldKey
  cases hfind : fieldSpellings.find? fun p => p.1 == key with
  | some p =>
    have hkey : p.1 = key := by simpa using List.find?_some hfind
    have hmem := List.mem_of_find?_eq_some hfind
    subst hkey
    revert hp hmem
    simp only [fieldSpellings, List.mem_cons, List.not_mem_nil, or_false, Prod.mk.injEq]
    rintro (⟨rfl, rfl⟩ | ⟨rfl, rfl⟩) (rfl | rfl) <;> decide
  | none =>
    have hother : camel ≠ key := by simpa using List.find?_eq_none.1 hfind _ hp
    exact ⟨.inr, fun h => h.resolve_left fun hkey => hother hkey.symm⟩

theorem fieldKey_cases (key : String) :
    (hasOneSpelling key = true ∧ fieldKey key = key) ∨
      (hasOneSpelling key = false ∧ ∃ p ∈ fieldSpellings, fieldKey key = p.2) := by
  by_cases h : ∃ p ∈ fieldSpellings, key = p.1 ∨ key = p.2
  · obtain ⟨p, hp, hkey⟩ := h
    refine .inr ⟨?_, p, hp, (fieldKey_eq_iff hp).2 hkey⟩
    rw [hasOneSpelling, List.all_eq_false]
    exact ⟨p, hp, by rcases hkey with rfl | rfl <;> simp⟩
  · have hall : ∀ p ∈ fieldSpellings, key ≠ p.1 ∧ key ≠ p.2 := fun p hp =>
      ⟨fun hkey => h ⟨p, hp, .inl hkey⟩, fun hkey => h ⟨p, hp, .inr hkey⟩⟩
    refine .inl ⟨by simpa [hasOneSpelling] using hall, ?_⟩
    have hnone : fieldSpellings.find? (fun p => p.1 == key) = none :=
      List.find?_eq_none.2 fun p hp hkey => (hall p hp).1 (beq_iff_eq.1 hkey).symm
    rw [fieldKey, hnone]

theorem eq_of_fieldKey_eq {other : String} (h : hasOneSpelling key = true)
    (hother : fieldKey other = key) : other = key := by
  rcases fieldKey_cases other with ⟨-, hplain⟩ | ⟨-, p, hp, hplain⟩
  · rw [← hother, hplain]
  · have hne := List.all_eq_true.1 h p hp
    rw [← hother, hplain] at hne
    simp at hne

theorem fieldKey_of_hasOneSpelling (h : hasOneSpelling key = true) : fieldKey key = key := by
  rcases fieldKey_cases key with ⟨-, hplain⟩ | ⟨htwo, -⟩
  · exact hplain
  · rw [h] at htwo
    cases htwo

/-! ## Objects that give no setting twice -/

/-- No setting is given twice, be it under one spelling or under both. -/
structure GivenOnce (fields : List (String × Setting)) : Prop where
  keys : ((fields.map Prod.fst).map fieldKey).Nodup
  limits (entries : List (String × Setting))
    (h : Setting.field? fields "limits" = some (.object entries)) :
    ((entries.map Prod.fst).map limitKey).Nodup

theorem spelling_eq_of_mem (hp : (camel, snake) ∈ fieldSpellings)
    (hnodup : ((fields.map Prod.fst).map fieldKey).Nodup) (hmem : key ∈ fields.map Prod.fst)
    (hkey : fieldKey key = snake) : spelling fields camel snake = key := by
  by_cases hcamel : camel ∈ fields.map Prod.fst
  · have hsame : fieldKey camel = fieldKey key := by rw [(fieldKey_eq_iff hp).2 (.inl rfl), hkey]
    rw [spelling, if_pos (List.contains_iff_mem.2 hcamel)]
    exact List.inj_on_of_nodup_map hnodup hcamel hmem hsame
  · have hsnake : key = snake :=
      ((fieldKey_eq_iff hp).1 hkey).resolve_left fun h => hcamel (h ▸ hmem)
    subst hsnake
    rw [spelling, if_neg (mt List.contains_iff_mem.1 hcamel),
      if_pos (List.contains_iff_mem.2 hmem)]

theorem fieldKey_spelling (hp : (camel, snake) ∈ fieldSpellings)
    (fields : List (String × Setting)) : fieldKey (spelling fields camel snake) = snake :=
  (fieldKey_eq_iff hp).2 (spelling_cases fields camel snake)

theorem ne_limits_of_fieldKey_eq (hp : (camel, snake) ∈ fieldSpellings)
    (hkey : fieldKey key = snake) : key ≠ "limits" := by
  rintro rfl
  rw [fieldKey_of_hasOneSpelling (by decide)] at hkey
  subst hkey
  simp [fieldSpellings] at hp

def unknownFields (fields : List (String × Setting)) : List String :=
  ((fields.map Prod.fst).filter hasOneSpelling).filter fun k => !(["limits", "constants"].contains k)

theorem filter_not_known (hnodup : ((fields.map Prod.fst).map fieldKey).Nodup) :
    ((fields.map Prod.fst).filter fun k =>
      !(["limits", spelling fields "numberOptions" "number_options", "constants",
        spelling fields "includeDefaultConstants" "include_default_constants"].contains k)) =
      unknownFields fields := by
  rw [unknownFields, List.filter_filter]
  refine List.filter_congr fun k hk => ?_
  rcases fieldKey_cases k with ⟨hone, -⟩ | ⟨htwo, p, hp, hkey⟩
  · have hne {camel snake : String} (hp : (camel, snake) ∈ fieldSpellings) :
        k ≠ spelling fields camel snake := by
      have hall := List.all_eq_true.1 hone _ hp
      simp only [bne_iff_ne, Bool.and_eq_true, ne_eq] at hall
      rcases spelling_cases fields camel snake with h | h <;> rw [h]
      · exact hall.1
      · exact hall.2
    simp [hone, hne options_spelled, hne switch_spelled]
  · have hspelling := spelling_eq_of_mem hp hnodup hk hkey
    rw [htwo, Bool.and_false]
    simp only [fieldSpellings, List.mem_cons, List.not_mem_nil, or_false] at hp
    rcases hp with rfl | rfl <;> simp [hspelling]

/-! ## Limits -/

theorem unknownKeys_perm (known : List String) (h : fields.Perm fields') :
    unknownKeys known fields = unknownKeys known fields' := by
  have hle (a b : String) : (!decide (b < a)) = true ↔ a ≤ b := by
    rw [Bool.not_eq_true', decide_eq_false_iff_not]
    exact Iff.rfl
  have hsorted (keys : List String) :
      (keys.mergeSort fun a b => !decide (b < a)).Pairwise (· ≤ ·) := by
    refine (List.pairwise_mergeSort (fun a b c hab hbc => ?_) (fun a b => ?_) keys).imp (hle _ _).1
    · exact (hle a c).2 (String.le_trans ((hle a b).1 hab) ((hle b c).1 hbc))
    · rw [Bool.or_eq_true, hle, hle]
      exact String.le_total a b
  refine List.Perm.eq_of_pairwise (fun a b _ _ => String.le_antisymm) (hsorted _) (hsorted _) ?_
  exact (List.mergeSort_perm _ _).trans
    (((h.map Prod.fst).filter _).trans (List.mergeSort_perm _ _).symm)

theorem limitsOfObject_congr (hnodup : ((entries.map Prod.fst).map limitKey).Nodup)
    (h : (plain entries).Perm (plain entries')) :
    limitsOfObject entries = limitsOfObject entries' := by
  have hkeys : ((plain entries).map Prod.fst).Nodup := by
    simpa [plain, Function.comp_def] using hnodup
  have hbound (k : Limit) : boundOf (plain entries) k = boundOf (plain entries') k := by
    rw [boundOf, boundOf, Setting.field?_perm hkeys h]
  have hfields : limitsOfFields (plain entries) = limitsOfFields (plain entries') := by
    simp only [limitsOfFields, hbound]
  have hunknown := unknownKeys_perm (Limit.all.map Limit.name) h
  unfold limitsOfObject
  dsimp only
  rw [← plain, ← plain, hunknown, hfields]

theorem limitKey_cases (key : String) :
    limitKey key = key ∨ ∃ k : Limit, limitKey key = k.name := by
  unfold limitKey
  split
  · next k _ => exact .inr ⟨k, rfl⟩
  · exact .inl rfl

/-! ## Respelling -/

/-- A choice of spellings: every key becomes a spelling of the same setting. -/
structure Respelling where
  field : String → String
  limit : String → String
  fieldKey_field (key : String) : fieldKey (field key) = fieldKey key
  limitKey_limit (key : String) : limitKey (limit key) = limitKey key

namespace Respelling

def inLimits (r : Respelling) (entries : List (String × Setting)) : List (String × Setting) :=
  entries.map fun e => (r.limit e.1, e.2)

/-- The value of a field: only that of the limits has keys with two spellings. -/
def value (r : Respelling) (key : String) : Setting → Setting
  | .object entries => if key = "limits" then .object (r.inLimits entries) else .object entries
  | v => v

def inFields (r : Respelling) (fields : List (String × Setting)) : List (String × Setting) :=
  fields.map fun f => (r.field f.1, r.value f.1 f.2)

/-- An error about a field, which is the first key of its location. -/
def error (r : Respelling) (e : Error) : Error :=
  { e with location := e.location.modifyHead r.field }

def outcome {α : Type} (r : Respelling) (x : Field α) : Field α := (x.1, x.2.map r.error)

/-- Errors are located under the chosen spellings; a separator without a length has no location. -/
def refusal (r : Respelling) : Refusal → Refusal
  | .errors es => .errors (es.map r.error)
  | .unsized u => .unsized u

variable {r : Respelling}

/-! ### Keys -/

theorem field_of_hasOneSpelling (h : hasOneSpelling key = true) : r.field key = key := by
  refine eq_of_fieldKey_eq h ?_
  rw [r.fieldKey_field, fieldKey_of_hasOneSpelling h]

theorem hasOneSpelling_field (key : String) :
    hasOneSpelling (r.field key) = hasOneSpelling key := by
  cases h : hasOneSpelling key with
  | true => rw [field_of_hasOneSpelling h, h]
  | false =>
    rw [Bool.eq_false_iff]
    intro hone
    have hsame : key = r.field key := eq_of_fieldKey_eq hone <| by
      rw [← r.fieldKey_field, fieldKey_of_hasOneSpelling hone]
    rw [← hsame, h] at hone
    cases hone

theorem map_fst_inFields (fields : List (String × Setting)) :
    (r.inFields fields).map Prod.fst = (fields.map Prod.fst).map r.field := by
  simp [Respelling.inFields]

theorem map_fieldKey_inFields (fields : List (String × Setting)) :
    ((r.inFields fields).map Prod.fst).map fieldKey = (fields.map Prod.fst).map fieldKey := by
  rw [map_fst_inFields, List.map_map]
  exact List.map_congr_left fun k _ => r.fieldKey_field k

theorem unknownFields_inFields (fields : List (String × Setting)) :
    unknownFields (r.inFields fields) = unknownFields fields := by
  have hkeep (keys : List String) :
      (keys.map r.field).filter hasOneSpelling = keys.filter hasOneSpelling := by
    have hcomp : hasOneSpelling ∘ r.field = hasOneSpelling := funext hasOneSpelling_field
    rw [List.filter_map, hcomp]
    exact (List.map_congr_left fun k hk =>
      field_of_hasOneSpelling (List.mem_filter.1 hk).2).trans (List.map_id' _)
  rw [unknownFields, map_fst_inFields, hkeep, unknownFields]

/-! ### Values -/

theorem field?_inFields (hnodup : ((fields.map Prod.fst).map fieldKey).Nodup)
    (hmem : key ∈ fields.map Prod.fst) :
    Setting.field? (r.inFields fields) (r.field key) =
      (Setting.field? fields key).map (r.value key) := by
  refine Setting.field?_map fun f hf heq => ?_
  refine List.inj_on_of_nodup_map hnodup (List.mem_map_of_mem hf) hmem ?_
  rw [← r.fieldKey_field, heq, r.fieldKey_field]

theorem field?_inFields_of_hasOneSpelling (h : hasOneSpelling key = true) :
    Setting.field? (r.inFields fields) key = (Setting.field? fields key).map (r.value key) := by
  have hfield : Setting.field? (r.inFields fields) (r.field key) =
      (Setting.field? fields key).map (r.value key) :=
    Setting.field?_map fun f _ heq => eq_of_fieldKey_eq h <| by
      rw [← r.fieldKey_field, heq, r.fieldKey_field, fieldKey_of_hasOneSpelling h]
  rwa [field_of_hasOneSpelling h] at hfield

theorem map_value_of_ne (h : key ≠ "limits") (v? : Option Setting) :
    v?.map (r.value key) = v? := by
  rcases v? with - | v
  · rfl
  cases v with
  | object entries => exact congrArg some (if_neg h)
  | _ => rfl

theorem plain_inLimits (entries : List (String × Setting)) :
    plain (r.inLimits entries) = plain entries := by
  simp [plain, Respelling.inLimits, r.limitKey_limit]

/-- A field with two spellings is read with the same value, and under its new key if it is given. -/
theorem spelling_inFields (hp : (camel, snake) ∈ fieldSpellings)
    (hnodup : ((fields.map Prod.fst).map fieldKey).Nodup) :
    let key := spelling fields camel snake
    let key' := spelling (r.inFields fields) camel snake
    Setting.field? (r.inFields fields) key' = Setting.field? fields key ∧
      (Setting.field? fields key = none ∨ key' = r.field key) := by
  intro key key'
  have hnodup' := (map_fieldKey_inFields (r := r) fields).symm ▸ hnodup
  by_cases hgiven : ∃ k ∈ fields.map Prod.fst, fieldKey k = snake
  · obtain ⟨k, hk, hplain⟩ := hgiven
    have hk' : r.field k ∈ (r.inFields fields).map Prod.fst := by
      rw [map_fst_inFields]
      exact List.mem_map_of_mem hk
    have hkey : key = k := spelling_eq_of_mem hp hnodup hk hplain
    have hkey' : key' = r.field k :=
      spelling_eq_of_mem hp hnodup' hk' ((r.fieldKey_field k).trans hplain)
    rw [hkey, hkey', field?_inFields hnodup hk,
      map_value_of_ne (ne_limits_of_fieldKey_eq hp hplain)]
    exact ⟨rfl, .inr rfl⟩
  · have hnone {k : String} (hk : fieldKey k = snake) : Setting.field? fields k = none :=
      Setting.field?_eq_none_iff.2 fun hmem => hgiven ⟨k, hmem, hk⟩
    have hnone' {k : String} (hk : fieldKey k = snake) :
        Setting.field? (r.inFields fields) k = none := by
      refine Setting.field?_eq_none_iff.2 fun hmem => ?_
      rw [map_fst_inFields] at hmem
      obtain ⟨j, hj, rfl⟩ := List.mem_map.1 hmem
      exact hgiven ⟨j, hj, (r.fieldKey_field j).symm.trans hk⟩
    rw [hnone (fieldKey_spelling hp _), hnone' (fieldKey_spelling hp _)]
    exact ⟨rfl, .inl rfl⟩

def allPlain : Respelling where
  field := fieldKey
  limit := limitKey
  fieldKey_field key := by
    rcases fieldKey_cases key with ⟨-, hkey⟩ | ⟨-, p, hp, hkey⟩
    · rw [hkey, hkey]
    · rw [hkey, (fieldKey_eq_iff hp).2 (.inr rfl)]
  limitKey_limit key := by
    rcases limitKey_cases key with hkey | ⟨k, hkey⟩
    · rw [hkey, hkey]
    · rw [hkey, (limitKey_eq_name_iff k.name k).2 (.inr rfl)]

/-! ### Fields -/

theorem readField_respell {α : Type} (x : Except Flaw α) :
    readField (r.field key) x = r.outcome (readField key x) := by
  cases x <;> rfl

theorem limitsField_respell (v? : Option Setting) :
    limitsField v? = r.outcome (limitsField v?) := by
  have hkey : r.field "limits" = "limits" := field_of_hasOneSpelling (by decide)
  rcases v? with - | v
  · rfl
  cases v with
  | null => rfl
  | object entries =>
    rw [limitsField, ← readField_respell, hkey]
  | _ => simp [limitsField, outcome, error, hkey]

theorem optionsField_respell {key' : String} {v? : Option Setting}
    (h : v? = none ∨ key' = r.field key) :
    optionsField key' v? = (optionsField key v?).map r.outcome := by
  rcases h with rfl | rfl
  · rfl
  rcases v? with - | v
  · rfl
  cases v with
  | object entries =>
    simp only [optionsField]
    cases optionsOfObject entries with
    | ok x => exact congrArg Except.ok (readField_respell x)
    | error u => rfl
  | _ => rfl

theorem switchField_respell {key' : String} {v? : Option Setting}
    (h : v? = none ∨ key' = r.field key) :
    switchField key' v? = r.outcome (switchField key v?) := by
  rcases h with rfl | rfl
  · rfl
  rcases v? with - | v
  · rfl
  simp only [switchField]
  cases v.switch? <;> rfl

theorem constantsField_respell (v? : Option Setting) :
    constantsField v? = r.outcome (constantsField v?) := by
  refine Prod.ext rfl ((List.map_congr_left fun e he => ?_).trans (List.map_id' _)).symm
  obtain ⟨location, kind⟩ := e
  have hhead := location_of_mem_constantsField he
  cases location with
  | nil => cases hhead
  | cons key rest =>
    cases hhead
    rw [error, List.modifyHead_cons, field_of_hasOneSpelling (by decide)]

end Respelling

/-! ## The errors of all fields -/

def conclude (c : Config) (errors : List Error) : Except Refusal Config :=
  if errors = [] then .ok c else .error (.errors errors)

theorem conclude_map (r : Respelling) (c : Config) (errors : List Error) :
    conclude c (errors.map r.error) = (conclude c errors).mapError r.refusal := by
  cases errors <;> rfl

def assemble (limits : Field (Option Limits)) (options : Field (Option Options))
    (constants : Field (Bindings Float)) (switch : Field Bool) (unknown : List String) :
    Except Refusal Config :=
  conclude ⟨limits.1, options.1, constants.1, switch.1⟩
    (limits.2 ++ options.2 ++ constants.2 ++ switch.2 ++ unknown.map fun k => ⟨[k], .unknownKey⟩)

theorem ofSetting_object (hnodup : ((fields.map Prod.fst).map fieldKey).Nodup) :
    let optionsKey := spelling fields "numberOptions" "number_options"
    let switchKey := spelling fields "includeDefaultConstants" "include_default_constants"
    ofSetting (.object fields) =
      ((optionsField optionsKey (Setting.field? fields optionsKey)).mapError Refusal.unsized >>=
        fun options =>
          assemble (limitsField (Setting.field? fields "limits")) options
            (constantsField (Setting.field? fields "constants"))
            (switchField switchKey (Setting.field? fields switchKey)) (unknownFields fields)) := by
  rw [← filter_not_known hnodup]
  rfl

theorem assemble_outcome (r : Respelling) {limits : Field (Option Limits)}
    (hlimits : limits = r.outcome limits) (options : Field (Option Options))
    {constants : Field (Bindings Float)} (hconstants : constants = r.outcome constants)
    (switch : Field Bool) {unknown : List String}
    (hunknown : ∀ k ∈ unknown, hasOneSpelling k = true) :
    assemble limits (r.outcome options) constants (r.outcome switch) unknown =
      (assemble limits options constants switch unknown).mapError r.refusal := by
  have hkeys : unknown.map (fun k => (⟨[k], .unknownKey⟩ : Error)) =
      (unknown.map fun k => ⟨[k], .unknownKey⟩).map r.error := by
    rw [List.map_map]
    refine List.map_congr_left fun k hk => ?_
    rw [Function.comp_apply, Respelling.error, List.modifyHead_cons,
      Respelling.field_of_hasOneSpelling (hunknown k hk)]
  have hlimits' : limits.2 = limits.2.map r.error := congrArg Prod.snd hlimits
  have hconstants' : constants.2 = constants.2.map r.error := congrArg Prod.snd hconstants
  rw [assemble, assemble, ← conclude_map, List.map_append, List.map_append, List.map_append,
    List.map_append, ← hlimits', ← hconstants', ← hkeys]
  rfl

/-! ## Order -/

/--
The same fields in another order, which is kept of the keys that have one spelling. The limits may
stand in any order too.
-/
structure Reorders (fields fields' : List (String × Setting)) : Prop where
  keys : (fields.map Prod.fst).Perm (fields'.map Prod.fst)
  single : (fields'.map Prod.fst).filter hasOneSpelling =
    (fields.map Prod.fst).filter hasOneSpelling
  values (key : String) (h : key ≠ "limits") :
    Setting.field? fields' key = Setting.field? fields key
  limits : Setting.field? fields' "limits" = Setting.field? fields "limits" ∨
    ∃ entries entries', Setting.field? fields "limits" = some (.object entries) ∧
      Setting.field? fields' "limits" = some (.object entries') ∧ entries.Perm entries'

theorem Reorders.of_perm (hnodup : (fields.map Prod.fst).Nodup) (h : fields.Perm fields')
    (single : (fields'.map Prod.fst).filter hasOneSpelling =
      (fields.map Prod.fst).filter hasOneSpelling) : Reorders fields fields' :=
  ⟨h.map _, single, fun _ _ => (Setting.field?_perm hnodup h).symm,
    .inl (Setting.field?_perm hnodup h).symm⟩

theorem Reorders.spelling (h : Reorders fields fields') (camel snake : String) :
    spelling fields' camel snake = spelling fields camel snake := by
  have hcontains (key : String) :
      (fields'.map Prod.fst).contains key = (fields.map Prod.fst).contains key := by
    rw [Bool.eq_iff_iff, List.contains_iff_mem, List.contains_iff_mem, h.keys.mem_iff]
  simp only [Config.spelling, hcontains]

/-! ## Respelled objects -/

section Respelled

variable {r : Respelling} (honce : GivenOnce fields) (h : Reorders (r.inFields fields) fields')

include h

theorem unknownFields_respell : unknownFields fields' = unknownFields fields := by
  rw [← r.unknownFields_inFields fields, unknownFields, h.single, unknownFields]

theorem constants_respell :
    Setting.field? fields' "constants" = Setting.field? fields "constants" := by
  rw [h.values _ (by decide), r.field?_inFields_of_hasOneSpelling (by decide),
    Respelling.map_value_of_ne (by decide)]

include honce

theorem nodup_respell : ((fields'.map Prod.fst).map fieldKey).Nodup := by
  have hnodup := honce.keys
  rw [← r.map_fieldKey_inFields] at hnodup
  exact ((h.keys.map fieldKey).nodup_iff).1 hnodup

theorem spelling_respell (hp : (camel, snake) ∈ fieldSpellings) :
    let key := spelling fields camel snake
    let key' := spelling fields' camel snake
    Setting.field? fields' key' = Setting.field? fields key ∧
      (Setting.field? fields key = none ∨ key' = r.field key) := by
  intro key key'
  have hne : key' ≠ "limits" := ne_limits_of_fieldKey_eq hp (fieldKey_spelling hp fields')
  rw [h.values key' hne]
  have hkey' : key' = spelling (r.inFields fields) camel snake := h.spelling camel snake
  rw [hkey']
  exact r.spelling_inFields hp honce.keys

theorem limits_respell :
    limitsField (Setting.field? fields' "limits") =
      limitsField (Setting.field? fields "limits") := by
  have hlast := h.limits
  rw [r.field?_inFields_of_hasOneSpelling (by decide)] at hlast
  rcases hfield : Setting.field? fields "limits" with - | v
  · rw [hfield] at hlast
    rcases hlast with hlast | ⟨_, _, hfound, -⟩
    · rw [hlast]
      rfl
    · cases hfound
  rw [hfield, Option.map_some] at hlast
  by_cases hobject : ∃ entries, v = .object entries
  · obtain ⟨entries, rfl⟩ := hobject
    obtain ⟨entries', hlast, hperm⟩ : ∃ entries', Setting.field? fields' "limits" =
        some (.object entries') ∧ (plain entries).Perm (plain entries') := by
      rw [← r.plain_inLimits entries]
      rcases hlast with hlast | ⟨entries₁, entries', hfound, hlast, hperm⟩
      · exact ⟨_, hlast, .refl _⟩
      · cases hfound
        exact ⟨_, hlast, hperm.map _⟩
    rw [hlast]
    rw [limitsField, limitsField, limitsOfObject_congr (honce.limits entries hfield) hperm]
  · have hvalue : r.value "limits" v = v := by
      cases v with
      | object entries => exact absurd ⟨entries, rfl⟩ hobject
      | _ => rfl
    rw [hvalue] at hlast
    rcases hlast with hlast | ⟨entries, _, hfound, -⟩
    · rw [hlast]
    · cases hfound
      exact absurd ⟨entries, rfl⟩ hobject

end Respelled

/--
An object that gives no setting twice is read alike under any choice of spellings: as the same
configuration, or with the same errors, located under the chosen spellings. A separator without a
length ends the reading of both.
-/
theorem ofSetting_respell (r : Respelling) {fields fields' : List (String × Setting)}
    (honce : GivenOnce fields) (h : Reorders (r.inFields fields) fields') :
    ofSetting (.object fields') = (ofSetting (.object fields)).mapError r.refusal := by
  obtain ⟨hoptions, hoptionsKey⟩ := spelling_respell honce h options_spelled
  obtain ⟨hswitch, hswitchKey⟩ := spelling_respell honce h switch_spelled
  rw [ofSetting_object (nodup_respell honce h), ofSetting_object honce.keys,
    unknownFields_respell h, limits_respell honce h, constants_respell h, hoptions, hswitch,
    Respelling.optionsField_respell hoptionsKey, Respelling.switchField_respell hswitchKey]
  cases optionsField _ (Setting.field? fields _) with
  | error u => rfl
  | ok options =>
    have hunknown : ∀ k ∈ unknownFields fields, hasOneSpelling k = true := fun k hk =>
      (List.mem_filter.1 (List.mem_filter.1 hk).1).2
    exact assemble_outcome r (Respelling.limitsField_respell _) options
      (Respelling.constantsField_respell _) _ hunknown

/-- Keys of both kinds in camel case, and three errors. -/
def camelCase : List (String × Setting) :=
  [("numberOptions", .int 3), ("extra", .null),
    ("limits", .object [("maxTokens", .int 0), ("max_paren_depth", .int 5)])]

/-- The same in plain spelling; the first key now stands last. -/
def snakeCase : List (String × Setting) :=
  [("extra", .null), ("limits", .object [("max_tokens", .int 0), ("max_paren_depth", .int 5)]),
    ("number_options", .int 3)]

theorem ofSetting_snakeCase :
    GivenOnce camelCase ∧ Reorders (Respelling.allPlain.inFields camelCase) snakeCase ∧
      ofSetting (.object camelCase) = .error (.errors [⟨["limits"], .flaw (.limit ⟨.tokens⟩)⟩,
        ⟨["numberOptions"], .notOptions⟩, ⟨["extra"], .unknownKey⟩]) ∧
      ofSetting (.object snakeCase) = .error (.errors [⟨["limits"], .flaw (.limit ⟨.tokens⟩)⟩,
        ⟨["number_options"], .notOptions⟩, ⟨["extra"], .unknownKey⟩]) := by
  have honce : GivenOnce camelCase := by
    refine ⟨by decide, fun entries h => ?_⟩
    cases h
    decide
  have hperm : (Respelling.allPlain.inFields camelCase).Perm snakeCase :=
    @List.perm_append_comm _ [("number_options", Setting.int 3)] _
  have h : Reorders (Respelling.allPlain.inFields camelCase) snakeCase :=
    .of_perm (by decide) hperm (by decide)
  have hcamel : ofSetting (.object camelCase) = .error (.errors [⟨["limits"], .flaw (.limit ⟨.tokens⟩)⟩,
      ⟨["numberOptions"], .notOptions⟩, ⟨["extra"], .unknownKey⟩]) := by
    have hkeys : unknownKeys (Limit.all.map Limit.name)
        (plain [("maxTokens", .int 0), ("max_paren_depth", .int 5)]) = [] :=
      unknownKeys_eq_nil_iff.2 (by decide)
    have hlimits : limitsOfObject [("maxTokens", .int 0), ("max_paren_depth", .int 5)] =
        .error (.limit ⟨.tokens⟩) := by
      rw [limitsOfObject, ← plain, hkeys]
      rfl
    have hfield : Setting.field? camelCase "limits" =
        some (.object [("maxTokens", .int 0), ("max_paren_depth", .int 5)]) := rfl
    rw [ofSetting_object honce.keys]
    simp only [hfield, limitsField, hlimits]
    rfl
  refine ⟨honce, h, hcamel, ?_⟩
  rw [ofSetting_respell _ honce h, hcamel]
  rfl

end Config

end Calculator
