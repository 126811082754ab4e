import Calculator.Preset
import Calculator.Proofs.Parsing
import Mathlib.Data.List.Induction

/-!
# The limits that a configuration gives

`given` lists what an object of limits gives for a limit, under either of its spellings and in the
order in which it stands there. All spellings are read as the plain one before any value is looked
at, and so of the values for one limit only the last is: the object is accepted when its keys are
known and these last values are positive whole numbers, and the limits are then these values
(`limitsOfObject_eq_ok_iff`).

A value that is none is therefore refused where a limit is given once, but not where a good value
for the same limit follows in the other spelling (`refusesLimits_iff`). Nor is it where the
separator among the literal options has no length (`Unmeasured`): that ends the reading of a
configuration before any error is told.
-/

namespace Calculator

namespace Limits

theorem ofValues_eq_ok_iff {length tokens depth : Nat} {l : Limits} :
    ofValues length tokens depth = .ok l ↔
      l.length = length ∧ l.tokens = tokens ∧ l.depth = depth := by
  constructor
  · intro h
    unfold ofValues at h
    split at h
    · split at h
      · split at h
        · cases h
          exact ⟨rfl, rfl, rfl⟩
        · cases h
      · cases h
    · cases h
  · rintro ⟨rfl, rfl, rfl⟩
    rw [ofValues, dif_pos l.length_pos, dif_pos l.tokens_pos, dif_pos l.depth_pos]

theorem forall_bound_iff {l : Limits} {f : Limit → Nat} :
    (∀ k, l.bound k = f k) ↔ l.length = f .length ∧ l.tokens = f .tokens ∧ l.depth = f .depth := by
  refine ⟨fun h => ⟨h .length, h .tokens, h .depth⟩, fun ⟨hl, ht, hd⟩ k => ?_⟩
  cases k
  · exact hl
  · exact ht
  · exact hd

end Limits

namespace Config

variable {entries fields : List (String × Setting)} {k : Limit} {l : Limits}

/-! ## Keys -/

/-- A key is one of the two spellings of a limit. -/
def Spells (key : String) (k : Limit) : Prop := key = camelName k ∨ key = k.name

instance (key : String) (k : Limit) : Decidable (Spells key k) :=
  inferInstanceAs (Decidable (_ ∨ _))

/-- What an object gives for a limit, in its order. -/
def given (entries : List (String × Setting)) (k : Limit) : List Setting :=
  (entries.filter fun e => Spells e.1 k).map Prod.snd

/-- The bound that stands last for a limit, if it is one; the default if none is given. -/
def lastBound? (entries : List (String × Setting)) (k : Limit) : Option Nat :=
  (given entries k).getLast?.elim (some (({} : Config).effectiveLimits.bound k)) Setting.positive?

theorem limitKey_eq_name_iff (key : String) (k : Limit) :
    limitKey key = k.name ↔ Spells key k := by
  unfold limitKey
  cases hfind : Limit.all.find? fun j => camelName j == key with
  | some j =>
    have hkey : camelName j = key := by simpa using List.find?_some hfind
    subst hkey
    cases j <;> cases k <;> decide
  | none =>
    have hother : camelName k ≠ key := by
      have hall := List.find?_eq_none.1 hfind k (by cases k <;> decide)
      simpa using hall
    exact ⟨.inr, fun h => h.resolve_left fun hkey => hother hkey.symm⟩

def plain (entries : List (String × Setting)) : List (String × Setting) :=
  entries.map fun e => (limitKey e.1, e.2)

theorem unknownKeys_eq_nil_iff {known : List String} :
    unknownKeys known fields = [] ↔ ∀ f ∈ fields, f.1 ∈ known := by
  rw [unknownKeys, ← List.length_eq_zero_iff, List.length_mergeSort, List.length_eq_zero_iff,
    List.filter_eq_nil_iff]
  simp

theorem unknownKeys_plain_eq_nil_iff :
    unknownKeys (Limit.all.map Limit.name) (plain entries) = [] ↔
      ∀ e ∈ entries, ∃ k, Spells e.1 k := by
  have hmem (key : String) : limitKey key ∈ Limit.all.map Limit.name ↔ ∃ k, Spells key k := by
    rw [List.mem_map]
    constructor
    · rintro ⟨k, _, hk⟩
      exact ⟨k, (limitKey_eq_name_iff key k).1 hk.symm⟩
    · rintro ⟨k, hk⟩
      exact ⟨k, by cases k <;> decide, ((limitKey_eq_name_iff key k).2 hk).symm⟩
  rw [unknownKeys_eq_nil_iff, plain]
  simp only [List.forall_mem_map, hmem]

/-! ## Values -/

/-- Of the values for a limit the last is found. -/
theorem field?_plain (entries : List (String × Setting)) (k : Limit) :
    Setting.field? (plain entries) k.name = (given entries k).getLast? := by
  induction entries using List.reverseRecOn with
  | nil => rfl
  | append_singleton entries e ih =>
    have hfield : Setting.field? (plain (entries ++ [e])) k.name =
        if Spells e.1 k then some e.2 else Setting.field? (plain entries) k.name := by
      rw [Setting.field?, plain, List.map_append, List.reverse_append, List.map_singleton,
        List.reverse_singleton, List.singleton_append, List.lookup_cons]
      by_cases h : Spells e.1 k
      · rw [if_pos h, (limitKey_eq_name_iff e.1 k).2 h, beq_self_eq_true]
      · have hne : (k.name == limitKey e.1) = false :=
          beq_eq_false_iff_ne.2 fun hkey => h ((limitKey_eq_name_iff e.1 k).1 hkey.symm)
        rw [if_neg h, hne]
        rfl
    rw [hfield, ih]
    by_cases h : Spells e.1 k <;> simp [given, h]

theorem positive?_pos {v : Setting} {n : Nat} (h : v.positive? = some n) : 0 < n := by
  unfold Setting.positive? at h
  split at h
  · split at h
    · cases h
      omega
    · cases h
  · cases h

theorem lastBound?_eq_none_iff : lastBound? entries k = none ↔
    ∃ v, (given entries k).getLast? = some v ∧ v.positive? = none := by
  unfold lastBound?
  cases (given entries k).getLast? <;> simp

theorem lastBound?_eq_some_iff {n : Nat} : lastBound? entries k = some n ↔
    (given entries k = [] ∧ n = ({} : Limits).bound k) ∨
      ∃ v, (given entries k).getLast? = some v ∧ v.positive? = some n := by
  unfold lastBound?
  cases hlast : (given entries k).getLast? with
  | none =>
    have hnil := List.getLast?_eq_none_iff.1 hlast
    simp [hnil, effectiveLimits, eq_comm]
  | some v =>
    have hne : given entries k ≠ [] := by
      intro hnil
      rw [hnil] at hlast
      cases hlast
    simp [hne]

theorem lastBound?_pos {n : Nat} (h : lastBound? entries k = some n) : 0 < n := by
  rcases lastBound?_eq_some_iff.1 h with ⟨_, rfl⟩ | ⟨v, _, hv⟩
  · exact Limits.bound_pos _ k
  · exact positive?_pos hv

theorem boundOf_plain (entries : List (String × Setting)) (k : Limit) :
    boundOf (plain entries) k = (lastBound? entries k).getD 0 := by
  rw [boundOf, field?_plain, lastBound?]
  cases (given entries k).getLast? <;> rfl

theorem limitsOfObject_eq_ok_iff :
    limitsOfObject entries = .ok l ↔
      (∀ e ∈ entries, ∃ k, Spells e.1 k) ∧ ∀ k, lastBound? entries k = some (l.bound k) := by
  have hbound (k : Limit) :
      l.bound k = boundOf (plain entries) k ↔ lastBound? entries k = some (l.bound k) := by
    have hpos := l.bound_pos k
    rw [boundOf_plain]
    cases lastBound? entries k with
    | none => simp; omega
    | some n => simp [eq_comm]
  rw [← unknownKeys_plain_eq_nil_iff, ← forall_congr' hbound, Limits.forall_bound_iff,
    ← Limits.ofValues_eq_ok_iff]
  show _ ↔ _ ∧ limitsOfFields (plain entries) = .ok l
  unfold limitsOfObject
  dsimp only
  split
  · next h => exact Result.mapError_eq_ok_iff.trans (iff_and_self.2 fun _ => h)
  · next h =>
    constructor
    · intro hok
      cases hok
    · intro hok
      exact absurd hok.1 h

theorem exists_limitsOfObject_iff :
    (∃ l, limitsOfObject entries = .ok l) ↔
      (∀ e ∈ entries, ∃ k, Spells e.1 k) ∧ ∀ k, lastBound? entries k ≠ none := by
  simp only [limitsOfObject_eq_ok_iff]
  constructor
  · rintro ⟨l, hkeys, hbounds⟩
    exact ⟨hkeys, fun k h => by rw [hbounds k] at h; cases h⟩
  · rintro ⟨hkeys, hbounds⟩
    obtain ⟨a, ha⟩ := Option.ne_none_iff_exists'.1 (hbounds .length)
    obtain ⟨b, hb⟩ := Option.ne_none_iff_exists'.1 (hbounds .tokens)
    obtain ⟨c, hc⟩ := Option.ne_none_iff_exists'.1 (hbounds .depth)
    refine ⟨⟨a, b, c, lastBound?_pos ha, lastBound?_pos hb, lastBound?_pos hc⟩, hkeys, fun k => ?_⟩
    cases k
    · exact ha
    · exact hb
    · exact hc

/-! ## Errors -/

theorem location_of_mem_readField {α : Type} {key : String} {r : Except Flaw α} {e : Error}
    (he : e ∈ (readField key r).2) : e.location = [key] := by
  cases r with
  | ok a => cases he
  | error f => rw [List.mem_singleton.1 he]

theorem location_of_mem_optionsField {v? : Option Setting} {x : Field (Option Options)}
    (hx : optionsField key v? = .ok x) {e : Error} (he : e ∈ x.2) : e.location = [key] := by
  unfold optionsField at hx
  split at hx
  · cases hx
    cases he
  · cases hx
    cases he
  · obtain ⟨r, -, rfl⟩ := Result.map_eq_ok_iff.1 hx
    exact location_of_mem_readField he
  · cases hx
    rw [List.mem_singleton.1 he]

theorem location_of_mem_switchField {key : String} {v? : Option Setting} {e : Error}
    (he : e ∈ (switchField key v?).2) : e.location = [key] := by
  unfold switchField at he
  split at he
  · cases he
  · split at he
    · cases he
    · rw [List.mem_singleton.1 he]

theorem location_of_mem_constantFields {fields : List (String × Setting)} {e : Error}
    (he : e ∈ (constantFields fields).2) : e.location.head? = some "constants" := by
  unfold constantFields at he
  induction fields using List.reverseRecOn with
  | nil => cases he
  | append_singleton fields f ih =>
    rw [List.foldl_append, List.foldl_cons, List.foldl_nil] at he
    rcases List.mem_append.1 he with he | he
    · exact ih he
    · unfold constantField at he
      split at he
      · cases he
      · rw [List.mem_singleton.1 he]
        rfl

theorem location_of_mem_constantsField {v? : Option Setting} {e : Error}
    (he : e ∈ (constantsField v?).2) : e.location.head? = some "constants" := by
  unfold constantsField at he
  split at he
  · cases he
  · exact location_of_mem_constantFields he
  · rw [List.mem_singleton.1 he]
    rfl

theorem spelling_cases (fields : List (String × Setting)) (camel plain : String) :
    spelling fields camel plain = camel ∨ spelling fields camel plain = plain := by
  unfold spelling
  split
  · exact .inl rfl
  · split
    · exact .inr rfl
    · exact .inl rfl

/-! ## Separators without a length -/

/-- The options have known keys only, and their separator is a truth value or a number. -/
inductive Unmeasured (fields : List (String × Setting)) (u : Setting.Unsized) : Prop where
  | intro (options : List (String × Setting)) (v : Setting)
    (hfield : Setting.field? fields (spelling fields "numberOptions" "number_options") =
      some (.object options))
    (hkeys : ∀ e ∈ options, e.1 ∈ Options.keys)
    (hv : Setting.field? options "separator" = some v) (hnull : v ≠ .null)
    (hlength : v.length = .error u)

theorem separator_eq_error_iff {v : Setting} {u : Setting.Unsized} :
    Separator.ofSetting v = .error u ↔ v ≠ .null ∧ v.length = .error u := by
  cases v with
  | null => exact ⟨nofun, fun h => absurd rfl h.1⟩
  | text s =>
    simp only [Separator.ofSetting, Setting.length]
    split <;> simp
  | list xs => exact ⟨nofun, nofun⟩
  | object fields => exact ⟨nofun, nofun⟩
  | _ => simp [Separator.ofSetting, Result.map_eq_error_iff]

theorem optionsOfObject_eq_error_iff {u : Setting.Unsized} :
    optionsOfObject fields = .error u ↔ (∀ e ∈ fields, e.1 ∈ Options.keys) ∧
      ∃ v, Setting.field? fields "separator" = some v ∧ v ≠ .null ∧ v.length = .error u := by
  rw [← unknownKeys_eq_nil_iff]
  unfold optionsOfObject
  split
  · next hkeys =>
    rw [Result.map_eq_error_iff, Options.ofFields]
    dsimp only
    cases Setting.field? fields "separator" with
    | none => simp
    | some v =>
      simp only [Result.map_eq_error_iff, separator_eq_error_iff]
      exact ⟨fun h => ⟨hkeys, v, rfl, h⟩, fun ⟨_, _, hv, h⟩ => Option.some.inj hv ▸ h⟩
  · next hkeys =>
    exact ⟨nofun, fun h => absurd h.1 hkeys⟩

theorem optionsField_eq_error_iff {v? : Option Setting} {u : Setting.Unsized} :
    optionsField key v? = .error u ↔
      ∃ options, v? = some (.object options) ∧ optionsOfObject options = .error u := by
  unfold optionsField
  split
  · simp
  · simp
  · simp [Result.map_eq_error_iff]
  · next hobject => simp_all

/-- Nothing else ends the reading of a configuration. -/
theorem ofSetting_eq_unsized_iff {u : Setting.Unsized} :
    ofSetting (.object fields) = .error (.unsized u) ↔ Unmeasured fields u := by
  have hread : ofSetting (.object fields) = .error (.unsized u) ↔
      optionsField (spelling fields "numberOptions" "number_options")
        (Setting.field? fields (spelling fields "numberOptions" "number_options")) = .error u := by
    simp only [ofSetting, Result.bind_eq_error_iff, Result.mapError_eq_error_iff]
    constructor
    · rintro (⟨u', hu, hsame⟩ | ⟨options, -, hrest⟩)
      · cases hsame
        exact hu
      · split at hrest <;> cases hrest
    · exact fun hu => .inl ⟨u, hu, rfl⟩
  rw [hread, optionsField_eq_error_iff]
  constructor
  · rintro ⟨options, hfield, herror⟩
    obtain ⟨hkeys, v, hv, hnull, hlength⟩ := optionsOfObject_eq_error_iff.1 herror
    exact ⟨options, v, hfield, hkeys, hv, hnull, hlength⟩
  · rintro ⟨options, v, hfield, hkeys, hv, hnull, hlength⟩
    exact ⟨options, hfield, optionsOfObject_eq_error_iff.2 ⟨hkeys, v, hv, hnull, hlength⟩⟩

example : ofSetting (.object [("limits", .object [("maxTokens", .int 0)]),
    ("number_options", .object [("separator", .int 5)])]) = .error (.unsized ⟨"int"⟩) :=
  ofSetting_eq_unsized_iff.2 ⟨_, .int 5, rfl, by decide, rfl, nofun, rfl⟩

/-! ## Limits of a configuration -/

/-- Unless the reading ends before, a configuration has the limits that its field gives, or is
refused with the errors of this field before others that are about other fields. -/
theorem ofSetting_limits (fields : List (String × Setting)) :
    let limits := limitsField (Setting.field? fields "limits")
    (∃ u, ofSetting (.object fields) = .error (.unsized u)) ∨
      (∃ c, ofSetting (.object fields) = .ok c ∧ limits = (c.limits, [])) ∨
      ∃ others, ofSetting (.object fields) = .error (.errors (limits.2 ++ others)) ∧
        ∀ e ∈ others, e.location ≠ ["limits"] := by
  intro limits
  simp only [ofSetting]
  cases hoptions : optionsField (spelling fields "numberOptions" "number_options")
      (Setting.field? fields (spelling fields "numberOptions" "number_options")) with
  | error u => exact .inl ⟨u, rfl⟩
  | ok options =>
    simp only [Result.ok_mapError, Result.ok_bind]
    split
    · next hnone =>
      have hlimits : limits.2 = [] := by
        simp only [List.append_eq_nil_iff] at hnone
        exact hnone.1.1.1.1
      exact .inr (.inl ⟨_, rfl, Prod.ext rfl hlimits⟩)
    · refine .inr (.inr ⟨_, by simp only [List.append_assoc]; rfl, fun e he => ?_⟩)
      have spelt {camel plain : String} (hcamel : camel ≠ "limits") (hplain : plain ≠ "limits") :
          [spelling fields camel plain] ≠ ["limits"] := by
        rcases spelling_cases fields camel plain with h | h <;> rw [h] <;> simpa
      rcases List.mem_append.1 he with he | he
      · rw [location_of_mem_optionsField hoptions he]
        exact spelt (by decide) (by decide)
      rcases List.mem_append.1 he with he | he
      · intro hlocation
        have hconstants := location_of_mem_constantsField he
        rw [hlocation] at hconstants
        exact absurd hconstants (by decide)
      rcases List.mem_append.1 he with he | he
      · rw [location_of_mem_switchField he]
        exact spelt (by decide) (by decide)
      · obtain ⟨key, hkey, rfl⟩ := List.mem_map.1 he
        have hunknown := (List.mem_filter.1 hkey).2
        rintro ⟨⟩
        simp at hunknown

/-- A formula under the configuration that a setting value gives, or why there is none. -/
def create (v : Setting) (source : Option String) : Except Refusal Worksheet.Answer :=
  (ofSetting v).map fun c => Preset.create c source

/-- Neither a configuration nor a formula is made, because of the limits. -/
def RefusesLimits (v : Setting) : Prop :=
  ∃ errors, ofSetting v = .error (.errors errors) ∧
    (∀ source, create v source = .error (.errors errors)) ∧ ∃ f, ⟨["limits"], .flaw f⟩ ∈ errors

theorem refusesLimits_iff_error (h : Setting.field? fields "limits" = some (.object entries)) :
    RefusesLimits (.object fields) ↔
      (∀ u, ¬ Unmeasured fields u) ∧ ∀ l, limitsOfObject entries ≠ .ok l := by
  have hcases := ofSetting_limits fields
  simp only [h, limitsField] at hcases
  simp only [← ofSetting_eq_unsized_iff]
  rcases hcases with ⟨u, hu⟩ | ⟨c, hc, hlimits⟩ | ⟨others, hothers, hlocations⟩
  · refine ⟨fun ⟨errors, herrors, _⟩ => ?_, fun h => absurd hu (h.1 u)⟩
    rw [hu] at herrors
    cases herrors
  · refine ⟨fun ⟨errors, herrors, _⟩ => ?_, fun h => ?_⟩
    · rw [hc] at herrors
      cases herrors
    · cases hread : limitsOfObject entries with
      | ok l => exact absurd hread (h.2 l)
      | error f =>
        rw [hread] at hlimits
        cases congrArg Prod.snd hlimits
  · cases hread : limitsOfObject entries with
    | ok l =>
      refine ⟨fun ⟨errors, herrors, _, f, hf⟩ => ?_, fun h => absurd rfl (h.2 l)⟩
      rw [hothers, hread] at herrors
      cases herrors
      exact absurd rfl (hlocations _ hf)
    | error f =>
      rw [hread] at hothers
      refine ⟨fun _ => ⟨fun u hu => ?_, nofun⟩, fun _ => ?_⟩
      · rw [hothers] at hu
        cases hu
      · exact ⟨_, hothers, fun source => by rw [create, hothers]; rfl, f, List.mem_cons_self⟩

theorem effectiveLimits_of_ofSetting {c : Config}
    (h : Setting.field? fields "limits" = some (.object entries))
    (hc : ofSetting (.object fields) = .ok c) :
    limitsOfObject entries = .ok c.effectiveLimits := by
  have hcases := ofSetting_limits fields
  rw [hc] at hcases
  rcases hcases with ⟨u, hu⟩ | ⟨c', hc', hlimits⟩ | ⟨others, hothers, _⟩
  · cases hu
  · cases hc'
    rw [h, limitsField] at hlimits
    cases hread : limitsOfObject entries with
    | ok l =>
      rw [hread] at hlimits
      have hlimits : some l = c.limits := congrArg Prod.fst hlimits
      rw [effectiveLimits, ← hlimits, Option.getD_some]
    | error f =>
      rw [hread] at hlimits
      cases congrArg Prod.snd hlimits
  · cases hothers

theorem limits_create (c : Config) (source : Option String) :
    (Preset.create c source).sheet.formula.settings.limits = c.effectiveLimits := by
  cases source with
  | none => rfl
  | some source =>
    exact congrArg Settings.limits (Formula.settings_parse ((Preset.sheet c).formula.load source) _)

/--
A configuration is refused for its limits exactly where one of their keys is unknown, or where of
the values for one limit the last is no positive whole number, unless a separator without a length
ends the reading. That is every such value where no limit is given twice. Otherwise each limit is
the value that stands last for it, or its default.
-/
theorem refusesLimits_iff (h : Setting.field? fields "limits" = some (.object entries)) :
    (∀ u, ofSetting (.object fields) = .error (.unsized u) ↔ Unmeasured fields u) ∧
      (RefusesLimits (.object fields) ↔ (∀ u, ¬ Unmeasured fields u) ∧
        ((∃ e ∈ entries, ∀ k, ¬ Spells e.1 k) ∨
          ∃ k v, (given entries k).getLast? = some v ∧ v.positive? = none)) ∧
      ((∀ u, ¬ Unmeasured fields u) → (∀ k, (given entries k).length ≤ 1) →
        ∀ k, ∀ v ∈ given entries k, v.positive? = none → RefusesLimits (.object fields)) ∧
      ∀ c, ofSetting (.object fields) = .ok c → ∀ source k,
        let n := (Preset.create c source).sheet.formula.settings.limits.bound k
        (given entries k = [] ∧ n = ({} : Limits).bound k) ∨
          ∃ v, (given entries k).getLast? = some v ∧ v.positive? = some n := by
  have hiff : RefusesLimits (.object fields) ↔ (∀ u, ¬ Unmeasured fields u) ∧
      ((∃ e ∈ entries, ∀ k, ¬ Spells e.1 k) ∨
        ∃ k v, (given entries k).getLast? = some v ∧ v.positive? = none) := by
    rw [refusesLimits_iff_error h]
    refine and_congr_right fun _ => ?_
    rw [← not_exists, exists_limitsOfObject_iff]
    simp only [← lastBound?_eq_none_iff, Classical.not_and_iff_not_or_not, Classical.not_forall,
      not_exists, exists_prop, Classical.not_not]
  refine ⟨fun u => ofSetting_eq_unsized_iff, hiff, fun hmeasured honce k v hv hinvalid => ?_,
    fun c hc source k => ?_⟩
  · have hlast : (given entries k).getLast? = some v := by
      obtain ⟨w, hw⟩ := List.length_eq_one_iff.1
        (Nat.le_antisymm (honce k) (List.length_pos_of_mem hv))
      rw [hw] at hv ⊢
      rw [List.mem_singleton.1 hv]
      rfl
    exact hiff.2 ⟨hmeasured, .inr ⟨k, v, hlast, hinvalid⟩⟩
  · have hlast := (limitsOfObject_eq_ok_iff.1 (effectiveLimits_of_ofSetting h hc)).2 k
    rw [← limits_create c source] at hlast
    exact lastBound?_eq_some_iff.1 hlast

/-- A separator of two characters has a length. -/
theorem refusesLimits_zero :
    let entries : List (String × Setting) := [("maxTokens", .int 0), ("maxParenDepth", .int 5)]
    let fields : List (String × Setting) :=
      [("limits", .object entries), ("number_options", .object [("separator", .text "__")])]
    Setting.field? fields "limits" = some (.object entries) ∧ (∀ u, ¬ Unmeasured fields u) ∧
      RefusesLimits (.object fields) := by
  intro entries fields
  have hmeasured : ∀ u, ¬ Unmeasured fields u := by
    rintro u ⟨options, v, hfield, -, hv, -, hlength⟩
    cases hfield
    cases hv
    cases hlength
  exact ⟨rfl, hmeasured, (refusesLimits_iff rfl).2.2.1 hmeasured (fun k => by cases k <;> decide)
    .tokens (.int 0) List.mem_cons_self rfl⟩

/-- A bad value and then, in the other spelling, a good one for the same limit. -/
def respelt : List (String × Setting) := [("maxTokens", .int 0), ("max_tokens", .int 5)]

theorem not_refusesLimits_respelt :
    Setting.int 0 ∈ given respelt .tokens ∧ (Setting.int 0).positive? = none ∧
      ¬ RefusesLimits (.object [("limits", .object respelt)]) ∧
      ∃ c, ofSetting (.object [("limits", .object respelt)]) = .ok c ∧
        c.effectiveLimits.tokens = 5 := by
  have hread : limitsOfObject respelt = .ok { tokens := 5 } := by
    refine limitsOfObject_eq_ok_iff.2 ⟨?_, fun k => by cases k <;> rfl⟩
    simp only [respelt, List.forall_mem_cons]
    exact ⟨⟨.tokens, .inl rfl⟩, ⟨.tokens, .inr rfl⟩, nofun⟩
  have hfield : Setting.field? [("limits", .object respelt)] "limits" = some (.object respelt) :=
    rfl
  refine ⟨List.mem_cons_self, rfl,
    fun hrefused => ((refusesLimits_iff_error rfl).1 hrefused).2 _ hread,
    { limits := some { tokens := 5 } }, ?_, rfl⟩
  simp only [ofSetting, hfield, limitsField, hread]
  rfl

end Config

end Calculator
