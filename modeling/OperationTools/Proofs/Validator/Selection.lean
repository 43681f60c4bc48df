import OperationTools.Validator.Policy

/-!
# Taken selections

A selection is taken if it has no issues and asks for no parts of a leaf. A strict selection takes
an object exactly if it knows every key and takes what stands under it. A lazy selection lets the
keys pass that it does not know.

## Main definitions

* `Validator.takes`, `SelectionPolicy.takes`: whether a selection is taken

## Main results

* `Validator.takes_strictSelection_iff`, `Validator.takes_lazySelection_obj_iff`: what is taken
* `SelectionPolicy.judge_obj_eq_ok_iff`: a policy judges as its validator does, unless nothing is
  asked for
-/

namespace OperationTools

/-- A change of the error leaves success as it is. -/
theorem mapError_eq_ok_iff {ε ε' α : Type} {f : ε → ε'} {r : Except ε α} {a : α} :
    r.mapError f = .ok a ↔ r = .ok a := by
  cases r with
  | error => constructor <;> intro h <;> cases h
  | ok => constructor <;> intro h <;> cases h <;> rfl

namespace Validator

/-- Whether a selection has no issues and asks for no parts of a leaf. -/
def takes (v : Validator) (x : Json) : Bool := !v.overreaches x && v.accepts x

theorem takes_iff {v : Validator} {x : Json} :
    v.takes x = true ↔ v.overreaches x = false ∧ (v.report x).issues = [] := by
  simp [takes, accepts]

theorem overreachesEntries_eq_any (v : Validator) (entries : List (String × Json)) :
    overreachesEntries v entries =
      entries.any fun e => (v.child? e.1).any fun c => overreaches c e.2 := by
  induction entries with
  | nil => rfl
  | cons e rest ih => simp [overreachesEntries, ih]

theorem overreachesEntries_eq_false_iff {v : Validator} {entries : List (String × Json)} :
    overreachesEntries v entries = false ↔
      ∀ e ∈ entries, ∀ c, v.child? e.1 = some c → c.overreaches e.2 = false := by
  rw [overreachesEntries_eq_any, List.any_eq_false]
  apply forall₂_congr
  intro e _
  cases v.child? e.1 <;> simp

/-- An entry of a strict selection has no issues if its key is known and its value has none. -/
theorem issues_strictEntryReport_eq_nil_iff {typeName key : String} {checked : Option Report} :
    (strictEntryReport typeName key checked).issues = [] ↔
      ∃ r, checked = some r ∧ r.issues = [] := by
  cases checked <;> simp [strictEntryReport]

/-- The entries of a strict selection are reported on one by one. -/
theorem report_strictSelection_obj (typeName : String)
    (fields fragments : List (String × Validator)) (entries : List (String × Json)) :
    (strictSelection typeName fields fragments).report (.obj entries) =
      .collect (.obj (entries.map fun e => (e.1, (strictEntryReport typeName e.1
        (((strictSelection typeName fields fragments).child? e.1).map (report · e.2))).value)))
        (entries.map fun e => strictEntryReport typeName e.1
          (((strictSelection typeName fields fragments).child? e.1).map (report · e.2))) := by
  simp only [report, reportEntries_eq_map, objectReport, List.map_map]
  rfl

/-- A strict selection has no issues with an object if it knows the keys and has no issues with what
stands under them. -/
theorem issues_strictSelection_eq_nil_iff {typeName : String}
    {fields fragments : List (String × Validator)} {entries : List (String × Json)} :
    ((strictSelection typeName fields fragments).report (.obj entries)).issues = [] ↔
      ∀ e ∈ entries, ∃ c, (strictSelection typeName fields fragments).child? e.1 = some c ∧
        (c.report e.2).issues = [] := by
  rw [report_strictSelection_obj, Report.issues_collect, List.flatMap_map, List.flatMap_eq_nil_iff]
  apply forall₂_congr
  intro e _
  rw [issues_strictEntryReport_eq_nil_iff]
  constructor
  · rintro ⟨_, hmap, hr⟩
    obtain ⟨c, hc, rfl⟩ := Option.map_eq_some_iff.1 hmap
    exact ⟨c, hc, hr⟩
  · rintro ⟨c, hc, hr⟩
    exact ⟨_, Option.map_eq_some_iff.2 ⟨c, hc, rfl⟩, hr⟩

/-- A strict selection takes an object if it knows the keys and takes what stands under them. -/
theorem takes_strictSelection_iff {typeName : String} {fields fragments : List (String × Validator)}
    {entries : List (String × Json)} :
    (strictSelection typeName fields fragments).takes (.obj entries) = true ↔
      ∀ e ∈ entries, ∃ c, (strictSelection typeName fields fragments).child? e.1 = some c ∧
        c.takes e.2 = true := by
  have hparts : (strictSelection typeName fields fragments).lacksParts = false := rfl
  rw [takes_iff, issues_strictSelection_eq_nil_iff, overreaches, hparts, Bool.false_and,
    Bool.false_or, overreachesEntries_eq_false_iff]
  constructor
  · rintro ⟨hover, hknown⟩ e he
    obtain ⟨c, hc, hr⟩ := hknown e he
    exact ⟨c, hc, takes_iff.2 ⟨hover e he c hc, hr⟩⟩
  · intro h
    constructor
    · intro e he c hc
      obtain ⟨c', hc', ht⟩ := h e he
      cases hc.symm.trans hc'
      exact (takes_iff.1 ht).1
    · intro e he
      obtain ⟨c, hc, ht⟩ := h e he
      exact ⟨c, hc, (takes_iff.1 ht).2⟩

/-- A lazy selection has no issues with an object if it has none with what stands under the keys
that it knows. -/
theorem issues_lazySelection_eq_nil_iff {schema : Schema} {implementers : Bool} {typeName : String}
    {entries : List (String × Json)} :
    ((lazySelection schema implementers typeName).report (.obj entries)).issues = [] ↔
      ∀ e ∈ entries, ∀ c, (lazySelection schema implementers typeName).child? e.1 = some c →
        (c.report e.2).issues = [] := by
  simp only [report, reportEntries_eq_map, objectReport, Report.issues_collect,
    List.flatMap_eq_nil_iff, List.mem_filterMap, List.mem_map]
  constructor
  · intro h e he c hc
    have hr := h _ ⟨_, ⟨e, he, rfl⟩, by rw [hc]; rfl⟩
    simpa using hr
  · rintro h _ ⟨_, ⟨e, he, rfl⟩, hr⟩
    cases hc : (lazySelection schema implementers typeName).child? e.1 with
    | none => simp [hc] at hr
    | some c =>
      simp only [hc, Option.map_some, Option.some.injEq] at hr
      rw [← hr, Report.issues_under, h e he c hc, List.map_nil]

/-- A lazy selection takes an object if it takes what stands under the keys that it knows. On a leaf
nothing but the type name may be asked for. -/
theorem takes_lazySelection_obj_iff {schema : Schema} {implementers : Bool} {typeName : String}
    {entries : List (String × Json)} :
    (lazySelection schema implementers typeName).takes (.obj entries) = true ↔
      (schema.isLeaf typeName = true → ∀ e ∈ entries, e.1 = typenameKey) ∧
      ∀ e ∈ entries, ∀ c, (lazySelection schema implementers typeName).child? e.1 = some c →
        c.takes e.2 = true := by
  have hparts : (lazySelection schema implementers typeName).lacksParts = schema.isLeaf typeName :=
    rfl
  rw [takes_iff, issues_lazySelection_eq_nil_iff, overreaches, hparts, Bool.or_eq_false_iff,
    overreachesEntries_eq_false_iff, and_assoc]
  refine and_congr ?_ ⟨fun h e he c hc => ?_, fun h => ⟨fun e he c hc => ?_, fun e he c hc => ?_⟩⟩
  · cases schema.isLeaf typeName <;> simp
  · exact takes_iff.2 ⟨h.1 e he c hc, h.2 e he c hc⟩
  · exact (takes_iff.1 (h e he c hc)).1
  · exact (takes_iff.1 (h e he c hc)).2

/-- On a type that is no leaf only what stands under known keys matters. -/
theorem takes_lazySelection_iff {schema : Schema} {implementers : Bool} {typeName : String}
    {entries : List (String × Json)} (hl : schema.isLeaf typeName = false) :
    (lazySelection schema implementers typeName).takes (.obj entries) = true ↔
      ∀ e ∈ entries, ∀ c, (lazySelection schema implementers typeName).child? e.1 = some c →
        c.takes e.2 = true := by
  rw [takes_lazySelection_obj_iff, hl]
  exact and_iff_right nofun

/-- What a lazy selection knows takes `null`. -/
theorem takes_null_of_child?_lazySelection {schema : Schema} {implementers : Bool}
    {typeName key : String} {c : Validator}
    (h : (lazySelection schema implementers typeName).child? key = some c) :
    c.takes .null = true := by
  by_cases hk : key = typenameKey
  · rw [child?, if_pos hk] at h
    cases h
    rfl
  · rw [child?, if_neg hk] at h
    obtain ⟨part, -, rfl⟩ := Option.map_eq_some_iff.1 h
    cases part <;> rfl

end Validator

namespace SelectionPolicy

/-- Whether a selection is meant by a value. -/
def takes (policy : SelectionPolicy) (x : Json) : Bool := (policy.judge x).isOk

/-- Parts are judged by the validator. A leaf has none, in a policy or out of it. -/
theorem judge_obj_eq_ok_iff {policy : SelectionPolicy} {entries : List (String × Json)}
    (h : entries ≠ []) {y : Json} :
    policy.judge (.obj entries) = .ok y ↔ policy.validator.takes (.obj entries) = true ∧
      (policy.validator.report (.obj entries)).value = y := by
  obtain ⟨e, rest, rfl⟩ := List.exists_cons_of_ne_nil h
  by_cases hv : policy.validator = .leaf
  · have hjudge : policy.judge (.obj (e :: rest)) =
        .error (.issue { cls := .selectionMismatch, reason := .scalarResult }) := by
      rw [judge, hv]
      exact h
    have hleaf : Validator.leaf.takes (.obj (e :: rest)) = false := by
      simp [Validator.takes, Validator.accepts, Validator.report, Validator.objectReport,
        Validator.shallowReport]
    rw [hjudge, hv, hleaf]
    simp
  · have hjudge : policy.judge (.obj (e :: rest)) =
        if policy.validator.overreaches (.obj (e :: rest)) then .error .partsOfLeaf
        else (policy.validator.judge (.obj (e :: rest))).mapError .issue := by
      rw [judge]
      · split
        · exact absurd ‹_› hv
        · rfl
      · exact h
    rw [hjudge, Validator.takes_iff, and_assoc, ← Report.verdict_eq_ok_iff, ← Validator.judge]
    cases policy.validator.overreaches (.obj (e :: rest)) with
    | true => simp
    | false => simpa using mapError_eq_ok_iff

/-- Parts are taken as the validator takes them. -/
theorem takes_obj {policy : SelectionPolicy} {entries : List (String × Json)}
    (h : entries ≠ []) : policy.takes (.obj entries) = policy.validator.takes (.obj entries) := by
  have hok := fun y => @judge_obj_eq_ok_iff policy entries h y
  rw [takes]
  cases hj : policy.judge (.obj entries) with
  | ok y => rw [((hok y).1 hj).1]; rfl
  | error e =>
    have hn : policy.validator.takes (.obj entries) ≠ true := by
      intro ht
      have := (hok _).2 ⟨ht, rfl⟩
      rw [hj] at this
      cases this
    rw [eq_false_of_ne_true hn]
    rfl

end SelectionPolicy

end OperationTools
