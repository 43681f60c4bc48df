import OperationTools.Proofs.Compilation.InputSharing
import OperationTools.Proofs.Json.Expressible
import OperationTools.Proofs.Tool.Render
import OperationTools.Proofs.Validator.Cleaning

/-!
# Accepted variables

A tool checks its variables with a validator of arguments. What such a validator makes of a value
that was read is no less tidy than the value: the integers that it puts in the place of numbers are
short, and the objects that it makes have each of its fields once. And what it has made is accepted
once more and left as it is.

## Main results

* `Validator.ForArguments.tidy_value`: what is made of a tidy value is tidy
* `Tool.Compiled.forArguments`: the variables of a tool are checked by a validator of arguments
* `Tool.acceptVariables_again`: accepted variables are accepted as they are
* `Tool.tidy_of_acceptVariables`: accepted variables are tidy if the variables are
-/

namespace OperationTools

namespace Validator

variable {v : Validator} {x : Json}

/-- An integer that is equal to a number is short: no finite number has more than 309 digits in front
of the point. -/
theorem legible_of_value? {a : Binary64} {n : Int} (h : a.value? = some (n : ℚ)) :
    Json.Legible (.int n) := by
  cases a with
  | nan | infinite => cases h
  | finite negative mantissa exponent hc =>
    have hmagnitude : ((n.natAbs : Nat) : ℚ) = mantissa * 2 ^ exponent := by
      have habs := congrArg abs (Option.some.inj h)
      rw [abs_mul, abs_of_nonneg (by positivity : (0 : ℚ) ≤ mantissa * 2 ^ exponent)] at habs
      rw [Nat.cast_natAbs, Int.cast_abs, ← habs]
      cases negative <;> simp
    have hlt : ((n.natAbs : Nat) : ℚ) < 10 ^ (309 : Int) := by
      rw [hmagnitude]
      rcases Nat.eq_zero_or_pos mantissa with rfl | hm
      · rw [Nat.cast_zero, zero_mul]
        positivity
      · exact (Binary64.between_of_canonical hc hm).2
    exact Json.legible_of_lt (by exact_mod_cast hlt) (by decide : 309 ≤ Text.maxIntegerDigits)

theorem tidy_valueAt (h : x ≠ .null → Json.Everywhere Json.Tidy (v.report x).value) :
    Json.Everywhere Json.Tidy (v.valueAt x) := by
  unfold valueAt
  split
  · exact .scalar (by simp [Json.kind]) (by simp [Json.kind]) ⟨trivial, trivial⟩
  · exact h ‹_›

/-- What is made of a tidy value is tidy. -/
theorem ForArguments.tidy_value (hv : v.ForArguments) (ha : v.accepts x = true)
    (hx : Json.Everywhere Json.Tidy x) : Json.Everywhere Json.Tidy (v.report x).value := by
  induction hv generalizing x with
  | any => rwa [ForArguments.any.value_of_leavesAll rfl]
  | string => rwa [ForArguments.string.value_of_leavesAll rfl]
  | number => rwa [ForArguments.number.value_of_leavesAll rfl]
  | boolean => rwa [ForArguments.boolean.value_of_leavesAll rfl]
  | literal s => rwa [(ForArguments.literal s).value_of_leavesAll rfl]
  | enumeration values => rwa [(ForArguments.enumeration values).value_of_leavesAll rfl]
  | permissive typeName fields =>
    rwa [(ForArguments.permissive typeName fields).value_of_leavesAll rfl]
  | integer =>
    obtain ⟨n, hn, rfl | ⟨a, rfl, hvalue⟩⟩ := exists_value_integer ha
    · rwa [hn]
    · rw [hn]
      exact .scalar (by simp [Json.kind]) (by simp [Json.kind]) ⟨legible_of_value? hvalue, trivial⟩
  | list nullItems _ ih =>
    obtain ⟨items, rfl, -⟩ := accepts_list_iff.1 ha
    obtain ⟨-, hitems⟩ := Json.Everywhere.arr_iff.1 hx
    rw [value_list]
    refine .arr ⟨trivial, trivial⟩ (List.forall_mem_map.2 fun y hy => tidy_valueAt fun hne => ?_)
    obtain ⟨i, hi⟩ := List.mem_iff_getElem?.1 hy
    exact ih (accepts_item ha hi hne) (hitems y hy)
  | @object typeName fields hn _ ih =>
    obtain ⟨entries, rfl, -⟩ := (accepts_object_iff hn).1 ha
    obtain ⟨-, hentries⟩ := Json.Everywhere.obj_iff.1 hx
    have hkeys := keys_value_object hn ha
    rw [value_object hn ha] at hkeys ⊢
    refine .obj ⟨trivial, ?_⟩ fun e he => ?_
    · rw [Json.Distinct, ← Json.entries_obj (List.filterMap _ _), hkeys]
      exact hn.filter _
    · obtain ⟨m, hm, he⟩ := List.mem_filterMap.1 he
      obtain ⟨_, hy, rfl⟩ := Option.map_eq_some_iff.1 he
      obtain ⟨y, hlookup, rfl⟩ := Option.map_eq_some_iff.1 hy
      exact tidy_valueAt fun hne => ih m hm (accepts_field hn ha hm hlookup hne)
        (hentries _ (Entries.mem_of_lookup hlookup))

end Validator

/-! ## Validators of the arguments of tools -/

namespace InputTypes

variable {types : InputTypes}

theorem forArguments_enumValidator (values : List String) :
    (enumValidator values).ForArguments := by
  unfold enumValidator
  split
  · exact .string
  · exact .literal _
  · exact .enumeration _

/-- What stands for an input type is a validator of arguments, if those of scalars are. -/
theorem Stands.forArguments (hl : types.schema.Lawful)
    (hscalars : ∀ n, (types.scalars.validator n).ForArguments) {memo : Memo} {r : TypeRef}
    {v : Validator} (h : types.Stands memo r v) : v.ForArguments := by
  induction h with
  | cut r => exact .any
  | list _ ih => exact ih.list _
  | nonNull _ ih => exact ih
  | scalar => exact hscalars _
  | enum => exact forArguments_enumValidator _
  | inside => exact .permissive _ _
  | @whole n fields part hb _ _ ih =>
    refine .object _ ?_ (List.forall_mem_map.2 fun f hf => ih f.type (List.mem_map_of_mem hf))
    rw [List.map_map]
    exact nodup_knownFields hl hb

theorem forArguments_standard (n : String) : (ScalarTable.standard.validator n).ForArguments := by
  have hentries : ∀ e ∈ ScalarTable.standard.entries, e.2.ForArguments := by
    simp only [ScalarTable.standard, List.forall_mem_cons, List.not_mem_nil, false_implies,
      implies_true, and_true]
    exact ⟨.string, .string, .integer, .number, .boolean⟩
  unfold ScalarTable.validator
  cases hn : ScalarTable.standard.entries.lookup n with
  | none => exact .string
  | some v => exact hentries _ (Entries.mem_of_lookup hn)

end InputTypes

namespace Tool

variable {tool : Tool} {inputs : InputTypes} {outputs : OutputTypes}

/-- The variables of a tool are checked by a validator of arguments. -/
theorem Compiled.forArguments (hc : tool.Compiled inputs outputs) (hl : inputs.schema.Lawful)
    (hscalars : ∀ n, (inputs.scalars.validator n).ForArguments)
    (hd : (tool.operation.arguments.map (·.name)).Nodup) : tool.arguments.ForArguments := by
  obtain ⟨s, t, u, hs, -, hv, -⟩ := hc
  obtain ⟨part, hpart, hthread⟩ := InputTypes.yields_ofOperation_iff.1 hv
  rw [hpart, InputTypes.argumentsOf_eq hd]
  refine .object _ (by rw [List.map_map]; exact hd) (List.forall_mem_map.2 fun a ha => ?_)
  have hstands := InputTypes.standsFor_of_thread hthread hs (List.mem_map_of_mem ha)
  change (part a.type).ForArguments
  generalize a.type = type? at hstands ⊢
  cases type? with
  | none =>
    rw [show part none = .any from hstands]
    exact .any
  | some r => exact InputTypes.Stands.forArguments hl hscalars hstands

/-- Variables are accepted as they are judged. -/
theorem acceptVariables_eq_ok_iff_judge {values accepted : Json} :
    (tool.acceptVariables values).1 = .ok accepted ↔
      tool.arguments.judge (variablesOf values) = .ok accepted := by
  rw [acceptVariables_eq_ok_iff, Validator.judge, Report.verdict_eq_ok_iff]

theorem variablesOf_ne_null (values : Json) : variablesOf values ≠ .null := by
  cases values <;> simp [variablesOf]

theorem variablesOf_of_ne {values : Json} (h : values ≠ .null) : variablesOf values = values := by
  cases values with
  | null => exact absurd rfl h
  | _ => rfl

/-- Accepted variables are accepted as they are. -/
theorem acceptVariables_again (hv : tool.arguments.ForArguments) {values accepted : Json}
    (h : (tool.acceptVariables values).1 = .ok accepted) :
    (tool.acceptVariables accepted).1 = .ok accepted := by
  rw [acceptVariables_eq_ok_iff_judge] at h ⊢
  obtain ⟨ha, hvalue⟩ := Validator.judge_eq_ok_iff.1 h
  have hne : accepted ≠ .null := hvalue ▸ Validator.value_ne_null (variablesOf_ne_null values)
  rw [variablesOf_of_ne hne, ← hvalue]
  exact hv.settles _ ha

/-- Accepted variables are tidy if the variables are. -/
theorem tidy_of_acceptVariables (hv : tool.arguments.ForArguments) {values accepted : Json}
    (h : (tool.acceptVariables values).1 = .ok accepted)
    (hvalues : Json.Everywhere Json.Tidy values) : Json.Everywhere Json.Tidy accepted := by
  obtain ⟨ha, rfl⟩ := Validator.judge_eq_ok_iff.1 (acceptVariables_eq_ok_iff_judge.1 h)
  refine hv.tidy_value ha ?_
  cases values with
  | null => exact .obj ⟨trivial, by simp [Json.Distinct]⟩ (by simp)
  | _ => exact hvalues

end Tool

end OperationTools
