import OperationTools.Entries
import OperationTools.Validator.Basic

/-!
# Scalar tables

A table tells by which validator the values of a scalar are checked. A scalar without an entry is
checked as a string.

## Main definitions

* `ScalarTable`: validators by the name of the scalar
* `ScalarTable.standard`: the entries of the built-in scalars
* `ScalarTable.validator`: the validator of a scalar

## Main results

* `ScalarTable.validator_assign`: setting the validator of a scalar leaves those of all others
-/

namespace OperationTools

/-- Validators by the name of a scalar. -/
structure ScalarTable where
  entries : List (String × Validator)

namespace ScalarTable

/-- The table of the built-in scalars. -/
def standard : ScalarTable :=
  ⟨[("String", .string), ("ID", .string), ("Int", .integer), ("Float", .number),
    ("Boolean", .boolean)]⟩

/-- Sets the validator of a scalar. -/
def assign (name : String) (v : Validator) (table : ScalarTable) : ScalarTable :=
  ⟨Entries.insert name v table.entries⟩

/-- Whether a scalar has an entry. -/
def covers (table : ScalarTable) (name : String) : Bool := (table.entries.lookup name).isSome

/-- The validator of a scalar; without an entry it is that of strings. -/
def validator (table : ScalarTable) (name : String) : Validator :=
  (table.entries.lookup name).getD .string

/-- Setting the validator of a scalar leaves those of all others. -/
theorem validator_assign (name other : String) (v : Validator) (table : ScalarTable) :
    (assign name v table).validator other = if other = name then v else table.validator other := by
  simp only [validator, assign, Entries.lookup_insert]
  split <;> rfl

theorem covers_assign (name other : String) (v : Validator) (table : ScalarTable) :
    (assign name v table).covers other = (other == name || table.covers other) := by
  by_cases h : other = name <;> simp [covers, assign, Entries.lookup_insert, h]

end ScalarTable

end OperationTools
