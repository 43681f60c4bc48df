import OperationTools.Validator.Report

/-!
# The memo of compiled validators

Validators of enums and input objects are kept by the name of the type, those of output types by
name and depth. The memo also keeps a note on every type whose fields were cut at a limit.

## Main definitions

* `Memo.Key`: what a validator is kept under
* `Truncation`: a note on a type with too many fields
* `Memo`: validators in the order in which they were kept, and notes

## Main results

* `Memo.find?_keep`, `Memo.keys_keep`: what keeping a validator does to look-ups and to keys
-/

namespace OperationTools

/-- Whether a type stands in inputs or outputs. -/
inductive Side where
  | input | output
deriving DecidableEq, Repr

/-- A type has more fields than the limit on its side. -/
structure Truncation where
  side : Side
  typeName : String
  count : Nat
  limit : Nat
deriving DecidableEq, Repr

/-- The text of a note. -/
def Truncation.text (t : Truncation) : String :=
  let side := match t.side with
    | .input => "Input"
    | .output => "Output"
  s!"{side} type {t.typeName} has {t.count} fields, truncated to {t.limit}"

/-- What a validator is kept under. -/
inductive Memo.Key where
  | enum (name : String)
  | input (name : String)
  | output (name : String) (depth : Int)
deriving DecidableEq, Repr

/-- The validators kept so far, in the order in which they were kept, and the notes. Nothing is ever
taken away, so the keys tell what was compiled and when. -/
structure Memo where
  entries : List (Memo.Key × Validator) := []
  notes : List Truncation := []

namespace Memo

/-- The validator kept under a key. -/
def find? (memo : Memo) (key : Key) : Option Validator := memo.entries.lookup key

/-- Whether a validator is kept under a key. -/
def contains (memo : Memo) (key : Key) : Bool := (memo.find? key).isSome

/-- The number of validators. -/
def size (memo : Memo) : Nat := memo.entries.length

/-- The keys in the order in which validators were kept. -/
def keys (memo : Memo) : List Key := memo.entries.map (·.1)

/-- Keeps a validator under a key. -/
def keep (key : Key) (v : Validator) (memo : Memo) : Memo :=
  { memo with entries := memo.entries ++ [(key, v)] }

@[simp] theorem keys_keep (key : Key) (v : Validator) (memo : Memo) :
    (memo.keep key v).keys = memo.keys ++ [key] := by
  simp [keep, keys]

@[simp] theorem notes_keep (key : Key) (v : Validator) (memo : Memo) :
    (memo.keep key v).notes = memo.notes := rfl

/-- What was kept before is found as before, and a new key is found. -/
theorem find?_keep (key other : Key) (v : Validator) (memo : Memo) :
    (memo.keep key v).find? other =
      (memo.find? other).or (if other = key then some v else none) := by
  by_cases h : other = key
  · simp [keep, find?, List.lookup_append, h]
  · have hb : (other == key) = false := beq_eq_false_iff_ne.2 h
    simp [keep, find?, List.lookup_append, List.lookup_cons, h, hb]

theorem contains_iff_mem_keys {memo : Memo} {key : Key} :
    memo.contains key = true ↔ key ∈ memo.keys := by
  simp only [contains, find?, keys, List.lookup_isSome_iff, List.mem_map, beq_iff_eq]
  exact ⟨fun ⟨e, he, hk⟩ => ⟨e, he, hk.symm⟩, fun ⟨e, he, hk⟩ => ⟨e, he, hk.symm⟩⟩

/-- Adds a note. -/
def addNote (t : Truncation) (memo : Memo) : Memo := { memo with notes := memo.notes ++ [t] }

@[simp] theorem notes_addNote (t : Truncation) (memo : Memo) :
    (memo.addNote t).notes = memo.notes ++ [t] := rfl

@[simp] theorem keys_addNote (t : Truncation) (memo : Memo) :
    (memo.addNote t).keys = memo.keys := rfl

@[simp] theorem find?_addNote (t : Truncation) (key : Key) (memo : Memo) :
    (memo.addNote t).find? key = memo.find? key := rfl

end Memo

end OperationTools
