import OperationTools.Number.Binary64

/-!
# JSON values

Integers, other numbers and booleans are kept apart, and an object is the list of its entries in
their written order.

## Main definitions

* `Json`: the values
* `Json.Kind`, `Json.kind`: what a value is, and the word for it in messages

## Main results

* `Json.induction`: induction over items and entries
-/

namespace OperationTools

/-- A JSON value. -/
inductive Json where
  | null
  | bool (b : Bool)
  | int (n : Int)
  | float (x : Binary64)
  | str (s : String)
  | arr (items : List Json)
  | obj (entries : List (String × Json))

namespace Json

instance : Inhabited Json := ⟨.null⟩

mutual

/-- Equality of values, entry by entry in the written order. -/
def decEq : (a b : Json) → Decidable (a = b)
  | .null, b => by cases b <;> first | exact isTrue rfl | exact isFalse (by simp)
  | .bool a, b => by
    cases b with
    | bool b => exact decidable_of_iff (a = b) (by simp)
    | _ => exact isFalse (by simp)
  | .int a, b => by
    cases b with
    | int b => exact decidable_of_iff (a = b) (by simp)
    | _ => exact isFalse (by simp)
  | .float a, b => by
    cases b with
    | float b => exact decidable_of_iff (a = b) (by simp)
    | _ => exact isFalse (by simp)
  | .str a, b => by
    cases b with
    | str b => exact decidable_of_iff (a = b) (by simp)
    | _ => exact isFalse (by simp)
  | .arr a, b => by
    cases b with
    | arr b => exact @decidable_of_iff _ (a = b) (by simp) (decEqItems a b)
    | _ => exact isFalse (by simp)
  | .obj a, b => by
    cases b with
    | obj b => exact @decidable_of_iff _ (a = b) (by simp) (decEqEntries a b)
    | _ => exact isFalse (by simp)

/-- Equality of lists of values. -/
def decEqItems : (a b : List Json) → Decidable (a = b)
  | [], [] => isTrue rfl
  | [], _ :: _ => isFalse (by simp)
  | _ :: _, [] => isFalse (by simp)
  | a :: as, b :: bs =>
    match decEq a b, decEqItems as bs with
    | isTrue h, isTrue hs => isTrue (by rw [h, hs])
    | isFalse h, _ => isFalse (by simp [h])
    | _, isFalse hs => isFalse (by simp [hs])

/-- Equality of lists of entries. -/
def decEqEntries : (a b : List (String × Json)) → Decidable (a = b)
  | [], [] => isTrue rfl
  | [], _ :: _ => isFalse (by simp)
  | _ :: _, [] => isFalse (by simp)
  | (k, a) :: as, (l, b) :: bs =>
    match decEq a b, decEqEntries as bs, (inferInstance : Decidable (k = l)) with
    | isTrue h, isTrue hs, isTrue hk => isTrue (by rw [h, hs, hk])
    | isFalse h, _, _ => isFalse (by simp [h])
    | _, isFalse hs, _ => isFalse (by simp [hs])
    | _, _, isFalse hk => isFalse (by simp [hk])

end

instance : DecidableEq Json := decEq

/-- The kinds of values that messages tell apart. -/
inductive Kind where
  | null | boolean | integer | number | string | array | object
deriving DecidableEq, Repr

/-- The word for a kind. -/
def Kind.label : Kind → String
  | .null => "null"
  | .boolean => "boolean"
  | .integer => "integer"
  | .number => "number"
  | .string => "string"
  | .array => "array"
  | .object => "object"

/-- The kind of a value. -/
def kind : Json → Kind
  | .null => .null
  | .bool _ => .boolean
  | .int _ => .integer
  | .float _ => .number
  | .str _ => .string
  | .arr _ => .array
  | .obj _ => .object

/-- The entries of an object; any other value has none. -/
def entries : Json → List (String × Json)
  | .obj es => es
  | _ => []

@[simp] theorem entries_obj (es : List (String × Json)) : (obj es).entries = es := rfl

/-- What holds of a value if it holds of its items and of the values of its entries holds of every
value. -/
theorem induction {P : Json → Prop} (scalar : ∀ x, x.kind ≠ .array → x.kind ≠ .object → P x)
    (arr : ∀ items, (∀ x ∈ items, P x) → P (.arr items))
    (obj : ∀ entries, (∀ e ∈ entries, P e.2) → P (.obj entries)) : (x : Json) → P x
  | .null => scalar _ (by simp [kind]) (by simp [kind])
  | .bool _ => scalar _ (by simp [kind]) (by simp [kind])
  | .int _ => scalar _ (by simp [kind]) (by simp [kind])
  | .float _ => scalar _ (by simp [kind]) (by simp [kind])
  | .str _ => scalar _ (by simp [kind]) (by simp [kind])
  | .arr items => arr items fun x hx =>
    have := List.sizeOf_lt_of_mem hx
    induction scalar arr obj x
  | .obj entries => obj entries fun e he =>
    have := List.sizeOf_lt_of_mem he
    induction scalar arr obj e.2
termination_by x => sizeOf x
decreasing_by
  · simp only [Json.arr.sizeOf_spec]
    omega
  · obtain ⟨key, x⟩ := e
    simp only [Json.obj.sizeOf_spec, Prod.mk.sizeOf_spec] at *
    omega

theorem kind_eq_object_iff {x : Json} : x.kind = .object ↔ ∃ es, x = .obj es := by
  cases x <;> simp [kind]

theorem kind_eq_array_iff {x : Json} : x.kind = .array ↔ ∃ items, x = .arr items := by
  cases x <;> simp [kind]

theorem kind_eq_null_iff {x : Json} : x.kind = .null ↔ x = .null := by
  cases x <;> simp [kind]

end Json

end OperationTools
