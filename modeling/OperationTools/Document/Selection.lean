import OperationTools.Json.Basic

/-!
# Selections

A selection takes a value as a whole, omits it, or selects parts of it. JSON values stand for
selections: `true` takes the whole, an object selects parts, and everything else omits.

## Main definitions

* `Selection`: selections
* `Selection.ofJson`, `Selection.toJson`: the selection of a value, and the value of a selection

## Main results

* `Selection.ofJson_toJson`: the value of a selection stands for it
-/

namespace OperationTools

/-- What is selected of a value. -/
inductive Selection where
  | whole
  | omitted
  | parts (children : List (String × Selection))

namespace Selection

mutual

/-- The selection that a JSON value stands for. -/
def ofJson : Json → Selection
  | .bool true => .whole
  | .obj entries => .parts (ofEntries entries)
  | _ => .omitted

/-- The parts that entries stand for. -/
def ofEntries : List (String × Json) → List (String × Selection)
  | [] => []
  | (key, x) :: rest => (key, ofJson x) :: ofEntries rest

end

@[simp] theorem ofEntries_eq_map (entries : List (String × Json)) :
    ofEntries entries = entries.map fun e => (e.1, ofJson e.2) := by
  induction entries with
  | nil => rfl
  | cons e rest ih => simp [ofEntries, ih]

mutual

/-- The JSON value that stands for a selection. -/
def toJson : Selection → Json
  | .whole => .bool true
  | .omitted => .bool false
  | .parts children => .obj (toEntries children)

/-- The entries that stand for parts. -/
def toEntries : List (String × Selection) → List (String × Json)
  | [] => []
  | (key, s) :: rest => (key, toJson s) :: toEntries rest

end

@[simp] theorem toEntries_eq_map (children : List (String × Selection)) :
    toEntries children = children.map fun e => (e.1, toJson e.2) := by
  induction children with
  | nil => rfl
  | cons e rest ih => simp [toEntries, ih]

mutual

/-- The value that stands for a selection stands for that selection alone. -/
@[simp] theorem ofJson_toJson : (s : Selection) → ofJson (toJson s) = s
  | .whole => rfl
  | .omitted => rfl
  | .parts children => by rw [toJson, ofJson, ofEntries_toEntries children]

theorem ofEntries_toEntries :
    (children : List (String × Selection)) → ofEntries (toEntries children) = children
  | [] => rfl
  | (key, s) :: rest => by rw [toEntries, ofEntries, ofJson_toJson s, ofEntries_toEntries rest]

end

end Selection

end OperationTools
