import OperationTools.Json.Basic
import OperationTools.Text.LoneHalf

/-!
# Values that can be encoded

A text with a lone half of a pair has no encoding. A key with one is encoded all the same, with
replacement characters for the half.

## Main definitions

* `Json.encodable`: the value that is encoded, or the lone halves that have no encoding

## Main results

* `Json.encodableItems_eq_mapM`, `Json.encodableEntries_eq_mapM`: items and entries are encoded one
  by one
-/

namespace OperationTools.Json

/-- The text itself, unless it has lone halves. -/
def encodableText (s : String) : Except Text.LoneHalves String :=
  match Text.loneHalves? s with
  | some e => .error e
  | none => .ok s

mutual

/-- The value that is encoded, or the first lone halves in one of its texts. -/
def encodable : Json → Except Text.LoneHalves Json
  | .str s => (encodableText s).map .str
  | .arr items => (encodableItems items).map .arr
  | .obj entries => (encodableEntries entries).map .obj
  | x => .ok x

/-- The items that are encoded. -/
def encodableItems : List Json → Except Text.LoneHalves (List Json)
  | [] => .ok []
  | x :: rest => do
    let x ← encodable x
    let rest ← encodableItems rest
    pure (x :: rest)

/-- The entries that are encoded. -/
def encodableEntries : List (String × Json) → Except Text.LoneHalves (List (String × Json))
  | [] => .ok []
  | (key, x) :: rest => do
    let x ← encodable x
    let rest ← encodableEntries rest
    pure ((Text.replaceHalves key, x) :: rest)

end

theorem encodableItems_eq_mapM (items : List Json) :
    encodableItems items = items.mapM encodable := by
  induction items with
  | nil => rfl
  | cons x rest ih => simp [encodableItems, ih]

theorem encodableEntries_eq_mapM (entries : List (String × Json)) :
    encodableEntries entries =
      entries.mapM fun e => (encodable e.2).map fun x => (Text.replaceHalves e.1, x) := by
  induction entries with
  | nil => rfl
  | cons e rest ih =>
    cases h : encodable e.2 <;> simp [encodableEntries, ih, h, Except.map, bind, Except.bind]

end OperationTools.Json
