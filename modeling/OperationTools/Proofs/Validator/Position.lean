import OperationTools.Proofs.Validator.Place

/-!
# Positions in arguments

A path leads from a value to a value inside it, through the keys of objects and the positions of
arrays. A validator of arguments follows the value: it comes to the values of its fields and of its
items, as long as these are there and have the shape that it asks for.

## Main definitions

* `Json.at?`: the value at the end of a path
* `Validator.Reaches`: the values that a validator comes to, and the validators that they meet there

## Main results

* `Validator.Reaches.at?`: what is reached stands at the end of the path
* `Validator.value_list`, `Validator.lookup_value_object`: what is made of items and of fields
-/

namespace OperationTools

namespace Json

/-- The value one step further in. -/
def step? : Json → Segment → Option Json
  | .obj entries, .key name => entries.lookup name
  | .arr items, .index (.ofNat i) => items[i]?
  | _, _ => none

@[simp] theorem step?_key (entries : List (String × Json)) (name : String) :
    (obj entries).step? (.key name) = entries.lookup name := rfl

@[simp] theorem step?_index (items : List Json) (i : Nat) :
    (arr items).step? (.index i) = items[i]? := rfl

/-- The value at the end of a path. -/
def at? (x : Json) : Path → Option Json
  | [] => some x
  | s :: rest => (x.step? s).bind fun y => y.at? rest

@[simp] theorem at?_nil (x : Json) : x.at? [] = some x := rfl

@[simp] theorem at?_cons (x : Json) (s : Segment) (rest : Path) :
    x.at? (s :: rest) = (x.step? s).bind fun y => y.at? rest := rfl

end Json

namespace Validator

/-- A validator comes to a value inside another one, where the value meets a validator of its own.
On the way nothing is `null`, objects meet objects with known fields and arrays meet lists. -/
inductive Reaches : Validator → Json → Path → Validator → Json → Prop where
  | here (v : Validator) (x : Json) : Reaches v x [] v x
  | field {typeName : Option String} {fields : List (Member Validator)}
      {entries : List (String × Json)} {m : Member Validator} {x y : Json} {p : Path}
      {w : Validator} (hm : m ∈ fields) (hx : entries.lookup m.name = some x) (hne : x ≠ .null)
      (h : Reaches m.validator x p w y) :
      Reaches (.object typeName false fields) (.obj entries) (.key m.name :: p) w y
  | item {v : Validator} {nullItems : Bool} {items : List Json} {i : Nat} {x y : Json} {p : Path}
      {w : Validator} (hx : items[i]? = some x) (hne : x ≠ .null) (h : Reaches v x p w y) :
      Reaches (.list v nullItems) (.arr items) (.index i :: p) w y

/-- What is reached stands at the end of the path. -/
theorem Reaches.at? {v w : Validator} {x y : Json} {p : Path} (h : v.Reaches x p w y) :
    x.at? p = some y := by
  induction h with
  | here => rfl
  | field _ hx _ _ ih => rw [Json.at?_cons, Json.step?_key, hx, Option.bind_some, ih]
  | item hx _ _ ih => rw [Json.at?_cons, Json.step?_index, hx, Option.bind_some, ih]

/-! ## What is made of items and fields -/

/-- What is made of a value at a place. What is `null` is left as it is. -/
def valueAt (v : Validator) (x : Json) : Json :=
  if x = .null then .null else (v.report x).value

@[simp] theorem valueAt_null (v : Validator) : v.valueAt .null = .null := if_pos rfl

theorem valueAt_of_ne {v : Validator} {x : Json} (hx : x ≠ .null) :
    v.valueAt x = (v.report x).value := if_neg hx

@[simp] theorem valueAt_any (x : Json) : any.valueAt x = x := by
  unfold valueAt
  split
  · rename_i hx
    exact hx.symm
  · rw [report_any]

section Items

variable {v : Validator} {nullItems : Bool} {items : List Json}

/-- What is made of an array is an array of what is made of its items. -/
theorem value_list (v : Validator) (nullItems : Bool) (items : List Json) :
    ((list v nullItems).report (.arr items)).value = .arr (items.map v.valueAt) := by
  have hitem : ∀ (i : Nat) (x : Json),
      (itemReport nullItems i x (v.report x)).value = v.valueAt x := by
    intro i x
    unfold itemReport valueAt
    split
    · split <;> rfl
    · rfl
  rw [report_list_arr, Report.value_collect, reportItems_eq_mapIdx]
  refine congrArg Json.arr (List.ext_getElem (by simp) fun i _ _ => ?_)
  rw [List.getElem_map, List.getElem_mapIdx, hitem, List.getElem_map]

theorem step?_value_list_eq_some_iff {s : Segment} {y : Json} :
    ((list v nullItems).report (.arr items)).value.step? s = some y ↔
      ∃ (i : Nat) (x : Json), s = .index i ∧ items[i]? = some x ∧ v.valueAt x = y := by
  rw [value_list]
  match s with
  | .key _ | .index (.negSucc _) => simp [Json.step?]
  | .index (.ofNat i) =>
    rw [show (Json.arr (items.map v.valueAt)).step? (.index (.ofNat i)) =
      items[i]?.map v.valueAt from List.getElem?_map, Option.map_eq_some_iff]
    constructor
    · rintro ⟨x, hx, rfl⟩
      exact ⟨i, x, rfl, hx, rfl⟩
    · rintro ⟨j, x, hj, hx, hy⟩
      obtain rfl := Int.ofNat.inj (Segment.index.inj hj)
      exact ⟨x, hx, hy⟩

/-- Among what is made of items stands what is made of an item. -/
theorem at?_value_list {i : Nat} {x : Json} (hx : items[i]? = some x) (p : Path) :
    ((list v nullItems).report (.arr items)).value.at? (.index i :: p) = (v.valueAt x).at? p := by
  rw [Json.at?_cons, step?_value_list_eq_some_iff.2 ⟨i, x, rfl, hx, rfl⟩, Option.bind_some]

theorem accepts_item (ha : (list v nullItems).accepts (.arr items) = true) {i : Nat} {x : Json}
    (hx : items[i]? = some x) (hne : x ≠ .null) : v.accepts x = true := by
  obtain ⟨_, he, htakes⟩ := accepts_list_iff.1 ha
  obtain rfl := Json.arr.inj he
  rw [← takesAt_some hne]
  exact htakes x (List.mem_of_getElem? hx)

end Items

section Objects

variable {typeName : Option String} {fields : List (Member Validator)}
  {entries : List (String × Json)}

/-- What is made of an accepted object has the fields that are there, in the order of the
validator. -/
theorem value_object (hn : (fields.map (·.name)).Nodup)
    (ha : (object typeName false fields).accepts (.obj entries) = true) :
    ((object typeName false fields).report (.obj entries)).value =
      .obj (fields.filterMap fun m =>
        ((entries.lookup m.name).map m.validator.valueAt).map fun y => (m.name, y)) := by
  simp only [report, objectReport, fieldsReport, Report.value_collect, List.map_filterMap]
  refine congrArg Json.obj (List.filterMap_congr fun m hm => ?_)
  cases hx : entries.lookup m.name with
  | none =>
    obtain ⟨_, he, htakes⟩ := (accepts_object_iff hn).1 ha
    obtain rfl := Json.obj.inj he
    have ho : m.optional = true := by simpa [hx] using htakes m hm
    simp [memberReport?, hx, ho]
  | some x =>
    by_cases hne : x = .null
    · subst hne
      cases ho : m.optional <;> simp [memberReport?, hx, ho, Report.refuse]
    · rw [memberReport?_of_lookup hn hm hx hne]
      simp [valueAt_of_ne hne]

/-- The keys of what is made of an accepted object are the fields that are there. -/
theorem keys_value_object (hn : (fields.map (·.name)).Nodup)
    (ha : (object typeName false fields).accepts (.obj entries) = true) :
    ((object typeName false fields).report (.obj entries)).value.entries.map (·.1) =
      (fields.map (·.name)).filter fun name => (entries.lookup name).isSome := by
  rw [value_object hn ha, Json.entries_obj,
    keys_filterMap (·.name) fun m : Member Validator =>
      (entries.lookup m.name).map m.validator.valueAt, List.filter_map]
  simp only [Option.isSome_map, Function.comp_def]

/-- Under the name of a field stands what is made of its value. -/
theorem lookup_value_object (hn : (fields.map (·.name)).Nodup)
    (ha : (object typeName false fields).accepts (.obj entries) = true) {m : Member Validator}
    (hm : m ∈ fields) :
    ((object typeName false fields).report (.obj entries)).value.entries.lookup m.name =
      (entries.lookup m.name).map m.validator.valueAt := by
  have hkeys : (((object typeName false fields).report (.obj entries)).value.entries.map
      (·.1)).Nodup := hn.sublist (keys_value_object_sublist fields entries)
  rw [value_object hn ha, Json.entries_obj] at hkeys ⊢
  cases hx : entries.lookup m.name with
  | some x => exact Entries.lookup_of_mem hkeys (List.mem_filterMap.2 ⟨m, hm, by rw [hx]; rfl⟩)
  | none =>
    rw [Option.map_none, List.lookup_eq_none_iff]
    intro e he
    obtain ⟨m', hm', he⟩ := List.mem_filterMap.1 he
    obtain ⟨y, hy, rfl⟩ := Option.map_eq_some_iff.1 he
    rw [bne_iff_ne]
    intro (hname : m.name = m'.name)
    rw [← hname, hx] at hy
    cases hy

theorem step?_value_object_eq_some_iff (hn : (fields.map (·.name)).Nodup)
    (ha : (object typeName false fields).accepts (.obj entries) = true) {s : Segment} {y : Json} :
    ((object typeName false fields).report (.obj entries)).value.step? s = some y ↔
      ∃ m ∈ fields, ∃ x, s = .key m.name ∧ entries.lookup m.name = some x ∧
        m.validator.valueAt x = y := by
  have hlookup := fun m (hm : m ∈ fields) => lookup_value_object hn ha hm
  rw [value_object hn ha] at hlookup ⊢
  cases s with
  | index i => simp [Json.step?]
  | key name =>
    rw [Json.step?_key]
    constructor
    · intro h
      obtain ⟨m, hm, he⟩ := List.mem_filterMap.1 (Entries.mem_of_lookup h)
      obtain ⟨_, hy, he⟩ := Option.map_eq_some_iff.1 he
      obtain ⟨rfl, rfl⟩ := Prod.mk.inj he
      obtain ⟨x, hx, rfl⟩ := Option.map_eq_some_iff.1 hy
      exact ⟨m, hm, x, rfl, hx, rfl⟩
    · rintro ⟨m, hm, x, hs, hx, rfl⟩
      obtain rfl := Segment.key.inj hs
      rw [← Json.entries_obj (List.filterMap _ _), hlookup m hm, hx, Option.map_some]

theorem at?_value_object (hn : (fields.map (·.name)).Nodup)
    (ha : (object typeName false fields).accepts (.obj entries) = true) {m : Member Validator}
    (hm : m ∈ fields) {x : Json} (hx : entries.lookup m.name = some x) (p : Path) :
    ((object typeName false fields).report (.obj entries)).value.at? (.key m.name :: p) =
      (m.validator.valueAt x).at? p := by
  rw [Json.at?_cons, (step?_value_object_eq_some_iff hn ha).2 ⟨m, hm, x, rfl, hx, rfl⟩,
    Option.bind_some]

theorem accepts_field (hn : (fields.map (·.name)).Nodup)
    (ha : (object typeName false fields).accepts (.obj entries) = true) {m : Member Validator}
    (hm : m ∈ fields) {x : Json} (hx : entries.lookup m.name = some x) (hne : x ≠ .null) :
    m.validator.accepts x = true := by
  obtain ⟨_, he, htakes⟩ := (accepts_object_iff hn).1 ha
  obtain rfl := Json.obj.inj he
  rw [← takesAt_some hne, ← hx]
  exact htakes m hm

end Objects

end Validator

end OperationTools
