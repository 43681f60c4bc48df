/-!
# Ordered entries

A list of keys and values in the order in which the keys were first set. Looking up a key finds its
first entry; lists that are built by `insert` and `insertNew` have one entry for a key.

## Main definitions

* `Entries.insert`: sets the value of a key
* `Entries.insertNew`: sets the value of a key that is not there
* `Entries.ofList`: the entries that a list sets one after another
* `Entries.firstRepeated?`: an item that stands in a list twice

## Main results

* `Entries.lookup_insert`, `Entries.keys_insert`: what setting a key does to look-ups and to keys
* `Entries.nodup_keys_ofList`: the keys of `ofList` are distinct
* `Entries.lookup_foldl_insert`, `Entries.lookup_foldl_insertNew`: what is found after keys are set
  or added one after another
* `Entries.lookup_ofList_map`: what is found in `ofList` where the value depends on the key
* `Entries.ofList_eq_self`: a list with distinct keys is its own `ofList`
-/

namespace OperationTools.Entries

variable {α β : Type} [BEq α]

/-- Sets the value of a key: in the place of the key if it is there, else at the end. -/
def insert (key : α) (value : β) : List (α × β) → List (α × β)
  | [] => [(key, value)]
  | (k, v) :: rest => if k == key then (k, value) :: rest else (k, v) :: insert key value rest

/-- Adds a key at the end unless it is there. -/
def insertNew (key : α) (value : β) (entries : List (α × β)) : List (α × β) :=
  if entries.any (·.1 == key) then entries else entries ++ [(key, value)]

/-- Entries with distinct keys: a repeated key keeps its first place and its last value. -/
def ofList (entries : List (α × β)) : List (α × β) :=
  entries.foldl (fun acc e => insert e.1 e.2 acc) []

/-- The first item that stands in a list again further on. -/
def firstRepeated? : List α → Option α
  | [] => none
  | x :: rest => if rest.contains x then some x else firstRepeated? rest

/-- What is found after a change of all values is the changed value. -/
theorem lookup_map_values {γ : Type} (f : β → γ) (entries : List (α × β)) (key : α) :
    (entries.map fun e => (e.1, f e.2)).lookup key = (entries.lookup key).map f := by
  induction entries with
  | nil => rfl
  | cons e rest ih =>
    rw [List.map_cons, List.lookup_cons, List.lookup_cons, ih]
    cases key == e.1 <;> rfl

variable [LawfulBEq α]

theorem firstRepeated?_eq_none_iff {items : List α} :
    firstRepeated? items = none ↔ items.Nodup := by
  induction items with
  | nil => simp [firstRepeated?]
  | cons x rest ih => by_cases h : x ∈ rest <;> simp [firstRepeated?, h, ih]

theorem mem_of_lookup {key : α} {value : β} {entries : List (α × β)}
    (h : entries.lookup key = some value) : (key, value) ∈ entries := by
  obtain ⟨before, after, rfl, -⟩ := List.lookup_eq_some_iff.1 h
  exact List.mem_append_right _ List.mem_cons_self

/-- Among distinct keys each one finds its own value. -/
theorem lookup_of_mem {key : α} {value : β} {entries : List (α × β)}
    (hd : (entries.map (·.1)).Nodup) (h : (key, value) ∈ entries) :
    entries.lookup key = some value := by
  obtain ⟨before, after, rfl⟩ := List.append_of_mem h
  refine List.lookup_eq_some_iff.2 ⟨before, after, rfl, fun e he => ?_⟩
  rw [List.map_append, List.nodup_append] at hd
  have hne : e.1 ≠ key := hd.2.2 e.1 (List.mem_map_of_mem he) key (by simp)
  simpa using hne.symm

/-- Where the value depends on the key, it is found under each of the keys. -/
theorem lookup_map_of_mem (value : α → β) {keys : List α} {key : α} (h : key ∈ keys) :
    (keys.map fun k => (k, value k)).lookup key = some (value key) := by
  induction keys with
  | nil => cases h
  | cons k rest ih =>
    rw [List.map_cons, List.lookup_cons]
    by_cases hk : key = k
    · simp [hk]
    · rw [beq_eq_false_iff_ne.2 hk]
      exact ih ((List.mem_cons.1 h).resolve_left hk)

theorem any_key_iff {key : α} {entries : List (α × β)} :
    entries.any (·.1 == key) = true ↔ key ∈ entries.map (·.1) := by
  simp only [List.any_eq_true, beq_iff_eq, List.mem_map]

theorem isSome_lookup_iff {key : α} {entries : List (α × β)} :
    (entries.lookup key).isSome = true ↔ key ∈ entries.map (·.1) := by
  rw [List.lookup_isSome_iff, List.mem_map]
  exact exists_congr fun e => by rw [beq_iff_eq, @eq_comm _ key]

/-! ## Setting a key -/

@[simp] theorem lookup_insert_self (key : α) (value : β) (entries : List (α × β)) :
    (insert key value entries).lookup key = some value := by
  induction entries with
  | nil => simp [insert]
  | cons e rest ih =>
    obtain ⟨k, v⟩ := e
    by_cases h : k = key
    · simp [insert, h]
    · have h' : (key == k) = false := beq_eq_false_iff_ne.2 (Ne.symm h)
      simp [insert, h, List.lookup_cons, h', ih]

theorem lookup_insert_of_ne {key other : α} (h : other ≠ key) (value : β)
    (entries : List (α × β)) : (insert key value entries).lookup other = entries.lookup other := by
  have hk : (other == key) = false := beq_eq_false_iff_ne.2 h
  induction entries with
  | nil => simp [insert, List.lookup_cons, hk]
  | cons e rest ih =>
    obtain ⟨k, v⟩ := e
    by_cases he : k = key
    · simp [insert, he, List.lookup_cons, hk]
    · simp [insert, he, List.lookup_cons, ih]

/-- Setting a key changes what is found under that key alone. -/
theorem lookup_insert [DecidableEq α] (key other : α) (value : β) (entries : List (α × β)) :
    (insert key value entries).lookup other =
      if other = key then some value else entries.lookup other := by
  by_cases h : other = key
  · simp [h]
  · simp [h, lookup_insert_of_ne h]

theorem keys_insert_of_mem {key : α} {entries : List (α × β)} (value : β)
    (h : key ∈ entries.map (·.1)) :
    (insert key value entries).map (·.1) = entries.map (·.1) := by
  induction entries with
  | nil => simp at h
  | cons e rest ih =>
    by_cases he : e.1 = key
    · simp [insert, he]
    · have hr : key ∈ rest.map (·.1) := by simpa [Ne.symm he] using h
      simp [insert, he, ih hr]

/-- A key that is not there is set at the end. -/
theorem insert_of_not_mem {key : α} {entries : List (α × β)} (value : β)
    (h : key ∉ entries.map (·.1)) : insert key value entries = entries ++ [(key, value)] := by
  induction entries with
  | nil => rfl
  | cons e rest ih =>
    simp only [List.map_cons, List.mem_cons, not_or] at h
    simp [insert, Ne.symm h.1, ih h.2]

/-- Setting a key leaves the keys as they are or adds the key at the end. -/
theorem keys_insert [DecidableEq α] (key : α) (value : β) (entries : List (α × β)) :
    (insert key value entries).map (·.1) =
      if key ∈ entries.map (·.1) then entries.map (·.1) else entries.map (·.1) ++ [key] := by
  split
  · exact keys_insert_of_mem value ‹_›
  · rw [insert_of_not_mem value ‹_›]
    simp

theorem nodup_keys_insert {entries : List (α × β)} (h : (entries.map (·.1)).Nodup) (key : α)
    (value : β) : ((insert key value entries).map (·.1)).Nodup := by
  by_cases hk : key ∈ entries.map (·.1)
  · rwa [keys_insert_of_mem value hk]
  · rw [insert_of_not_mem value hk, List.map_append, List.nodup_append]
    refine ⟨h, by simp, fun a ha b hb => ?_⟩
    rintro rfl
    exact hk (by simpa [List.mem_singleton.1 hb] using ha)

/-- Adding a new key leaves what is found under the keys that are there. -/
theorem lookup_insertNew (key other : α) (value : β) (entries : List (α × β)) :
    (insertNew key value entries).lookup other =
      (entries.lookup other).or (if other == key then some value else none) := by
  by_cases h : entries.any (·.1 == key) = true
  · have hk : key ∈ entries.map (·.1) := any_key_iff.1 h
    by_cases ho : other = key
    · subst ho
      have hs : (entries.lookup other).isSome := by
        rw [List.lookup_isSome_iff]
        obtain ⟨e, he, hek⟩ := List.mem_map.1 hk
        exact ⟨e, he, by simp [hek]⟩
      obtain ⟨v, hv⟩ := Option.isSome_iff_exists.1 hs
      simp [insertNew, h, hv]
    · simp [insertNew, h, ho]
  · simp only [insertNew, if_neg h, List.lookup_append]
    cases hb : other == key <;> simp [List.lookup_cons, hb]

theorem nodup_keys_insertNew {entries : List (α × β)} (h : (entries.map (·.1)).Nodup) (key : α)
    (value : β) : ((insertNew key value entries).map (·.1)).Nodup := by
  unfold insertNew
  split
  · exact h
  · rename_i hk
    rw [any_key_iff] at hk
    rw [List.map_append, List.nodup_append]
    refine ⟨h, by simp, fun a ha b hb => ?_⟩
    rintro rfl
    exact hk (by simpa [List.mem_singleton.1 hb] using ha)

/-! ## Setting keys one after another -/

theorem nodup_keys_foldl_insert (given entries : List (α × β)) (h : (entries.map (·.1)).Nodup) :
    ((given.foldl (fun acc e => insert e.1 e.2 acc) entries).map (·.1)).Nodup := by
  induction given generalizing entries with
  | nil => exact h
  | cons e rest ih => exact ih _ (nodup_keys_insert h e.1 e.2)

theorem nodup_keys_ofList (given : List (α × β)) : ((ofList given).map (·.1)).Nodup :=
  nodup_keys_foldl_insert given [] (by simp)

theorem foldl_insert_eq_append (given entries : List (α × β))
    (h : ((entries ++ given).map (·.1)).Nodup) :
    given.foldl (fun acc e => insert e.1 e.2 acc) entries = entries ++ given := by
  induction given generalizing entries with
  | nil => simp
  | cons e rest ih =>
    have he : e.1 ∉ entries.map (·.1) := by
      intro hm
      rw [List.map_append, List.nodup_append] at h
      exact h.2.2 e.1 hm e.1 (by simp) rfl
    rw [List.foldl_cons, insert_of_not_mem e.2 he]
    simpa using ih (entries ++ [e]) (by simpa using h)

/-- A list with distinct keys is its own list of entries. -/
theorem ofList_eq_self {given : List (α × β)} (h : (given.map (·.1)).Nodup) :
    ofList given = given := by
  simpa [ofList] using foldl_insert_eq_append given [] (by simpa using h)

/-- Among distinct keys that are set each one finds its own value, and other keys find what was there
before. -/
theorem lookup_foldl_insert [DecidableEq α] {given : List (α × β)} (hd : (given.map (·.1)).Nodup)
    (entries : List (α × β)) (key : α) :
    (given.foldl (fun acc e => insert e.1 e.2 acc) entries).lookup key =
      (given.lookup key).or (entries.lookup key) := by
  induction given generalizing entries with
  | nil => rfl
  | cons e rest ih =>
    obtain ⟨he, hd⟩ := List.nodup_cons.1 hd
    rw [List.foldl_cons, ih hd, lookup_insert, List.lookup_cons]
    by_cases hk : key = e.1
    · subst hk
      have hnone : rest.lookup e.1 = none := by
        rw [List.lookup_eq_none_iff]
        intro d hmem
        rw [bne_iff_ne]
        intro heq
        exact he (List.mem_map.2 ⟨d, hmem, heq.symm⟩)
      simp [hnone]
    · simp [hk, beq_eq_false_iff_ne.2 hk]

/-- Keys that are added find what was there before, and else their first value. -/
theorem lookup_foldl_insertNew (given entries : List (α × β)) (key : α) :
    (given.foldl (fun acc e => insertNew e.1 e.2 acc) entries).lookup key =
      (entries.lookup key).or (given.lookup key) := by
  induction given generalizing entries with
  | nil => simp
  | cons e rest ih =>
    rw [List.foldl_cons, ih, lookup_insertNew, List.lookup_cons, Option.or_assoc]
    cases key == e.1 <;> rfl

theorem nodup_keys_foldl_insertNew (given : List (α × β)) {entries : List (α × β)}
    (h : (entries.map (·.1)).Nodup) :
    ((given.foldl (fun acc e => insertNew e.1 e.2 acc) entries).map (·.1)).Nodup := by
  induction given generalizing entries with
  | nil => exact h
  | cons e rest ih => exact ih (nodup_keys_insertNew h e.1 e.2)

theorem lookup_foldl_insert_map [DecidableEq α] (value : α → β) (keys : List α)
    (entries : List (α × β)) (key : α) :
    ((keys.map fun k => (k, value k)).foldl (fun acc e => insert e.1 e.2 acc) entries).lookup key =
      if key ∈ keys then some (value key) else entries.lookup key := by
  induction keys generalizing entries with
  | nil => simp
  | cons k rest ih =>
    rw [List.map_cons, List.foldl_cons, ih, lookup_insert]
    by_cases hr : key ∈ rest
    · simp [hr]
    · by_cases hk : key = k <;> simp [hr, hk]

/-- Where the value depends on the key, it is found under each of the keys. -/
theorem lookup_ofList_map [DecidableEq α] (value : α → β) (keys : List α) (key : α) :
    (ofList (keys.map fun k => (k, value k))).lookup key =
      if key ∈ keys then some (value key) else none := by
  rw [ofList, lookup_foldl_insert_map, List.lookup_nil]

end OperationTools.Entries
