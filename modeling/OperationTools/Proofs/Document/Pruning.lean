import OperationTools.Document.Writer

/-!
# Pruned selections

What is omitted is not written, and neither are parts of which nothing is written. A pruned
selection has only what is written: it is written as the whole selection is, and none of its parts
are empty.

## Main definitions

* `Selection.prune`: the parts of which something is written
* `Selection.Written`: selections of which everything is written
* `Selection.keys`: the keys at every depth
* `Json.selected?`, `Json.selectedEntries`: what a value and what entries select
* `Json.keysOf`: the keys of entries at every depth

## Main results

* `Selection.fieldTexts_prune`: pruning leaves the text as it is
* `Selection.written_of_mem_prune`: what is left by pruning is written
* `Selection.keys_prune_subset`: pruning adds no keys
* `Selection.prune_ofEntries`: what is left of the parts that entries stand for is what they select
-/

namespace OperationTools

namespace Selection

mutual

/-- What is written of a selection, if anything is. -/
def pruned? : Selection → Option Selection
  | .whole => some .whole
  | .omitted => none
  | .parts children =>
    let left := prune children
    if left.isEmpty then none else some (.parts left)

/-- The parts of which something is written. -/
def prune : List (String × Selection) → List (String × Selection)
  | [] => []
  | (key, s) :: rest => ((pruned? s).map fun left => (key, left)).toList ++ prune rest

end

/-- A selection of which everything is written. -/
inductive Written : Selection → Prop where
  | whole : Written .whole
  | parts {children : List (String × Selection)} (hne : children ≠ [])
      (h : ∀ e ∈ children, Written e.2) : Written (.parts children)

mutual

/-- The keys inside a selection. -/
def innerKeys : Selection → List String
  | .parts children => keys children
  | _ => []

/-- The keys of parts and the keys inside them. -/
def keys : List (String × Selection) → List String
  | [] => []
  | (key, s) :: rest => key :: innerKeys s ++ keys rest

end

theorem mem_keys_iff {children : List (String × Selection)} {k : String} :
    k ∈ keys children ↔ ∃ e ∈ children, k = e.1 ∨ k ∈ innerKeys e.2 := by
  induction children with
  | nil => simp [keys]
  | cons e rest ih => simp [keys, ih, or_assoc]

/-! ## Texts -/

mutual

/-- Pruning a selection leaves its text as it is. -/
theorem bind_fieldText?_pruned? (key : String) :
    (s : Selection) → (pruned? s).bind (fieldText? key) = fieldText? key s
  | .whole => rfl
  | .omitted => rfl
  | .parts children => by
    have htexts := fieldTexts_prune children
    rw [pruned?]
    split
    · rename_i hempty
      rw [List.isEmpty_iff.1 hempty] at htexts
      simp [fieldText?, ← htexts, fieldTexts]
    · simp [fieldText?, htexts]

theorem fieldTexts_prune :
    (children : List (String × Selection)) → fieldTexts (prune children) = fieldTexts children
  | [] => rfl
  | (key, s) :: rest => by
    have hhead := bind_fieldText?_pruned? key s
    have htail := fieldTexts_prune rest
    rw [fieldTexts_eq_filterMap] at htail ⊢
    rw [prune, fieldTexts, List.filterMap_append, htail, ← hhead]
    cases pruned? s with
    | none => rfl
    | some left => cases h : fieldText? key left <;> simp [h]

end

/-- Pruning leaves the text of parts as it is. -/
theorem text_prune (children : List (String × Selection)) :
    (Selection.parts (prune children)).text = (Selection.parts children).text := by
  rw [text, text, fieldTexts_prune]

/-! ## What is left -/

mutual

theorem written_of_pruned? : (s left : Selection) → pruned? s = some left → Written left
  | .whole, _, h => by
    cases h
    exact .whole
  | .omitted, _, h => by cases h
  | .parts children, left, h => by
    rw [pruned?] at h
    split at h
    · cases h
    · rename_i hne
      cases h
      exact .parts (by simpa using hne) (written_of_mem_prune children)

/-- What is left by pruning is written. -/
theorem written_of_mem_prune :
    (children : List (String × Selection)) → ∀ e ∈ prune children, Written e.2
  | [], _, he => by cases he
  | (key, s) :: rest, e, he => by
    rw [prune, List.mem_append, Option.mem_toList, Option.map_eq_some_iff] at he
    rcases he with ⟨left, hleft, rfl⟩ | he
    · exact written_of_pruned? s left hleft
    · exact written_of_mem_prune rest e he

end

/-! ## Keys -/

mutual

theorem innerKeys_subset_of_pruned? :
    (s left : Selection) → pruned? s = some left → innerKeys left ⊆ innerKeys s
  | .whole, _, h => by
    cases h
    exact List.Subset.refl _
  | .omitted, _, h => by cases h
  | .parts children, left, h => by
    rw [pruned?] at h
    split at h
    · cases h
    · cases h
      exact keys_prune_subset children

/-- Pruning adds no keys. -/
theorem keys_prune_subset :
    (children : List (String × Selection)) → keys (prune children) ⊆ keys children
  | [] => List.Subset.refl _
  | (key, s) :: rest => by
    have htail := keys_prune_subset rest
    rw [prune, keys]
    cases h : pruned? s with
    | none => exact fun k hk => List.mem_append_right _ (htail hk)
    | some left =>
      have hhead := List.cons_subset_cons key (innerKeys_subset_of_pruned? s left h)
      exact List.append_subset.2 ⟨List.subset_append_of_subset_left _ hhead,
        List.subset_append_of_subset_right _ htail⟩

end

end Selection

/-! ## Values -/

namespace Json

mutual

/-- What a value selects, if anything: `true` selects everything, an object selects what its entries
select unless that is nothing, and no other value selects anything. -/
def selected? : Json → Option Selection
  | .bool true => some .whole
  | .obj entries =>
    match selectedEntries entries with
    | [] => none
    | child :: children => some (.parts (child :: children))
  | _ => none

/-- What entries select, each under its key. -/
def selectedEntries : List (String × Json) → List (String × Selection)
  | [] => []
  | (key, x) :: rest =>
    match selected? x with
    | some s => (key, s) :: selectedEntries rest
    | none => selectedEntries rest

end

/-- An object selects something if its entries do. -/
theorem selected?_obj_eq_some_iff {entries : List (String × Json)} {s : Selection} :
    (Json.obj entries).selected? = some s ↔
      selectedEntries entries ≠ [] ∧ s = .parts (selectedEntries entries) := by
  rw [selected?]
  cases selectedEntries entries <;> simp [eq_comm]

/-- What is selected under a key is what the value of an entry selects. -/
theorem exists_selected?_of_mem {entries : List (String × Json)} {e : String × Selection}
    (h : e ∈ selectedEntries entries) : ∃ x, (e.1, x) ∈ entries ∧ x.selected? = some e.2 := by
  induction entries with
  | nil => cases h
  | cons first rest ih =>
    have hrest : e ∈ selectedEntries rest →
        ∃ x, (e.1, x) ∈ first :: rest ∧ x.selected? = some e.2 := by
      intro h
      obtain ⟨x, hx, hs⟩ := ih h
      exact ⟨x, List.mem_cons_of_mem _ hx, hs⟩
    rw [selectedEntries] at h
    cases hs : first.2.selected? with
    | none =>
      rw [hs] at h
      exact hrest h
    | some s =>
      rw [hs] at h
      rcases List.mem_cons.1 h with rfl | h
      · exact ⟨first.2, List.mem_cons_self, hs⟩
      · exact hrest h

mutual

/-- The keys in a value, down to where it is no object any more. -/
def keysIn : Json → List String
  | .obj entries => keysOf entries
  | _ => []

/-- The keys of entries and the keys in their values. -/
def keysOf : List (String × Json) → List String
  | [] => []
  | (key, x) :: rest => key :: keysIn x ++ keysOf rest

end

end Json

namespace Selection

mutual

theorem pruned?_ofJson : (x : Json) → pruned? (ofJson x) = x.selected?
  | .bool true | .bool false | .null | .int _ | .float _ | .str _ | .arr _ => rfl
  | .obj entries => by
    rw [ofJson, pruned?, prune_ofEntries entries, Json.selected?]
    cases Json.selectedEntries entries <;> rfl

/-- Pruning the parts that entries stand for leaves what the entries select. -/
theorem prune_ofEntries :
    (entries : List (String × Json)) → prune (ofEntries entries) = Json.selectedEntries entries
  | [] => rfl
  | (key, x) :: rest => by
    rw [ofEntries, prune, pruned?_ofJson x, prune_ofEntries rest, Json.selectedEntries]
    cases x.selected? <;> rfl

end

mutual

theorem innerKeys_ofJson : (x : Json) → innerKeys (ofJson x) = x.keysIn
  | .bool true | .bool false | .null | .int _ | .float _ | .str _ | .arr _ => rfl
  | .obj entries => by rw [ofJson, innerKeys, keys_ofEntries entries, Json.keysIn]

/-- The keys of the parts that entries stand for are those of the entries. -/
theorem keys_ofEntries :
    (entries : List (String × Json)) → keys (ofEntries entries) = Json.keysOf entries
  | [] => rfl
  | (key, x) :: rest => by
    rw [ofEntries, keys, innerKeys_ofJson x, keys_ofEntries rest, Json.keysOf]

end

/-- What entries select has no other keys than the entries. -/
theorem keys_selectedEntries_subset (entries : List (String × Json)) :
    keys (Json.selectedEntries entries) ⊆ Json.keysOf entries := by
  rw [← prune_ofEntries, ← keys_ofEntries]
  exact keys_prune_subset _

end Selection

end OperationTools
