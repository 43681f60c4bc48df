import OperationTools.Json.Encoding
import OperationTools.Proofs.Json.RoundTrip

/-!
# Values that survive writing

A value that was read from a text has short integers and distinct keys. When it is encoded, written
and read once more, it comes back as it was exactly if all its numbers are finite and no key has a
lone half of a pair. All else has been changed without an error.

## Main definitions

* `Json.encoded`: the value that is encoded where it can be
* `Json.printed`: what is left of a value that is encoded, written and read
* `Json.Expressible`: a number is finite, and the keys of an object are encoded as they are
* `Json.Tidy`: an integer is short, and an object has no key twice
* `Json.ReadsTidy`: the values that are read in a number of steps are tidy

## Main results

* `Json.eq_encoded_of_encodable`: what is encoded
* `Json.printed_eq_self_iff`: which values come back as they were
* `Json.tidy_of_read`: values that are read are tidy
-/

namespace OperationTools

/-! ## Results -/

theorem map_eq_ok_iff {ε α β : Type} {f : α → β} {r : Except ε α} {b : β} :
    r.map f = .ok b ↔ ∃ a, r = .ok a ∧ f a = b := by
  cases r <;> simp [Except.map]

/-- A traversal that succeeds is a map, if every step that succeeds is one of it. -/
theorem mapM_eq_map {ε α β : Type} {f : α → Except ε β} {g : α → β} {l : List α}
    (h : ∀ a ∈ l, ∀ b, f a = .ok b → b = g a) {bs : List β} (hl : l.mapM f = .ok bs) :
    bs = l.map g := by
  induction l generalizing bs with
  | nil =>
    cases hl
    rfl
  | cons a l ih =>
    cases ha : f a with
    | error => simp [ha, bind, Except.bind] at hl
    | ok b =>
      cases hm : l.mapM f with
      | error => simp [ha, hm, bind, Except.bind] at hl
      | ok cs =>
        have hbs : bs = b :: cs := by
          simpa [ha, hm, bind, Except.bind, pure, Except.pure, eq_comm] using hl
        rw [hbs, List.map_cons, h a List.mem_cons_self b ha,
          ih (fun a' ha' => h a' (List.mem_cons_of_mem _ ha')) hm]

/-! ## Entries -/

namespace Entries

variable {α β : Type} [BEq α]

theorem length_insert_le (key : α) (value : β) (entries : List (α × β)) :
    (insert key value entries).length ≤ entries.length + 1 := by
  induction entries with
  | nil => simp [insert]
  | cons e rest ih =>
    unfold insert
    split
    · simp
    · simpa using ih

theorem length_foldl_insert_le (given entries : List (α × β)) :
    (given.foldl (fun acc e => insert e.1 e.2 acc) entries).length ≤
      entries.length + given.length := by
  induction given generalizing entries with
  | nil => simp
  | cons e rest ih =>
    have hrest := ih (insert e.1 e.2 entries)
    have hfirst := length_insert_le e.1 e.2 entries
    simp only [List.foldl_cons, List.length_cons]
    omega

variable [LawfulBEq α]

/-- What is set is there, with everything that was there. -/
theorem mem_of_mem_insert {key : α} {value : β} {entries : List (α × β)} {e : α × β}
    (h : e ∈ insert key value entries) : e = (key, value) ∨ e ∈ entries := by
  induction entries with
  | nil => exact .inl (List.mem_singleton.1 h)
  | cons d rest ih =>
    unfold insert at h
    split at h
    · rename_i hk
      rcases List.mem_cons.1 h with rfl | h
      · exact .inl (by rw [beq_iff_eq.1 hk])
      · exact .inr (List.mem_cons_of_mem _ h)
    · rcases List.mem_cons.1 h with rfl | h
      · exact .inr List.mem_cons_self
      · exact (ih h).imp_right (List.mem_cons_of_mem _)

/-- The entries that a list sets are entries of the list. -/
theorem mem_of_mem_ofList {given : List (α × β)} {e : α × β} (h : e ∈ ofList given) : e ∈ given := by
  suffices ∀ entries : List (α × β), e ∈ given.foldl (fun acc e => insert e.1 e.2 acc) entries →
      e ∈ entries ∨ e ∈ given from (this [] h).resolve_left (by simp)
  clear h
  induction given with
  | nil => exact fun entries h => .inl h
  | cons d rest ih =>
    intro entries h
    rcases ih _ h with h | h
    · rcases mem_of_mem_insert h with rfl | h
      · exact .inr List.mem_cons_self
      · exact .inl h
    · exact .inr (List.mem_cons_of_mem _ h)

/-- Where no entry gets lost, the keys were distinct and nothing is changed. -/
theorem foldl_insert_eq_of_length {given entries : List (α × β)}
    (h : (given.foldl (fun acc e => insert e.1 e.2 acc) entries).length =
      entries.length + given.length) :
    given.foldl (fun acc e => insert e.1 e.2 acc) entries = entries ++ given := by
  induction given generalizing entries with
  | nil => simp
  | cons e rest ih =>
    rw [List.foldl_cons, List.length_cons] at h
    by_cases hk : e.1 ∈ entries.map (·.1)
    · have hkeys := congrArg List.length (keys_insert_of_mem e.2 hk)
      have hle := length_foldl_insert_le rest (insert e.1 e.2 entries)
      simp only [List.length_map] at hkeys
      omega
    · rw [insert_of_not_mem e.2 hk] at h
      rw [List.foldl_cons, insert_of_not_mem e.2 hk, ih (by rw [h]; simp; omega),
        List.append_assoc, List.singleton_append]

/-- A list that sets as many keys as it has entries is its own list of entries. -/
theorem ofList_eq_of_length {given : List (α × β)} (h : (ofList given).length = given.length) :
    ofList given = given :=
  (foldl_insert_eq_of_length (by simpa [ofList] using h)).trans (List.nil_append _)

end Entries

namespace Json

/-! ## Encoding -/

mutual

/-- The value that is encoded where it can be: keys with lone halves have others in their place. -/
def encoded : Json → Json
  | .arr items => .arr (encodedItems items)
  | .obj entries => .obj (encodedEntries entries)
  | x => x

/-- The items that are encoded. -/
def encodedItems : List Json → List Json
  | [] => []
  | x :: rest => encoded x :: encodedItems rest

/-- The entries that are encoded. -/
def encodedEntries : List (String × Json) → List (String × Json)
  | [] => []
  | (key, x) :: rest => (Text.replaceHalves key, encoded x) :: encodedEntries rest

end

@[simp] theorem encodedItems_eq_map (items : List Json) :
    encodedItems items = items.map encoded := by
  induction items with
  | nil => rfl
  | cons x rest ih => simp [encodedItems, ih]

@[simp] theorem encodedEntries_eq_map (entries : List (String × Json)) :
    encodedEntries entries = entries.map fun e => (Text.replaceHalves e.1, encoded e.2) := by
  induction entries with
  | nil => rfl
  | cons e rest ih => simp [encodedEntries, ih]

/-- What is encoded is the encoded value. -/
theorem eq_encoded_of_encodable {x y : Json} (h : x.encodable = .ok y) : y = x.encoded := by
  induction x using Json.induction generalizing y with
  | scalar x ha ho =>
    cases x with
    | arr => exact absurd rfl ha
    | obj => exact absurd rfl ho
    | str s =>
      simp only [encodable, encodableText] at h
      split at h
      · cases h
      · cases h
        rfl
    | _ =>
      cases h
      rfl
  | arr items ih =>
    rw [encodable, encodableItems_eq_mapM, map_eq_ok_iff] at h
    obtain ⟨ys, hm, rfl⟩ := h
    rw [encoded, encodedItems_eq_map, mapM_eq_map (fun x hx y => ih x hx) hm]
  | obj entries ih =>
    rw [encodable, encodableEntries_eq_mapM, map_eq_ok_iff] at h
    obtain ⟨ys, hm, rfl⟩ := h
    rw [encoded, encodedEntries_eq_map]
    refine congrArg Json.obj (mapM_eq_map (fun e he d hd => ?_) hm)
    obtain ⟨x, hx, rfl⟩ := map_eq_ok_iff.1 hd
    rw [ih e he hx]

/-! ## What comes back -/

/-- An object has no key twice. -/
def Distinct : Json → Prop
  | .obj entries => (entries.map (·.1)).Nodup
  | _ => True

/-- A number is finite, and every key of an object is encoded as it is. -/
def Expressible : Json → Prop
  | .float x => x.isFinite = true
  | .obj entries => ∀ e ∈ entries, Text.replaceHalves e.1 = e.1
  | _ => True

theorem everywhere_legible_encoded {x : Json} (h : Everywhere Legible x) :
    Everywhere Legible x.encoded := by
  induction h with
  | @scalar x ha ho hx =>
    cases x with
    | arr => exact absurd rfl ha
    | obj => exact absurd rfl ho
    | _ => exact .scalar ha ho hx
  | arr _ _ ih =>
    rw [encoded, encodedItems_eq_map]
    exact .arr trivial (List.forall_mem_map.2 ih)
  | obj _ _ ih =>
    rw [encoded, encodedEntries_eq_map]
    exact .obj trivial (List.forall_mem_map.2 ih)

/-- What is left of a value that is encoded, written and read. -/
def printed (x : Json) : Json := x.encoded.reread

theorem map_eq_self_iff {α : Type} {f : α → α} {l : List α} :
    l.map f = l ↔ ∀ a ∈ l, f a = a := by
  conv_lhs => rhs; rw [← List.map_id l]
  exact List.map_inj_left

/-- A value comes back as it was exactly if everything in it is expressible. -/
theorem printed_eq_self_iff {x : Json} (hx : Everywhere Distinct x) :
    x.printed = x ↔ Everywhere Expressible x := by
  induction hx with
  | @scalar x ha ho _ =>
    rw [Everywhere.of_scalar ha ho]
    cases x with
    | arr => exact absurd rfl ha
    | obj => exact absurd rfl ho
    | float y => cases hy : y.isFinite <;> simp [printed, encoded, reread, Expressible, hy]
    | _ => simp [printed, encoded, reread, Expressible]
  | @arr items _ _ ih =>
    have hprinted : (Json.arr items).printed = .arr (items.map printed) := by
      rw [printed, encoded, reread, encodedItems_eq_map, rereadItems_eq_map, List.map_map]
      rfl
    rw [Everywhere.arr_iff, hprinted, Json.arr.injEq, map_eq_self_iff]
    exact (forall₂_congr ih).trans ⟨fun h => ⟨trivial, h⟩, And.right⟩
  | @obj entries hd _ ih =>
    let written := entries.map fun e => (Text.replaceHalves e.1, e.2.printed)
    have hwritten : written = entries ↔
        ∀ e ∈ entries, Text.replaceHalves e.1 = e.1 ∧ Everywhere Expressible e.2 := by
      rw [map_eq_self_iff]
      refine forall₂_congr fun e he => ?_
      rw [Prod.ext_iff, ih e he]
    have hprinted : (Json.obj entries).printed = .obj (Entries.ofList written) := by
      rw [printed, encoded, reread, encodedEntries_eq_map, rereadEntries_eq_map, List.map_map]
      rfl
    rw [Everywhere.obj_iff, hprinted, Json.obj.injEq, Expressible, ← forall₂_and, ← hwritten]
    refine ⟨fun h => ?_, fun h => ?_⟩
    · have hlength : (Entries.ofList written).length = written.length := by
        rw [h, List.length_map]
      exact (Entries.ofList_eq_of_length hlength).symm.trans h
    · rw [h]
      exact Entries.ofList_eq_self hd

/-! ## Values that are read -/

/-- What holds of every value in a value that was read: an integer is short, and an object has no
key twice. -/
def Tidy (x : Json) : Prop := Legible x ∧ Distinct x

theorem isDigit_of_mem_wholePart {s : List Char} {c : Char} (h : c ∈ (wholePart s).1) :
    c.isDigit = true := by
  unfold wholePart at h
  split at h
  · rw [List.mem_singleton.1 h]
    rfl
  · exact List.all_eq_true.1 List.all_takeWhile c h

theorem legible_of_lt {n : Int} {k : Nat} (h : n.natAbs < 10 ^ k)
    (hk : k ≤ Text.maxIntegerDigits) : Legible (.int n) := by
  rw [Legible, Nat.length_toDigits_le_iff (by decide) (by decide)]
  exact h.trans_le (Nat.pow_le_pow_right (by decide) hk)

theorem tidy_of_readNumber {s rest : List Char} {x : Json} (h : readNumber s = .ok (x, rest)) :
    Everywhere Tidy x := by
  unfold readNumber at h
  split at h
  rename_i negative unsigned _
  split at h
  rename_i whole _ hwhole
  split at h
  · cases h
  · split at h
    split at h
    split at h
    · split at h
      · cases h
      · rename_i hl
        cases h
        have hdigits : ∀ c ∈ whole, c.isDigit = true := fun c hc =>
          isDigit_of_mem_wholePart (hwhole ▸ hc : c ∈ (wholePart unsigned).1)
        have hlt := Text.digitsValue_lt hdigits
        refine .scalar (by simp [kind]) (by simp [kind])
          ⟨legible_of_lt (k := whole.length) ?_ (Nat.le_of_not_lt hl), trivial⟩
        cases negative <;> simpa using hlt
    · cases h
      exact .scalar (by simp [kind]) (by simp [kind]) ⟨trivial, trivial⟩

theorem tidy_of_readScalar {s rest : List Char} {x : Json} (h : readScalar s = .ok (x, rest)) :
    Everywhere Tidy x := by
  unfold readScalar at h
  split at h
  · rename_i hfound
    cases h
    obtain ⟨⟨word, y⟩, hmem, hy⟩ := List.exists_of_findSome?_eq_some hfound
    obtain ⟨_, -, hpair⟩ := Option.map_eq_some_iff.1 hy
    cases hpair
    have hwords : ∀ e ∈ wordValues, e.2.kind ≠ .array ∧ e.2.kind ≠ .object ∧ Tidy e.2 := by
      simp [wordValues, kind, Tidy, Legible, Distinct]
    obtain ⟨ha, ho, ht⟩ := hwords _ hmem
    exact .scalar ha ho ht
  · exact tidy_of_readNumber h

/-- What is read in a number of steps is tidy, and so are the items of an array and the values of an
object. -/
structure ReadsTidy (fuel : Nat) : Prop where
  value : ∀ {s rest x}, readValue fuel s = .ok (x, rest) → Everywhere Tidy x
  items : ∀ {s rest items}, readItems fuel s = .ok (items, rest) → ∀ x ∈ items, Everywhere Tidy x
  entries : ∀ {s rest entries}, readEntries fuel s = .ok (entries, rest) →
    ∀ e ∈ entries, Everywhere Tidy e.2

namespace ReadsTidy

variable {fuel : Nat} {s rest : List Char}

theorem value_succ (ht : ReadsTidy fuel) {x : Json} (h : readValue (fuel + 1) s = .ok (x, rest)) :
    Everywhere Tidy x := by
  have hempty : Everywhere Tidy (.arr []) ∧ Everywhere Tidy (.obj []) :=
    ⟨.arr ⟨trivial, trivial⟩ (by simp), .obj ⟨trivial, by simp [Distinct]⟩ (by simp)⟩
  rw [readValue.eq_def] at h
  dsimp only at h
  split at h
  · split at h <;> cases h
    exact .scalar (by simp [kind]) (by simp [kind]) ⟨trivial, trivial⟩
  · split at h
    · cases h
      exact hempty.1
    · split at h <;> cases h
      exact .arr ⟨trivial, trivial⟩ (ht.items ‹_›)
  · split at h
    · cases h
      exact hempty.2
    · split at h <;> cases h
      refine .obj ⟨trivial, Entries.nodup_keys_ofList _⟩ fun e he => ?_
      exact ht.entries ‹_› e (Entries.mem_of_mem_ofList he)
  · exact tidy_of_readScalar h

theorem items_succ (ht : ReadsTidy fuel) {items : List Json}
    (h : readItems (fuel + 1) s = .ok (items, rest)) : ∀ x ∈ items, Everywhere Tidy x := by
  rw [readItems.eq_def] at h
  dsimp only at h
  split at h
  · cases h
  · rename_i item after hitem
    split at h
    · cases h
      exact List.forall_mem_singleton.2 (ht.value hitem)
    · split at h <;> cases h
      exact List.forall_mem_cons.2 ⟨ht.value hitem, ht.items ‹_›⟩
    · cases h

theorem entries_succ (ht : ReadsTidy fuel) {entries : List (String × Json)}
    (h : readEntries (fuel + 1) s = .ok (entries, rest)) :
    ∀ e ∈ entries, Everywhere Tidy e.2 := by
  rw [readEntries.eq_def] at h
  dsimp only at h
  split at h
  · cases h
  · split at h
    · cases h
    · rename_i value after hvalue
      split at h
      · cases h
        exact List.forall_mem_singleton.2 (ht.value hvalue)
      · split at h <;> cases h
        exact List.forall_mem_cons.2 ⟨ht.value hvalue, ht.entries ‹_›⟩
      · cases h

end ReadsTidy

theorem readsTidy (fuel : Nat) : ReadsTidy fuel := by
  induction fuel with
  | zero =>
    constructor <;> intro s rest x h <;> cases h
  | succ fuel ih => exact ⟨ih.value_succ, ih.items_succ, ih.entries_succ⟩

/-- What is read is tidy everywhere. -/
theorem tidy_of_read {text : String} {x : Json} (h : Json.read text = .ok x) :
    Everywhere Tidy x := by
  rw [Json.read, readChars.eq_def] at h
  split at h
  · cases h
  · split at h
    · cases h
    · split at h <;> cases h
      exact (readsTidy _).value ‹_›

end Json

end OperationTools
