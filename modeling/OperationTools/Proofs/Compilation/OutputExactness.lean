import OperationTools.Proofs.Compilation.OutputWellTyped

/-!
# Exact selections

Along its fields, members and implementers a type leads to further composite types. If these walks
end within the depth limit, none of them returns to a type that it has passed, and the validators
below the type are strict throughout. That is so with every memo, since the types on the way to a
visit all lead to the visited type, whichever operation the visit belongs to.

## Main definitions

* `Part.fits`: the values that are well typed, for a reading of the keys
* `OutputTypes.leads?`: what a key leads to, where only composite types have parts
* `OutputTypes.onward`: the composite types at the ends of walks
* `OutputTypes.Shallow`: no walk is too long, and no type on the way has too many fields
* `OutputTypes.Exact`: validators that are strict throughout

## Main results

* `OutputTypes.Exact.takes_iff_fits`: what an exact validator takes
* `OutputTypes.exact_of_yields`: visits of shallow types yield and keep exact validators
* `OutputTypes.takes_iff_fits_leads`: what the policy of an operation with a shallow result takes
-/

namespace OperationTools

namespace Part

mutual

/-- Whether a value is well typed at a part, where the keys of a type are read by `lead`. -/
def fits (lead : String → String → Option Part) (part : Part) : Json → Bool
  | .obj entries =>
    match part with
    | .leaf => false
    | .composite n => fitsEntries lead n entries
  | x => part.admits x

/-- Whether all entries are well typed in a selection on a type. -/
def fitsEntries (lead : String → String → Option Part) (n : String) :
    List (String × Json) → Bool
  | [] => true
  | (key, x) :: rest => ((lead n key).any fun part => fits lead part x) && fitsEntries lead n rest

end

theorem fitsEntries_iff {lead : String → String → Option Part} {n : String}
    {entries : List (String × Json)} :
    fitsEntries lead n entries = true ↔
      ∀ e ∈ entries, ∃ part, lead n e.1 = some part ∧ part.fits lead e.2 = true := by
  induction entries with
  | nil => simp [fitsEntries]
  | cons e rest ih =>
    rw [fitsEntries, Bool.and_eq_true, ih, Option.any_eq_true, List.forall_mem_cons]

theorem fits_of_ne_obj {lead : String → String → Option Part} {part : Part} {x : Json}
    (hx : ∀ entries, x ≠ .obj entries) : part.fits lead x = part.admits x := by
  cases x with
  | obj entries => exact absurd rfl (hx entries)
  | null | bool | int | float | str | arr => simp [fits]

end Part

namespace OutputTypes

variable (types : OutputTypes)

/-! ## Readings and walks -/

/-- A type as a part: it has parts again if it is composite. -/
def partOf (m : String) : Part :=
  if types.schema.isComposite m then .composite m else .leaf

/-- The type that a key names in a selection on a type: that of a field, else a narrowing. -/
def target? (n key : String) : Option String :=
  (types.schema.fieldType? n key).or (if key ∈ types.knownNarrowings n then some key else none)

/-- What a key leads to in a selection on a type. Fields and narrowings alike are leaves unless
their types are composite. -/
def leads? (n key : String) : Option Part :=
  if key = typenameKey then some .leaf else (types.target? n key).map types.partOf

/-- The named types of the fields of a type, and its narrowings. -/
def next (n : String) : List String :=
  match types.schema.body? n with
  | some body => body.fields.map (·.type.name) ++ types.knownNarrowings n
  | none => []

/-- The composite types at the ends of all walks of some steps from a type. -/
def onward : Nat → String → List String
  | 0, n => if types.schema.isComposite n then [n] else []
  | steps + 1, n => (types.next n).flatMap (onward steps)

/-- Whether the strict validator of a type may know all its fields. -/
def isWhole (m : String) : Bool :=
  (types.schema.body? m).all fun body =>
    decide (body.fields.length ≤ types.settings.maxSelectionFields.value)

/-- No walk from a type takes so many steps, and the types that are passed on the way are whole. -/
def Shallow (steps : Nat) (n : String) : Prop :=
  types.onward steps n = [] ∧ ∀ k < steps, ∀ m ∈ types.onward k n, types.isWhole m = true

instance (steps : Nat) (n : String) : Decidable (types.Shallow steps n) :=
  inferInstanceAs (Decidable (_ ∧ _))

/-- A validator of a type that is strict in all fields and narrowings, at every depth. -/
inductive Exact : String → Validator → Prop where
  | leaf {n : String} (hc : types.schema.isComposite n = false) : Exact n .leaf
  | strictly {n : String} {body : TypeBody} {part : String → Validator}
      (hb : types.schema.body? n = some body) (hc : body.isComposite = true)
      (hall : types.knownFields body = body.fields)
      (hp : ∀ m ∈ types.parts n body, Exact m (part m)) : Exact n (types.node n body part)

/-- Whatever is kept for a type that is shallow enough for its place is exact. -/
def ExactMemo (memo : Memo) : Prop :=
  ∀ n left v, memo.find? (types.key n left) = some v → types.Shallow (left + 1) n →
    types.Exact n v

/-- The types that are being visited all lead to the next one, if it is composite. -/
def LeadTo (visited : List String) (n : String) : Prop :=
  types.schema.isComposite n = true → ∀ a ∈ visited, ∃ k, n ∈ types.onward (k + 1) a

variable {types}

/-! ## Walks -/

theorem next_eq_nil {n : String} (hc : types.schema.isComposite n = false) :
    types.next n = [] := by
  unfold next knownNarrowings Schema.narrowings
  unfold Schema.isComposite at hc
  cases hb : types.schema.body? n with
  | none => rfl
  | some body => cases body <;> simp_all [TypeBody.isComposite, TypeBody.fields]

theorem mem_next_of_mem_parts {n m : String} {body : TypeBody}
    (hb : types.schema.body? n = some body) (hm : m ∈ types.parts n body) : m ∈ types.next n := by
  rw [next, hb]
  refine List.mem_append.2 ((List.mem_append.1 hm).imp_left fun hm => ?_)
  exact ((List.take_sublist _ _).map _).subset hm

theorem onward_zero {n : String} (hc : types.schema.isComposite n = true) :
    types.onward 0 n = [n] := by
  rw [onward, if_pos hc]

theorem onward_step {steps : Nat} {n m p : String} (hm : m ∈ types.next n)
    (hp : p ∈ types.onward steps m) : p ∈ types.onward (steps + 1) n :=
  List.mem_flatMap.2 ⟨m, hm, hp⟩

/-- Walks are put together. -/
theorem onward_trans {i j : Nat} {n m p : String} (hm : m ∈ types.onward i n)
    (hp : p ∈ types.onward j m) : p ∈ types.onward (i + j) n := by
  induction i generalizing n with
  | zero =>
    rw [onward] at hm
    split at hm
    · rw [List.mem_singleton.1 hm] at hp
      rwa [Nat.zero_add]
    · cases hm
  | succ i ih =>
    obtain ⟨q, hq, hm⟩ := List.mem_flatMap.1 hm
    rw [Nat.add_right_comm]
    exact onward_step hq (ih hm)

/-- If no walk takes some steps, none takes more. -/
theorem onward_eq_nil_of_le {i j : Nat} (h : i ≤ j) {n : String} (hn : types.onward i n = []) :
    types.onward j n = [] := by
  induction i generalizing j n with
  | zero =>
    rw [onward] at hn
    split at hn
    · cases hn
    · rename_i hc
      cases j with
      | zero => rw [onward, if_neg hc]
      | succ j => rw [onward, next_eq_nil (eq_false_of_ne_true hc), List.flatMap_nil]
  | succ i ih =>
    cases j with
    | zero => omega
    | succ j =>
      rw [onward, List.flatMap_eq_nil_iff] at hn ⊢
      exact fun m hm => ih (by omega) (hn m hm)

/-- Where walks end, none of them returns: it could be gone again and again. -/
theorem not_mem_onward {steps : Nat} {n : String} (hn : types.onward steps n = []) (k : Nat) :
    n ∉ types.onward (k + 1) n := by
  intro hk
  have hrounds : ∀ rounds, n ∈ types.onward ((k + 1) * (rounds + 1)) n := by
    intro rounds
    induction rounds with
    | zero => rwa [Nat.zero_add, Nat.mul_one]
    | succ rounds ih => exact onward_trans ih hk
  have hlong : steps ≤ (k + 1) * (steps + 1) :=
    (Nat.le_succ steps).trans (Nat.le_mul_of_pos_left _ (Nat.succ_pos k))
  have hmem := hrounds steps
  rw [onward_eq_nil_of_le hlong hn] at hmem
  cases hmem

/-- What a shallow type leads to is shallow with one step fewer. -/
theorem Shallow.next {steps : Nat} {n m : String} (h : types.Shallow (steps + 1) n)
    (hm : m ∈ types.next n) : types.Shallow steps m := by
  refine ⟨List.flatMap_eq_nil_iff.1 h.1 m hm, fun k hk p hp => ?_⟩
  exact h.2 (k + 1) (by omega) p (onward_step hm hp)

/-- All fields of a shallow type are known. -/
theorem Shallow.knownFields_eq {steps : Nat} {n : String} {body : TypeBody}
    (h : types.Shallow (steps + 1) n) (hb : types.schema.body? n = some body)
    (hc : body.isComposite = true) : types.knownFields body = body.fields := by
  have hn : n ∈ types.onward 0 n := by
    rw [onward_zero (isComposite_of_body? hb hc)]
    exact List.mem_singleton_self n
  have hfew := h.2 0 (Nat.succ_pos _) n hn
  rw [isWhole, hb, Option.all_some, decide_eq_true_iff] at hfew
  exact List.take_of_length_le hfew

/-! ## Exact validators -/

theorem takes_leaf (lead : String → String → Option Part) (x : Json) :
    Validator.leaf.takes x = Part.leaf.fits lead x := by
  cases x <;> simp [Validator.takes, Validator.accepts, Validator.overreaches, Validator.report,
    Validator.objectReport, Validator.arrayReport, Validator.shallowReport, Part.fits, Part.admits]

/-- A strict validator takes the values that are no objects as its type does. -/
theorem takes_node_of_ne_obj {n : String} {body : TypeBody} {part : String → Validator} {x : Json}
    (hx : ∀ entries, x ≠ .obj entries) :
    (types.node n body part).takes x = (Part.composite n).admits x := by
  cases x with
  | obj entries => exact absurd rfl (hx entries)
  | bool b =>
    cases b <;> simp [node, Validator.takes, Validator.accepts, Validator.overreaches,
      Validator.report, Validator.shallowReport, Part.admits]
  | null | int | float | str | arr =>
    simp [node, Validator.takes, Validator.accepts, Validator.overreaches, Validator.report,
      Validator.arrayReport, Validator.shallowReport, Part.admits]

/-- What stands under a key of a strict validator that knows all fields. -/
theorem child?_whole {n : String} {body : TypeBody} (hb : types.schema.body? n = some body)
    (hc : body.isComposite = true) (hall : types.knownFields body = body.fields)
    (part : String → Validator) (key : String) :
    (types.node n body part).child? key =
      if key = typenameKey then some .leaf else (types.target? n key).map part := by
  rw [child?_node, lookup_fields, hall, target?, Schema.fieldType?_eq hb hc]
  congr 1
  cases body.fields.find? (·.name == key) with
  | some f => rfl
  | none =>
    simp only [Option.map_none, Option.none_or]
    split <;> rfl

/-- A key names a part. -/
theorem mem_parts_of_target? {n key m : String} {body : TypeBody}
    (hb : types.schema.body? n = some body) (hc : body.isComposite = true)
    (hall : types.knownFields body = body.fields) (ht : types.target? n key = some m) :
    m ∈ types.parts n body := by
  rw [target?, Schema.fieldType?_eq hb hc, Option.or_eq_some_iff] at ht
  rw [parts, hall, List.mem_append]
  rcases ht with hf | ⟨-, hm⟩
  · obtain ⟨f, hfind, rfl⟩ := Option.map_eq_some_iff.1 hf
    exact .inl (List.mem_map_of_mem (List.mem_of_find?_eq_some hfind))
  · split at hm
    · cases hm
      exact .inr ‹_›
    · cases hm

/-- An exact validator of a type takes what is well typed at it. -/
theorem Exact.takes_iff_fits {n : String} {v : Validator} (h : types.Exact n v) (x : Json) :
    v.takes x = (types.partOf n).fits types.leads? x := by
  -- induction on the validator; under each key stands the exact validator of what it leads to
  induction h generalizing x with
  | leaf hc =>
    rw [partOf, hc, if_neg Bool.false_ne_true]
    exact takes_leaf types.leads? x
  | @strictly n body part hb hc hall hp ih =>
    rw [partOf, if_pos (isComposite_of_body? hb hc)]
    cases x with
    | obj entries =>
      rw [Part.fits, Bool.eq_iff_iff, Part.fitsEntries_iff, node,
        Validator.takes_strictSelection_iff, ← node]
      refine forall₂_congr fun e _ => ?_
      rw [child?_whole hb hc hall, leads?]
      split
      · simp [takes_leaf types.leads?]
      · cases ht : types.target? n e.1 with
        | none => simp
        | some m => simp [ih m (mem_parts_of_target? hb hc hall ht)]
    | null | bool | int | float | str | arr =>
      rw [Part.fits_of_ne_obj (by simp), takes_node_of_ne_obj (by simp)]

/-! ## Visits -/

theorem exactMemo_empty : types.ExactMemo {} := by
  intro n left v hk
  simp [Memo.find?] at hk

theorem ExactMemo.congr {memo other : Memo} (h : types.ExactMemo memo)
    (he : ∀ k, other.find? k = memo.find? k) : types.ExactMemo other :=
  fun n left v hk => h n left v ((he _).symm.trans hk)

theorem ExactMemo.keep {memo : Memo} (h : types.ExactMemo memo) {n : String} {left : Nat}
    {v : Validator} (hv : types.Shallow (left + 1) n → types.Exact n v) :
    types.ExactMemo (memo.keep (types.key n left) v) := by
  intro m l w hk
  rcases Memo.find?_keep_cases hk with hk | ⟨he, rfl⟩
  · exact h m l w hk
  · obtain ⟨rfl, rfl⟩ := types.key_inj.1 he
    exact hv

theorem LeadTo.part {visited : List String} {n m : String} {body : TypeBody}
    (h : types.LeadTo visited n) (hb : types.schema.body? n = some body)
    (hc : body.isComposite = true) (hm : m ∈ types.parts n body) :
    types.LeadTo (n :: visited) m := by
  have hcomp := isComposite_of_body? hb hc
  intro hmc a ha
  have hstep : m ∈ types.onward 1 n :=
    onward_step (mem_next_of_mem_parts hb hm) (by simp [onward_zero hmc])
  rcases List.mem_cons.1 ha with rfl | ha
  · exact ⟨0, hstep⟩
  · obtain ⟨k, hk⟩ := h hcomp a ha
    exact ⟨k + 1, onward_trans hk hstep⟩

/-- A visit keeps exact validators for shallow types, and yields one if its type is shallow. -/
theorem exact_of_yields {left : Nat} {visited : List String} {n : String} {s t : Compilation}
    {v : Validator} (h : (types.ofNamed left visited n).Yields s v t)
    (ho : types.LeadTo visited n) (hm : types.ExactMemo s.memo) :
    types.ExactMemo t.memo ∧ (types.Shallow left n → types.Exact n v) := by
  -- induction on the levels left; walks from the parts are one step shorter
  induction left generalizing visited n s v t with
  | zero =>
    cases types.yields_ofNamed_iff.1 h with
    | leaf hc => exact ⟨hm, fun _ => .leaf hc⟩
    | deep hc =>
      refine ⟨hm, fun hn => ?_⟩
      have hnil := hn.1
      rw [onward_zero hc] at hnil
      cases hnil
  | succ left ih =>
    cases types.yields_ofNamed_iff.1 h with
    | leaf hc => exact ⟨hm, fun _ => .leaf hc⟩
    | inside hc hv =>
      refine ⟨hm, fun hn => ?_⟩
      obtain ⟨k, hk⟩ := ho hc n hv
      exact absurd hk (not_mem_onward hn.1 k)
    | kept _ _ hk => exact ⟨hm, hm n left v hk⟩
    | @made _ _ _ body _ _ _ hb hc hv hk hp =>
      obtain ⟨part, he, rfl⟩ := types.exists_node hp
      obtain ⟨hu, hparts⟩ :=
        (hp.mono fun m hmem _ _ _ h => And.intro (ho.part hb hc hmem) h).preserves_and
          (P := fun u => types.ExactMemo u.memo)
          (Q := fun _ m v => types.Shallow left m → types.Exact m v)
          (fun _ _ _ _ h => types.memo_le_of_yields h.2) (fun _ _ _ _ _ h => h)
          (fun _ _ _ _ h hs => ih h.2 h.1 hs) (hm.congr (types.find?_noted _ _ s))
      have hexact : types.Shallow (left + 1) n → types.Exact n (types.node n body part) :=
        fun hn => .strictly hb hc (hn.knownFields_eq hb hc) fun m hmem =>
          hparts m hmem (hn.next (mem_next_of_mem_parts hb hmem))
      rw [he]
      exact ⟨hu.keep hexact, hexact⟩

/-! ## Operations -/

theorem exactMemo_of_yields_operation {op : Operation} {s t : Compilation} {p : SelectionPolicy}
    (h : (types.ofOperation op).Yields s p t) (hs : types.ExactMemo s.memo) :
    types.ExactMemo t.memo := by
  rcases yields_ofOperation_iff.1 h with ⟨-, -, rfl⟩ | ⟨_, _, -, hv, -⟩
  · exact hs
  · exact (exact_of_yields hv (fun _ _ ha => absurd ha List.not_mem_nil) hs).1

variable (types) in
/-- Every memo that operations fill keeps exact validators for shallow types. -/
theorem exactMemo_memoAfter (history : List Operation) :
    types.ExactMemo (types.memoAfter history) := by
  have h : (history.mapM types.ofOperation).Yields {} _ _ := rfl
  exact (Compile.yields_mapM.1 h).preserves (P := fun s => types.ExactMemo s.memo)
    (fun _ _ _ _ h hs => exactMemo_of_yields_operation h hs) exactMemo_empty

/-- After any operations, with cycles or without, the policy of an operation whose result is shallow
takes exactly the selections that are well typed at every depth. -/
theorem takes_iff_fits_leads (history : List Operation) {op : Operation} {type : TypeRef}
    (hr : op.result = some type) (hc : types.schema.isComposite type.name = true)
    (hshallow : types.Shallow (types.settings.maxSchemaDepth + 1) type.name)
    {entries : List (String × Json)} (hne : entries ≠ []) :
    (types.policyAfter history op).takes (.obj entries) = true ↔
      (Part.composite type.name).fits types.leads? (.obj entries) = true := by
  obtain ⟨t, h⟩ := yields_policyAfter types history op
  rcases yields_ofOperation_iff.1 h with ⟨hnone, -⟩ | ⟨type', v, hr', hv, hp⟩
  · simp [hr] at hnone
  cases hr.symm.trans hr'
  rw [levelsLeft_zero] at hv
  have hexact := (exact_of_yields hv (fun _ _ ha => absurd ha List.not_mem_nil)
    (exactMemo_memoAfter types history)).2 hshallow
  rw [SelectionPolicy.takes_obj hne, hp, hexact.takes_iff_fits, partOf, if_pos hc]

/-- The scalar member is switched on. -/
def switchedMember : List (String × Json) := [("S", .bool true)]

/-- A scalar among the members of a union is switched on or off, as a field of its type is. -/
theorem takes_scalarMember :
    unionOperation.result = some (.named "U") ∧ scalarMember.schema.isComposite "U" = true ∧
      scalarMember.Shallow (scalarMember.settings.maxSchemaDepth + 1) "U" ∧
      ¬ ((scalarMember.policyAfter [] unionOperation).takes (.obj switchedMember) = true ↔
        (Part.composite "U").fits scalarMember.resolve? (.obj switchedMember) = true) := by
  decide +kernel

/-- Rooms with pets below two results. One of them leads back to itself, the other one does not. -/
def rooms : OutputTypes where
  schema :=
    { types :=
        [⟨"Hall", .object [] [⟨"door", .named "Door", [], none⟩]⟩,
          ⟨"Door", .object [] [
            ⟨"hall", .named "Hall", [], none⟩, ⟨"pet", .named "Pet", [], none⟩]⟩,
          ⟨"House", .object [] [⟨"room", .named "Room", [], none⟩]⟩,
          ⟨"Room", .object [] [⟨"pet", .named "Pet", [], none⟩]⟩,
          ⟨"Pet", .union ["Cat", "Tag"]⟩,
          ⟨"Cat", .object [] [⟨"name", .named "String", [], none⟩]⟩,
          ⟨"Tag", .scalar⟩, ⟨"String", .scalar⟩,
          ⟨"Query", .object [] [
            ⟨"hall", .named "Hall", [], none⟩, ⟨"house", .named "House", [], none⟩]⟩]
      roots := [(.query, "Query")] }
  settings := { maxSchemaDepth := 3 }

/-- The operation of a field of the root. -/
def roomsOperation (name typeName : String) : Operation :=
  .ofField rooms.settings .query { name, type := .named typeName }

/-- The validator of `Pet` that was kept inside the cycle serves the house as well, and what the
house takes is well typed. -/
theorem takes_house_after_hall :
    (roomsOperation "house" "House").result = some (.named "House") ∧
      rooms.schema.isComposite "House" = true ∧
      rooms.Shallow (rooms.settings.maxSchemaDepth + 1) "House" ∧
      (rooms.memoAfter [roomsOperation "hall" "Hall"]).contains (rooms.key "Pet" 1) = true ∧
      ∀ entries, entries ≠ [] →
        ((rooms.policyAfter [roomsOperation "hall" "Hall"] (roomsOperation "house" "House")).takes
          (.obj entries) = true ↔
        (Part.composite "House").fits rooms.leads? (.obj entries) = true) := by
  have hr : (roomsOperation "house" "House").result = some (.named "House") := rfl
  have hc : rooms.schema.isComposite "House" = true := by decide +kernel
  have hshallow : rooms.Shallow (rooms.settings.maxSchemaDepth + 1) "House" := by decide +kernel
  exact ⟨hr, hc, hshallow, by decide +kernel, fun _ hne =>
    takes_iff_fits_leads [roomsOperation "hall" "Hall"] hr hc hshallow hne⟩

end OutputTypes

end OperationTools
