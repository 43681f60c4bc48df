import OperationTools.Proofs.Compilation.InputConformance

/-!
# Exact arguments

Where input objects nest no deeper than the limit and none has too many fields, nothing is ever cut.
A type that is met inside itself would nest without end, so no visit meets a type that is open, and
whatever is kept was compiled as a whole. Then an operation accepts exactly what conforms to its
arguments, in every order in which operations are compiled.

## Main definitions

* `InputTypes.nestsWithin`: a type nests at most a number of input objects
* `InputTypes.Sharp`, `InputTypes.SharpMemo`: validators that take only what conforms, and memos
  that keep only such validators

## Main results

* `InputTypes.sharp_of_yields`: a visit within the limit yields a sharp validator
* `InputTypes.accepts_iff_conformsTo`: an operation accepts exactly what conforms to its arguments
-/

namespace OperationTools.InputTypes

variable (types : InputTypes)

/-- Whether every chain of nested input objects that starts at a type has at most a number of
them. -/
def nestsWithin : Nat → TypeRef → Bool
  | 0, r => !(types.schema.body? r.name matches some (.input _))
  | levels + 1, r =>
    match types.schema.body? r.name with
    | some (.input fields) => fields.all fun f => nestsWithin levels f.type
    | _ => true

/-- A validator takes nothing but what conforms to its reference. -/
def Sharp (r : TypeRef) (v : Validator) : Prop :=
  ∀ x, v.takesAt (!r.isNonNull) (some x) = true → types.Conforms r x

/-- All input objects are kept with validators that take nothing but what conforms. -/
def SharpMemo (memo : Memo) : Prop :=
  ∀ n v, memo.find? (.input n) = some v → types.Sharp (.named n) v

variable {types}

/-! ## Nesting -/

theorem nestsWithin_zero_of_input {r : TypeRef} {fields : List InputField}
    (hb : types.schema.body? r.name = some (.input fields)) : types.nestsWithin 0 r = false := by
  simp [nestsWithin, hb]

theorem nestsWithin_succ_iff {r : TypeRef} {fields : List InputField}
    (hb : types.schema.body? r.name = some (.input fields)) {levels : Nat} :
    types.nestsWithin (levels + 1) r = true ↔
      ∀ f ∈ fields, types.nestsWithin levels f.type = true := by
  simp [nestsWithin, hb]

/-- Only the named type nests. -/
theorem nestsWithin_named (levels : Nat) (r : TypeRef) :
    types.nestsWithin levels (.named r.name) = types.nestsWithin levels r := by
  cases levels <;> rfl

theorem nestsWithin_succ {levels : Nat} {r : TypeRef} (h : types.nestsWithin levels r = true) :
    types.nestsWithin (levels + 1) r = true := by
  induction levels generalizing r with
  | zero =>
    rw [nestsWithin]
    split
    · rename_i hb
      rw [nestsWithin_zero_of_input hb] at h
      cases h
    · rfl
  | succ levels ih =>
    cases hb : types.schema.body? r.name with
    | some body =>
      cases body with
      | input fields =>
        exact (nestsWithin_succ_iff hb).2 fun f hf => ih ((nestsWithin_succ_iff hb).1 h f hf)
      | _ => simp [nestsWithin, hb]
    | none => simp [nestsWithin, hb]

theorem nestsWithin_of_le {levels more : Nat} (hle : levels ≤ more) {r : TypeRef}
    (h : types.nestsWithin levels r = true) : types.nestsWithin more r = true := by
  induction hle with
  | refl => exact h
  | step _ ih => exact nestsWithin_succ ih

/-- The fields of an input object nest less deeply than the type itself. -/
theorem exists_levels_of_input {levels : Nat} {r : TypeRef} {fields : List InputField}
    (hb : types.schema.body? r.name = some (.input fields))
    (h : types.nestsWithin levels r = true) :
    ∃ fewer < levels, (∀ f ∈ fields, types.nestsWithin fewer f.type = true) ∧
      types.nestsWithin fewer r = false := by
  have hex : ∃ k, types.nestsWithin k r = true := ⟨levels, h⟩
  cases hk : Nat.find hex with
  | zero =>
    have hspec := Nat.find_spec hex
    rw [hk, nestsWithin_zero_of_input hb] at hspec
    cases hspec
  | succ fewer =>
    have hspec := Nat.find_spec hex
    have hmin := Nat.find_min hex (m := fewer) (by omega)
    have hle := Nat.find_min' hex h
    rw [hk] at hspec
    exact ⟨fewer, by omega, (nestsWithin_succ_iff hb).1 hspec, by simpa using hmin⟩

/-! ## Sharp validators -/

theorem sharp_named_iff {n : String} {v : Validator} :
    types.Sharp (.named n) v ↔
      ∀ x, x ≠ .null → v.accepts x = true → types.Conforms (.named n) x := by
  constructor
  · intro h x hx ha
    exact h x (by rwa [Validator.takesAt_some hx])
  · intro h x ht
    by_cases hx : x = .null
    · subst hx
      exact .null rfl
    · rw [Validator.takesAt_some hx] at ht
      exact h x hx ht

/-- Lists and non-null marks are exact, whatever the named type is. -/
theorem Sharp.wrap {r : TypeRef} {v : Validator} (h : types.Sharp (.named r.name) v) :
    types.Sharp r (r.wrap v) := fun _ ht =>
  conforms_iff_holds.2 ((TypeRef.takesAt_wrap_iff.1 ht).mono (sharp_named_iff.1 h))

theorem sharp_enumValidator {n : String} {values : List String}
    (hb : types.schema.body? n = some (.enum (some values))) :
    types.Sharp (.named n) (enumValidator values) :=
  sharp_named_iff.2 fun _ hx => (accepts_enumValidator_iff_conforms hb hx).1

/-- An input object of which all fields are known is sharp if its parts are. -/
theorem sharp_node (hl : types.schema.Lawful) {n : String} {fields : List InputField}
    (hb : types.schema.body? n = some (.input fields)) (hall : types.knownFields fields = fields)
    {part : TypeRef → Validator} (hp : ∀ f ∈ fields, types.Sharp f.type (part f.type)) :
    types.Sharp (.named n) (types.node n fields part) := by
  refine sharp_named_iff.2 fun x _ ha => ?_
  obtain ⟨entries, rfl, htaken⟩ := (accepts_node_iff hl hb).1 ha
  rw [hall] at htaken
  refine .input hb (fun f hf hr => ?_) fun f hf x hx => ?_
  · obtain ⟨x, hx, -⟩ := (Validator.takesAt_iff.1 (htaken f hf)).1 (by rw [hr]; rfl)
    exact ⟨x, hx⟩
  · have hat := htaken f hf
    rw [hx] at hat
    exact hp f hf x hat

theorem sharpMemo_empty : types.SharpMemo {} := by
  intro n v hk
  simp [Memo.find?] at hk

theorem SharpMemo.congr {memo other : Memo} (h : types.SharpMemo memo)
    (he : ∀ k, other.find? k = memo.find? k) : types.SharpMemo other :=
  fun n v hk => h n v ((he _).symm.trans hk)

theorem SharpMemo.keep_enum {memo : Memo} (h : types.SharpMemo memo) (n : String) (v : Validator) :
    types.SharpMemo (memo.keep (.enum n) v) := by
  intro m w hk
  rcases Memo.find?_keep_cases hk with hk | ⟨he, -⟩
  · exact h m w hk
  · cases he

theorem SharpMemo.keep_input {memo : Memo} (h : types.SharpMemo memo) {n : String} {v : Validator}
    (hv : types.Sharp (.named n) v) : types.SharpMemo (memo.keep (.input n) v) := by
  intro m w hk
  rcases Memo.find?_keep_cases hk with hk | ⟨he, rfl⟩
  · exact h m w hk
  · cases he
    exact hv

/-! ## Visits -/

variable (types) in
/-- No input object has more fields than its validator may know. -/
def FewFields : Prop :=
  ∀ t ∈ types.schema.types, t.body.inputFields.length ≤ types.settings.maxArgumentFields

instance : Decidable types.FewFields :=
  inferInstanceAs (Decidable (∀ t ∈ types.schema.types,
    t.body.inputFields.length ≤ types.settings.maxArgumentFields))

theorem knownFields_eq (hfew : types.FewFields) {n : String} {fields : List InputField}
    (hb : types.schema.body? n = some (.input fields)) : types.knownFields fields = fields :=
  List.take_of_length_le (hfew _ (Schema.mem_of_body? hb))

/-- A visit of a type that nests within the levels left, and whose parts never lead back to a type
that is open, yields a sharp validator and keeps only such. -/
theorem sharp_of_yields (hl : types.schema.Lawful) (hfew : types.FewFields) {left levels : Nat}
    {visited : List String} {r : TypeRef} {s t : Compilation} {v : Validator}
    (hlevels : levels < left) (hr : types.nestsWithin levels r = true)
    (hopen : ∀ m ∈ visited, types.nestsWithin levels (.named m) = false)
    (ho : types.Open visited s.memo) (hs : types.Sound s.memo) (hm : types.SharpMemo s.memo)
    (h : (types.ofType left visited r).Yields s v t) :
    types.SharpMemo t.memo ∧ types.Sharp r v := by
  -- induction on the levels left; the levels needed shrink along with them
  induction left generalizing levels visited r s v t with
  | zero => omega
  | succ left ih =>
    obtain ⟨w, hw, rfl⟩ := types.yields_ofType_succ_iff.1 h
    suffices types.SharpMemo t.memo ∧ types.Sharp (.named r.name) w from ⟨this.1, this.2.wrap⟩
    cases hw with
    | scalar hb => exact ⟨hm, sharp_named_iff.2 fun x hx => (accepts_scalar_iff_conforms hb hx).1⟩
    | foreign hb => exact ⟨hm, sharp_named_iff.2 fun _ _ _ => .foreign hb⟩
    | keptEnum _ hk =>
      obtain ⟨values, hb, rfl⟩ := hs.enums _ _ hk
      exact ⟨hm, sharp_enumValidator hb⟩
    | insideEnum hb _ hv => exact absurd hv (ho.not_mem_of_enum hb)
    | madeEnum hb => exact ⟨hm.keep_enum _ _, sharp_enumValidator hb⟩
    | kept _ hk => exact ⟨hm, hm _ _ hk⟩
    | inside _ _ hv =>
      rw [← nestsWithin_named, hopen _ hv] at hr
      cases hr
    | @made _ fields _ hb hk _ hvs =>
      obtain ⟨fewer, hfewer, hfields, hself⟩ := exists_levels_of_input hb hr
      have hopen' : ∀ m ∈ r.name :: visited, types.nestsWithin fewer (.named m) = false := by
        intro m hmem
        rcases List.mem_cons.1 hmem with rfl | hmem
        · rw [nestsWithin_named, hself]
        · refine eq_false_of_ne_true fun hn => ?_
          have hopened := hopen m hmem
          rw [nestsWithin_of_le hfewer.le hn] at hopened
          cases hopened
      have ho' := ho.noted hb hk
      obtain ⟨part, he, rfl⟩ := exists_node ho' hvs
      have hparts : ∀ q ∈ types.parts fields, types.nestsWithin fewer q = true := by
        intro q hq
        obtain ⟨f, hf, rfl⟩ := List.mem_map.1 hq
        exact hfields f (List.mem_of_mem_take hf)
      obtain ⟨⟨-, hu, -⟩, hsharp⟩ :=
        (hvs.mono fun q hq _ _ _ h => And.intro (hparts q hq) h).preserves_and
          (P := fun u => types.Sound u.memo ∧ types.SharpMemo u.memo ∧
            types.Open (r.name :: visited) u.memo)
          (Q := fun _ q v => types.Sharp q v)
          (fun _ _ _ _ h => types.memo_le_of_yields h.2) (fun _ _ _ _ _ h => h)
          (fun _ _ _ _ h hs => by
            obtain ⟨hu, hv⟩ := ih (by omega) h.1 hopen' hs.2.2 hs.1 hs.2.1 h.2
            exact ⟨⟨(sound_of_yields hs.2.2 h.2 hs.1).1, hu, hs.2.2.of_yields h.2⟩, hv⟩)
          ⟨hs.congr (types.find?_noted _ _ s), hm.congr (types.find?_noted _ _ s), ho'⟩
      have hall := knownFields_eq hfew hb
      have hnode : types.Sharp (.named r.name) (types.node r.name fields part) :=
        sharp_node hl hb hall fun f hf => hsharp f.type (by
          rw [parts, hall]
          exact List.mem_map_of_mem hf)
      rw [he]
      exact ⟨hu.keep_input hnode, hnode⟩

/-! ## Operations -/

variable (types) in
/-- No argument of an operation nests more input objects than the limit. -/
def Shallow (op : Operation) : Prop :=
  ∀ a ∈ op.arguments, a.type.all (types.nestsWithin types.settings.maxSchemaDepth) = true

instance (op : Operation) : Decidable (types.Shallow op) :=
  inferInstanceAs (Decidable (∀ a ∈ op.arguments,
    a.type.all (types.nestsWithin types.settings.maxSchemaDepth) = true))

theorem sharp_of_yields_argument (hl : types.schema.Lawful) (hfew : types.FewFields)
    {type? : Option TypeRef}
    (hr : ∀ r, type? = some r → types.nestsWithin types.settings.maxSchemaDepth r = true)
    {s t : Compilation} {v : Validator} (hs : types.Sound s.memo) (hm : types.SharpMemo s.memo)
    (h : (types.ofType? (types.levelsLeft 0) [] type?).Yields s v t) :
    types.SharpMemo t.memo ∧ ∀ r, type? = some r → types.Sharp r v := by
  cases type? with
  | none =>
    obtain ⟨-, rfl⟩ := yields_none_iff.1 h
    exact ⟨hm, by simp⟩
  | some r =>
    rw [ofType?, levelsLeft_zero] at h
    obtain ⟨ht, hv⟩ := sharp_of_yields hl hfew (Nat.lt_succ_self _) (hr r rfl) (by simp)
      (types.open_nil _) hs hm h
    refine ⟨ht, fun r' hr' => ?_⟩
    cases hr'
    exact hv

/-- An operation that nests within the limit keeps sharp validators and is made of such. -/
theorem sharp_of_thread (hl : types.schema.Lawful) (hfew : types.FewFields) {op : Operation}
    (hop : types.Shallow op) {part : Option TypeRef → Validator} {s t : Compilation}
    (hs : types.Sound s.memo) (hm : types.SharpMemo s.memo)
    (h : Thread (fun type? => (types.ofType? (types.levelsLeft 0) [] type?).Yields)
      (op.arguments.map (·.type)) s ((op.arguments.map (·.type)).map part) t) :
    types.SharpMemo t.memo ∧
      ∀ a ∈ op.arguments, ∀ r, a.type = some r → types.Sharp r (part (some r)) := by
  have hshallow : ∀ type? ∈ op.arguments.map (·.type), ∀ r, type? = some r →
      types.nestsWithin types.settings.maxSchemaDepth r = true := by
    intro type? hmem r hr
    obtain ⟨a, ha, rfl⟩ := List.mem_map.1 hmem
    exact (Option.all_eq_true _ _).1 (hop a ha) r hr
  obtain ⟨⟨-, ht⟩, hsharp⟩ :=
    (h.mono fun type? hmem _ _ _ h => And.intro (hshallow type? hmem) h).preserves_and
      (P := fun u => types.Sound u.memo ∧ types.SharpMemo u.memo)
      (Q := fun (_ : Memo) (type? : Option TypeRef) (v : Validator) =>
        ∀ r, type? = some r → types.Sharp r v)
      (fun _ _ _ _ h => memo_le_of_yields_argument h.2) (fun _ _ _ _ _ h => h)
      (fun _ _ _ _ h hs => by
        obtain ⟨ht, hv⟩ := sharp_of_yields_argument hl hfew h.1 hs.1 hs.2 h.2
        exact ⟨⟨(sound_of_yields_argument h.2 hs.1).1, ht⟩, hv⟩)
      ⟨hs, hm⟩
  refine ⟨ht, fun a ha r hr => ?_⟩
  exact hsharp (some r) (hr ▸ List.mem_map_of_mem ha) r rfl

/-- Operations that nest within the limit leave a sharp memo, in every order. -/
theorem sharpMemo_memoAfter (hl : types.schema.Lawful) (hfew : types.FewFields)
    {history : List Operation} (hh : types.Compiles history)
    (hshallow : ∀ o ∈ history, types.Shallow o) : types.SharpMemo (types.memoAfter history) := by
  obtain ⟨vs, hvs⟩ := hh
  have h : (history.mapM types.ofOperation).Yields {} vs _ := Prod.ext hvs rfl
  exact (((TryCompile.yields_mapM.1 h).mono fun o ho _ _ _ h =>
    And.intro (hshallow o ho) h).preserves
      (P := fun s => types.Sound s.memo ∧ types.SharpMemo s.memo)
      (fun _ _ _ _ h hs => by
        obtain ⟨_, -, hp⟩ := yields_ofOperation_iff.1 h.2
        exact ⟨sound_of_yields_operation h.2 hs.1, (sharp_of_thread hl hfew h.1 hs.1 hs.2 hp).1⟩)
      ⟨sound_empty, sharpMemo_empty⟩).2

/-- An object that is accepted conforms if all parts of the validator are sharp. -/
theorem conformsTo_of_accepts {op : Operation} (hd : (op.arguments.map (·.name)).Nodup)
    {part : Option TypeRef → Validator}
    (hp : ∀ a ∈ op.arguments, ∀ r, a.type = some r → types.Sharp r (part (some r))) {x : Json}
    (h : (argumentsOf op part).accepts x = true) :
    ∃ entries, x = .obj entries ∧ types.ConformsTo op entries := by
  obtain ⟨entries, rfl, htaken⟩ := (accepts_argumentsOf_iff hd).1 h
  refine ⟨entries, rfl, fun a ha ho => (Validator.takesAt_iff.1 (htaken a ha)).1 ho, ?_⟩
  intro a ha r hr x hx
  have hat := htaken a ha
  rw [hr, hx, mayBeOmitted_of_type hr] at hat
  exact hp a ha r hr x hat

/-- Where input objects nest within the limit and all their fields are known, an operation accepts
exactly what conforms to its arguments, after any other operations. Where enums are readable there
is such a validator. -/
theorem accepts_iff_conformsTo (hl : types.schema.Lawful) (hfew : types.FewFields)
    {history : List Operation} {op : Operation} (hd : (op.arguments.map (·.name)).Nodup)
    (hshallow : ∀ o ∈ op :: history, types.Shallow o) :
    (types.schema.Readable →
      types.Compiles history ∧ ∃ v, types.validatorAfter history op = .ok v) ∧
    (types.Compiles history → ∀ v, types.validatorAfter history op = .ok v → ∀ x,
      v.accepts x = true ↔ ∃ entries, x = .obj entries ∧ types.ConformsTo op entries) := by
  refine ⟨fun hr => exists_validatorAfter hr history op, fun hh v hv x => ?_⟩
  have hsound := sound_memoAfter hh
  obtain ⟨t, h⟩ := validatorAfter_eq_ok_iff.1 hv
  obtain ⟨part, rfl, hp⟩ := yields_ofOperation_iff.1 h
  constructor
  · have hsharp := sharpMemo_memoAfter hl hfew hh fun o ho => hshallow o (List.mem_cons_of_mem _ ho)
    exact conformsTo_of_accepts hd
      (sharp_of_thread (s := { memo := types.memoAfter history }) hl hfew
        (hshallow op List.mem_cons_self) hsound hsharp hp).2
  · rintro ⟨entries, rfl, hx⟩
    exact accepts_argumentsOf_of_conformsTo hl hd
      (fun a ha => standsFor_of_thread hp hsound (List.mem_map_of_mem ha)) hx

/-- Orders of lines, two levels of input objects, with a limit of two levels and two fields. -/
def orders : InputTypes where
  schema :=
    { types :=
        [⟨"Line", .input [⟨"sku", .nonNull (.named "ID"), none⟩, ⟨"count", .named "Int", none⟩]⟩,
          ⟨"Speed", .enum (some ["SLOW", "FAST"])⟩,
          ⟨"Order", .input [
            ⟨"lines", .nonNull (.list (.nonNull (.named "Line"))), none⟩,
            ⟨"speed", .named "Speed", none⟩]⟩,
          ⟨"Query", .object [] [
            ⟨"price", .named "Int", [⟨"line", .named "Line", none⟩], none⟩,
            ⟨"place", .named "ID", [⟨"order", .nonNull (.named "Order"), none⟩], none⟩]⟩,
          ⟨"ID", .scalar⟩, ⟨"Int", .scalar⟩]
      roots := [(.query, "Query")] }
  settings := { maxSchemaDepth := 2, maxArgumentFields := 2 }
  scalars := .standard

/-- The call that prices a line. -/
def priceLine : Operation :=
  .ofField orders.settings .query
    { name := "price", type := .named "Int", arguments := [⟨"line", .named "Line", none⟩] }

/-- The call that places an order. -/
def placeOrder : Operation :=
  .ofField orders.settings .query
    { name := "place", type := .named "ID"
      arguments := [⟨"order", .nonNull (.named "Order"), none⟩] }

/-- After a line was priced an order is accepted exactly if it conforms. -/
theorem accepts_placeOrder_iff :
    orders.schema.Lawful ∧ orders.FewFields ∧ (placeOrder.arguments.map (·.name)).Nodup ∧
      (∀ o ∈ [placeOrder, priceLine], orders.Shallow o) ∧
      ∃ v, orders.validatorAfter [priceLine] placeOrder = .ok v ∧ ∀ x, v.accepts x = true ↔
        ∃ entries, x = .obj entries ∧ orders.ConformsTo placeOrder entries := by
  have hl : orders.schema.Lawful := by decide +kernel
  have hfew : orders.FewFields := by decide +kernel
  have hd : (placeOrder.arguments.map (·.name)).Nodup := by decide
  have hshallow : ∀ o ∈ [placeOrder, priceLine], orders.Shallow o := by decide +kernel
  obtain ⟨hexists, hiff⟩ := accepts_iff_conformsTo hl hfew hd hshallow
  obtain ⟨hh, v, hv⟩ := hexists (by decide +kernel)
  exact ⟨hl, hfew, hd, hshallow, v, hv, hiff hh v hv⟩

end OperationTools.InputTypes
