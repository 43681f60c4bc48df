import OperationTools.Proofs.Compilation.InputTruncation
import OperationTools.Proofs.Operation.Listing
import OperationTools.Proofs.Tool.Render

/-!
# Truncated tools

An operation has the first arguments of its root field and the validator of an input object knows
the first fields of its type. The limits go by the order of definition alone: an argument or field
that stands behind the limit is not known, even if it is non-null, and one that stands before it is
known. What known arguments and fields lead to is among the accepted variables.

## Main definitions

* `Operation.PassesFirst`: the documents of an operation pass the first arguments of a field
* `Tool.Truncated`: a tool validates the first arguments of a field

## Main results

* `Tool.Compiled.exists_truncated`: compiled tools validate the first arguments of their field
* `Schema.operations_truncated`: what a schema passes, validates and keeps
-/

namespace OperationTools

/-- An argument with a validator. It may be left out unless it is non-null. -/
def Argument.member (a : Argument) (v : Validator) : Member Validator :=
  { name := a.name, optional := !a.type.isNonNull, validator := v }

/-- The arguments of a root field that are within the limit. -/
def Field.firstArguments (f : Field) (settings : Settings) : List Argument :=
  f.arguments.take settings.maxOperationArguments

/-- Every document of an operation declares and passes the first arguments of the root field, in
their order and with their types, and no others. -/
def Operation.PassesFirst (settings : Settings) (c : OperationKind × Field) (op : Operation) :
    Prop :=
  ∀ values selection text, (op.documentFor values selection).1 = .ok text → ∃ parts,
    text = c.1.keyword ++ " " ++ settings.finalName c ++
      Operation.listed ((c.2.firstArguments settings).map fun a =>
        "$" ++ a.name ++ ": " ++ a.type.literal) ++ " \x7b " ++
      (c.2.name ++ Operation.listed ((c.2.firstArguments settings).map fun a =>
        a.name ++ ": $" ++ a.name) ++ parts) ++ " \x7d" ∧
    (parts = "" ∨ ∃ fields, parts = " \x7b " ++ fields ++ " \x7d")

/-- A tool validates the first arguments of a root field, each with a validator for its type. -/
structure Tool.Truncated (types : InputTypes) (f : Field) (part : TypeRef → Validator)
    (tool : Tool) : Prop where
  arguments : tool.arguments = .object (some tool.name) false
    ((f.firstArguments types.settings).map fun a => a.member (part a.type))
  /-- An input object that an argument asks for is not cut. -/
  outermost : ∀ a ∈ f.firstArguments types.settings, ∀ fields,
    types.schema.body? a.type.name = some (.input fields) →
      ∃ w, part a.type = a.type.wrap w ∧ types.KnowsFirst a.type.name fields w
  inside : ∀ a ∈ f.firstArguments types.settings, ∀ n fields w,
    types.schema.body? n = some (.input fields) → types.Inside a.type (part a.type) n w →
      types.KnowsInside n fields w
  /-- A value that known arguments and fields lead to is accepted with the others. -/
  given : ∀ values accepted entries, (tool.acceptVariables values).1 = .ok accepted →
    Tool.variablesOf values = .obj entries → ∀ a ∈ f.firstArguments types.settings, ∀ x p y,
      entries.lookup a.name = some x → types.Kept a.type x p y →
        ∃ z, accepted.at? (.key a.name :: p) = some z ∧ (y ≠ .null → z ≠ .null)

/-! ## Documents -/

/-- The operation of a root field passes the first arguments of the field. -/
theorem Operation.passesFirst_ofField (settings : Settings) (c : OperationKind × Field) :
    (Operation.ofField settings c.1 c.2).PassesFirst settings c := by
  intro values selection text h
  obtain ⟨-, rfl⟩ := documentFor_eq_ok_iff.1 h
  have hdeclarations : (ofField settings c.1 c.2).declarations =
      listed ((c.2.firstArguments settings).map fun a =>
        "$" ++ a.name ++ ": " ++ a.type.literal) := by
    rw [declarations, ofField, List.map_map]
    rfl
  have hbindings : (ofField settings c.1 c.2).bindings =
      listed ((c.2.firstArguments settings).map fun a => a.name ++ ": $" ++ a.name) := by
    rw [bindings, ofField, List.map_map]
    rfl
  rw [document, hdeclarations, (presents_ofField settings c).name, call, hbindings]
  split
  · exact ⟨"", by rw [String.append_empty]; rfl, .inl rfl⟩
  · refine ⟨" \x7b " ++ (selection.map Selection.text).getD "" ++ " \x7d", ?_, .inr ⟨_, rfl⟩⟩
    simp only [String.append_assoc]
    rfl

/-! ## Validators -/

/-- What known fields lead to in an argument is there in what is made of accepted arguments. -/
theorem InputTypes.exists_at?_value_arguments {types : InputTypes} (hl : types.schema.Lawful)
    {memo : Memo} {arguments : List Argument} (hn : (arguments.map (·.name)).Nodup)
    (part : TypeRef → Validator)
    (hs : ∀ a ∈ arguments, types.Stands memo a.type (part a.type)) {typeName : Option String}
    {entries : List (String × Json)} {v : Validator}
    (hv : v = .object typeName false (arguments.map fun a => a.member (part a.type)))
    (haccepts : v.accepts (.obj entries) = true) {a : Argument} (ha : a ∈ arguments) {x y : Json}
    {p : Path} (hx : entries.lookup a.name = some x) (hk : types.Kept a.type x p y) :
    ∃ z, (v.report (.obj entries)).value.at? (.key a.name :: p) = some z ∧
      (y ≠ .null → z ≠ .null) := by
  subst hv
  have hnames : ((arguments.map fun a => a.member (part a.type)).map (·.name)).Nodup := by
    rwa [List.map_map]
  have hm : a.member (part a.type) ∈ arguments.map fun a => a.member (part a.type) :=
    List.mem_map_of_mem ha
  obtain ⟨_, he, htakes⟩ := (Validator.accepts_object_iff hnames).1 haccepts
  obtain rfl := Json.obj.inj he
  have htaken := htakes _ hm
  rw [show (a.member (part a.type)).name = a.name from rfl, hx] at htaken
  obtain ⟨z, hz, hne⟩ := (hs a ha).exists_at?_valueAt hl hk htaken
  exact ⟨z, (Validator.at?_value_object hnames haccepts hm hx p).trans hz, hne⟩

/-- A compiled tool of a root field validates the first arguments of the field. -/
theorem Tool.Compiled.exists_truncated {inputs : InputTypes} {outputs : OutputTypes} {tool : Tool}
    (hc : tool.Compiled inputs outputs) (hl : inputs.schema.Lawful) {c : OperationKind × Field}
    (hop : tool.operation = .ofField inputs.settings c.1 c.2)
    (hd : (tool.operation.arguments.map (·.name)).Nodup) :
    ∃ part, tool.Truncated inputs c.2 part := by
  obtain ⟨s, t, -, hs, -, hv, -⟩ := hc
  obtain ⟨part, hpart, hthread⟩ := InputTypes.yields_ofOperation_iff.1 hv
  rw [InputTypes.argumentsOf_eq hd] at hpart
  have hoperation : tool.operation.arguments = (c.2.firstArguments inputs.settings).map fun a =>
      .make a.name (some a.type) "" a.description := by
    rw [hop]
    rfl
  rw [hoperation, List.map_map] at hd hpart
  have hmem : ∀ a ∈ c.2.firstArguments inputs.settings,
      some a.type ∈ tool.operation.arguments.map (·.type) := by
    intro a ha
    rw [hoperation, List.map_map]
    exact List.mem_map.2 ⟨a, ha, rfl⟩
  have hstands : ∀ a ∈ c.2.firstArguments inputs.settings,
      inputs.Stands t.memo a.type (part (some a.type)) := fun a ha =>
    InputTypes.standsFor_of_thread hthread hs (hmem a ha)
  refine ⟨fun r => part (some r), hpart, fun a ha fields hb => ?_,
    fun a ha n fields w hb hi => ((hstands a ha).of_inside hl hi).knowsInside hb, ?_⟩
  · obtain ⟨w, hw, he⟩ := InputTypes.exists_outer_of_thread hthread hs (hmem a ha)
    exact ⟨w, he, hw.knowsFirst hb⟩
  · intro values accepted entries h he a ha x p y hx hk
    obtain ⟨hissues, rfl⟩ := Tool.acceptVariables_eq_ok_iff.1 h
    rw [he] at hissues ⊢
    exact InputTypes.exists_at?_value_arguments hl hd (fun r => part (some r)) hstands hpart
      (Validator.accepts_iff_issues.2 hissues) ha hx hk

namespace Schema

/-- The operations of a schema pass the first arguments of their fields and the tools validate them.
Every validator that is kept for an input object knows the first fields of its type. -/
theorem operations_truncated {schema : Schema} (hl : schema.Lawful) {settings : Settings}
    {ops : List Operation} (h : (schema.operations settings).1 = .ok ops) :
    (∀ op ∈ ops, ∃ c ∈ schema.keptFields settings, op.Presents settings c ∧
      op.PassesFirst settings c) ∧
    ∀ scalars memo, schema.Fills settings scalars memo →
      ∀ set, (schema.tools settings memo scalars).1 = .ok set →
        (∀ n fields w, schema.body? n = some (.input fields) →
          set.memo.find? (.input n) = some w →
            ({ schema, settings, scalars } : InputTypes).KnowsFirst n fields w) ∧
        ∀ tool ∈ set.tools, tool.operation ∈ ops ∧ ∃ c ∈ schema.keptFields settings,
          tool.operation.Presents settings c ∧
            ∃ part, tool.Truncated { schema, settings, scalars } c.2 part := by
  have hfield : ∀ op ∈ ops, ∃ c ∈ schema.keptFields settings, op = .ofField settings c.1 c.2 := by
    intro op hop
    rw [eq_of_operations h] at hop
    obtain ⟨c, hc, rfl⟩ := List.mem_map.1 hop
    exact ⟨c, List.mem_of_mem_take hc, rfl⟩
  refine ⟨fun op hop => ?_, fun scalars memo hm set hset => ?_⟩
  · obtain ⟨c, hc, rfl⟩ := hfield op hop
    exact ⟨c, hc, Operation.presents_ofField settings c, Operation.passesFirst_ofField settings c⟩
  · obtain ⟨ops', log, hops, hset⟩ := exists_operations_of_tools hset
    obtain rfl : ops' = ops := Except.ok.inj ((congrArg Prod.fst hops).symm.trans h)
    refine ⟨fun n fields w hb hk => ?_, fun tool ht => ?_⟩
    · obtain ⟨tools, log', rfl, -⟩ := yields_of_toolsFor (Prod.ext hset rfl)
      exact (Fills.compiled hm (Prod.ext hset rfl)).sound.1.knowsFirst hb hk
    · obtain ⟨hop, hc⟩ := compiled_of_toolsFor hm hset ht
      obtain ⟨c, hkept, he⟩ := hfield _ hop
      exact ⟨hop, c, hkept, he ▸ Operation.presents_ofField settings c,
        hc.exists_truncated hl he (hl.nodup_arguments hops hop)⟩

/-- Parcels, of which weight and address have to be given, and so has their sender. -/
def parcels : Schema where
  types :=
    [⟨"Parcel", .input
        [⟨"weight", .nonNull (.named "Int"), none⟩, ⟨"address", .nonNull (.named "Int"), none⟩]⟩,
      ⟨"Query", .object []
        [⟨"send", .named "Int",
          [⟨"parcel", .nonNull (.named "Parcel"), none⟩, ⟨"sender", .nonNull (.named "Int"), none⟩],
          none⟩]⟩,
      ⟨"Int", .scalar⟩]
  roots := [(.query, "Query")]

/-- One argument, and one field of each input object. -/
def shortest : Settings := { maxOperationArguments := 1, maxArgumentFields := 1 }

/-- A parcel and its sender. -/
def sentParcel : Json :=
  .obj [("parcel", .obj [("weight", .int 1), ("address", .int 2)]), ("sender", .int 3)]

/-- The weight of a parcel is within the limits and so is not dropped. -/
theorem operations_truncated_parcels :
    parcels.Lawful ∧ parcels.Fills shortest .standard {} ∧
      ∃ ops, (parcels.operations shortest).1 = .ok ops ∧
      ∃ set, (parcels.tools shortest).1 = .ok set ∧ ∃ tool ∈ set.tools, tool.operation ∈ ops ∧
        ∃ accepted, (tool.acceptVariables sentParcel).1 = .ok accepted ∧
          ∃ z, accepted.at? [.key "parcel", .key "weight"] = some z ∧ z ≠ .null := by
  have hl : parcels.Lawful := by decide +kernel
  have hm : parcels.Fills shortest .standard {} := .empty
  obtain ⟨-, htools⟩ :=
    operations_truncated hl (show (parcels.operations shortest).1 = .ok _ from rfl)
  obtain ⟨-, hall⟩ := htools .standard {} hm _ rfl
  obtain ⟨hop, c, hc, -, part, ht⟩ := hall _ List.mem_cons_self
  obtain rfl := List.mem_singleton.1 (show c ∈ [_] from hc)
  refine ⟨hl, hm, _, rfl, _, rfl, _, List.mem_cons_self, hop, _, rfl, ?_⟩
  obtain ⟨z, hz, hne⟩ := ht.given sentParcel _ _ rfl rfl _ List.mem_cons_self _
    [.key "weight"] (.int 1) rfl
    (.nonNull (.field (f := ⟨"weight", .nonNull (.named "Int"), none⟩) rfl List.mem_cons_self rfl
      (.here _ _)))
  exact ⟨z, hz, hne (by simp)⟩

/-- The sender and the address have to be given, but they are behind the limits: the one is neither
declared nor passed, the other one is not known, and the values of both are dropped. -/
theorem render_parcels_shortened :
    ∃ set, (parcels.tools shortest).1 = .ok set ∧ ∃ tool ∈ set.tools,
      (∃ c ∈ parcels.keptFields shortest, tool.operation.Presents shortest c ∧
        ∃ a ∈ c.2.arguments, a.type.isNonNull = true ∧
          a.name ∉ tool.operation.arguments.map (·.name)) ∧
      (∃ fields w, parcels.body? "Parcel" = some (.input fields) ∧
        set.memo.find? (.input "Parcel") = some w ∧
        ∃ f ∈ fields, f.type.isNonNull = true ∧ w.child? f.name = none) ∧
      (tool.render sentParcel .null).1 = .ok
        { query := "query send($parcel: Parcel!) \x7b send(parcel: $parcel) \x7d"
          values := .obj [("parcel", .obj [("weight", .int 1)])] } := by
  refine ⟨_, rfl, _, List.mem_cons_self, ?_, ?_, ?_⟩
  · refine ⟨_, List.mem_cons_self, Operation.presents_ofField _ _, _,
      List.mem_cons_of_mem _ List.mem_cons_self, rfl, ?_⟩
    decide +kernel
  · exact ⟨_, _, rfl, rfl, _, List.mem_cons_of_mem _ List.mem_cons_self, rfl, rfl⟩
  · rfl

end Schema

end OperationTools
