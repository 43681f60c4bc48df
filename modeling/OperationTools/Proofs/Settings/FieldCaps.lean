import OperationTools.Settings.Read

/-!
# The caps on fields

The key `maxFieldsPerType` sets both caps on fields unless they are given. It is put under their
aliases before anything is read, and an alias wins over a name. So it stands between the two keys
of a cap: a cap that is given under its alias keeps its value, and one that is given under its name
loses it.

## Main definitions

* `FieldCap`: the two caps on fields
* `FieldCap.documented?`, `FieldCap.found?`: the value of a cap, by what is promised and as it is
  looked up
* `FieldCap.Overruled`: a cap that is given loses to the common one

## Main results

* `Settings.option_run`: an option finds its value and its fault whatever was found before
* `Settings.read_fieldCaps`: the promise is kept exactly for the caps that are not overruled, and no
  other option depends on `maxFieldsPerType`
* `Settings.not_documented_named`: a cap that is overruled
-/

namespace OperationTools

/-- The caps on fields. -/
inductive FieldCap where
  | arguments
  | selections
deriving DecidableEq, Repr

namespace FieldCap

/-- The alias of a cap. -/
def aliasName : FieldCap → String
  | .arguments => "maxArgumentFields"
  | .selections => "maxSelectionFields"

/-- The name of a cap. -/
def name : FieldCap → String
  | .arguments => "max_argument_fields"
  | .selections => "max_selection_fields"

/-- The cap of settings. -/
def of (s : Settings) : FieldCap → Cap
  | .arguments => s.maxArgumentFields
  | .selections => s.maxSelectionFields

/-- The value of a cap by what is promised: the alias, else the name, else the common cap. -/
def documented? (cap : FieldCap) (entries : List (String × Json)) : Option Json :=
  (entries.lookup cap.aliasName).or
    ((entries.lookup cap.name).or (entries.lookup Settings.bothCaps))

/-- The value of a cap as it is looked up: the alias, else the common cap, else the name. -/
def found? (cap : FieldCap) (entries : List (String × Json)) : Option Json :=
  (entries.lookup cap.aliasName).or
    ((entries.lookup Settings.bothCaps).or (entries.lookup cap.name))

/-- The cap is what the value is read as, or its default where there is none. -/
def Takes (cap : FieldCap) (x? : Option Json) (c : Cap) : Prop :=
  match x? with
  | none => c = cap.of {}
  | some x => Settings.readCap x = .ok c

/-- The cap is given under its name, and the common cap that is given besides is not read as the
same. -/
def Overruled (cap : FieldCap) (entries : List (String × Json)) : Prop :=
  entries.lookup cap.aliasName = none ∧ ∃ x limit, entries.lookup cap.name = some x ∧
    entries.lookup Settings.bothCaps = some limit ∧ Settings.readCap x ≠ Settings.readCap limit

variable {cap : FieldCap} {entries : List (String × Json)} {c : Cap}

/-- What is looked up is what is promised, unless the cap is overruled. -/
theorem takes_documented?_iff (h : cap.Takes (cap.found? entries) c) :
    cap.Takes (cap.documented? entries) c ↔ ¬ cap.Overruled entries := by
  unfold found? at h
  unfold documented? Overruled
  cases halias : entries.lookup cap.aliasName with
  | some x => simpa [halias] using h
  | none =>
    cases hname : entries.lookup cap.name with
    | none => simpa [halias, hname] using h
    | some x =>
      cases hboth : entries.lookup Settings.bothCaps with
      | none => simpa [halias, hname, hboth] using h
      | some limit =>
        have hlimit : Settings.readCap limit = .ok c := by simpa [halias, hboth, Takes] using h
        simp [Takes, hlimit]

end FieldCap

namespace Settings

variable {entries : List (String × Json)} {s : Settings}

/-! ## Options -/

section Options

variable {α : Type} {reader : Json → Except FaultKind α} {default a : α}

/-- The value of an option, which is meant only if there is no fault. -/
def taken (reader : Json → Except FaultKind α) (default : α) (found? : Option (String × Json)) : α :=
  match found? with
  | none => default
  | some (_, x) => (reader x).toOption.getD default

/-- The fault of an option. -/
def faultOf (reader : Json → Except FaultKind α) (found? : Option (String × Json)) : List Fault :=
  match found? with
  | none => []
  | some (key, x) =>
    match reader x with
    | .ok _ => []
    | .error kind => [⟨some key, kind⟩]

/-- An option finds its value and its fault whatever was found before. -/
theorem option_run (entries : List (String × Json)) (aliasName name : String)
    (reader : Json → Except FaultKind α) (default : α) (faults : List Fault) :
    (option entries aliasName name reader default).run faults =
      (taken reader default (given? entries aliasName name),
        faults ++ faultOf reader (given? entries aliasName name)) := by
  unfold option taken faultOf
  cases given? entries aliasName name with
  | none => simp; rfl
  | some e =>
    cases hread : reader e.2 with
    | ok a => simp [hread]; rfl
    | error kind => simp [hread]; rfl

theorem option_congr {entries other : List (String × Json)} {aliasName name : String}
    (halias : entries.lookup aliasName = other.lookup aliasName)
    (hname : entries.lookup name = other.lookup name) :
    option entries aliasName name reader default = option other aliasName name reader default := by
  unfold option given?
  rw [halias, hname]

/-- An option without a fault is what its value is read as, or its default. -/
theorem taken_of_faultOf {found? : Option (String × Json)} (h : faultOf reader found? = []) :
    match found?.map (·.2) with
    | none => taken reader default found? = default
    | some x => reader x = .ok (taken reader default found?) := by
  cases found? with
  | none => rfl
  | some e =>
    cases hread : reader e.2 with
    | ok a => simp [taken, hread, Except.toOption]
    | error kind => simp [faultOf, hread] at h

theorem key_of_mem_faultOf {found? : Option (String × Json)} {fault : Fault}
    (h : fault ∈ faultOf reader found?) : ∃ e ∈ found?, fault.key = some e.1 := by
  cases found? with
  | none => cases h
  | some e =>
    refine ⟨e, rfl, ?_⟩
    cases hread : reader e.2 with
    | ok a => simp [faultOf, hread] at h
    | error kind =>
      obtain rfl : fault = ⟨some e.1, kind⟩ := by simpa [faultOf, hread] using h
      rfl

end Options

theorem map_given? (entries : List (String × Json)) (aliasName name : String) :
    (given? entries aliasName name).map (·.2) =
      (entries.lookup aliasName).or (entries.lookup name) := by
  unfold given?
  cases entries.lookup aliasName with
  | some x => rfl
  | none => cases entries.lookup name <;> rfl

/-! ## The common cap -/

/-- The entries without the common cap. -/
def withoutBothCaps (entries : List (String × Json)) : List (String × Json) :=
  entries.filter (·.1 != bothCaps)

theorem lookup_withoutBothCaps (entries : List (String × Json)) (key : String) :
    (withoutBothCaps entries).lookup key =
      if key = bothCaps then none else entries.lookup key := by
  unfold withoutBothCaps
  induction entries with
  | nil => simp
  | cons e rest ih =>
    rw [List.filter_cons, List.lookup_cons]
    by_cases he : e.1 = bothCaps
    · by_cases hk : key = bothCaps
      · simpa [he, hk] using ih
      · simpa [he, hk, beq_eq_false_iff_ne.2 hk] using ih
    · rw [if_pos (bne_iff_ne.2 he), List.lookup_cons, ih]
      by_cases hk : key = e.1
      · simp [hk, he]
      · simp [beq_eq_false_iff_ne.2 hk]

@[simp] theorem withoutBothCaps_withoutBothCaps (entries : List (String × Json)) :
    withoutBothCaps (withoutBothCaps entries) = withoutBothCaps entries := by
  simp [withoutBothCaps]

/-- Where no common cap is given, nothing is put in its place. -/
theorem expandCaps_withoutBothCaps (entries : List (String × Json)) :
    expandCaps (withoutBothCaps entries) = withoutBothCaps entries := by
  rw [expandCaps, lookup_withoutBothCaps, if_pos rfl]

/-- The common cap is found under both aliases where these are not given, and nowhere else. -/
theorem lookup_expandCaps {key : String} (h : key ≠ bothCaps) (entries : List (String × Json)) :
    (expandCaps entries).lookup key =
      (entries.lookup key).or
        (if key = FieldCap.arguments.aliasName ∨ key = FieldCap.selections.aliasName then
          entries.lookup bothCaps else none) := by
  unfold expandCaps
  cases entries.lookup bothCaps with
  | none => simp
  | some limit =>
    have hrest := lookup_withoutBothCaps entries key
    rw [if_neg h, withoutBothCaps] at hrest
    simp only [Entries.lookup_insertNew, hrest, Option.or_assoc, beq_iff_eq, FieldCap.aliasName]
    by_cases ha : key = "maxArgumentFields"
    · simp [ha]
    · simp [ha]

/-- A key that is no key of a cap finds the same without the common cap. -/
theorem lookup_expandCaps_of_ne {key : String} (h : key ≠ bothCaps)
    (ha : ∀ cap : FieldCap, key ≠ cap.aliasName) (entries : List (String × Json)) :
    (expandCaps entries).lookup key = (withoutBothCaps entries).lookup key := by
  rw [lookup_expandCaps h, if_neg (not_or.2 ⟨ha .arguments, ha .selections⟩), Option.or_none,
    lookup_withoutBothCaps, if_neg h]

theorem ne_bothCaps (cap : FieldCap) : cap.aliasName ≠ bothCaps ∧ cap.name ≠ bothCaps := by
  cases cap <;> decide

theorem ne_aliasName (cap other : FieldCap) : cap.name ≠ other.aliasName := by
  cases cap <;> cases other <;> decide

/-- A cap is looked up under its alias, then under the common key and then under its name. -/
theorem map_given?_expandCaps (cap : FieldCap) (entries : List (String × Json)) :
    (given? (expandCaps entries) cap.aliasName cap.name).map (·.2) = cap.found? entries := by
  have halias : cap.aliasName = FieldCap.arguments.aliasName ∨
      cap.aliasName = FieldCap.selections.aliasName := by
    cases cap
    · exact .inl rfl
    · exact .inr rfl
  rw [map_given?, lookup_expandCaps (ne_bothCaps cap).1, if_pos halias,
    lookup_expandCaps_of_ne (ne_bothCaps cap).2 (ne_aliasName cap), lookup_withoutBothCaps,
    if_neg (ne_bothCaps cap).2, Option.or_assoc, FieldCap.found?]

/-- A cap without a fault that has one where there is no common cap is given under its name, and not
under its alias. -/
theorem key_of_mem_faultOf_withoutBothCaps {cap : FieldCap}
    (h : faultOf readCap (given? (expandCaps entries) cap.aliasName cap.name) = []) {fault : Fault}
    (hfault : fault ∈ faultOf readCap
      (given? (expandCaps (withoutBothCaps entries)) cap.aliasName cap.name)) :
    fault.key = some cap.name ∧ entries.lookup cap.aliasName = none := by
  have halias : (withoutBothCaps entries).lookup cap.aliasName = entries.lookup cap.aliasName := by
    rw [lookup_withoutBothCaps, if_neg (ne_bothCaps cap).1]
  rw [expandCaps_withoutBothCaps] at hfault
  cases hx : entries.lookup cap.aliasName with
  | some x =>
    have hexpanded : (expandCaps entries).lookup cap.aliasName = some x := by
      rw [lookup_expandCaps (ne_bothCaps cap).1, hx, Option.some_or]
    rw [given?, hexpanded] at h
    rw [given?, halias, hx] at hfault
    exact absurd hfault (by rw [h]; exact List.not_mem_nil)
  | none =>
    obtain ⟨e, he, hkey⟩ := key_of_mem_faultOf hfault
    rw [given?, halias, hx] at he
    obtain ⟨x, -, rfl⟩ := Option.map_eq_some_iff.1 he
    exact ⟨hkey, rfl⟩

/-! ## All options -/

/-- The settings with the given caps on fields. -/
def withFieldCaps (s : Settings) (c d : Cap) : Settings :=
  { s with maxArgumentFields := c, maxSelectionFields := d }

/-- All options but the caps on fields, which have their defaults. -/
def uncapped (e : List (String × Json)) : StateM (List Fault) Settings := do
  let d : Settings := {}
  pure {
    includeQueries := ← option e "includeQueries" "include_queries" readBoolean d.includeQueries
    includeMutations :=
      ← option e "includeMutations" "include_mutations" readBoolean d.includeMutations
    includeSubscriptions :=
      ← option e "includeSubscriptions" "include_subscriptions" readBoolean d.includeSubscriptions
    queryNamePrefix := ← option e "queryNamePrefix" "query_name_prefix" readText d.queryNamePrefix
    mutationNamePrefix :=
      ← option e "mutationNamePrefix" "mutation_name_prefix" readText d.mutationNamePrefix
    subscriptionNamePrefix :=
      ← option e "subscriptionNamePrefix" "subscription_name_prefix" readText
        d.subscriptionNamePrefix
    ignorePhrase := ← option e "ignorePhrase" "ignore_phrase" readText d.ignorePhrase
    maxOperations := ← option e "maxOperations" "max_operations" readCap d.maxOperations
    maxOperationArguments :=
      ← option e "maxOperationArguments" "max_operation_arguments" readCap d.maxOperationArguments
    maxSchemaDepth := ← option e "maxSchemaDepth" "max_schema_depth" readCap d.maxSchemaDepth }

/-- The caps on fields are read last. -/
theorem ofEntries_eq (given : List (String × Json)) :
    ofEntries given = (do
      let s ← uncapped (expandCaps given)
      let c ← option (expandCaps given) FieldCap.arguments.aliasName FieldCap.arguments.name readCap
        (FieldCap.arguments.of {})
      let d ← option (expandCaps given) FieldCap.selections.aliasName FieldCap.selections.name
        readCap (FieldCap.selections.of {})
      pure (s.withFieldCaps c d)) := by
  simp only [ofEntries, uncapped, bind_assoc, pure_bind]
  rfl

/-- No other option depends on the common cap. -/
theorem uncapped_expandCaps (entries : List (String × Json)) :
    uncapped (expandCaps entries) = uncapped (withoutBothCaps entries) := by
  have hkey : ∀ key, (key ≠ bothCaps ∧ key ≠ FieldCap.arguments.aliasName ∧
      key ≠ FieldCap.selections.aliasName) →
      (expandCaps entries).lookup key = (withoutBothCaps entries).lookup key :=
    fun key h => lookup_expandCaps_of_ne h.1 (fun | .arguments => h.2.1 | .selections => h.2.2) _
  have hoption : ∀ {α : Type} (aliasName name : String) (reader : Json → Except FaultKind α)
      (default : α), (aliasName ≠ bothCaps ∧ aliasName ≠ FieldCap.arguments.aliasName ∧
        aliasName ≠ FieldCap.selections.aliasName) ∧
      (name ≠ bothCaps ∧ name ≠ FieldCap.arguments.aliasName ∧
        name ≠ FieldCap.selections.aliasName) →
      option (expandCaps entries) aliasName name reader default =
        option (withoutBothCaps entries) aliasName name reader default :=
    fun _ _ _ _ h => option_congr (hkey _ h.1) (hkey _ h.2)
  unfold uncapped
  simp only [hoption "includeQueries" "include_queries" _ _ (by decide),
    hoption "includeMutations" "include_mutations" _ _ (by decide),
    hoption "includeSubscriptions" "include_subscriptions" _ _ (by decide),
    hoption "queryNamePrefix" "query_name_prefix" _ _ (by decide),
    hoption "mutationNamePrefix" "mutation_name_prefix" _ _ (by decide),
    hoption "subscriptionNamePrefix" "subscription_name_prefix" _ _ (by decide),
    hoption "ignorePhrase" "ignore_phrase" _ _ (by decide),
    hoption "maxOperations" "max_operations" _ _ (by decide),
    hoption "maxOperationArguments" "max_operation_arguments" _ _ (by decide),
    hoption "maxSchemaDepth" "max_schema_depth" _ _ (by decide)]

/-- What is read is the settings without the common cap, with the caps on fields that are found. -/
theorem run_ofEntries (entries : List (String × Json)) :
    (ofEntries entries).run [] =
      let others := (uncapped (withoutBothCaps entries)).run []
      let given (cap : FieldCap) := given? (expandCaps entries) cap.aliasName cap.name
      (others.1.withFieldCaps
          (taken readCap (FieldCap.arguments.of {}) (given .arguments))
          (taken readCap (FieldCap.selections.of {}) (given .selections)),
        others.2 ++ faultOf readCap (given .arguments) ++ faultOf readCap (given .selections)) := by
  rw [ofEntries_eq, uncapped_expandCaps]
  simp only [StateT.run_bind, option_run, bind_pure_comp, StateT.run_map]
  rfl

/-- Settings are read exactly if no option has a fault. -/
theorem read_obj_eq_ok_iff :
    read (.obj entries) = .ok s ↔ (ofEntries entries).run [] = (s, []) := by
  rw [read]
  rcases (ofEntries entries).run [] with ⟨t, _ | ⟨fault, faults⟩⟩
  · constructor
    · rintro ⟨⟩
      rfl
    · rintro ⟨⟩
      rfl
  · constructor <;> rintro ⟨⟩

/-- An explicitly given cap on fields takes its place: it wins over the common cap if it is given
under its alias, and under its name only if the common cap is read as the same or is not there. No
other option depends on the common cap: without it, the same object has the same values for them,
and a fault at most with a cap that is given under its name. -/
theorem read_fieldCaps (h : read (.obj entries) = .ok s) :
    (∀ cap : FieldCap, cap.Takes (cap.found? entries) (cap.of s) ∧
      (cap.Takes (cap.documented? entries) (cap.of s) ↔ ¬ cap.Overruled entries)) ∧
    (∀ c d : Cap, s.withFieldCaps c d =
      ((ofEntries (withoutBothCaps entries)).run []).1.withFieldCaps c d) ∧
    ∀ fault ∈ ((ofEntries (withoutBothCaps entries)).run []).2,
      ∃ cap : FieldCap, fault.key = some cap.name ∧ entries.lookup cap.aliasName = none := by
  rw [read_obj_eq_ok_iff, run_ofEntries, Prod.mk.injEq, List.append_eq_nil_iff,
    List.append_eq_nil_iff] at h
  obtain ⟨hs, ⟨hothers, harguments⟩, hselections⟩ := h
  have hfound : ∀ cap : FieldCap, cap.Takes (cap.found? entries) (cap.of s) := by
    intro cap
    rw [← map_given?_expandCaps, ← hs]
    unfold FieldCap.Takes
    cases cap with
    | arguments => exact taken_of_faultOf harguments
    | selections => exact taken_of_faultOf hselections
  refine ⟨fun cap => ⟨hfound cap, FieldCap.takes_documented?_iff (hfound cap)⟩, ?_, ?_⟩
  · intro c d
    rw [run_ofEntries, withoutBothCaps_withoutBothCaps, ← hs]
    rfl
  · intro fault hfault
    simp only [run_ofEntries, withoutBothCaps_withoutBothCaps, hothers, List.nil_append,
      List.mem_append] at hfault
    rcases hfault with hfault | hfault
    · exact ⟨.arguments, key_of_mem_faultOf_withoutBothCaps harguments hfault⟩
    · exact ⟨.selections, key_of_mem_faultOf_withoutBothCaps hselections hfault⟩

/-- A cap under its alias wins over the common one, which the other cap takes. -/
theorem read_fieldCaps_selections :
    read (.obj [("maxFieldsPerType", .int 20), ("maxSelectionFields", .int 5)]) =
        .ok { maxArgumentFields := 20, maxSelectionFields := 5 } ∧
      FieldCap.selections.Takes (FieldCap.selections.documented?
        [("maxFieldsPerType", .int 20), ("maxSelectionFields", .int 5)]) 5 ∧
      FieldCap.arguments.Takes (FieldCap.arguments.documented?
        [("maxFieldsPerType", .int 20), ("maxSelectionFields", .int 5)]) 20 := by
  have h : read (.obj [("maxFieldsPerType", .int 20), ("maxSelectionFields", .int 5)]) =
      .ok { maxArgumentFields := 20, maxSelectionFields := 5 } := rfl
  obtain ⟨hcaps, -, -⟩ := read_fieldCaps h
  refine ⟨h, (hcaps .selections).2.2 ?_, (hcaps .arguments).2.2 ?_⟩
  · exact fun hover => by cases hover.1
  · rintro ⟨-, x, limit, hx, -⟩
    cases hx

/-- A cap under its name loses to the common one. -/
theorem not_documented_named :
    read (.obj [("maxFieldsPerType", .int 20), ("max_selection_fields", .int 5)]) =
        .ok { maxArgumentFields := 20, maxSelectionFields := 20 } ∧
      ¬ FieldCap.selections.Takes (FieldCap.selections.documented?
        [("maxFieldsPerType", .int 20), ("max_selection_fields", .int 5)]) 20 := by
  refine ⟨rfl, fun h => ?_⟩
  have hread : Except.ok (ε := FaultKind) (5 : Cap) = .ok 20 := h
  exact absurd (Except.ok.inj hread) (by decide)

end Settings

end OperationTools
