import OperationTools.Proofs.Compilation.InputMemo
import OperationTools.Proofs.Schema.Lawful
import OperationTools.Proofs.Validator.Argument

/-!
# Sharing a memo among argument validators

The arguments of an operation are compiled with a memo that earlier operations filled. Their
validator is the one that is compiled with an empty memo exactly if the filled memo agrees with what
the operation keeps alone. Where the memos differ, an input object is cut in one of them and not, or
at another place, in the other one, and some value shows it: what is cut accepts more, or it keeps
what a whole object drops.

## Main definitions

* `InputTypes.Satisfiable`: every scalar has a value
* `InputTypes.memoAfter`, `InputTypes.validatorAfter`: the memo after some operations, and the
  validator of another one

## Main results

* `InputTypes.differ_of_stands`: different standing validators make different things of some value
* `InputTypes.validatorAfter_eq_iff_agrees`: when a validator is the same with an empty memo
-/

namespace OperationTools

/-- What a validator makes of a value: the accepted value, or the class and the path of the issue
that is reported. -/
def Validator.outcome (v : Validator) (x : Json) : Except (IssueClass × Path) Json :=
  (v.judge x).mapError fun issue => (issue.cls, issue.path)

/-- What is accepted is part of the outcome. -/
theorem Validator.accepted?_eq_toOption_outcome (v : Validator) (x : Json) :
    v.accepted? x = (v.outcome x).toOption := by
  rw [accepted?, outcome]
  cases v.judge x <;> rfl

namespace InputTypes

variable {types : InputTypes}

variable (types) in
/-- Every scalar has a value other than `null`. -/
def Satisfiable : Prop :=
  ∀ t ∈ types.schema.types, t.body = .scalar →
    ∃ x, x ≠ .null ∧ ((types.scalars.validator t.name).report x).issues = []

/-! ## Telling validators apart -/

theorem issues_enumValidator (values : List String) :
    ∃ x, x ≠ .null ∧ ((enumValidator values).report x).issues = [] := by
  match values with
  | [] => exact ⟨.str "", by simp, rfl⟩
  | [value] =>
    exact ⟨.str value, by simp, by simp [enumValidator, Validator.report, Validator.shallowReport]⟩
  | value :: other :: rest =>
    exact ⟨.str value, by simp, by simp [enumValidator, Validator.report, Validator.shallowReport]⟩

theorem nodup_knownFields (hl : types.schema.Lawful) {n : String} {fields : List InputField}
    (hb : types.schema.body? n = some (.input fields)) :
    ((types.knownFields fields).map (·.name)).Nodup :=
  (hl.body hb).inputFields.sublist ((List.take_sublist _ fields).map _)

/-- A standing validator accepts some value. -/
theorem share_any_of_stands (hl : types.schema.Lawful) (hs : types.Satisfiable) {memo : Memo}
    {r : TypeRef} {v : Validator} (h : types.Stands memo r v) : v.Share .any := by
  suffices ∃ x, x ≠ .null ∧ (v.report x).issues = [] by
    obtain ⟨x, hx, hv⟩ := this
    exact ⟨x, hx, hv, by simp⟩
  induction h with
  | cut r => exact ⟨.str "", by simp, by simp⟩
  | list => exact ⟨.arr [], by simp, rfl⟩
  | nonNull _ ih => exact ih
  | scalar hb => exact hs _ (Schema.mem_of_body? hb) rfl
  | @enum _ values => exact issues_enumValidator values
  | inside => exact ⟨.obj [], by simp, rfl⟩
  | @whole n fields part hb _ _ ih =>
    have hshare : ∀ f ∈ types.knownFields fields, (part f.type).Share .any := by
      intro f hf
      obtain ⟨x, hx, hv⟩ := ih f.type (List.mem_map_of_mem hf)
      exact ⟨x, hx, hv, by simp⟩
    have hnode : (types.node n fields part).Share (types.node n fields fun _ => .any) :=
      Validator.Share.object (nodup_knownFields hl hb) hshare
    obtain ⟨x, hx, hv, -⟩ := hnode
    exact ⟨x, hx, hv⟩

/-- An object that is cut accepts every object. -/
theorem share_inside_node (hl : types.schema.Lawful) (hs : types.Satisfiable) {memo : Memo}
    {n : String} {fields : List InputField} {part : TypeRef → Validator}
    (h : types.Stands memo (.named n) (types.node n fields part)) :
    (Validator.object (some n) true []).Share (types.node n fields part) := by
  obtain ⟨x, hx, hv, -⟩ := share_any_of_stands hl hs h
  cases x with
  | obj entries => exact ⟨.obj entries, by simp, rfl, hv⟩
  | null => exact absurd rfl hx
  | bool | int | float | str | arr =>
    simp [node, Validator.report, Validator.shallowReport, Validator.arrayReport] at hv

/-- Validators that stand for one reference share a value. -/
theorem share_of_stands (hl : types.schema.Lawful) (hs : types.Satisfiable) {memo memo' : Memo}
    {r : TypeRef} {v w : Validator} (hv : types.Stands memo r v) (hw : types.Stands memo' r w) :
    v.Share w := by
  have self : ∀ {r v}, types.Stands memo r v → v.Share v := by
    intro r v h
    obtain ⟨x, hx, hi, -⟩ := share_any_of_stands hl hs h
    exact ⟨x, hx, hi, hi⟩
  -- both stand for one reference, so they differ only where one of them is cut
  induction hv generalizing w with
  | cut r => exact (share_any_of_stands hl hs hw).symm
  | list hi =>
    cases hw with
    | cut => exact share_any_of_stands hl hs (.list hi)
    | list => exact ⟨.arr [], by simp, rfl, rfl⟩
  | nonNull hi ih =>
    cases hw with
    | cut => exact share_any_of_stands hl hs hi
    | nonNull hi' => exact ih hi'
  | scalar hb =>
    cases hw with
    | cut => exact share_any_of_stands hl hs (show types.Stands memo _ _ from .scalar hb)
    | scalar => exact self (.scalar hb)
    | enum hb' | inside hb' | whole hb' => simp [hb] at hb'
  | enum hb hk =>
    cases hw with
    | cut => exact share_any_of_stands hl hs (.enum hb hk)
    | enum hb' =>
      cases hb.symm.trans hb'
      exact self (.enum hb hk)
    | scalar hb' | inside hb' | whole hb' => simp [hb] at hb'
  | inside hb =>
    cases hw with
    | cut => exact share_any_of_stands hl hs (show types.Stands memo _ _ from .inside hb)
    | inside => exact self (.inside hb)
    | whole hb' hk' hp' => exact share_inside_node hl hs (.whole hb' hk' hp')
    | scalar hb' | enum hb' => simp [hb] at hb'
  | whole hb hk hp ih =>
    cases hw with
    | cut => exact share_any_of_stands hl hs (.whole hb hk hp)
    | inside => exact (share_inside_node hl hs (.whole hb hk hp)).symm
    | whole hb' _ hp' =>
      cases hb.symm.trans hb'
      exact Validator.Share.object (nodup_knownFields hl hb) fun f hf =>
        ih f.type (List.mem_map_of_mem hf) (hp' f.type (List.mem_map_of_mem hf))
    | scalar hb' | enum hb' => simp [hb] at hb'

/-- An object that is cut keeps a key that a whole one drops. -/
theorem differ_inside_node (n : String) (fields : List InputField) (part : TypeRef → Validator) :
    (Validator.object (some n) true []).Differ (types.node n fields part) := by
  obtain ⟨key, hkey⟩ := Infinite.exists_notMem_finset
    (((types.knownFields fields).map fun f => member f (part f.type)).map (·.name)).toFinset
  rw [List.mem_toFinset] at hkey
  refine ⟨.obj [(key, .null)], by simp, fun he => hkey ?_⟩
  have hinside : (Validator.object (some n) true []).accepted? (.obj [(key, .null)]) =
      some (.obj [(key, .null)]) := rfl
  exact Validator.keys_of_accepted?_object (he.symm.trans hinside) key (by simp)

/-- Different validators that stand for one reference make different things of some value. -/
theorem differ_of_stands (hl : types.schema.Lawful) (hs : types.Satisfiable) {memo memo' : Memo}
    {r : TypeRef} {v w : Validator} (hv : types.Stands memo r v) (hw : types.Stands memo' r w)
    (hne : v ≠ w) : v.Differ w := by
  induction hv generalizing w with
  | cut r => exact (Validator.differ_any hne.symm).symm
  | list hi ih =>
    cases hw with
    | cut => exact Validator.differ_any hne
    | list hi' =>
      refine (ih hi' fun he => hne ?_).list _
      rw [he]
  | nonNull hi ih =>
    cases hw with
    | cut => exact Validator.differ_any hne
    | nonNull hi' => exact ih hi' hne
  | scalar hb =>
    cases hw with
    | cut => exact Validator.differ_any hne
    | scalar => exact absurd rfl hne
    | enum hb' | inside hb' | whole hb' => simp [hb] at hb'
  | enum hb =>
    cases hw with
    | cut => exact Validator.differ_any hne
    | enum hb' =>
      cases hb.symm.trans hb'
      exact absurd rfl hne
    | scalar hb' | inside hb' | whole hb' => simp [hb] at hb'
  | inside hb =>
    cases hw with
    | cut => exact Validator.differ_any hne
    | inside => exact absurd rfl hne
    | whole => exact differ_inside_node _ _ _
    | scalar hb' | enum hb' => simp [hb] at hb'
  | @whole n fields part hb hk hp ih =>
    cases hw with
    | cut => exact Validator.differ_any hne
    | inside => exact (differ_inside_node _ _ _).symm
    | @whole _ _ part' hb' _ hp' =>
      cases hb.symm.trans hb'
      obtain ⟨r, hr, hpart⟩ : ∃ r ∈ types.parts fields, part r ≠ part' r := by
        by_contra hall
        push Not at hall
        exact hne (node_congr hall)
      obtain ⟨f, hf, rfl⟩ := List.mem_map.1 hr
      exact Validator.Differ.object (nodup_knownFields hl hb) hf
        (ih f.type hr (hp' f.type hr) hpart) fun g hg =>
          share_of_stands hl hs (hp g.type (List.mem_map_of_mem hg))
            (hp' g.type (List.mem_map_of_mem hg))
    | scalar hb' | enum hb' => simp [hb] at hb'

/-! ## Arguments -/

variable (types) in
/-- A validator of what may have a type; without one it accepts everything. -/
def StandsFor (memo : Memo) (type? : Option TypeRef) (v : Validator) : Prop :=
  match type? with
  | none => v = .any
  | some r => types.Stands memo r v

theorem StandsFor.mono {memo larger : Memo} {type? : Option TypeRef} {v : Validator}
    (h : types.StandsFor memo type? v) (hle : memo ≤ larger) : types.StandsFor larger type? v := by
  cases type? with
  | none => exact h
  | some r => exact Stands.mono h hle

theorem levelsLeft_zero : types.levelsLeft 0 = types.settings.maxSchemaDepth + 1 := by
  rw [levelsLeft]
  omega

theorem yields_none_iff {s t : Compilation} {v : Validator} :
    (types.ofType? (types.levelsLeft 0) [] none).Yields s v t ↔ v = .any ∧ t = s := by
  have hstep : types.ofType? (types.levelsLeft 0) [] none = pure .any := by
    rw [ofType?, levelsLeft_zero, if_neg (by omega)]
  rw [hstep, TryCompile.yields_pure]

theorem memo_le_of_yields_argument {type? : Option TypeRef} {s t : Compilation} {v : Validator}
    (h : (types.ofType? (types.levelsLeft 0) [] type?).Yields s v t) : s.memo ≤ t.memo := by
  cases type? with
  | none =>
    obtain ⟨-, rfl⟩ := yields_none_iff.1 h
    exact le_rfl
  | some r => exact types.memo_le_of_yields h

theorem eq_of_argument_again {type? : Option TypeRef} {s t u u' : Compilation} {v v' : Validator}
    (h : (types.ofType? (types.levelsLeft 0) [] type?).Yields s v t) (hle : t.memo ≤ u.memo)
    (h' : (types.ofType? (types.levelsLeft 0) [] type?).Yields u v' u') : v' = v := by
  cases type? with
  | none => rw [(yields_none_iff.1 h).1, (yields_none_iff.1 h').1]
  | some r => exact eq_of_yields_again (types.open_nil _) h hle (types.open_nil _) h'

theorem sound_of_yields_argument {type? : Option TypeRef} {s t : Compilation} {v : Validator}
    (h : (types.ofType? (types.levelsLeft 0) [] type?).Yields s v t) (hs : types.Sound s.memo) :
    types.Sound t.memo ∧ types.StandsFor t.memo type? v := by
  cases type? with
  | none =>
    obtain ⟨rfl, rfl⟩ := yields_none_iff.1 h
    exact ⟨hs, rfl⟩
  | some r => exact sound_of_yields (types.open_nil _) h hs

/-- What a thread of arguments yields stands in the memo that it leaves. -/
theorem standsFor_of_thread {l : List (Option TypeRef)} {part : Option TypeRef → Validator}
    {s t : Compilation}
    (h : Thread (fun type? => (types.ofType? (types.levelsLeft 0) [] type?).Yields) l s
      (l.map part) t)
    (hs : types.Sound s.memo) {type? : Option TypeRef} (hm : type? ∈ l) :
    types.StandsFor t.memo type? (part type?) :=
  (h.preserves_and (P := fun u => types.Sound u.memo)
    (Q := fun memo type? v => types.StandsFor memo type? v)
    (fun _ _ _ _ h => memo_le_of_yields_argument h) (fun _ _ _ _ hle h => h.mono hle)
    (fun _ _ _ _ h hs => sound_of_yields_argument h hs) hs).2 type? hm

theorem kept_of_standsFor {type? : Option TypeRef} {s t : Compilation} {v : Validator} {memo : Memo}
    (h : (types.ofType? (types.levelsLeft 0) [] type?).Yields s v t)
    (hv : types.StandsFor memo type? v) {k : Memo.Key} {x : Validator}
    (hk : t.memo.find? k = some x) : s.memo.find? k = some x ∨ memo.find? k = some x := by
  cases type? with
  | none =>
    obtain ⟨-, rfl⟩ := yields_none_iff.1 h
    exact .inl hk
  | some r => exact kept_of_stands (types.open_nil _) h hv hk

theorem yields_argument_of_agrees {type? : Option TypeRef} {s t s' : Compilation} {v : Validator}
    {bound : Memo} (h : (types.ofType? (types.levelsLeft 0) [] type?).Yields s v t)
    (hle : t.memo ≤ bound) (ha : Memo.Ahead bound s.memo s'.memo) (hs : types.Sound s'.memo) :
    ∃ t', (types.ofType? (types.levelsLeft 0) [] type?).Yields s' v t' ∧
      Memo.Ahead bound t.memo t'.memo := by
  cases type? with
  | none =>
    obtain ⟨rfl, rfl⟩ := yields_none_iff.1 h
    exact ⟨s', yields_none_iff.2 ⟨rfl, rfl⟩, ha⟩
  | some r => exact yields_of_agrees (types.open_nil _) (types.open_nil _) h hle ha hs

/-! ## Operations -/

/-- The argument of an operation with a validator. -/
def argument (a : Variable) (v : Validator) : Member Validator :=
  { name := a.name, optional := a.mayBeOmitted, validator := v }

/-- The validator of the arguments of an operation, from validators that depend on their types. -/
def argumentsOf (op : Operation) (part : Option TypeRef → Validator) : Validator :=
  .object (some op.name) false
    ((Entries.ofList (op.arguments.map fun a => (a.name, argument a (part a.type)))).map (·.2))

theorem argumentsOf_eq {op : Operation} (hd : (op.arguments.map (·.name)).Nodup)
    (part : Option TypeRef → Validator) :
    argumentsOf op part =
      .object (some op.name) false (op.arguments.map fun a => argument a (part a.type)) := by
  rw [argumentsOf, Entries.ofList_eq_self, List.map_map]
  · rfl
  · rw [List.map_map]
    exact hd

theorem part_eq_of_argumentsOf_eq {op : Operation} (hd : (op.arguments.map (·.name)).Nodup)
    {part part' : Option TypeRef → Validator} (h : argumentsOf op part = argumentsOf op part')
    {type? : Option TypeRef} (hm : type? ∈ op.arguments.map (·.type)) :
    part type? = part' type? := by
  rw [argumentsOf_eq hd, argumentsOf_eq hd] at h
  simp only [Validator.object.injEq, true_and] at h
  obtain ⟨a, ha, rfl⟩ := List.mem_map.1 hm
  exact congrArg Member.validator (List.map_inj_left.1 h a ha)

/-- Compiling an operation compiles the types of its arguments one after another. -/
theorem yields_ofOperation_iff {op : Operation} {s t : Compilation} {v : Validator} :
    (types.ofOperation op).Yields s v t ↔ ∃ part, v = argumentsOf op part ∧
      Thread (fun type? => (types.ofType? (types.levelsLeft 0) [] type?).Yields)
        (op.arguments.map (·.type)) s ((op.arguments.map (·.type)).map part) t := by
  have hmembers : ∀ {s t : Compilation} {ms : List (String × Member Validator)},
      TryCompile.Yields (op.arguments.mapM fun a => do
        let validator ← types.ofVariable a
        pure (a.name, ({ name := a.name, optional := a.mayBeOmitted, validator } :
          Member Validator))) s ms t ↔
        ∃ vs, Thread (fun type? => (types.ofType? (types.levelsLeft 0) [] type?).Yields)
          (op.arguments.map (·.type)) s vs t ∧
          ms = List.zipWith (fun a v => (a.name, argument a v)) op.arguments vs :=
    TryCompile.yields_mapM_adorned (f := fun a : Variable => a.type)
      (g := fun a v => (a.name, argument a v))
  rw [ofOperation, TryCompile.yields_bind]
  constructor
  · rintro ⟨ms, u, hm, h⟩
    obtain ⟨rfl, rfl⟩ := TryCompile.yields_pure.1 h
    obtain ⟨vs, hvs, rfl⟩ := hmembers.1 hm
    obtain ⟨part, rfl, -⟩ := hvs.exists_map (P := fun _ => True)
      (fun _ _ _ _ h => memo_le_of_yields_argument h) (fun _ _ _ _ _ _ => trivial)
      (fun _ _ _ _ _ _ _ _ h hle _ h' => eq_of_argument_again h hle h') trivial
    refine ⟨part, ?_, hvs⟩
    rw [argumentsOf, List.map_map, List.zipWith_map_right, List.zipWith_self]
    rfl
  · rintro ⟨part, rfl, h⟩
    refine ⟨_, t, hmembers.2 ⟨_, h, rfl⟩, TryCompile.yields_pure.2 ⟨?_, rfl⟩⟩
    rw [argumentsOf, List.map_map, List.zipWith_map_right, List.zipWith_self]
    rfl

theorem memo_le_of_yields_operation {op : Operation} {s t : Compilation} {v : Validator}
    (h : (types.ofOperation op).Yields s v t) : s.memo ≤ t.memo := by
  obtain ⟨_, -, hp⟩ := yields_ofOperation_iff.1 h
  exact hp.memo_le fun _ _ _ _ h => memo_le_of_yields_argument h

theorem sound_of_yields_operation {op : Operation} {s t : Compilation} {v : Validator}
    (h : (types.ofOperation op).Yields s v t) (hs : types.Sound s.memo) : types.Sound t.memo := by
  obtain ⟨_, -, hp⟩ := yields_ofOperation_iff.1 h
  exact hp.preserves (P := fun u => types.Sound u.memo)
    (fun _ _ _ _ h hs => (sound_of_yields_argument h hs).1) hs

variable (types) in
/-- The memo after operations that were compiled one after another. -/
def memoAfter (history : List Operation) : Memo :=
  (Compile.runOn (history.mapM types.ofOperation).run {}).2.1

variable (types) in
/-- The validator of the arguments of an operation that is compiled after others. -/
def validatorAfter (history : List Operation) (op : Operation) : Except UnreadableEnum Validator :=
  (Compile.runOn (types.ofOperation op).run (types.memoAfter history)).1

variable (types) in
/-- Operations that can be compiled: each of them has a validator. -/
def Compiles (history : List Operation) : Prop :=
  ∃ vs, (Compile.runOn (history.mapM types.ofOperation).run {}).1 = .ok vs

/-- Every memo that operations fill is sound. -/
theorem sound_memoAfter {history : List Operation} (hh : types.Compiles history) :
    types.Sound (types.memoAfter history) := by
  obtain ⟨vs, hvs⟩ := hh
  have h : (history.mapM types.ofOperation).Yields {} vs _ := Prod.ext hvs rfl
  exact (TryCompile.yields_mapM.1 h).preserves (P := fun s => types.Sound s.memo)
    (fun _ _ _ _ h hs => sound_of_yields_operation h hs) sound_empty

theorem validatorAfter_eq_ok_iff {history : List Operation} {op : Operation} {v : Validator} :
    types.validatorAfter history op = .ok v ↔
      ∃ t, (types.ofOperation op).Yields { memo := types.memoAfter history } v t := by
  constructor
  · intro h
    exact ⟨_, Prod.ext h rfl⟩
  · rintro ⟨t, h⟩
    exact congrArg Prod.fst h

/-- With an empty memo an operation leaves what it keeps alone. -/
theorem yields_validatorAfter_nil {op : Operation} {v : Validator}
    (h : types.validatorAfter [] op = .ok v) :
    ∃ t, (types.ofOperation op).Yields {} v t ∧ t.memo = types.memoAfter [op] := by
  obtain ⟨t, h⟩ := validatorAfter_eq_ok_iff.1 h
  have hone : ([op].mapM types.ofOperation).Yields {} [v] t :=
    TryCompile.yields_mapM.2 (.cons h (.nil t))
  exact ⟨t, h, (congrArg (fun r => r.2.memo) hone).symm⟩

/-- A validator is the one with an empty memo exactly if nothing was kept before that differs from
what the operation keeps alone. If nothing does, the filled memo is ahead of the empty one from
argument to argument; and a memo in which the result stands keeps all that is kept alone. -/
theorem validatorAfter_eq_iff_agrees {history : List Operation} (hh : types.Compiles history)
    {op : Operation} (hd : (op.arguments.map (·.name)).Nodup) {v : Validator}
    (hv : types.validatorAfter [] op = .ok v) :
    types.validatorAfter history op = .ok v ↔
      (types.memoAfter history).Agrees (types.memoAfter [op]) := by
  obtain ⟨t, h, ht⟩ := yields_validatorAfter_nil hv
  have hsound := sound_memoAfter hh
  obtain ⟨part, rfl, hp⟩ := yields_ofOperation_iff.1 h
  rw [← ht]
  constructor
  · intro hv'
    obtain ⟨t', h'⟩ := validatorAfter_eq_ok_iff.1 hv'
    obtain ⟨part', he, hp'⟩ := yields_ofOperation_iff.1 h'
    have hall := hp.preserves_map
      (P := fun u => ∀ k x, u.memo.find? k = some x → t'.memo.find? k = some x)
      (fun type? hm _ _ h hs k x hk => by
        have hstands := standsFor_of_thread hp' hsound hm
        rw [← part_eq_of_argumentsOf_eq hd he hm] at hstands
        exact (kept_of_standsFor h hstands hk).elim (hs k x) id)
      (fun k x hk => by simp [Memo.find?] at hk)
    intro k x y hx hy
    have hkept := Memo.find?_of_le (memo_le_of_yields_operation h') hx
    exact Option.some.inj (hkept.symm.trans (hall k y hy))
  · intro ha
    have hahead : Memo.Ahead t.memo ({} : Compilation).memo
        ({ memo := types.memoAfter history } : Compilation).memo :=
      ⟨fun k w hw => by simp [Memo.find?] at hw, ha⟩
    obtain ⟨t', hp', -⟩ := hp.exists_following
      (I := fun s s' => Memo.Ahead t.memo s.memo s'.memo ∧ types.Sound s'.memo)
      (fun _ _ _ _ h => memo_le_of_yields_argument h) le_rfl
      (fun _ _ _ _ _ h hle hi => by
        obtain ⟨t', h', ha'⟩ := yields_argument_of_agrees h hle hi.1 hi.2
        exact ⟨t', h', ha', (sound_of_yields_argument h' hi.2).1⟩)
      ⟨hahead, hsound⟩
    exact validatorAfter_eq_ok_iff.2 ⟨t', yields_ofOperation_iff.2 ⟨part, rfl, hp'⟩⟩

/-- Validators that stand for what may have a type share a value, and differ in another one. -/
theorem share_of_standsFor (hl : types.schema.Lawful) (hs : types.Satisfiable) {memo memo' : Memo}
    {type? : Option TypeRef} {v w : Validator} (hv : types.StandsFor memo type? v)
    (hw : types.StandsFor memo' type? w) : v.Share w := by
  cases type? with
  | none =>
    rw [show v = .any from hv, show w = .any from hw]
    exact ⟨.str "", by simp, by simp, by simp⟩
  | some r => exact share_of_stands hl hs hv hw

theorem differ_of_standsFor (hl : types.schema.Lawful) (hs : types.Satisfiable) {memo memo' : Memo}
    {type? : Option TypeRef} {v w : Validator} (hv : types.StandsFor memo type? v)
    (hw : types.StandsFor memo' type? w) (hne : v ≠ w) : v.Differ w := by
  cases type? with
  | none => exact absurd ((show v = .any from hv).trans (show w = .any from hw).symm) hne
  | some r => exact differ_of_stands hl hs hv hw hne

/-- Different validators of an operation make different things of some value. -/
theorem differ_of_yields (hl : types.schema.Lawful) (hs : types.Satisfiable) {op : Operation}
    (hd : (op.arguments.map (·.name)).Nodup) {s t s' t' : Compilation} {v v' : Validator}
    (h : (types.ofOperation op).Yields s v t) (h' : (types.ofOperation op).Yields s' v' t')
    (hsound : types.Sound s.memo) (hsound' : types.Sound s'.memo) (hne : v ≠ v') :
    v.Differ v' := by
  obtain ⟨part, rfl, hp⟩ := yields_ofOperation_iff.1 h
  obtain ⟨part', rfl, hp'⟩ := yields_ofOperation_iff.1 h'
  have hstands : ∀ a ∈ op.arguments, types.StandsFor t.memo a.type (part a.type) :=
    fun a ha => standsFor_of_thread hp hsound (List.mem_map_of_mem ha)
  have hstands' : ∀ a ∈ op.arguments, types.StandsFor t'.memo a.type (part' a.type) :=
    fun a ha => standsFor_of_thread hp' hsound' (List.mem_map_of_mem ha)
  rw [argumentsOf_eq hd, argumentsOf_eq hd] at hne ⊢
  obtain ⟨a, ha, hpart⟩ : ∃ a ∈ op.arguments, part a.type ≠ part' a.type := by
    by_contra hall
    push Not at hall
    exact hne (by rw [List.map_congr_left fun a ha => by rw [hall a ha]])
  exact Validator.Differ.object hd ha
    (differ_of_standsFor hl hs (hstands a ha) (hstands' a ha) hpart)
    fun b hb => share_of_standsFor hl hs (hstands b hb) (hstands' b hb)

/-- Operations that were compiled before leave the validator of an operation as it is exactly if
they kept nothing that differs from what the operation keeps alone. In a lawful schema whose scalars
have values this is also when every value has the same outcome. -/
theorem outcome_validatorAfter_iff {history : List Operation} (hh : types.Compiles history)
    {op : Operation} (hd : (op.arguments.map (·.name)).Nodup) {v : Validator}
    (hv : types.validatorAfter [] op = .ok v) :
    (types.validatorAfter history op = .ok v ↔
      (types.memoAfter history).Agrees (types.memoAfter [op])) ∧
    (types.schema.Lawful → types.Satisfiable →
      ((∃ w, types.validatorAfter history op = .ok w ∧ ∀ x, w.outcome x = v.outcome x) ↔
        (types.memoAfter history).Agrees (types.memoAfter [op]))) := by
  refine ⟨validatorAfter_eq_iff_agrees hh hd hv, fun hl hs => ?_⟩
  rw [← validatorAfter_eq_iff_agrees hh hd hv]
  constructor
  · rintro ⟨w, hw, hsame⟩
    by_contra hne
    obtain ⟨t, h⟩ := validatorAfter_eq_ok_iff.1 hv
    obtain ⟨t', h'⟩ := validatorAfter_eq_ok_iff.1 hw
    have hwv : w ≠ v := by
      rintro rfl
      exact hne hw
    obtain ⟨x, -, hx⟩ := differ_of_yields hl hs hd h' h (sound_memoAfter hh) sound_empty hwv
    rw [Validator.accepted?_eq_toOption_outcome, Validator.accepted?_eq_toOption_outcome] at hx
    exact hx (congrArg Except.toOption (hsame x))
  · intro h
    exact ⟨v, h, fun _ => rfl⟩

/-- Two input objects that contain each other. One of them may be left out of the other one, which
itself may not. -/
def nest : InputTypes where
  schema :=
    { types :=
        [⟨"A", .input [⟨"b", .nonNull (.named "B"), none⟩]⟩,
          ⟨"B", .input [⟨"a", .named "A", none⟩, ⟨"n", .nonNull (.named "Int"), none⟩]⟩,
          ⟨"Query", .object [] [
            ⟨"first", .named "Int", [⟨"a", .named "A", none⟩], none⟩,
            ⟨"second", .named "Int", [⟨"b", .named "B", none⟩], none⟩]⟩,
          ⟨"Int", .scalar⟩]
      roots := [(.query, "Query")] }
  settings := {}
  scalars := .standard

/-- The operation of a field with one argument. -/
def nestOperation (name argument typeName : String) : Operation :=
  .ofField nest.settings .query
    { name, type := .named "Int", arguments := [⟨argument, .named typeName, none⟩] }

/-- A value of `b` whose part `a` lacks what it requires. -/
def nestValue : Json := .obj [("b", .obj [("a", .obj []), ("n", .int 1)])]

/-- After `first` was compiled, `second` accepts a value that it refuses alone. -/
theorem outcome_second_after_first :
    ¬ ∀ v w, nest.validatorAfter [nestOperation "first" "a" "A"] (nestOperation "second" "b" "B") =
        .ok v → nest.validatorAfter [] (nestOperation "second" "b" "B") = .ok w →
      v.outcome nestValue = w.outcome nestValue := by
  intro h
  have hx := congrArg Except.isOk (h _ _ rfl rfl)
  revert hx
  decide +kernel

theorem satisfiable_nest : nest.Satisfiable := by
  intro t ht hb
  have hint : t.name = "Int" := by
    revert hb ht t
    decide +kernel
  rw [hint]
  exact ⟨.int 0, by simp, rfl⟩

/-- The memo after `first` keeps a validator of `B` in which `A` is cut. -/
theorem memo_differs_after_first :
    nest.Compiles [nestOperation "first" "a" "A"] ∧ nest.schema.Lawful ∧ nest.Satisfiable ∧
      ¬ (nest.memoAfter [nestOperation "first" "a" "A"]).Agrees
        (nest.memoAfter [nestOperation "second" "b" "B"]) := by
  have hh : nest.Compiles [nestOperation "first" "a" "A"] := ⟨_, rfl⟩
  have hl : nest.schema.Lawful := by decide +kernel
  refine ⟨hh, hl, satisfiable_nest, fun ha => ?_⟩
  have hd : ((nestOperation "second" "b" "B").arguments.map (·.name)).Nodup := by decide
  obtain ⟨w, hw, hsame⟩ :=
    ((outcome_validatorAfter_iff hh hd rfl).2 hl satisfiable_nest).2 ha
  have hx := congrArg Except.isOk (hsame nestValue)
  rw [← Except.ok.inj (show _ = Except.ok w from hw)] at hx
  revert hx
  decide +kernel

end InputTypes

end OperationTools
