import OperationTools.Proofs.CommandLine.Rendering
import OperationTools.Proofs.Schema.Lawful
import OperationTools.Proofs.Tool.Variables

/-!
# Rendering again

With the variables that `render` prints a run can be repeated. They are those that were accepted,
unless a number among them is not finite or a key in them is encoded in another way: those are
changed when they are written. A validator of numbers accepts all of them, and so a number that is
too large to be read as a finite one is printed as `null`, which the same validator refuses.

## Main definitions

* `GivesAgain`: a command line that gives variables as they were printed

## Main results

* `RendersTo.again`: with the accepted variables a run comes to the same
* `Renders.prints`: which variables come back, and that the run can be repeated with them
* `prints_overflow`: a run that cannot be repeated
-/

namespace OperationTools

variable {tree : FileTree} {arguments : List String} {a : Arguments}

/-! ## The variables and tools of a run -/

theorem tidy_of_jsonValue {p : Parameter} {x : Json} (h : Command.jsonValue a p = .ok x) :
    Json.Everywhere Json.Tidy x := by
  unfold Command.jsonValue at h
  split at h
  · cases h
    exact .scalar (by simp [Json.kind]) (by simp [Json.kind]) ⟨trivial, trivial⟩
  · exact Json.tidy_of_read (mapError_eq_ok_iff.1 h)

theorem jsonValues_eq_ok_iff {values selection : Json} :
    Command.jsonValues a = .ok (values, selection) ↔
      Command.jsonValue a .values = .ok values ∧ Command.jsonValue a .selection = .ok selection := by
  unfold Command.jsonValues
  cases Command.jsonValue a .values <;> cases Command.jsonValue a .selection <;>
    simp [bind, Except.bind, pure, Except.pure]

theorem exists_ofText_of_schemaAt {path : String} {schema : Schema}
    (h : (tree.schemaAt path).1 = .ok schema) : ∃ text, Schema.ofText text = .ok schema := by
  unfold FileTree.schemaAt at h
  split at h
  · cases h
  · split at h
    · cases h
      exact ⟨_, ‹_›⟩
    · cases h

/-- The tools of a run are those of a schema. -/
theorem exists_schema_of_tools {set : ToolSet} {log : List Notice}
    (h : Command.tools tree a = .ok (set, log)) :
    ∃ schema settings, (tree.schemaAt ((a.value? .schema).getD "")).1 = .ok schema ∧
      (schema.tools settings).1 = .ok set := by
  unfold Command.tools at h
  cases hsettings : Command.settings tree a with
  | error cause => simp [hsettings, bind, Except.bind] at h
  | ok settings =>
    cases hschema : (tree.schemaAt ((a.value? .schema).getD "")).1 with
    | error e => simp [hsettings, hschema, Except.mapError, bind, Except.bind] at h
    | ok schema =>
      cases hset : (schema.tools settings).1 with
      | error e => simp [hsettings, hschema, hset, Except.mapError, bind, Except.bind] at h
      | ok found =>
        simp only [hsettings, hschema, hset, Except.mapError, bind, Except.bind, pure, Except.pure,
          Except.ok.injEq, Prod.mk.injEq] at h
        exact ⟨schema, settings, rfl, h.1 ▸ hset⟩

/-- The tool of a run is compiled, and its variables are checked by a validator of arguments. -/
theorem exists_compiled {set : ToolSet} {log : List Notice}
    (h : Command.tools tree a = .ok (set, log)) {tool : Tool}
    (hc : Command.chosen set a = .ok tool) : ∃ inputs outputs, tool.Compiled inputs outputs ∧
      (tool.operation.arguments.map (·.name)).Nodup ∧ tool.arguments.ForArguments := by
  obtain ⟨schema, settings, hs, ht⟩ := exists_schema_of_tools h
  obtain ⟨text, hs⟩ := exists_ofText_of_schemaAt hs
  have hl := Schema.lawful_of_ofText hs
  obtain ⟨ops, opsLog, hops, hset⟩ := Schema.exists_operations_of_tools ht
  obtain ⟨hop, hcompiled⟩ := Schema.compiled_of_toolsFor .empty hset (ToolSet.mem_of_find hc).1
  have hd := hl.nodup_arguments hops hop
  exact ⟨_, _, hcompiled, hd, hcompiled.forArguments hl InputTypes.forArguments_standard hd⟩

/-! ## Runs with other variables -/

theorem wrongUse?_eq_none_iff {c : Command} : c.wrongUse? tree a = none ↔
    (∀ p, a.has p = true ∨ p ∈ c.parameters → Command.wrongOption? tree a p = none) ∧
      a.others = [] := by
  have hmem : ∀ p, p ∈ a.given.map (·.1) ++ c.parameters.filter (fun p => !a.has p) ↔
      a.has p = true ∨ p ∈ c.parameters := by
    intro p
    have hgiven : p ∈ a.given.map (·.1) ↔ a.has p = true := by
      simp [Arguments.has]
    rw [List.mem_append, List.mem_filter, hgiven]
    cases a.has p <;> simp
  unfold Command.wrongUse?
  dsimp only
  cases hfound : (a.given.map (·.1) ++ c.parameters.filter fun p => !a.has p).findSome?
      (Command.wrongOption? tree a) with
  | some stop =>
    obtain ⟨p, hp, hstop⟩ := List.exists_of_findSome?_eq_some hfound
    refine ⟨fun h => absurd h (Option.some_ne_none stop), fun h => ?_⟩
    rw [h.1 p ((hmem p).1 hp)] at hstop
    cases hstop
  | none =>
    have hnone : ∀ p, a.has p = true ∨ p ∈ c.parameters → Command.wrongOption? tree a p = none :=
      fun p hp => List.findSome?_eq_none_iff.1 hfound p ((hmem p).2 hp)
    rw [and_iff_right hnone]
    cases a.others <;> simp

namespace Arguments.Changes

variable {other : Arguments} {value : String}

/-- Other variables are no wrong use. -/
theorem wrongUse? (ha : a.Changes other .values value)
    (hu : Command.render.wrongUse? tree a = none) : Command.render.wrongUse? tree other = none := by
  obtain ⟨hoptions, hothers⟩ := wrongUse?_eq_none_iff.1 hu
  refine wrongUse?_eq_none_iff.2 ⟨fun p hp => ?_, ha.others.trans hothers⟩
  by_cases hv : p = .values
  · subst hv
    rw [Command.wrongOption?, ha.value]
    rfl
  · rw [← hoptions p (hp.imp_left (ha.has_eq hv ▸ ·)), Command.wrongOption?, Command.wrongOption?,
      ha.values p hv]

/-- Other variables leave the tools as they are. -/
theorem tools_eq (ha : a.Changes other .values value) :
    Command.tools tree other = Command.tools tree a := by
  have hsettings : Command.settings tree other = Command.settings tree a := by
    rw [Command.settings, Command.settings, ha.values .config (by decide),
      ha.has_eq (by decide : Parameter.mutations ≠ .values),
      ha.has_eq (by decide : Parameter.subscriptions ≠ .values)]
  rw [Command.tools, Command.tools, hsettings, ha.values .schema (by decide)]

end Arguments.Changes

namespace RendersTo

variable {tool : Tool} {values selection : Json} {rendered : Rendered} {text : String}

/-- The accepted variables are tidy. -/
theorem tidy (h : RendersTo tree a tool values selection rendered text) :
    Json.Everywhere Json.Tidy rendered.values := by
  obtain ⟨set, log, htools, hchosen⟩ := h.chosen
  obtain ⟨inputs, outputs, -, -, hv⟩ := exists_compiled htools hchosen
  exact Tool.tidy_of_acceptVariables hv (Tool.render_eq_ok_iff.1 h.render).1
    (tidy_of_jsonValue (jsonValues_eq_ok_iff.1 h.given).1)

/-- A run comes to one thing only. -/
theorem rendered_unique (h : RendersTo tree a tool values selection rendered text) {tool' : Tool}
    {values' selection' : Json} {rendered' : Rendered} {text' : String}
    (h' : RendersTo tree a tool' values' selection' rendered' text') : rendered = rendered' := by
  obtain ⟨set, log, htools, hchosen⟩ := h.chosen
  obtain ⟨set', log', htools', hchosen'⟩ := h'.chosen
  obtain ⟨rfl, -⟩ := Prod.mk.inj (Except.ok.inj (htools.symm.trans htools'))
  obtain rfl := Except.ok.inj (hchosen.symm.trans hchosen')
  obtain ⟨rfl, rfl⟩ := Prod.mk.inj (Except.ok.inj (h.given.symm.trans h'.given))
  exact Except.ok.inj (h.render.symm.trans h'.render)

/-- With the accepted variables in place of those that were given, a run comes to the same. -/
theorem again (h : RendersTo tree a tool values selection rendered text) {other : Arguments}
    {given : String} (ha : a.Changes other .values given)
    (hg : Json.read given = .ok rendered.values) :
    RendersTo tree other tool rendered.values selection rendered text := by
  obtain ⟨set, log, htools, hchosen⟩ := h.chosen
  obtain ⟨inputs, outputs, hcompiled, hd, hv⟩ := exists_compiled htools hchosen
  have haccepted : (tool.acceptVariables rendered.values).1 = .ok rendered.values :=
    Tool.acceptVariables_again hv (Tool.render_eq_ok_iff.1 h.render).1
  refine ⟨ha.wrongUse? h.use, ⟨set, log, ?_, ?_⟩, ?_, ?_, h.written, h.printable⟩
  · rw [ha.tools_eq, htools]
  · rw [← hchosen, Command.chosen, Command.chosen, ha.values .name (by decide)]
  · obtain ⟨-, hselection⟩ := jsonValues_eq_ok_iff.1 h.given
    refine jsonValues_eq_ok_iff.2 ⟨?_, ?_⟩
    · rw [Command.jsonValue, ha.value]
      exact mapError_eq_ok_iff.2 hg
    · rw [← hselection, Command.jsonValue, Command.jsonValue, ha.values .selection (by decide)]
  · obtain ⟨-, selected, hselected, hwrite⟩ := Tool.render_eq_ok_iff.1 h.render
    refine Tool.render_eq_ok_iff.2 ⟨haccepted, selected, hselected, ?_⟩
    rw [(Operation.documentFor_eq_ok_iff.1 hwrite).2]
    exact hcompiled.documentFor_eq_ok hd haccepted _

end RendersTo

/-! ## Printed variables -/

/-- A command line that gives variables as they were printed, and all else as other arguments do. -/
def GivesAgain (a : Arguments) (printed : Json) (arguments : List String) : Prop :=
  ∃ other given, Renders arguments other ∧ a.Changes other .values given ∧
    Json.read given = .ok printed

/-- Every run can be given the variables that it printed. -/
theorem RendersTo.exists_givesAgain {tool : Tool} {values selection : Json} {rendered : Rendered}
    {text : String} (h : RendersTo tree a tool values selection rendered text)
    (hr : Renders arguments a) : ∃ arguments', GivesAgain a rendered.values.printed arguments' := by
  obtain ⟨-, hothers⟩ := wrongUse?_eq_none_iff.1 h.use
  let given := Json.indented .result rendered.values.encoded
  obtain ⟨arguments', hr'⟩ :=
    hr.exists_changed hothers (p := .values) (by decide) (by decide) rfl given
  have hlegible := Json.everywhere_legible_encoded (h.tidy.mono fun _ => And.left)
  have hread := Json.read_indented hlegible (by simp : ∀ c ∈ [], Json.isBlank c = true)
  rw [String.ofList_nil, String.append_empty] at hread
  exact ⟨arguments', _, given, hr', a.changes_withValue .values given, hread⟩

/-! ## An operation that takes a number -/

/-- A schema with one operation, which takes a number. -/
def floatSchema : String := "type Query \x7b f(x: Float!): Int \x7d"

/-- The schema in a file. -/
def floatTree : FileTree := ⟨[(["s"], .file floatSchema)]⟩

/-- The command line that renders the operation for given variables. -/
def floatLine (values : String) : List String :=
  ["render", "--schema", "s", "--name", "f", "--variables", values]

/-- The options of this command line. -/
def floatOptions (values : String) : Arguments :=
  ⟨[(.schema, "s"), (.name, "f"), (.values, values)], []⟩

/-- The tool of the operation. -/
def floatTool : Option Tool :=
  (Schema.ofText floatSchema).toOption.bind fun schema =>
    (schema.tools {}).1.toOption.bind fun set => (set.find "f").toOption

theorem renders_floatLine (values : String) : Renders (floatLine values) (floatOptions values) := by
  have hspellable : Arguments.Spellable Command.render.parameters (floatOptions values).given := by
    simp [floatOptions, Command.parameters, Parameter.takesValue]
  exact ⟨⟨⟨[], _⟩, _, rfl, rfl, rfl, Arguments.parse_spelled hspellable true⟩, rfl⟩

theorem components_s : FileTree.components "s" = ["s"] := by
  rw [FileTree.components, String.splitOn, if_neg (by decide +kernel), String.splitOnAux,
    if_neg (by decide +kernel), if_neg (by decide +kernel), String.splitOnAux,
    if_pos (by decide +kernel)]
  decide +kernel

theorem resolve?_floatTree : floatTree.resolve? "s" = some (["s"], .file floatSchema) := by
  have hstart : FileTree.Place.start "s" = [] := by
    decide +kernel
  have hempty : "s".isEmpty = false := by
    decide +kernel
  rw [FileTree.resolve?, hempty, hstart, components_s]
  decide +kernel

theorem wrongUse?_floatOptions (values : String) :
    Command.render.wrongUse? floatTree (floatOptions values) = none := by
  have hpath : FileTree.isUnusablePath "s" = false := by
    decide +kernel
  have hexists : floatTree.exists? "s" = true := by
    rw [FileTree.exists?, resolve?_floatTree]
    rfl
  refine wrongUse?_eq_none_iff.2 ⟨fun p hp => ?_, rfl⟩
  cases p <;> simp [Command.wrongOption?, floatOptions, Arguments.value?, Parameter.isRequired,
    Parameter.isPath, hpath, hexists]

theorem toOption_eq_some_iff {ε α : Type} {r : Except ε α} {x : α} :
    r.toOption = some x ↔ r = .ok x := by
  cases r <;> simp [Except.toOption]

/-- The tools and the one that is chosen, for all variables. -/
theorem exists_tools_floatOptions {tool : Tool} (h : floatTool = some tool) : ∃ set log,
    ∀ values, Command.tools floatTree (floatOptions values) = .ok (set, log) ∧
      Command.chosen set (floatOptions values) = .ok tool := by
  obtain ⟨schema, hschema, h⟩ := Option.bind_eq_some_iff.1 h
  obtain ⟨set, hset, htool⟩ := Option.bind_eq_some_iff.1 h
  refine ⟨set, (schema.tools {}).2.2, fun values => ⟨?_, toOption_eq_some_iff.1 htool⟩⟩
  have hsettings : Command.settings floatTree (floatOptions values) = .ok {} := rfl
  have hpath : ((floatOptions values).value? .schema).getD "" = "s" := rfl
  have htexts : floatTree.schemaTexts "s" = [("s", floatSchema)] := by
    rw [FileTree.schemaTexts, resolve?_floatTree]
  rw [Command.tools, hsettings, hpath, FileTree.schemaAt, htexts]
  simp [toOption_eq_some_iff.1 hschema, toOption_eq_some_iff.1 hset, Except.mapError, bind,
    Except.bind, pure, Except.pure]

theorem exists_rendersTo_floatOptions {values : String} (given : Json) (query : String)
    (hg : (Command.jsonValues (floatOptions values)).toOption = some (given, .null))
    (hr : (floatTool.bind fun tool => (tool.render given .null).1.toOption) = some ⟨query, given⟩)
    (hw : (Command.renderedText ⟨query, given⟩).toOption.map Text.loneHalves? = some none) :
    ∃ tool text,
      RendersTo floatTree (floatOptions values) tool given .null ⟨query, given⟩ text := by
  obtain ⟨tool, htool, hr⟩ := Option.bind_eq_some_iff.1 hr
  obtain ⟨text, hw, hp⟩ := Option.map_eq_some_iff.1 hw
  obtain ⟨set, log, hset⟩ := exists_tools_floatOptions htool
  exact ⟨tool, text, wrongUse?_floatOptions values, ⟨set, log, hset values⟩,
    toOption_eq_some_iff.1 hg, toOption_eq_some_iff.1 hr, toOption_eq_some_iff.1 hw, hp⟩

/-- The document of the operation. -/
def floatQuery : String := "query f($x: Float!) \x7b f(x: $x) \x7d"

/-- Where the tool rejects the variables, the run fails. -/
theorem exists_failure_floatLine {values : String} (given : Json) (message : String)
    (hg : (Command.jsonValues (floatOptions values)).toOption = some (given, .null))
    (hr : (floatTool.bind fun tool => match (tool.render given .null).1 with
      | .error (.rejected r) => some r.message
      | _ => none) = some message) :
    ∃ o, commandLine floatTree (floatLine values) = .ok o ∧ o.exitCode = 1 := by
  obtain ⟨tool, htool, hr⟩ := Option.bind_eq_some_iff.1 hr
  obtain ⟨set, log, hset⟩ := exists_tools_floatOptions htool
  obtain ⟨htools, hchosen⟩ := hset values
  split at hr
  · rename_i r hrejected
    rcases hrender : tool.render given .null with ⟨result, more⟩
    obtain rfl : result = .error (.rejected r) := by rw [← hrejected, hrender]
    have hrendering : Command.rendering set (floatOptions values) =
        .ok (.failure r.message, more) := by
      simp [Command.rendering, toOption_eq_some_iff.1 hg, hchosen, hrender, RenderError.message]
    obtain ⟨verbose, hiff⟩ :=
      (renders_floatLine values).transcriptOf_eq_ok_iff (wrongUse?_floatOptions values)
    have ht := (hiff _).2 ⟨set, log, _, more, htools, hrendering, rfl⟩
    exact ⟨_, commandLine_eq_ok_iff_transcript.2 ⟨_, ht, rfl⟩, rfl⟩
  · cases hr

/-! ## Rendering again -/

/-- What a run of `render` prints is read as the document and the accepted variables exactly if all
numbers in the variables are finite and all keys are encoded as they are. In this case every run
that is given the variables as they were printed prints the same. -/
theorem Renders.prints (hr : Renders arguments a) {o : Outcome}
    (ho : commandLine tree arguments = .ok o) (hcode : o.exitCode = 0) :
    ∃ tool values selection rendered, RendersTo tree a tool values selection rendered o.stdout ∧
      Json.read o.stdout = .ok (.obj [("query", .str rendered.query),
        ("variables", rendered.values.printed)]) ∧
      (rendered.values.printed = rendered.values ↔
        Json.Everywhere Json.Expressible rendered.values) ∧
      (∃ arguments', GivesAgain a rendered.values.printed arguments') ∧
      (Json.Everywhere Json.Expressible rendered.values →
        ∀ arguments', GivesAgain a rendered.values.printed arguments' →
          ∃ o', commandLine tree arguments' = .ok o' ∧ o'.exitCode = 0 ∧ o'.stdout = o.stdout) := by
  obtain ⟨tool, values, selection, rendered, h⟩ := hr.exists_outcome_iff.1 ⟨o, ho, hcode, rfl⟩
  have hprinted := Json.printed_eq_self_iff (h.tidy.mono fun _ => And.right)
  refine ⟨tool, values, selection, rendered, h,
    read_renderedText h.written (h.tidy.mono fun _ => And.left), hprinted,
    h.exists_givesAgain hr, ?_⟩
  rintro hexpressible arguments' ⟨other, given, hr', ha, hg⟩
  rw [hprinted.2 hexpressible] at hg
  exact hr'.exists_outcome_iff.2 ⟨tool, rendered.values, selection, rendered, h.again ha hg⟩

/-- A finite number comes back, and the run can be repeated. -/
theorem prints_finite :
    let values := "\x7b\"x\": 1.5\x7d"
    let accepted := Json.obj [("x", .float (.ofDecimal ⟨false, 15, -1⟩))]
    ∃ o, commandLine floatTree (floatLine values) = .ok o ∧ o.exitCode = 0 ∧
      Json.read o.stdout = .ok (.obj [("query", .str floatQuery), ("variables", accepted)]) ∧
      ∃ again, GivesAgain (floatOptions values) accepted again ∧
        ∃ o', commandLine floatTree again = .ok o' ∧ o'.exitCode = 0 ∧ o'.stdout = o.stdout := by
  intro values accepted
  have hr := renders_floatLine values
  obtain ⟨tool, text, h⟩ := exists_rendersTo_floatOptions accepted floatQuery
    (by decide +kernel : (Command.jsonValues (floatOptions "\x7b\"x\": 1.5\x7d")).toOption = _)
    (by decide +kernel) (by decide +kernel)
  have hexpressible : Json.Everywhere Json.Expressible accepted := by
    refine .obj ?_ (List.forall_mem_singleton.2 (.scalar (by simp [Json.kind]) (by simp [Json.kind]) ?_))
    · exact List.forall_mem_singleton.2 (by decide +kernel)
    · show Binary64.isFinite _ = true
      decide +kernel
  obtain ⟨o, ho, hcode, -⟩ := hr.exists_outcome_iff.2 ⟨_, _, _, _, h⟩
  obtain ⟨_, _, _, rendered, h', hread, hprinted, ⟨again, hagain⟩, hsame⟩ := hr.prints ho hcode
  obtain rfl : rendered = ⟨floatQuery, accepted⟩ := h'.rendered_unique h
  rw [hprinted.2 hexpressible] at hread hagain hsame
  exact ⟨o, ho, hcode, hread, again, hagain, hsame hexpressible again hagain⟩

/-- A number that is too large is accepted as an infinite one and printed as `null`. The run with
what was printed is refused. -/
theorem prints_overflow :
    let values := "\x7b\"x\": 1e400\x7d"
    let accepted := Json.obj [("x", .float (.infinite false))]
    let printed := Json.obj [("x", .null)]
    ∃ o tool, commandLine floatTree (floatLine values) = .ok o ∧ o.exitCode = 0 ∧
      RendersTo floatTree (floatOptions values) tool accepted .null ⟨floatQuery, accepted⟩
        o.stdout ∧
      Json.read o.stdout = .ok (.obj [("query", .str floatQuery), ("variables", printed)]) ∧
      printed ≠ accepted ∧
      ∃ again, GivesAgain (floatOptions values) printed again ∧
        ∃ o', commandLine floatTree again = .ok o' ∧ o'.exitCode = 1 := by
  intro values accepted printed
  obtain ⟨tool, text, h⟩ := exists_rendersTo_floatOptions accepted floatQuery
    (by decide +kernel : (Command.jsonValues (floatOptions "\x7b\"x\": 1e400\x7d")).toOption = _)
    (by decide +kernel) (by decide +kernel)
  obtain ⟨o, ho, hcode, rfl⟩ := (renders_floatLine values).exists_outcome_iff.2 ⟨_, _, _, _, h⟩
  have hread := read_renderedText h.written (h.tidy.mono fun _ => And.left)
  refine ⟨o, tool, ho, hcode, h, hread, by simp [printed, accepted],
    floatLine "\x7b\"x\": null\x7d", ⟨_, _, renders_floatLine _, ⟨rfl, fun p hp => ?_, rfl⟩,
      toOption_eq_some_iff.1 (by decide +kernel)⟩,
    exists_failure_floatLine printed
      "Validation failed for f: required field 'x' is null at 'x'" ?_ ?_⟩
  · cases p <;> first | rfl | exact absurd rfl hp
  · decide +kernel
  · decide +kernel

end OperationTools
