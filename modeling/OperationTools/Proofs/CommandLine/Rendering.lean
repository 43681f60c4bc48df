import OperationTools.CommandLine.Run
import OperationTools.Proofs.CommandLine.Options
import OperationTools.Proofs.Json.Expressible
import OperationTools.Proofs.Json.WrittenText
import OperationTools.Proofs.Validator.Selection

/-!
# Runs of the rendering command

A run of `render` succeeds if nothing is wrong with its use, the schema has tools, one of them is
chosen, it renders the variables and the selection that are given, and the result can be printed.
It prints this result and nothing else. What is printed is read as the document and what is left of
the variables.

## Main definitions

* `Renders`: a command line with the arguments of `render`
* `RendersTo`: what a run of `render` that succeeds comes to

## Main results

* `Renders.exists_outcome_iff`: when a run succeeds, and what it prints then
* `read_renderedText`: what is printed is read
-/

namespace OperationTools

/-! ## Command lines -/

/-- A command line with the arguments of `render`. Neither in front of the command nor behind it
something else is asked for. -/
structure Renders (arguments : List String) (a : Arguments) : Prop where
  parsed : ∃ program rest, Arguments.parse programParameters false arguments = .ok program ∧
    answered? program = none ∧ program.others = Command.render.name :: rest ∧
    Arguments.parse Command.render.parameters true rest = .ok a
  has_help : a.has .help = false

/-- Every option of `render` but the call for help can be given another value. -/
theorem Renders.exists_changed {arguments : List String} {a : Arguments} (hr : Renders arguments a)
    (ha : a.others = []) {p : Parameter} (hp : p ∈ Command.render.parameters) (hh : p ≠ .help)
    (hv : p.takesValue = true) (value : String) :
    ∃ arguments', Renders arguments' (a.withValue p value) := by
  obtain ⟨⟨program, rest, -, -, -, hparse⟩, hhelp⟩ := hr
  have hspellable : Arguments.Spellable Command.render.parameters (a.withValue p value).given :=
    Arguments.spellable_append.2
      ⟨fun e he => Arguments.spellable_of_parse hparse e (List.mem_of_mem_filter he),
        by simp [hp, hv]⟩
  refine ⟨Command.render.name :: Arguments.spelled (a.withValue p value).given,
    ⟨⟨[], _⟩, _, rfl, rfl, rfl, ?_⟩, ?_⟩
  · rw [Arguments.parse_spelled hspellable, Arguments.withValue, ha]
  · rw [(a.changes_withValue p value).has_eq hh.symm, hhelp]

/-! ## Runs that succeed -/

/-- What a run of `render` that succeeds comes to: the tool that was chosen, the variables and the
selection that were given, what is rendered of them, and the text that is printed. -/
structure RendersTo (tree : FileTree) (a : Arguments) (tool : Tool) (values selection : Json)
    (rendered : Rendered) (text : String) : Prop where
  use : Command.render.wrongUse? tree a = none
  chosen : ∃ set log, Command.tools tree a = .ok (set, log) ∧ Command.chosen set a = .ok tool
  given : Command.jsonValues a = .ok (values, selection)
  render : (tool.render values selection).1 = .ok rendered
  written : Command.renderedText rendered = .ok text
  printable : Text.loneHalves? text = none

variable {tree : FileTree} {arguments : List String} {a : Arguments}

theorem commandLine_eq_ok_iff_transcript {o : Outcome} : commandLine tree arguments = .ok o ↔
    ∃ t, transcriptOf tree arguments = .ok t ∧ t.outcome = .ok o := by
  unfold commandLine
  cases transcriptOf tree arguments <;> simp

/-- A command line with the arguments of `render` runs this command. -/
theorem Renders.exists_run (hr : Renders arguments a) (tree : FileTree) : ∃ verbose rest,
    Arguments.parse Command.render.parameters true rest = .ok a ∧
      transcriptOf tree arguments = Command.render.run tree verbose rest := by
  obtain ⟨⟨program, rest, hprogram, hanswered, hothers, hparse⟩, -⟩ := hr
  have hne : arguments ≠ [] := by
    rintro rfl
    cases hprogram
    cases hothers
  refine ⟨program.has .verbose, rest, hparse, ?_⟩
  simp [transcriptOf, hne, hprogram, hanswered, hothers, commandOf]

/-- A wrong use of `render` is printed with an exit code of its own. -/
theorem Renders.exitCode_of_wrongUse? (hr : Renders arguments a) {stop : Stop}
    (hs : Command.render.wrongUse? tree a = some stop) {t : Transcript}
    (h : transcriptOf tree arguments = .ok t) : t.exitCode = 2 := by
  obtain ⟨verbose, rest, hparse, hrun⟩ := hr.exists_run tree
  simp only [hrun, Command.run, hparse, hr.has_help, Bool.false_eq_true, if_false, hs] at h
  cases stop <;> cases h
  rfl

/-- Where nothing is wrong with its use, `render` prints what is rendered with the tools. -/
theorem Renders.transcriptOf_eq_ok_iff (hr : Renders arguments a)
    (hu : Command.render.wrongUse? tree a = none) : ∃ verbose, ∀ t,
      transcriptOf tree arguments = .ok t ↔ ∃ set log u more,
        Command.tools tree a = .ok (set, log) ∧ Command.rendering set a = .ok (u, more) ∧
          t = u.withLog (logLines verbose (log ++ more)) := by
  obtain ⟨verbose, rest, hparse, hrun⟩ := hr.exists_run tree
  refine ⟨verbose, fun t => ?_⟩
  simp only [hrun, Command.run, hparse, hr.has_help, Bool.false_eq_true, if_false, hu,
    Command.perform]
  cases Command.tools tree a with
  | error cause => simp [bind, Except.bind]
  | ok r =>
    obtain ⟨set, log⟩ := r
    cases hrendering : Command.rendering set a with
    | error cause => simp [bind, Except.bind, hrendering]
    | ok r =>
      obtain ⟨u, more⟩ := r
      simp [bind, Except.bind, pure, Except.pure, hrendering, eq_comm]

/-- What is rendered, if that succeeds, is the one result. -/
theorem exists_rendered {set : ToolSet} {u : Transcript} {more : List Notice}
    (h : Command.rendering set a = .ok (u, more)) (hcode : u.exitCode = 0) :
    ∃ tool values selection rendered text, Command.chosen set a = .ok tool ∧
      Command.jsonValues a = .ok (values, selection) ∧
      (tool.render values selection).1 = .ok rendered ∧
      Command.renderedText rendered = .ok text ∧ u.results = [text] := by
  unfold Command.rendering at h
  split at h
  · obtain ⟨t, ht, he⟩ := map_eq_ok_iff.1 h
    cases he
    unfold Command.stopped at ht
    split at ht <;> cases ht
    cases hcode
  · cases h
    cases hcode
  · rename_i values selection tool hgiven hchosen
    split at h
    · cases h
    · cases h
      cases hcode
    · rename_i rendered log hrender
      obtain ⟨text, htext, he⟩ := map_eq_ok_iff.1 h
      cases he
      exact ⟨tool, values, selection, rendered, text, hchosen, hgiven,
        congrArg Prod.fst hrender, htext, rfl⟩

theorem rendering_of_render {set : ToolSet} {tool : Tool} {values selection : Json}
    {rendered : Rendered} {text : String} (hc : Command.chosen set a = .ok tool)
    (hg : Command.jsonValues a = .ok (values, selection))
    (hr : (tool.render values selection).1 = .ok rendered)
    (hw : Command.renderedText rendered = .ok text) :
    ∃ more, Command.rendering set a = .ok ({ results := [text] }, more) := by
  rcases hrender : tool.render values selection with ⟨result, log⟩
  obtain rfl : result = .ok rendered := by rw [← hr, hrender]
  exact ⟨log, by simp [Command.rendering, hg, hc, hrender, hw, Except.map]⟩

/-- One plain result is printed as it is, if it can be. -/
theorem outcome_of_plain {u : Transcript} {text : String} (hu : u.results = [text])
    (ht : Text.Plain text.toList) {o : Outcome} : u.outcome = .ok o ↔
      Text.loneHalves? text = none ∧ o = ⟨u.exitCode, text, Text.withPlainLineEnds
        (Text.escapeHalves (u.log ++ Text.withoutStyles u.messages))⟩ := by
  have hshown := Text.withoutStyles_of_plain ht
  have hends := Text.withPlainLineEnds_of_plain ht
  cases hh : Text.loneHalves? text <;>
    simp [Transcript.outcome, Transcript.printResults, hu, hshown, hh, hends, eq_comm]

theorem exitCode_of_outcome {u : Transcript} {o : Outcome} (h : u.outcome = .ok o) :
    o.exitCode = u.exitCode := by
  unfold Transcript.outcome at h
  split at h <;> cases h
  rfl

theorem plain_renderedText {rendered : Rendered} {text : String}
    (h : Command.renderedText rendered = .ok text) : Text.Plain text.toList := by
  unfold Command.renderedText at h
  dsimp only at h
  split at h <;> cases h
  simp [Json.plain_indented, Text.isPlain]

/-- When a run succeeds, and what it prints then. -/
theorem Renders.exists_outcome_iff (hr : Renders arguments a) {text : String} :
    (∃ o, commandLine tree arguments = .ok o ∧ o.exitCode = 0 ∧ o.stdout = text) ↔
      ∃ tool values selection rendered, RendersTo tree a tool values selection rendered text := by
  constructor
  · rintro ⟨o, ho, hcode, rfl⟩
    obtain ⟨t, ht, ho⟩ := commandLine_eq_ok_iff_transcript.1 ho
    have hexit := (exitCode_of_outcome ho).symm.trans hcode
    cases hu : Command.render.wrongUse? tree a with
    | some stop => simp [hr.exitCode_of_wrongUse? hu ht] at hexit
    | none =>
      obtain ⟨verbose, hiff⟩ := hr.transcriptOf_eq_ok_iff hu
      obtain ⟨set, log, u, more, htools, hrendering, rfl⟩ := (hiff t).1 ht
      obtain ⟨tool, values, selection, rendered, text, hchosen, hgiven, hrender, htext, hresults⟩ :=
        exists_rendered hrendering hexit
      obtain ⟨hprintable, rfl⟩ := (outcome_of_plain (u := u.withLog _) hresults
        (plain_renderedText htext)).1 ho
      exact ⟨tool, values, selection, rendered, hu, ⟨set, log, htools, hchosen⟩, hgiven, hrender,
        htext, hprintable⟩
  · rintro ⟨tool, values, selection, rendered, h⟩
    obtain ⟨set, log, htools, hchosen⟩ := h.chosen
    obtain ⟨verbose, hiff⟩ := hr.transcriptOf_eq_ok_iff h.use
    obtain ⟨more, hrendering⟩ := rendering_of_render hchosen h.given h.render h.written
    have ht := (hiff _).2 ⟨set, log, _, more, htools, hrendering, rfl⟩
    have ho := fun o => outcome_of_plain (o := o)
      (u := Transcript.withLog (logLines verbose (log ++ more)) { results := [text] }) rfl
      (plain_renderedText h.written)
    exact ⟨_, commandLine_eq_ok_iff_transcript.2 ⟨_, ht, (ho _).2 ⟨h.printable, rfl⟩⟩, rfl, rfl⟩

/-! ## What is printed -/

/-- What is printed is read as the document and what is left of the variables. -/
theorem read_renderedText {rendered : Rendered} {text : String}
    (h : Command.renderedText rendered = .ok text)
    (hl : Json.Everywhere Json.Legible rendered.values) :
    Json.read text = .ok (.obj [("query", .str rendered.query),
      ("variables", rendered.values.printed)]) := by
  unfold Command.renderedText at h
  dsimp only at h
  split at h
  · cases h
  · rename_i y hy
    cases h
    obtain rfl := Json.eq_encoded_of_encodable hy
    have hlegible : Json.Everywhere Json.Legible
        (.obj [("query", .str rendered.query), ("variables", rendered.values)]) :=
      .obj trivial (by
        simp only [List.forall_mem_cons, List.not_mem_nil, false_implies, implies_true, and_true]
        exact ⟨.scalar (by simp [Json.kind]) (by simp [Json.kind]) trivial, hl⟩)
    rw [show "\n" = String.ofList ['\n'] from rfl,
      Json.read_indented (Json.everywhere_legible_encoded hlegible) (by simp [Json.isBlank])]
    rfl

end OperationTools
