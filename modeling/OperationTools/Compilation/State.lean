import OperationTools.Compilation.Notice
import OperationTools.Settings.Basic

/-!
# Compilation steps

Compiling a type reads and fills the memo and gives notices. Both are threaded through as the state
of a compilation. A step that fails leaves what was kept and noted before.

## Main definitions

* `Compilation`: the state
* `Compile`: a step that has a result
* `TryCompile`: a step that fails at an enum whose values cannot be told
* `Compile.runOn`: the result of a step, the memo and the notices

## Main results

* `Compile.run_kept?`, `Compile.run_keep`, `Compile.run_noteFields`: what the steps do to the state
* `TryCompile.run_bind`: a step after another one
-/

namespace OperationTools

/-- The state of a compilation. -/
structure Compilation where
  memo : Memo := {}
  log : List Notice := []

/-- A step of a compilation. -/
abbrev Compile := StateM Compilation

/-- A note on a value of an enum cannot be read. -/
structure UnreadableEnum where
  name : String
deriving DecidableEq, Repr

/-- The message about an enum with a note that cannot be read. -/
def UnreadableEnum.message (e : UnreadableEnum) : String :=
  s!"A note on a value of {e.name} is no text"

/-- A step of a compilation that may fail. -/
abbrev TryCompile := ExceptT UnreadableEnum Compile

namespace Compile

/-- Gives a notice. -/
def notice (n : Notice) : Compile Unit :=
  modify fun s => { s with log := s.log ++ [n] }

/-- Notes that the fields of a type are cut, if there are more than the limit. -/
def noteFields (side : Side) (typeName : String) (count limit : Nat) : Compile Unit :=
  if limit < count then
    let note : Truncation := ⟨side, typeName, count, limit⟩
    modify fun s => { memo := s.memo.addNote note, log := s.log ++ [.truncated note] }
  else pure ()

/-- The validator kept under a key. -/
def kept? (key : Memo.Key) : Compile (Option Validator) := do
  pure ((← get).memo.find? key)

/-- Keeps a validator under a key. -/
def keep (key : Memo.Key) (v : Validator) : Compile Validator := do
  modify fun s => { s with memo := s.memo.keep key v }
  pure v

@[simp] theorem run_notice (n : Notice) (s : Compilation) :
    (notice n).run s = ((), { s with log := s.log ++ [n] }) := rfl

@[simp] theorem run_kept? (key : Memo.Key) (s : Compilation) :
    (kept? key).run s = (s.memo.find? key, s) := rfl

@[simp] theorem run_keep (key : Memo.Key) (v : Validator) (s : Compilation) :
    (keep key v).run s = (v, { s with memo := s.memo.keep key v }) := rfl

/-- Fields are noted in the memo and in the log, or neither changes. -/
theorem run_noteFields (side : Side) (typeName : String) (count limit : Nat) (s : Compilation) :
    (noteFields side typeName count limit).run s =
      if limit < count then
        ((), { memo := s.memo.addNote ⟨side, typeName, count, limit⟩
               log := s.log ++ [.truncated ⟨side, typeName, count, limit⟩] })
      else ((), s) := by
  unfold noteFields
  split <;> rfl

/-- The result of a step from a memo on, the memo afterwards and the notices. -/
def runOn {α : Type} (step : Compile α) (memo : Memo) : α × Memo × List Notice :=
  let (a, s) := step.run { memo }
  (a, s.memo, s.log)

end Compile

namespace TryCompile

/-- A step after another one: a failure stays, with the state that it left. -/
theorem run_bind {α β : Type} (step : TryCompile α) (next : α → TryCompile β) (s : Compilation) :
    (step >>= next).run.run s =
      match step.run.run s with
      | (.ok a, t) => (next a).run.run t
      | (.error e, t) => (.error e, t) := by
  simp only [ExceptT.run, StateT.run, bind, ExceptT.bind, ExceptT.mk, StateT.bind]
  rcases step s with ⟨_ | _, t⟩ <;> rfl

end TryCompile

end OperationTools
