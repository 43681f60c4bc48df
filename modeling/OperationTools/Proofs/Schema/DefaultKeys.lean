import OperationTools.Proofs.Schema.Named
import OperationTools.Validator.Policy

/-!
# Default keys

The keys of a fallback can be asked for right away: `__typename` of a union, and of an object or
interface the leaves whose arguments may all be null. Fields with parts are not among them, so a
type may have no default keys.

## Main definitions

* `Schema.IsEntry`: the fields that can be asked for right away

## Main results

* `Schema.mem_defaultKeys_iff`: the default keys of a type
* `Schema.defaultKeys_ne_nil_iff`: when there are any
-/

namespace OperationTools

open Token (isName)

theorem Token.isName_typenameKey : isName typenameKey = true := by decide

namespace Schema

/-- A field can be asked for right away: it is a leaf, and none of its arguments is non-null. -/
def IsEntry (schema : Schema) (f : Field) : Prop :=
  schema.isLeaf f.type.name = true ∧ ∀ a ∈ f.arguments, a.type.isNonNull = false

theorem isEntry_iff {schema : Schema} {f : Field} :
    schema.IsEntry f ↔ (!f.needsArguments && schema.isLeaf f.type.name) = true := by
  simp [IsEntry, Field.needsArguments, and_comm]

variable {schema : Schema} {n : String} {body : TypeBody}

/-- The keys of a fallback are `__typename` of a union, and the names of entries. -/
theorem mem_defaultKeys_iff (hb : schema.body? n = some body) {key : String} :
    key ∈ schema.defaultKeys n ↔ (∃ members, body = .union members) ∧ key = typenameKey ∨
      ∃ f ∈ body.fields, f.name = key ∧ schema.IsEntry f := by
  have hfields : ∀ fields : List Field,
      key ∈ (fields.filter fun f => !f.needsArguments && schema.isLeaf f.type.name).map (·.name) ↔
        ∃ f ∈ fields, f.name = key ∧ schema.IsEntry f := by
    intro fields
    simp only [List.mem_map, List.mem_filter, ← isEntry_iff, and_assoc]
    exact exists_congr fun f => and_congr_right fun _ => and_comm
  rw [defaultKeys, hb]
  cases body with
  | union => simp [TypeBody.fields]
  | object _ fields => simpa [TypeBody.fields] using hfields fields
  | interface _ fields => simpa [TypeBody.fields] using hfields fields
  | scalar | enum | input => simp [TypeBody.fields]

/-- There are entries for unions, and for types with a field that is one. -/
theorem defaultKeys_ne_nil_iff (hb : schema.body? n = some body) :
    schema.defaultKeys n ≠ [] ↔
      (∃ members, body = .union members) ∨ ∃ f ∈ body.fields, schema.IsEntry f := by
  constructor
  · intro hne
    obtain ⟨key, hk⟩ := List.exists_mem_of_ne_nil _ hne
    exact ((mem_defaultKeys_iff hb).1 hk).imp And.left fun ⟨f, hf, _, he⟩ => ⟨f, hf, he⟩
  · rintro (hu | ⟨f, hf, he⟩)
    · exact List.ne_nil_of_mem ((mem_defaultKeys_iff hb).2 (.inl ⟨hu, rfl⟩))
    · exact List.ne_nil_of_mem ((mem_defaultKeys_iff hb).2 (.inr ⟨f, hf, rfl, he⟩))

/-- The entries of a named schema are names. -/
theorem Named.isName_of_mem_defaultKeys (hn : schema.Named) (hb : schema.body? n = some body)
    {key : String} (hk : key ∈ schema.defaultKeys n) : isName key = true := by
  rcases (mem_defaultKeys_iff hb).1 hk with ⟨-, rfl⟩ | ⟨f, hf, rfl, -⟩
  · exact Token.isName_typenameKey
  · exact ((hn.body hb).fields f hf).name

end Schema

end OperationTools
