import OperationTools.Schema.Basic

/-!
# Settings

Settings say which operations are extracted, how they are named, and where extraction and
compilation stop.

## Main definitions

* `Cap`: a limit of at least one
* `Settings`: the options
* `Settings.offers`, `Settings.namePrefix`: the options of a kind of operations
-/

namespace OperationTools

/-- A limit of at least one. -/
structure Cap where
  value : Nat
  positive : 0 < value
deriving DecidableEq, Repr

namespace Cap

instance : CoeOut Cap Nat := ⟨Cap.value⟩

instance (n : Nat) : OfNat Cap (n + 1) := ⟨⟨n + 1, Nat.succ_pos n⟩⟩

end Cap

/-- The options of extraction and compilation. -/
structure Settings where
  includeQueries : Bool := true
  includeMutations : Bool := false
  includeSubscriptions : Bool := false
  queryNamePrefix : String := ""
  mutationNamePrefix : String := ""
  subscriptionNamePrefix : String := ""
  /-- Root fields with this phrase in their description are left out. -/
  ignorePhrase : String := "NO_MCP_TOOL"
  maxOperations : Cap := 200
  maxOperationArguments : Cap := 50
  maxSchemaDepth : Cap := 10
  maxArgumentFields : Cap := 100
  maxSelectionFields : Cap := 50
deriving DecidableEq, Repr

namespace Settings

/-- Whether operations of a kind are extracted. -/
def offers (settings : Settings) : OperationKind → Bool
  | .query => settings.includeQueries
  | .mutation => settings.includeMutations
  | .subscription => settings.includeSubscriptions

/-- What stands in front of the names of operations of a kind. -/
def namePrefix (settings : Settings) : OperationKind → String
  | .query => settings.queryNamePrefix
  | .mutation => settings.mutationNamePrefix
  | .subscription => settings.subscriptionNamePrefix

end Settings

end OperationTools
