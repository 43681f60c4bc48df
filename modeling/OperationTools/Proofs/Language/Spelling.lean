import OperationTools.Language.Request
import OperationTools.Proofs.Language.Reading

/-!
# Spelled tokens

Scanning a text gives tokens whose names are names. Readers only take tokens away, so what they give
is made of such names, and what they leave is spelled as well. There is one lemma for each reader;
those that build something out of names tell so, all others only leave spelled tokens.

## Main definitions

* `Token.Spelled`: tokens whose names are names
* `Reader.Gives`: readers of spelled tokens that give something good

## Main results

* `Token.spelled_of_scan?`: what is scanned is spelled
* `Reader.gives_name`, `Reader.gives_typeRef`: names and references are proper
* `Reader.Gives.manyUntil`, `Reader.Gives.optionalBlock`: items are as good as each of them
-/

namespace OperationTools

namespace Token

/-- All names among tokens are names. -/
def Spelled (ts : List Token) : Prop := ∀ s, .name s ∈ ts → isName s = true

theorem spelled_nil : Spelled [] := fun _ h => absurd h List.not_mem_nil

theorem Spelled.tail {t : Token} {ts : List Token} (h : Spelled (t :: ts)) : Spelled ts :=
  fun s hs => h s (List.mem_cons_of_mem t hs)

/-- A name at the start of a text is a name. -/
theorem isName_of_next? {cs after : List Char} {s : String}
    (h : next? cs = some (.name s, after)) : isName s = true := by
  unfold next? at h
  split at h
  · cases h
  · obtain ⟨_, -, he⟩ := Option.map_eq_some_iff.1 h
    cases he
  · obtain ⟨_, -, he⟩ := Option.map_eq_some_iff.1 h
    cases he
  · rename_i c rest _ _ _
    split at h
    · rename_i t ht
      cases h
      unfold mark? at ht
      split at ht <;> cases ht
    · split at h
      · rename_i hstart
        cases h
        have hpart := isNamePart_of_isNameStart hstart
        simp [isName, hpart, hstart]
      · split at h
        · obtain ⟨_, -, he⟩ := Option.map_eq_some_iff.1 h
          cases he
        · cases h
  · cases h

theorem spelled_of_scanSteps? {fuel : Nat} {cs : List Char} {ts : List Token}
    (h : scanSteps? fuel cs = some ts) : Spelled ts := by
  induction fuel generalizing cs ts with
  | zero =>
    cases cs with
    | nil =>
      cases h
      exact spelled_nil
    | cons => cases h
  | succ fuel ih =>
    cases cs with
    | nil =>
      cases h
      exact spelled_nil
    | cons c rest =>
      rw [scanSteps?] at h
      split at h
      · exact ih h
      · split at h
        · exact ih h
        · obtain ⟨⟨t, after⟩, hn, h⟩ := Option.bind_eq_some_iff.1 h
          obtain ⟨us, hus, h⟩ := Option.bind_eq_some_iff.1 h
          cases h
          intro s hs
          rcases List.mem_cons.1 hs with rfl | hs
          · exact isName_of_next? hn
          · exact ih hus s hs

/-- What is scanned is spelled. -/
theorem spelled_of_scan? {text : String} {ts : List Token} (h : scan? text = some ts) :
    Spelled ts :=
  spelled_of_scanSteps? h

end Token

namespace Reader

open Token

variable {α β : Type} {P : α → Prop} {Q : β → Prop}

/-- From spelled tokens a reader gives something good and leaves spelled tokens. -/
def Gives (P : α → Prop) (r : Reader α) : Prop :=
  ∀ ts a rest, Spelled ts → r.run ts = some (a, rest) → P a ∧ Spelled rest

/-- From spelled tokens a reader leaves spelled tokens. -/
abbrev Keeps (r : Reader α) : Prop := r.Gives fun _ => True

/-! ## Steps -/

theorem gives_pure {a : α} (h : P a) : Gives P (pure a : Reader α) := by
  rintro ts b rest hts he
  cases he
  exact ⟨h, hts⟩

theorem keeps_pure (a : α) : Keeps (pure a : Reader α) := gives_pure trivial

theorem gives_failure : Gives P (failure : Reader α) := by
  rintro ts a rest - he
  cases he

theorem Gives.bind {r : Reader α} {next : α → Reader β} (hr : r.Gives P)
    (hnext : ∀ a, P a → (next a).Gives Q) : (r >>= next).Gives Q := by
  rintro ts b rest hts he
  obtain ⟨⟨a, left⟩, ha, he⟩ := Option.bind_eq_some_iff.1 he
  obtain ⟨hP, hleft⟩ := hr ts a left hts ha
  exact hnext a hP left b rest hleft he

theorem Gives.mono {P' : α → Prop} {r : Reader α} (h : r.Gives P) (hP : ∀ a, P a → P' a) :
    r.Gives P' := by
  rintro ts a rest hts he
  exact (h ts a rest hts he).imp_left (hP a)

theorem Gives.keeps {r : Reader α} (h : r.Gives P) : r.Keeps := h.mono fun _ _ => trivial

theorem Keeps.bind {r : Reader α} {next : α → Reader β} (hr : r.Keeps)
    (hnext : ∀ a, (next a).Gives Q) : (r >>= next).Gives Q :=
  Gives.bind hr fun a _ => hnext a

theorem Gives.map {r : Reader α} (hr : r.Gives P) {f : α → β} (h : ∀ a, P a → Q (f a)) :
    (f <$> r).Gives Q := by
  rintro ts b rest hts he
  obtain ⟨⟨a, left⟩, ha, he⟩ := Option.bind_eq_some_iff.1 he
  cases he
  exact (hr ts a _ hts ha).imp_left (h a)

theorem gives_get : Gives Spelled (get : Reader (List Token)) := by
  rintro ts a rest hts he
  cases he
  exact ⟨hts, hts⟩

theorem keeps_set {ts : List Token} (h : Spelled ts) : Keeps (set ts : Reader PUnit) := by
  rintro us a rest - he
  cases he
  exact ⟨trivial, h⟩

/-- A step that depends on the tokens that come next. -/
theorem gives_of_get {next : List Token → Reader β} (h : ∀ ts, Spelled ts → (next ts).Gives Q) :
    ((get : Reader (List Token)) >>= next).Gives Q :=
  gives_get.bind h

/-! ## Tokens and lists -/

theorem keeps_token (t : Token) : Keeps (token t) := by
  refine gives_of_get fun ts hts => ?_
  cases ts with
  | nil => exact gives_failure
  | cons u rest =>
    dsimp only
    split
    · exact keeps_set hts.tail
    · exact gives_failure

theorem keeps_tokenIf (t : Token) : Keeps (tokenIf t) := by
  refine gives_of_get fun ts hts => ?_
  cases ts with
  | nil => exact keeps_pure false
  | cons u rest =>
    dsimp only
    split
    · exact (keeps_set hts.tail).bind fun _ => keeps_pure true
    · exact keeps_pure false

theorem gives_name : Gives (fun s => isName s = true) name := by
  refine gives_of_get fun ts hts => ?_
  split
  · rename_i s rest
    exact (keeps_set hts.tail).bind fun _ => gives_pure (hts s List.mem_cons_self)
  · exact gives_failure

theorem keeps_keyword (word : String) : Keeps (keyword word) := keeps_token _

theorem keeps_keywordIf (word : String) : Keeps (keywordIf word) := keeps_tokenIf _

section Items

variable {item : Reader α}

theorem gives_singleton {a : α} (h : P a) :
    Gives (fun as => ∀ a ∈ as, P a) (pure [a] : Reader (List α)) :=
  gives_pure (by simpa using h)

theorem gives_cons {a : α} (h : P a) {others : Reader (List α)}
    (ho : others.Gives fun as => ∀ a ∈ as, P a) :
    Gives (fun as => ∀ a ∈ as, P a) (others >>= fun others => pure (a :: others)) :=
  ho.bind fun _ hall => gives_pure (List.forall_mem_cons.2 ⟨h, hall⟩)

theorem gives_nil : Gives (fun as => ∀ a ∈ as, P a) (pure [] : Reader (List α)) :=
  gives_pure (by simp)

theorem Gives.manyUntil (h : item.Gives P) (closing : Token) (fuel : Nat) :
    (manyUntil closing item fuel).Gives fun as => ∀ a ∈ as, P a := by
  induction fuel with
  | zero => exact gives_failure
  | succ fuel ih =>
    refine h.bind fun a ha => (keeps_tokenIf closing).bind fun found => ?_
    split
    · exact gives_singleton ha
    · exact gives_cons ha ih

theorem Gives.anyUntil (h : item.Gives P) (closing : Token) :
    (anyUntil closing item).Gives fun as => ∀ a ∈ as, P a := by
  refine (keeps_tokenIf closing).bind fun found => ?_
  split
  · exact gives_nil
  · exact gives_of_get fun ts _ => h.manyUntil closing ts.length

theorem Gives.optionalBlock (h : item.Gives P) (opening closing : Token) :
    (optionalBlock opening closing item).Gives fun as => ∀ a ∈ as, P a := by
  refine (keeps_tokenIf opening).bind fun found => ?_
  split
  · exact gives_of_get fun ts _ => h.manyUntil closing ts.length
  · exact gives_nil

theorem Gives.separatedSteps (h : item.Gives P) (separator : Token) (fuel : Nat) :
    (separatedSteps separator item fuel).Gives fun as => ∀ a ∈ as, P a := by
  induction fuel with
  | zero => exact gives_failure
  | succ fuel ih =>
    refine h.bind fun a ha => (keeps_tokenIf separator).bind fun found => ?_
    split
    · exact gives_cons ha ih
    · exact gives_singleton ha

theorem Gives.separated (h : item.Gives P) (separator : Token) :
    (separated separator item).Gives fun as => ∀ a ∈ as, P a :=
  (keeps_tokenIf separator).bind fun _ =>
    gives_of_get fun ts _ => h.separatedSteps separator ts.length

theorem Gives.whileNext (h : item.Gives P) (opening : Token) (fuel : Nat) :
    (whileNext opening item fuel).Gives fun as => ∀ a ∈ as, P a := by
  induction fuel with
  | zero => exact gives_nil
  | succ fuel ih =>
    refine (keeps_tokenIf opening).bind fun found => ?_
    split
    · exact h.bind fun a ha => gives_cons ha ih
    · exact gives_nil

end Items

/-! ## Types and descriptions -/

/-- References that may be marked as non-null. -/
theorem gives_marked {type : Reader TypeRef}
    (h : type.Gives fun r => r.isProper = true ∧ r.isNonNull = false) :
    (marked type).Gives fun r => r.isProper = true := by
  refine h.bind fun r hr => (keeps_tokenIf .bang).bind fun found => ?_
  split
  · exact gives_pure (by simp [TypeRef.isProper, hr])
  · exact gives_pure hr.1

theorem gives_named : Gives (fun r => r.isProper = true ∧ r.isNonNull = false)
    (TypeRef.named <$> name) :=
  gives_name.map fun _ hs => ⟨hs, rfl⟩

theorem gives_typeWithin (levels : Nat) :
    (typeWithin levels).Gives fun r => r.isProper = true := by
  induction levels with
  | zero => exact gives_marked gives_named
  | succ left ih =>
    refine gives_marked ((keeps_tokenIf .leftBracket).bind fun found => ?_)
    split
    · exact ih.bind fun r hr => (keeps_token .rightBracket).bind fun _ => gives_pure ⟨hr, rfl⟩
    · exact gives_named

theorem gives_typeRef : typeRef.Gives fun r => r.isProper = true := gives_typeWithin maxNesting

theorem keeps_description : Keeps description := by
  refine gives_of_get fun ts hts => ?_
  split
  · exact (keeps_set hts.tail).bind fun _ => keeps_pure _
  · exact keeps_pure none

/-! ## Literals and directives -/

theorem keeps_leaf (constant : Bool) : Keeps (leaf constant) := by
  refine gives_of_get fun ts hts => ?_
  split
  · exact (keeps_set hts.tail).bind fun _ => keeps_pure _
  · exact (keeps_set hts.tail).bind fun _ => keeps_pure _
  · exact (keeps_set hts.tail).bind fun _ => keeps_pure _
  · split
    · exact gives_failure
    · exact (keeps_set hts.tail).bind fun _ => gives_name.keeps.bind fun _ => keeps_pure _
  · exact gives_failure

theorem keeps_literal (constant : Bool) (levels : Nat) : Keeps (literal constant levels) := by
  induction levels with
  | zero => exact keeps_leaf constant
  | succ left ih =>
    refine gives_of_get fun ts hts => ?_
    split
    · exact (keeps_set hts.tail).bind fun _ =>
        (ih.anyUntil .rightBracket).keeps.bind fun _ => keeps_pure _
    · have hentry : Keeps (do
          let key ← name
          token .colon
          pure (key, ← literal constant left)) :=
        gives_name.keeps.bind fun _ => (keeps_token .colon).bind fun _ =>
          ih.bind fun _ => keeps_pure _
      exact (keeps_set hts.tail).bind fun _ =>
        (hentry.anyUntil .rightBrace).keeps.bind fun _ => keeps_pure _
    · exact keeps_leaf constant

theorem keeps_argument (constant : Bool) (levels : Nat) : Keeps (argument constant levels) :=
  gives_name.keeps.bind fun _ => (keeps_token .colon).bind fun _ =>
    (keeps_literal constant levels).bind fun _ => keeps_pure _

theorem keeps_arguments (constant : Bool) (levels : Nat) : Keeps (arguments constant levels) :=
  ((keeps_argument constant levels).optionalBlock .leftParen .rightParen).keeps

theorem keeps_directives (constant : Bool) (levels : Nat) :
    Keeps (directives constant levels) := by
  have hdirective : Keeps (do
      let name ← name
      pure ({ name, arguments := ← arguments constant levels } : DirectiveUse)) :=
    gives_name.keeps.bind fun _ => (keeps_arguments constant levels).bind fun _ => keeps_pure _
  exact gives_of_get fun ts _ => (hdirective.whileNext .atSign ts.length).keeps

theorem keeps_default : Keeps Reader.default := by
  refine (keeps_tokenIf .equals).bind fun found => ?_
  split
  · exact (keeps_literal true maxNesting).bind fun _ => keeps_pure _
  · exact keeps_pure none

end Reader

/-! ## Requests -/

namespace Request

open Reader

theorem keeps_fragmentName : Keeps fragmentName := by
  refine gives_name.keeps.bind fun s => ?_
  split
  · exact gives_failure
  · exact keeps_pure s

theorem keeps_partOf (levels : Nat) {inner : Reader (List RequestPart)} (h : inner.Keeps) :
    Keeps (partOf levels inner) := by
  have hused := keeps_directives false levels
  refine (keeps_tokenIf .ellipsis).bind fun isSpread => ?_
  split
  · refine (keeps_keywordIf "on").bind fun isOn => ?_
    split
    · exact gives_name.keeps.bind fun _ => hused.bind fun _ => h.bind fun _ => keeps_pure _
    · refine gives_of_get fun ts _ => ?_
      split
      · exact keeps_fragmentName.bind fun _ => hused.bind fun _ => keeps_pure _
      · exact hused.bind fun _ => h.bind fun _ => keeps_pure _
  · refine gives_name.keeps.bind fun _ => (keeps_tokenIf .colon).bind fun isAlias => ?_
    split
    on_goal 1 => refine gives_name.keeps.bind fun _ => ?_
    all_goals
      refine (keeps_arguments false levels).bind fun _ => hused.bind fun _ =>
        gives_of_get fun ts _ => ?_
      split
      · exact h.bind fun _ => keeps_pure _
      · exact keeps_pure _

theorem keeps_partsWithin (levels : Nat) : Keeps (partsWithin levels) := by
  induction levels with
  | zero => exact gives_failure
  | succ left ih =>
    exact (keeps_token .leftBrace).bind fun _ =>
      ((keeps_partOf left ih).anyUntil .rightBrace).keeps

theorem keeps_parts : Keeps parts := keeps_partsWithin maxNesting

theorem keeps_variableSource : Keeps variableSource :=
  keeps_description.bind fun _ => (keeps_token .dollar).bind fun _ =>
    gives_name.keeps.bind fun _ => (keeps_token .colon).bind fun _ =>
      gives_typeRef.keeps.bind fun _ => keeps_default.bind fun _ =>
        (keeps_directives true _).bind fun _ => keeps_pure _

theorem keeps_operationBody (kind : OperationKind) : Keeps (operationBody kind) := by
  have htail : Keeps (do
      let declared ← optionalBlock .leftParen .rightParen variableSource
      let used ← directives false
      pure (Request.operation kind declared used (← parts))) :=
    (keeps_variableSource.optionalBlock .leftParen .rightParen).keeps.bind fun _ =>
      (keeps_directives false _).bind fun _ => keeps_parts.bind fun _ => keeps_pure _
  refine gives_of_get fun ts hts => ?_
  split
  · exact (keeps_set hts.tail).bind fun _ => htail
  · exact htail

theorem keeps_fragmentBody : Keeps fragmentBody :=
  keeps_fragmentName.bind fun _ => (keeps_keyword "on").bind fun _ =>
    gives_name.keeps.bind fun _ => (keeps_directives false _).bind fun _ =>
      keeps_parts.bind fun _ => keeps_pure _

theorem keeps_of_reader? {word : String} {r : Reader Request} (h : reader? word = some r) :
    r.Keeps := by
  unfold reader? at h
  split at h
  · cases h
    exact keeps_fragmentBody
  · obtain ⟨kind, -, rfl⟩ := Option.map_eq_some_iff.1 h
    exact keeps_operationBody kind

end Request

end OperationTools
