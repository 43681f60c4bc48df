import Mathlib.Data.List.Chain
import OperationTools.Document.Reader
import OperationTools.Proofs.Document.Pruning
import OperationTools.Proofs.Language.Reading

/-!
# The tokens of a document

The text of a document is scanned to the tokens of its declarations, its root field and its parts.
Names stay names: what narrows a type is a key behind two tokens of its own, and every other key is
a single token. Braces stand only around something.

## Main definitions

* `Selection.partTokens`, `Document.tokens`: the tokens of parts and of a document
* `Token.Filled`: tokens without an empty pair of braces
* `Operation.WellNamed`: operations that can be written
* `Document.ofOperation`: what the document of an operation says

## Main results

* `Operation.writes_document`: a document is scanned to its tokens
* `Operation.filled_tokens`: no empty braces are among them
-/

namespace OperationTools

/-! ## Parts -/

namespace Selection

mutual

/-- The tokens of a key with its selection. -/
def partTokens (key : String) : Selection → List Token
  | .whole => [.name key]
  | .omitted => []
  | .parts children =>
    let head := if isNarrowing key then [.ellipsis, .name "on", .name key] else [.name key]
    head ++ .leftBrace :: partsTokens children ++ [.rightBrace]

/-- The tokens of parts, in their order. -/
def partsTokens : List (String × Selection) → List Token
  | [] => []
  | (key, s) :: rest => partTokens key s ++ partsTokens rest

end

theorem partsTokens_eq_flatMap (children : List (String × Selection)) :
    partsTokens children = children.flatMap fun e => partTokens e.1 e.2 := by
  induction children with
  | nil => rfl
  | cons e rest ih => simp [partsTokens, ih]

/-- What is written starts with a name or an ellipsis. -/
theorem Written.exists_partTokens {s : Selection} (h : Written s) (key : String) :
    ∃ t us, partTokens key s = t :: us ∧ t ≠ .rightBrace ∧ t ≠ .leftBrace := by
  cases h with
  | whole => exact ⟨_, [], rfl, by simp, by simp⟩
  | parts =>
    rw [partTokens]
    split
    · exact ⟨_, _, rfl, by simp, by simp⟩
    · exact ⟨_, _, rfl, by simp, by simp⟩

theorem partsTokens_ne_nil {children : List (String × Selection)} (hne : children ≠ [])
    (h : ∀ e ∈ children, Written e.2) : partsTokens children ≠ [] := by
  obtain ⟨e, rest, rfl⟩ := List.exists_cons_of_ne_nil hne
  obtain ⟨t, us, he, -⟩ := (h e List.mem_cons_self).exists_partTokens e.1
  simp [partsTokens, he]

open Token

theorem forall₂_fieldTexts {children : List (String × Selection)}
    (h : ∀ e ∈ children, ∃ text, fieldText? e.1 e.2 = some text ∧
      Writes text (partTokens e.1 e.2)) :
    List.Forall₂ Writes (fieldTexts children) (children.map fun e => partTokens e.1 e.2) := by
  induction children with
  | nil => exact .nil
  | cons e rest ih =>
    obtain ⟨⟨text, htext, hwrites⟩, hrest⟩ := List.forall_mem_cons.1 h
    rw [fieldTexts, htext]
    exact .cons hwrites (ih hrest)

theorem closes_space : Closes " " [] := closes_marks " " (by decide)

/-- Parts on one line have the tokens of the parts. -/
theorem writes_fieldTexts {children : List (String × Selection)}
    (h : ∀ e ∈ children, ∃ text, fieldText? e.1 e.2 = some text ∧
      Writes text (partTokens e.1 e.2)) :
    Writes (" ".intercalate (fieldTexts children)) (partsTokens children) := by
  rw [partsTokens_eq_flatMap, List.flatMap_def]
  exact writes_intercalate closes_space (by decide) (by decide) (forall₂_fieldTexts h)

theorem writes_head {key : String} (hkey : isName key = true) :
    Writes (if isNarrowing key then "... on " ++ key else key)
      (if isNarrowing key then [.ellipsis, .name "on", .name key] else [.name key]) := by
  split
  · have hon : Writes "on" [.name "on"] := writes_name (by decide)
    have hhead : Closes ("..." ++ " " ++ "on" ++ " ") [.ellipsis, .name "on"] :=
      ((closes_ellipsis.writes.close closes_space (by decide) (by decide)).append hon).close
        closes_space (by decide) (by decide)
    exact hhead.append (writes_name hkey)
  · exact writes_name hkey

/-- Parts between braces. -/
theorem closes_braces {head inner : String} {ts us : List Token} (hhead : Writes head ts)
    (hinner : Writes inner us) :
    Closes (head ++ " \x7b " ++ inner ++ " \x7d") (ts ++ .leftBrace :: us ++ [.rightBrace]) := by
  have hopen : Closes " \x7b " [.leftBrace] := closes_marks " \x7b " (by decide)
  have hclose : Closes " \x7d" [.rightBrace] := closes_marks " \x7d" (by decide)
  have h := ((hhead.close hopen (by decide) (by decide)).append hinner).close hclose (by decide)
    (by decide)
  simpa using h

/-- What is written of a key with its selection has their tokens. -/
theorem Written.exists_fieldText {s : Selection} (h : Written s) {key : String}
    (hkey : isName key = true) (hinner : ∀ k ∈ innerKeys s, isName k = true) :
    ∃ text, fieldText? key s = some text ∧ Writes text (partTokens key s) := by
  -- induction on the selection; parts leave no name open behind their closing brace
  induction h generalizing key with
  | whole => exact ⟨key, rfl, writes_name hkey⟩
  | @parts children hne h ih =>
    have htexts : Writes (" ".intercalate (fieldTexts children)) (partsTokens children) :=
      writes_fieldTexts fun e he => ih e he (hinner _ (mem_keys_iff.2 ⟨e, he, .inl rfl⟩))
        fun k hk => hinner k (mem_keys_iff.2 ⟨e, he, .inr hk⟩)
    have hempty := String.isEmpty_eq_false_iff.2 (htexts.ne_empty (partsTokens_ne_nil hne h))
    refine ⟨partsText key (" ".intercalate (fieldTexts children)), ?_, ?_⟩
    · simp [fieldText?, hempty]
    · exact (closes_braces (writes_head hkey) htexts).writes

/-- The text of written parts has their tokens. -/
theorem writes_text {children : List (String × Selection)} (h : ∀ e ∈ children, Written e.2)
    (hkeys : ∀ k ∈ keys children, isName k = true) :
    Writes (Selection.parts children).text (partsTokens children) :=
  writes_fieldTexts fun e he => (h e he).exists_fieldText
    (hkeys _ (mem_keys_iff.2 ⟨e, he, .inl rfl⟩))
    fun k hk => hkeys k (mem_keys_iff.2 ⟨e, he, .inr hk⟩)

end Selection

/-! ## Documents -/

namespace Document

/-- The tokens of a type literal. -/
def literalTokens (s : String) : List Token := (Token.scan? s).getD []

/-- The tokens of a declaration. -/
def declarationTokens (d : String × String) : List Token :=
  .dollar :: .name d.1 :: .colon :: literalTokens d.2

/-- The tokens of an argument and its variable. -/
def bindingTokens (b : String × String) : List Token :=
  [.name b.1, .colon, .dollar, .name b.2]

/-- The tokens of a document. -/
def tokens (d : Document) : List Token :=
  .name d.kind.keyword :: .name d.operation ::
    (Token.block .leftParen .rightParen (d.declared.flatMap declarationTokens) ++
      .leftBrace :: .name d.field ::
        (Token.block .leftParen .rightParen (d.bound.flatMap bindingTokens) ++
          (Token.block .leftBrace .rightBrace (Selection.partsTokens d.parts) ++ [.rightBrace])))

/-- What the document of an operation says, if some parts are selected. -/
def ofOperation (op : Operation) (parts : List (String × Selection)) : Document where
  kind := op.kind
  operation := op.name
  declared := op.arguments.map fun v => (v.name, v.typeName)
  field := op.fieldName
  bound := op.arguments.map fun v => (v.name, v.name)
  parts := parts

end Document

theorem TypeRef.literalTokens_literal {r : TypeRef} (h : r.isProper = true) :
    Document.literalTokens r.literal = r.tokens := by
  rw [Document.literalTokens, (TypeRef.writes_literal h).scan?_eq, Option.getD_some]

namespace Operation

/-- The names of an operation are names, and the literals of its types are literals. -/
structure WellNamed (op : Operation) : Prop where
  name : Token.isName op.name = true
  field : Token.isName op.fieldName = true
  arguments : ∀ v ∈ op.arguments, Token.isName v.name = true ∧ IsTypeLiteral v.typeName

open Token

/-- Listed parts have the tokens of the parts between parentheses. -/
theorem writes_listed {α : Type} {as : List α} {text : α → String} {write : α → List Token}
    (h : ∀ a ∈ as, Writes (text a) (write a)) (hne : ∀ a ∈ as, write a ≠ []) :
    Writes (listed (as.map text)) (block .leftParen .rightParen (as.flatMap write)) := by
  cases as with
  | nil => exact closes_empty.writes
  | cons a as =>
    have hcomma : Closes ", " [] := closes_marks ", " (by decide)
    have hopen : Closes "(" [.leftParen] := closes_marks "(" (by decide)
    have hclose : Closes ")" [.rightParen] := closes_marks ")" (by decide)
    have hitems : List.Forall₂ Writes ((a :: as).map text) ((a :: as).map write) := by
      rw [List.forall₂_map_left_iff, List.forall₂_map_right_iff]
      exact List.forall₂_same.2 h
    have hjoined := writes_intercalate hcomma (by decide) (by decide) hitems
    have hflat : ((a :: as).flatMap write).isEmpty = false := by
      simp [hne a List.mem_cons_self]
    rw [block, hflat, listed, List.flatMap_def]
    exact ((hopen.append hjoined).close hclose (by decide) (by decide)).writes

theorem ends_listed (parts : List String) : Ends (listed parts).toList := by
  unfold listed
  split
  · decide
  · simp [Ends, isNamePart]

theorem writes_declarations {op : Operation} (h : op.WellNamed) :
    Writes op.declarations (block .leftParen .rightParen
      ((op.arguments.map fun v => (v.name, v.typeName)).flatMap Document.declarationTokens)) := by
  rw [List.flatMap_map]
  refine writes_listed (fun v hv => ?_) fun v _ => by simp [Document.declarationTokens]
  obtain ⟨hname, r, hr, hliteral⟩ := h.arguments v hv
  have hdollar : Closes "$" [.dollar] := closes_marks "$" (by decide)
  have hcolon : Closes ": " [.colon] := closes_marks ": " (by decide)
  have hwrites := ((hdollar.append (writes_name hname)).close hcolon (by decide)
    (by decide)).append (TypeRef.writes_literal hr)
  rw [Document.declarationTokens, hliteral, TypeRef.literalTokens_literal hr]
  exact hwrites

theorem writes_bindings {op : Operation} (h : op.WellNamed) :
    Writes op.bindings (block .leftParen .rightParen
      ((op.arguments.map fun v => (v.name, v.name)).flatMap Document.bindingTokens)) := by
  rw [List.flatMap_map]
  refine writes_listed (fun v hv => ?_) fun v _ => by simp [Document.bindingTokens]
  have hname := (h.arguments v hv).1
  have hcolon : Closes ": $" [.colon, .dollar] := closes_marks ": $" (by decide)
  exact ((writes_name hname).close hcolon (by decide) (by decide)).append (writes_name hname)

theorem writes_call {op : Operation} (h : op.WellNamed) {parts : List (String × Selection)}
    (hwritten : ∀ e ∈ parts, e.2.Written) (hkeys : ∀ k ∈ Selection.keys parts, isName k = true) :
    Writes (op.call (some (.parts parts)))
      (.name op.fieldName :: (block .leftParen .rightParen
        ((op.arguments.map fun v => (v.name, v.name)).flatMap Document.bindingTokens) ++
        block .leftBrace .rightBrace (Selection.partsTokens parts))) := by
  have hsite := (writes_name h.field).append (writes_bindings h) (ends_listed _)
  have htext := Selection.writes_text hwritten hkeys
  rw [call, Option.map_some, Option.getD_some]
  by_cases hne : parts = []
  · subst hne
    simpa [block, Selection.partsTokens, Selection.text, Selection.fieldTexts] using hsite
  · have htokens := Selection.partsTokens_ne_nil hne hwritten
    have hempty := String.isEmpty_eq_false_iff.2 (htext.ne_empty htokens)
    have hbraces := (Selection.closes_braces hsite htext).writes
    rw [hempty, block, block, List.isEmpty_eq_false_iff.2 htokens]
    simpa [block] using hbraces

/-- The document of an operation with written parts has the tokens of what it says. -/
theorem writes_document {op : Operation} (h : op.WellNamed) {parts : List (String × Selection)}
    (hwritten : ∀ e ∈ parts, e.2.Written) (hkeys : ∀ k ∈ Selection.keys parts, isName k = true) :
    Writes (op.document (some (.parts parts))) (Document.ofOperation op parts).tokens := by
  have hkind : isName op.kind.keyword = true := by cases op.kind <;> decide
  have hhead := (((writes_name hkind).close Selection.closes_space (by decide)
    (by decide)).append (writes_name h.name)).append (writes_declarations h) (ends_listed _)
  have hbraces := (Selection.closes_braces hhead (writes_call h hwritten hkeys)).writes
  rw [document]
  simpa [Document.tokens, Document.ofOperation] using hbraces

end Operation

/-! ## Braces -/

namespace Token

/-- No opening brace is directly followed by a closing one, or could be at either end. -/
structure Filled (ts : List Token) : Prop where
  chain : ts.IsChain fun t u => t = .leftBrace → u ≠ .rightBrace
  head : ts.head? ≠ some .rightBrace
  last : ts.getLast? ≠ some .leftBrace

theorem Filled.append {ts us : List Token} (ht : Filled ts) (hu : Filled us) :
    Filled (ts ++ us) := by
  refine ⟨ht.chain.append hu.chain ?_, ?_, ?_⟩
  · rintro t hlast u - rfl
    exact absurd hlast ht.last
  · cases ts with
    | nil => exact hu.head
    | cons => exact ht.head
  · rw [List.getLast?_append, Ne, Option.or_eq_some_iff, not_or]
    exact ⟨hu.last, fun h => ht.last h.2⟩

theorem filled_of_forall_ne {ts : List Token} (h : ∀ t ∈ ts, t ≠ .leftBrace ∧ t ≠ .rightBrace) :
    Filled ts := by
  refine ⟨?_, fun hhead => (h _ (List.mem_of_head? hhead)).2 rfl,
    fun hlast => (h _ (List.mem_of_getLast? hlast)).1 rfl⟩
  induction ts with
  | nil => exact .nil
  | cons t ts ih =>
    obtain ⟨ht, hts⟩ := List.forall_mem_cons.1 h
    exact List.isChain_cons.2 ⟨fun _ _ he => absurd he ht.1, ih hts⟩

theorem Filled.braces {ts : List Token} (h : Filled ts) (hne : ts ≠ []) :
    Filled (.leftBrace :: ts ++ [.rightBrace]) := by
  refine ⟨List.isChain_cons.2 ⟨?_, ?_⟩, by simp, by rw [List.getLast?_concat]; simp⟩
  · rintro u hu - rfl
    have hhead : (ts ++ [Token.rightBrace]).head? = ts.head? := List.head?_append_of_ne_nil _ hne
    exact h.head (hhead.symm.trans hu)
  · refine h.chain.append (.singleton _) ?_
    rintro t hlast u - rfl
    exact absurd hlast h.last

theorem Filled.flatMap {α : Type} {as : List α} {write : α → List Token}
    (h : ∀ a ∈ as, Filled (write a)) : Filled (as.flatMap write) := by
  induction as with
  | nil => exact filled_of_forall_ne (by simp)
  | cons a as ih =>
    obtain ⟨ha, has⟩ := List.forall_mem_cons.1 h
    exact ha.append (ih has)

theorem filled_name (s : String) : Filled [.name s] := filled_of_forall_ne (by simp)

/-- Parentheses are no braces. -/
theorem Filled.parentheses {ts : List Token} (h : Filled ts) :
    Filled (block .leftParen .rightParen ts) := by
  unfold block
  split
  · exact filled_of_forall_ne (by simp)
  · have hopen : Filled [.leftParen] := filled_of_forall_ne (by simp)
    have hclose : Filled [.rightParen] := filled_of_forall_ne (by simp)
    exact (hopen.append h).append hclose

end Token

open Token

theorem TypeRef.filled_tokens (r : TypeRef) : Filled r.tokens := by
  induction r with
  | named name => exact filled_name name
  | list item ih =>
    have hopen : Filled [.leftBracket] := filled_of_forall_ne (by simp)
    have hclose : Filled [.rightBracket] := filled_of_forall_ne (by simp)
    exact (hopen.append ih).append hclose
  | nonNull inner ih =>
    have hbang : Filled [.bang] := filled_of_forall_ne (by simp)
    exact ih.append hbang

namespace Selection

theorem filled_partsTokens_of {children : List (String × Selection)}
    (h : ∀ e ∈ children, Filled (partTokens e.1 e.2)) : Filled (partsTokens children) := by
  rw [partsTokens_eq_flatMap]
  exact Filled.flatMap h

theorem Written.filled_partTokens {s : Selection} (h : Written s) (key : String) :
    Filled (partTokens key s) := by
  induction h generalizing key with
  | whole => exact filled_name key
  | @parts children hne h ih =>
    have hinner := (filled_partsTokens_of fun e he => ih e he e.1).braces
      (partsTokens_ne_nil hne h)
    rw [partTokens, List.append_assoc]
    refine Filled.append ?_ hinner
    split
    · exact filled_of_forall_ne (by simp)
    · exact filled_name key

end Selection

/-- The document of an operation has no empty braces. -/
theorem Operation.filled_tokens {op : Operation} (h : op.WellNamed)
    {parts : List (String × Selection)} (hwritten : ∀ e ∈ parts, e.2.Written) :
    Filled (Document.ofOperation op parts).tokens := by
  have hdeclared : Filled ((op.arguments.map fun v => (v.name, v.typeName)).flatMap
      Document.declarationTokens) := by
    rw [List.flatMap_map]
    refine Filled.flatMap fun v hv => ?_
    obtain ⟨-, r, hr, hliteral⟩ := h.arguments v hv
    have hhead : Filled [.dollar, .name v.name, .colon] := filled_of_forall_ne (by simp)
    rw [Document.declarationTokens, hliteral, TypeRef.literalTokens_literal hr]
    exact hhead.append r.filled_tokens
  have hbound : Filled ((op.arguments.map fun v => (v.name, v.name)).flatMap
      Document.bindingTokens) :=
    Filled.flatMap fun b _ => filled_of_forall_ne (by simp [Document.bindingTokens])
  have hparts : Filled (block .leftBrace .rightBrace (Selection.partsTokens parts)) := by
    by_cases hne : parts = []
    · subst hne
      exact filled_of_forall_ne (by simp [block, Selection.partsTokens])
    · have htokens := Selection.partsTokens_ne_nil hne hwritten
      rw [block, List.isEmpty_eq_false_iff.2 htokens]
      exact (Selection.filled_partsTokens_of fun e he =>
        (hwritten e he).filled_partTokens e.1).braces htokens
  have hcall := ((filled_name op.fieldName).append (hbound.parentheses.append hparts)).braces
    (by simp)
  have hhead : Filled [.name op.kind.keyword, .name op.name] := filled_of_forall_ne (by simp)
  simpa [Document.tokens, Document.ofOperation] using
    hhead.append (hdeclared.parentheses.append hcall)

end OperationTools
