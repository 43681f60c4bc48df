import OperationTools.Proofs.Document.Tokens
import OperationTools.Proofs.Language.Spelling
import OperationTools.Proofs.Tool.Render

/-!
# Reading documents back

The document of an operation is read back from its text: the kind, the names, the declared and bound
variables, and the pruned selection. So documents tell pruned selections apart, and nothing else of
a selection counts. Whatever is read has names for keys.

## Main results

* `Selection.run_partsWithin`, `Document.run_reader`: tokens are read back
* `Operation.read?_document`: the text of a document is read back
* `Operation.read?_document_prune_iff`: the keys have to be names for this
* `Operation.read?_documentFor`: what a document with accepted variables says
-/

namespace OperationTools

open Reader

/-! ## Parts -/

namespace Selection

/-- The braces behind a key, read by `inner`. -/
theorem run_part_parts {inner : Reader (List (String × Selection))} {key : String}
    {children : List (String × Selection)} {rest : List Token}
    (h : inner.run (.leftBrace :: partsTokens children ++ .rightBrace :: rest) =
      some (children, rest)) :
    (Document.part inner).run (partTokens key (.parts children) ++ rest) =
      some ((key, .parts children), rest) := by
  have hinner : inner.run (.leftBrace :: (partsTokens children ++ .rightBrace :: rest)) =
      some (children, rest) := h
  cases hkey : isNarrowing key with
  | true => simp [partTokens, hkey, Document.part, keyword, hinner]
  | false =>
    have hnot : (Token.name key :: .leftBrace :: (partsTokens children ++
        .rightBrace :: rest)).head? ≠ some .ellipsis := by simp
    simp [partTokens, hkey, Document.part, run_tokenIf_of_ne hnot, hinner]

theorem run_part_whole (inner : Reader (List (String × Selection))) (key : String) {t : Token}
    (ht : t ≠ .leftBrace) (rest : List Token) :
    (Document.part inner).run (partTokens key .whole ++ t :: rest) =
      some ((key, .whole), t :: rest) := by
  have hnot : (Token.name key :: t :: rest).head? ≠ some .ellipsis := by simp
  simp [partTokens, Document.part, run_tokenIf_of_ne hnot, ht]

theorem length_partTokens_le {children : List (String × Selection)} {e : String × Selection}
    (he : e ∈ children) : (partTokens e.1 e.2).length ≤ (partsTokens children).length := by
  have hmem : partTokens e.1 e.2 ∈ children.map fun e => partTokens e.1 e.2 :=
    List.mem_map.2 ⟨e, he, rfl⟩
  rw [partsTokens_eq_flatMap, List.flatMap_def]
  exact (List.sublist_flatten_of_mem hmem).length_le

theorem length_le_length_partsTokens {children : List (String × Selection)}
    (h : ∀ e ∈ children, Written e.2) : children.length ≤ (partsTokens children).length := by
  rw [partsTokens_eq_flatMap]
  refine length_le_length_flatMap fun e he hnil => ?_
  obtain ⟨t, us, hw, -⟩ := (h e he).exists_partTokens e.1
  rw [hnil] at hw
  cases hw

/-- Parts between braces are read back if each of them is. -/
theorem run_partsWithin {children : List (String × Selection)} (hne : children ≠ [])
    (h : ∀ e ∈ children, Written e.2) {left : Nat}
    (hpart : ∀ e ∈ children, ∀ t rest, t ≠ .leftBrace →
      (Document.part (Document.partsWithin left)).run (partTokens e.1 e.2 ++ t :: rest) =
        some (e, t :: rest)) (rest : List Token) :
    (Document.partsWithin (left + 1)).run
      (.leftBrace :: partsTokens children ++ .rightBrace :: rest) = some (children, rest) := by
  have hfuel : children.length ≤ (partsTokens children ++ .rightBrace :: rest).length :=
    (length_le_length_partsTokens h).trans (by simp)
  have hmany := run_manyUntil (p := (· ≠ .leftBrace)) (by simp) hne hpart
    (fun e he => (h e he).exists_partTokens e.1) hfuel rest
  rw [← partsTokens_eq_flatMap] at hmany
  rw [List.cons_append, Document.partsWithin, StateT.run_bind, run_token]
  simpa [-List.length_append] using hmany

/-- A written part is read back, with a level for each of its tokens. -/
theorem Written.run_part {s : Selection} (h : Written s) (key : String) {levels : Nat}
    (hlevels : (partTokens key s).length ≤ levels) {t : Token} (ht : t ≠ .leftBrace)
    (rest : List Token) :
    (Document.part (Document.partsWithin levels)).run (partTokens key s ++ t :: rest) =
      some ((key, s), t :: rest) := by
  -- induction on the selection; the braces behind a key take one level
  induction h generalizing key levels t rest with
  | whole => exact run_part_whole _ key ht rest
  | @parts children hne h ih =>
    have hinner : (partsTokens children).length + 2 ≤ levels := by
      refine le_trans ?_ hlevels
      simp [partTokens]
    obtain ⟨left, rfl⟩ : ∃ left, levels = left + 1 := ⟨levels - 1, by omega⟩
    refine run_part_parts (run_partsWithin hne h (fun e he u us hu => ?_) (t :: rest))
    exact ih e he e.1 ((length_partTokens_le he).trans (by omega)) hu us

end Selection

/-! ## Documents -/

namespace Document

theorem run_declaration {d : String × String} (h : IsTypeLiteral d.2) {t : Token}
    (ht : t ≠ .bang) (rest : List Token) :
    declaration.run (declarationTokens d ++ t :: rest) = some (d, t :: rest) := by
  obtain ⟨variableName, literal⟩ := d
  obtain ⟨r, hr, rfl⟩ : ∃ r : TypeRef, r.isProper = true ∧ literal = r.literal := h
  have hlevels : r.nesting ≤ (r.tokens ++ t :: rest).length :=
    r.nesting_le_length_tokens.trans (by simp)
  have hread := TypeRef.run_typeWithin hr hlevels (show (t :: rest).head? ≠ some .bang by simpa)
  rw [declarationTokens, TypeRef.literalTokens_literal hr]
  simp [declaration, -List.length_append, hread]

theorem run_binding (b : String × String) (rest : List Token) :
    binding.run (bindingTokens b ++ rest) = some (b, rest) := by
  simp [binding, bindingTokens]

/-- Written parts are read back, and so is their absence. -/
theorem run_optionalParts {parts : List (String × Selection)} (h : ∀ e ∈ parts, e.2.Written)
    (rest : List Token) :
    optionalParts.run (Token.block .leftBrace .rightBrace (Selection.partsTokens parts) ++
      .rightBrace :: rest) = some (parts, .rightBrace :: rest) := by
  by_cases hne : parts = []
  · subst hne
    simp [optionalParts, Token.block, Selection.partsTokens]
  · have hblock : Token.block .leftBrace .rightBrace (Selection.partsTokens parts) ++
        .rightBrace :: rest = .leftBrace :: Selection.partsTokens parts ++
          .rightBrace :: .rightBrace :: rest := by
      simp [Token.block, Selection.partsTokens_ne_nil hne h]
    obtain ⟨left, hleft⟩ : ∃ left, (Selection.partsTokens parts ++
        .rightBrace :: .rightBrace :: rest).length = left + 1 := ⟨_, by simp; rfl⟩
    have hlevels : (Selection.partsTokens parts).length ≤ left := by
      simp at hleft
      omega
    have hpart : ∀ e ∈ parts, ∀ t us, t ≠ .leftBrace → (part (partsWithin left)).run
        (Selection.partTokens e.1 e.2 ++ t :: us) = some (e, t :: us) := fun e he t us ht =>
      (h e he).run_part e.1 ((Selection.length_partTokens_le he).trans hlevels) ht us
    have hread := Selection.run_partsWithin hne h hpart (.rightBrace :: rest)
    rw [hblock]
    rw [List.cons_append] at hread ⊢
    simp [optionalParts, -List.length_append, hleft, hread]

theorem run_declared {declared : List (String × String)}
    (h : ∀ d ∈ declared, IsTypeLiteral d.2) {rest : List Token}
    (hrest : rest.head? ≠ some .leftParen) :
    (optionalBlock .leftParen .rightParen declaration).run
      (Token.block .leftParen .rightParen (declared.flatMap declarationTokens) ++ rest) =
        some (declared, rest) :=
  run_optionalBlock (p := (· ≠ .bang)) (by simp)
    (fun d hd _ rest ht => run_declaration (h d hd) ht rest)
    (fun _ _ => ⟨.dollar, _, rfl, by simp, by simp⟩) hrest

theorem run_bound (bound : List (String × String)) {rest : List Token}
    (hrest : rest.head? ≠ some .leftParen) :
    (optionalBlock .leftParen .rightParen binding).run
      (Token.block .leftParen .rightParen (bound.flatMap bindingTokens) ++ rest) =
        some (bound, rest) :=
  run_optionalBlock (p := fun _ => True) trivial
    (fun b _ t rest _ => run_binding b (t :: rest))
    (fun b _ => ⟨.name b.1, _, rfl, by simp, trivial⟩) hrest

theorem run_keywordKind (kind : OperationKind) (rest : List Token) :
    keywordKind.run (.name kind.keyword :: rest) = some (kind, rest) := by
  simp [keywordKind]

/-- Braces or their absence are no parentheses. -/
theorem head?_optionalParts (tokens rest : List Token) :
    (Token.block .leftBrace .rightBrace tokens ++ .rightBrace :: rest).head? ≠
      some .leftParen := by
  unfold Token.block
  split <;> simp

/-- The tokens of a document are read back. -/
theorem run_reader {d : Document} (hdeclared : ∀ e ∈ d.declared, IsTypeLiteral e.2)
    (hparts : ∀ e ∈ d.parts, e.2.Written) : reader.run d.tokens = some (d, []) := by
  have hdecl := fun rest => run_declared hdeclared
    (show (Token.leftBrace :: rest).head? ≠ some .leftParen by simp)
  have hbound := run_bound d.bound
    (head?_optionalParts (Selection.partsTokens d.parts) [])
  have hoptional := run_optionalParts hparts []
  rw [tokens, reader, StateT.run_bind, run_keywordKind]
  simp only [Option.bind_eq_bind, Option.bind_some, StateT.run_bind, run_name, hdecl, run_token,
    hbound, hoptional, StateT.run_pure]
  rfl

/-! ### Keys -/

/-- The reader of a part gives names if the reader of what stands inside does. -/
theorem gives_part {inner : Reader (List (String × Selection))}
    (h : inner.Gives fun parts => ∀ k ∈ Selection.keys parts, Token.isName k = true) :
    (part inner).Gives fun e =>
      Token.isName e.1 = true ∧ ∀ k ∈ Selection.innerKeys e.2, Token.isName k = true := by
  refine (keeps_tokenIf .ellipsis).bind fun found => ?_
  split
  · exact (keeps_keyword "on").bind fun _ => gives_name.bind fun key hkey =>
      h.bind fun parts hparts => gives_pure ⟨hkey, hparts⟩
  · refine gives_name.bind fun key hkey => gives_of_get fun ts _ => ?_
    split
    · exact h.bind fun parts hparts => gives_pure ⟨hkey, hparts⟩
    · exact gives_pure ⟨hkey, fun k hk => absurd hk List.not_mem_nil⟩

theorem gives_partsWithin (levels : Nat) : (partsWithin levels).Gives fun parts =>
    ∀ k ∈ Selection.keys parts, Token.isName k = true := by
  induction levels with
  | zero => exact gives_failure
  | succ left ih =>
    refine (keeps_token .leftBrace).bind fun _ => gives_of_get fun ts _ => ?_
    refine ((gives_part ih).manyUntil .rightBrace ts.length).mono fun parts h k hk => ?_
    obtain ⟨e, he, rfl | hk⟩ := Selection.mem_keys_iff.1 hk
    · exact (h e he).1
    · exact (h e he).2 k hk

theorem gives_optionalParts : optionalParts.Gives fun parts =>
    ∀ k ∈ Selection.keys parts, Token.isName k = true := by
  refine gives_of_get fun ts _ => ?_
  split
  · exact gives_partsWithin _
  · exact gives_pure fun k hk => absurd hk List.not_mem_nil

theorem keeps_declaration : declaration.Keeps :=
  (keeps_token .dollar).bind fun _ => gives_name.keeps.bind fun _ =>
    (keeps_token .colon).bind fun _ => gives_of_get fun _ _ =>
      (gives_typeWithin _).keeps.bind fun _ => keeps_pure _

theorem keeps_binding : binding.Keeps :=
  gives_name.keeps.bind fun _ => (keeps_token .colon).bind fun _ =>
    (keeps_token .dollar).bind fun _ => gives_name.keeps.bind fun _ => keeps_pure _

theorem keeps_keywordKind : keywordKind.Keeps := by
  refine gives_name.keeps.bind fun word => ?_
  split
  · exact keeps_pure _
  · exact gives_failure

theorem gives_reader : reader.Gives fun d =>
    ∀ k ∈ Selection.keys d.parts, Token.isName k = true :=
  keeps_keywordKind.bind fun _ => gives_name.keeps.bind fun _ =>
    (keeps_declaration.optionalBlock .leftParen .rightParen).keeps.bind fun _ =>
      (keeps_token .leftBrace).bind fun _ => gives_name.keeps.bind fun _ =>
        (keeps_binding.optionalBlock .leftParen .rightParen).keeps.bind fun _ =>
          gives_optionalParts.bind fun _ hparts => (keeps_token .rightBrace).bind fun _ =>
            gives_pure hparts

/-- The keys of a document that is read are names. -/
theorem isName_of_read? {text : String} {d : Document} (h : read? text = some d) {k : String}
    (hk : k ∈ Selection.keys d.parts) : Token.isName k = true := by
  obtain ⟨ts, hts, h⟩ := Option.bind_eq_some_iff.1 h
  obtain ⟨⟨found, rest⟩, hfound, h⟩ := Option.bind_eq_some_iff.1 h
  have hnames := (gives_reader ts found rest (Token.spelled_of_scan? hts) hfound).1
  cases rest with
  | nil =>
    cases h
    exact hnames k hk
  | cons => cases h

end Document

/-! ## Operations -/

namespace Operation

/-- The text of a document with written parts is read back. -/
theorem read?_document {op : Operation} (h : op.WellNamed) {parts : List (String × Selection)}
    (hwritten : ∀ e ∈ parts, e.2.Written)
    (hkeys : ∀ k ∈ Selection.keys parts, Token.isName k = true) :
    Document.read? (op.document (some (.parts parts))) = some (.ofOperation op parts) := by
  have hdeclared : ∀ e ∈ (Document.ofOperation op parts).declared, IsTypeLiteral e.2 := by
    intro e he
    obtain ⟨v, hv, rfl⟩ := List.mem_map.1 he
    exact (h.arguments v hv).2
  have hrun := Document.run_reader hdeclared hwritten
  simp [Document.read?, (writes_document h hwritten hkeys).scan?_eq, hrun]

/-- Only what is left by pruning is written. -/
theorem document_prune (op : Operation) (children : List (String × Selection)) :
    op.document (some (.parts (Selection.prune children))) =
      op.document (some (.parts children)) := by
  rw [document, document, call, call, Option.map_some, Option.map_some, Selection.text_prune]

/-- The text of a document is read back, with the parts of which something is written. -/
theorem read?_document_prune {op : Operation} (h : op.WellNamed)
    {children : List (String × Selection)}
    (hkeys : ∀ k ∈ Selection.keys (Selection.prune children), Token.isName k = true) :
    Document.read? (op.document (some (.parts children))) =
      some (.ofOperation op (Selection.prune children)) := by
  rw [← document_prune]
  exact read?_document h (Selection.written_of_mem_prune children) hkeys

/-- The text of a document is read back exactly if the keys that are written are names. -/
theorem read?_document_prune_iff {op : Operation} (h : op.WellNamed)
    {children : List (String × Selection)} :
    Document.read? (op.document (some (.parts children))) =
        some (.ofOperation op (Selection.prune children)) ↔
      ∀ k ∈ Selection.keys (Selection.prune children), Token.isName k = true :=
  ⟨fun hread _ hk => Document.isName_of_read? hread hk, read?_document_prune h⟩

/-- Documents are the same exactly if the same is left by pruning. -/
theorem document_eq_iff {op : Operation} (h : op.WellNamed)
    {children others : List (String × Selection)}
    (hchildren : ∀ k ∈ Selection.keys (Selection.prune children), Token.isName k = true)
    (hothers : ∀ k ∈ Selection.keys (Selection.prune others), Token.isName k = true) :
    op.document (some (.parts others)) = op.document (some (.parts children)) ↔
      Selection.prune others = Selection.prune children := by
  constructor
  · intro he
    have hread := read?_document_prune h hothers
    rw [he, read?_document_prune h hchildren, Option.some.injEq] at hread
    exact (congrArg Document.parts hread).symm
  · intro he
    rw [← document_prune, he, document_prune]

/-- With variables that pass the check a document is written that is read back with what the entries
of the selection select. It has no empty braces, it is the same for the value that the selection
stands for, and other entries have it exactly if they select the same. -/
theorem read?_documentFor {op : Operation} (h : op.WellNamed) {values : Json}
    (hv : (op.compareVariables values).1 = .ok ()) {entries : List (String × Json)}
    (hkeys : ∀ k ∈ Json.keysOf entries, Token.isName k = true) :
    ∃ text tokens, (op.documentFor values (some (.ofJson (.obj entries)))).1 = .ok text ∧
      Document.read? text = some (.ofOperation op (Json.selectedEntries entries)) ∧
      Token.scan? text = some tokens ∧ Token.Filled tokens ∧
      (op.documentFor values (some (.ofJson (Selection.ofJson (.obj entries)).toJson))).1 =
        .ok text ∧
      ∀ others, (∀ k ∈ Json.keysOf others, Token.isName k = true) →
        ((op.documentFor values (some (.ofJson (.obj others)))).1 = .ok text ↔
          Json.selectedEntries others = Json.selectedEntries entries) := by
  have hselected : ∀ {es : List (String × Json)}, (∀ k ∈ Json.keysOf es, Token.isName k = true) →
      ∀ k ∈ Selection.keys (Selection.prune (Selection.ofEntries es)), Token.isName k = true := by
    intro es hes k hk
    rw [Selection.prune_ofEntries] at hk
    exact hes k (Selection.keys_selectedEntries_subset es hk)
  have hwritten := Selection.written_of_mem_prune (Selection.ofEntries entries)
  have hscan := (writes_document h hwritten (hselected hkeys)).scan?_eq
  have hread := read?_document_prune h (hselected hkeys)
  rw [document_prune] at hscan
  rw [Selection.prune_ofEntries] at hread
  refine ⟨op.document (some (.ofJson (.obj entries))), _, documentFor_eq_ok_iff.2 ⟨hv, rfl⟩,
    hread, hscan, filled_tokens h hwritten, ?_, fun others hothers => ?_⟩
  · rw [Selection.ofJson_toJson]
    exact documentFor_eq_ok_iff.2 ⟨hv, rfl⟩
  · rw [documentFor_eq_ok_iff, and_iff_right hv, eq_comm, ← Selection.prune_ofEntries,
      ← Selection.prune_ofEntries]
    exact document_eq_iff h (hselected hkeys) (hselected hothers)

/-- An operation whose names are words of the language. -/
def wordy : Operation where
  name := "query"
  kind := .mutation
  fieldName := "on"
  arguments := [⟨"on", none, "[[ID!]!]", none⟩, ⟨"fragment", none, "Int", none⟩]
  result := none
  description := none

/-- A selection with keys that look like words and narrowings, and with nothing under some. -/
def wordySelection : List (String × Json) :=
  [("on", .obj [("On", .bool true), ("x", .bool false)]), ("User", .obj [("on", .bool true)]),
    ("id", .obj [("y", .null), ("z", .obj [])]), ("query", .bool true)]

/-- The document of such an operation is read back, without what is empty. -/
theorem read?_wordy :
    wordy.WellNamed ∧ (wordy.compareVariables (.obj [])).1 = .ok () ∧
      (∀ k ∈ Json.keysOf wordySelection, Token.isName k = true) ∧
      Json.selectedEntries wordySelection =
        [("on", .parts [("On", .whole)]), ("User", .parts [("on", .whole)]), ("query", .whole)] ∧
      ∃ text, (wordy.documentFor (.obj []) (some (.ofJson (.obj wordySelection)))).1 = .ok text ∧
        Document.read? text =
          some (.ofOperation wordy (Json.selectedEntries wordySelection)) := by
  have hlist : TypeRef.isProper (.list (.nonNull (.list (.nonNull (.named "ID"))))) = true := by
    decide +kernel
  have h : wordy.WellNamed := by
    refine ⟨by decide +kernel, by decide +kernel, fun v hv => ?_⟩
    rcases List.mem_cons.1 hv with rfl | hv
    · exact ⟨by decide +kernel, _, hlist, by decide +kernel⟩
    · rw [List.mem_singleton.1 hv]
      exact ⟨by decide +kernel, .named "Int", by decide +kernel, rfl⟩
  have hv : (wordy.compareVariables (.obj [])).1 = .ok () := by decide +kernel
  have hkeys : ∀ k ∈ Json.keysOf wordySelection, Token.isName k = true := by decide +kernel
  obtain ⟨text, -, hwrite, hread, -⟩ := read?_documentFor h hv hkeys
  exact ⟨h, hv, hkeys, rfl, text, hwrite, hread⟩

end Operation

end OperationTools
