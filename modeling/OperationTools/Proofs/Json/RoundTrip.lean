import OperationTools.Proofs.Json.WrittenNumber

/-!
# Reading what was written

A value that is written over several lines is read back, whatever follows it. There are two
exceptions: a number that is not finite was written as `null`, and of the entries of an object that
have the same key only the last one is left.

## Main definitions

* `Json.Everywhere`: what holds of a value and of everything that stands in it
* `Json.Legible`: an integer is short enough to be read
* `Json.reread`: what is left of a value when it is written and read

## Main results

* `Json.readText_escaped`: a written text reads back
* `Json.readValue_indentedAt`: a written value is read wherever it stands
* `Json.read_indented`: a text that consists of a written value has this value
-/

namespace OperationTools.Json

open Text (Stops)

/-! ## What holds everywhere -/

/-- What holds of a value and of everything that stands in it. -/
inductive Everywhere (P : Json → Prop) : Json → Prop where
  | scalar {x : Json} : x.kind ≠ .array → x.kind ≠ .object → P x → Everywhere P x
  | arr {items : List Json} : P (.arr items) → (∀ x ∈ items, Everywhere P x) →
      Everywhere P (.arr items)
  | obj {entries : List (String × Json)} : P (.obj entries) → (∀ e ∈ entries, Everywhere P e.2) →
      Everywhere P (.obj entries)

namespace Everywhere

variable {P : Json → Prop} {x : Json} {items : List Json} {entries : List (String × Json)}

theorem here (h : Everywhere P x) : P x := by
  cases h <;> assumption

theorem mono {Q : Json → Prop} (h : ∀ x, P x → Q x) (hx : Everywhere P x) : Everywhere Q x := by
  induction hx with
  | scalar ha ho hp => exact .scalar ha ho (h _ hp)
  | arr hp _ ih => exact .arr (h _ hp) ih
  | obj hp _ ih => exact .obj (h _ hp) ih

theorem of_scalar (ha : x.kind ≠ .array) (ho : x.kind ≠ .object) : Everywhere P x ↔ P x :=
  ⟨here, .scalar ha ho⟩

theorem arr_iff : Everywhere P (.arr items) ↔ P (.arr items) ∧ ∀ x ∈ items, Everywhere P x := by
  refine ⟨fun h => ?_, fun h => .arr h.1 h.2⟩
  cases h with
  | scalar ha => exact absurd rfl ha
  | arr hp hi => exact ⟨hp, hi⟩

theorem obj_iff : Everywhere P (.obj entries) ↔
    P (.obj entries) ∧ ∀ e ∈ entries, Everywhere P e.2 := by
  refine ⟨fun h => ?_, fun h => .obj h.1 h.2⟩
  cases h with
  | scalar _ ho => exact absurd rfl ho
  | obj hp he => exact ⟨hp, he⟩

end Everywhere

/-- An integer has no more digits than are read. -/
def Legible : Json → Prop
  | .int n => (Nat.toDigits 10 n.natAbs).length ≤ Text.maxIntegerDigits
  | _ => True

/-! ## What is read -/

mutual

/-- What is left of a value when it is written and read. -/
def reread : Json → Json
  | .float x => if x.isFinite then .float x else .null
  | .arr items => .arr (rereadItems items)
  | .obj entries => .obj (Entries.ofList (rereadEntries entries))
  | x => x

/-- What is left of items. -/
def rereadItems : List Json → List Json
  | [] => []
  | x :: rest => reread x :: rereadItems rest

/-- What is left of the values of entries. -/
def rereadEntries : List (String × Json) → List (String × Json)
  | [] => []
  | (key, x) :: rest => (key, reread x) :: rereadEntries rest

end

@[simp] theorem rereadItems_eq_map (items : List Json) : rereadItems items = items.map reread := by
  induction items with
  | nil => rfl
  | cons x rest ih => simp [rereadItems, ih]

@[simp] theorem rereadEntries_eq_map (entries : List (String × Json)) :
    rereadEntries entries = entries.map fun e => (e.1, reread e.2) := by
  induction entries with
  | nil => rfl
  | cons e rest ih => simp [rereadEntries, ih]

/-! ## Texts -/

/-- A control character is escaped with four hexadecimal digits. -/
theorem hexQuad?_of_control {n : Nat} (h : n < 0x20) : ∃ a b c d,
    Text.unitEscape n = ['\\', 'u', a, b, c, d] ∧ Text.hexQuad? a b c d = some n := by
  have hall : ∀ k : Fin 0x20, Text.unitEscape k.val =
      ['\\', 'u', '0', '0', Nat.digitChar (k.val / 16), Nat.digitChar (k.val % 16)] ∧
      Text.hexQuad? '0' '0' (Nat.digitChar (k.val / 16)) (Nat.digitChar (k.val % 16)) =
        some k.val := by
    decide
  exact ⟨_, _, _, _, hall ⟨n, h⟩⟩

/-- An escape of a code unit that begins no pair is read as the unit. -/
theorem readText_unit (start : Nat) (done : List Char) {a b c d next : Char} {n : Nat}
    {after : List Char} (h : Text.hexQuad? a b c d = some n)
    (hn : Text.isHighSurrogate n = false) :
    readText start done ('\\' :: 'u' :: a :: b :: c :: d :: next :: after) =
      readText start ((Text.Point.ofUnit n).kept.reverse ++ done) (next :: after) := by
  rw [readText.eq_def]
  simp only [h]
  split <;> simp_all

/-- An escaped character is read as the character; something follows it. -/
theorem readText_escapedChar (start : Nat) (done : List Char) (c : Char) {rest : List Char}
    (h : rest ≠ []) :
    readText start done (escapedChar c ++ rest) = readText start (c :: done) rest := by
  unfold escapedChar
  split <;> try rfl
  split
  · rename_i hc
    obtain ⟨a, b, c', d, hescape, hquad⟩ := hexQuad?_of_control hc
    obtain ⟨next, after, rfl⟩ := List.exists_cons_of_ne_nil h
    have hunit : (Text.Point.ofUnit c.toNat).kept = [c] := by
      have hhalf : ¬ Text.isHalf c.toNat = true := fun hh => by
        have := (Text.isHalf_iff.1 hh).1
        omega
      have hmark : c ≠ Text.mark := by
        rintro rfl
        exact absurd hc (by decide)
      rw [Text.Point.ofUnit, dif_neg hhalf, Char.ofNat_toNat, Text.Point.kept, if_neg hmark]
    have hhigh : Text.isHighSurrogate c.toNat = false := by
      simp only [Text.isHighSurrogate, Bool.and_eq_false_iff, decide_eq_false_iff_not]
      omega
    rw [hescape]
    exact (readText_unit start done hquad hhigh).trans (by rw [hunit]; rfl)
  · rw [List.singleton_append, readText.eq_def]
    split <;> simp_all

/-- A written text reads back. -/
theorem readText_escaped (start : Nat) (done s rest : List Char) :
    readText start done (escaped .controls s ++ '"' :: rest) =
      .ok (String.ofList (done.reverse ++ s), rest) := by
  induction s generalizing done with
  | nil => simp [escaped, readText]
  | cons c s ih =>
    rw [escaped, List.flatMap_cons, List.append_assoc,
      readText_escapedChar start done c (by simp), ← escaped.eq_1, ih]
    simp

theorem toList_writtenText (s : String) (rest : List Char) :
    (writtenText .result s).toList ++ rest =
      '"' :: (escaped .controls s.toList ++ '"' :: rest) := by
  simp [writtenText, Style.result]

/-! ## Values without parts -/

/-- No value with a fixed spelling begins like a number. -/
theorem readScalar_of_opensNumber {t : List Char} (h : OpensNumber t) (rest : List Char) :
    readScalar (t ++ rest) = readNumber (t ++ rest) := by
  obtain ⟨negative, c, tail, hc, rfl⟩ := h
  have hne : ∀ d : Char, d.isDigit = false → d ≠ c := fun d hd => (Text.ne_of_isDigit hc hd).symm
  have hletters := And.intro (hne 'n' rfl) (And.intro (hne 't' rfl) (And.intro (hne 'f' rfl)
    (And.intro (hne 'N' rfl) (And.intro (hne 'I' rfl) (hne '-' rfl)))))
  cases negative <;> simp [readScalar, wordValues, afterWord?, hletters]

/-! ## Values -/

/-- A text is read as a value, whatever follows it, as long as that does not go on with a number. -/
def ReadsAs (t : List Char) (x : Json) : Prop :=
  ∀ fuel rest, 2 * t.length ≤ fuel → Stops isNumberPart rest →
    readValue fuel (t ++ rest) = .ok (x, rest)

/-- The characters that no value begins with: blanks, closing brackets and the mark of an
encoding. -/
def opensNothing (c : Char) : Bool := isBlank c || c = ']' || c = '\x7d' || c = '\ufeff'

/-- A text begins with a character that a value may begin with. -/
def Opens (t : List Char) : Prop := ∃ c rest, t = c :: rest ∧ opensNothing c = false

theorem opensNothing_eq_false_iff {c : Char} : opensNothing c = false ↔
    isBlank c = false ∧ c ≠ ']' ∧ c ≠ '\x7d' ∧ c ≠ '\ufeff' := by
  simp only [opensNothing, Bool.or_eq_false_iff, decide_eq_false_iff_not, and_assoc]

theorem Opens.stops {t rest : List Char} (h : Opens t) : Stops isBlank (t ++ rest) := by
  obtain ⟨c, tail, rfl, hc⟩ := h
  exact Text.stops_cons.2 (opensNothing_eq_false_iff.1 hc).1

theorem opens_of_opensNumber {t : List Char} (h : OpensNumber t) : Opens t := by
  obtain ⟨negative, c, rest, hc, rfl⟩ := h
  have hne : ∀ d : Char, d.isDigit = false → c ≠ d := fun d => Text.ne_of_isDigit hc
  cases negative with
  | true => exact ⟨'-', _, rfl, rfl⟩
  | false => exact ⟨c, rest, rfl, by simp [opensNothing, isBlank, hne]⟩

/-- What begins neither like a text nor like an array or an object is read as a scalar. -/
theorem readsAs_of_readScalar {t : List Char} {x : Json} (ht : t ≠ [])
    (hopen : t.head? ≠ some '"' ∧ t.head? ≠ some '[' ∧ t.head? ≠ some '\x7b')
    (h : ∀ rest, Stops isNumberPart rest → readScalar (t ++ rest) = .ok (x, rest)) :
    ReadsAs t x := by
  intro fuel rest hfuel hrest
  obtain ⟨c, tail, rfl⟩ := List.exists_cons_of_ne_nil ht
  obtain ⟨fuel, rfl⟩ := Nat.exists_eq_succ_of_ne_zero (n := fuel) (by simp at hfuel; omega)
  rw [← h rest hrest, readValue.eq_def]
  simp only [List.cons_append]
  split <;> simp_all

theorem readsAs_of_readNumber {t : List Char} {x : Json} (ht : OpensNumber t)
    (h : ∀ rest, Stops isNumberPart rest → readNumber (t ++ rest) = .ok (x, rest)) :
    ReadsAs t x := by
  have hscalar : ∀ rest, Stops isNumberPart rest → readScalar (t ++ rest) = .ok (x, rest) :=
    fun rest hrest => (readScalar_of_opensNumber ht rest).trans (h rest hrest)
  obtain ⟨negative, c, tail, hc, rfl⟩ := ht
  have hne : ∀ d : Char, d.isDigit = false → c ≠ d := fun d => Text.ne_of_isDigit hc
  refine readsAs_of_readScalar (by simp) ?_ hscalar
  cases negative
  · simp [hne]
  · simp

/-- A value without parts is read back, unless it was written as `null`. -/
theorem readsAs_writtenScalar {x : Json} (ha : x.kind ≠ .array) (ho : x.kind ≠ .object)
    (hx : Legible x) :
    Opens (writtenScalar .result x).toList ∧ ReadsAs (writtenScalar .result x).toList x.reread := by
  have hnull : Opens "null".toList ∧ ReadsAs "null".toList .null :=
    ⟨⟨'n', _, rfl, rfl⟩, readsAs_of_readScalar (by decide) (by decide)
      fun rest _ => rfl⟩
  cases x with
  | arr => exact absurd rfl ha
  | obj => exact absurd rfl ho
  | null => exact hnull
  | bool b =>
    cases b
    · exact ⟨⟨'f', _, rfl, rfl⟩, readsAs_of_readScalar (by decide) (by decide)
        fun rest _ => rfl⟩
    · exact ⟨⟨'t', _, rfl, rfl⟩, readsAs_of_readScalar (by decide) (by decide)
        fun rest _ => rfl⟩
  | int n =>
    have hn := opensNumber_toString n
    exact ⟨opens_of_opensNumber hn, readsAs_of_readNumber hn fun rest hrest =>
      readNumber_toString hx hrest⟩
  | float y =>
    cases hy : y.isFinite with
    | true =>
      have ht := opensNumber_text .document hy
      simp only [writtenScalar, writtenNumber, Style.result, hy, reread, if_true,
        Bool.false_eq_true, if_false]
      exact ⟨opens_of_opensNumber ht, readsAs_of_readNumber ht fun rest hrest =>
        readNumber_text .document hy hrest⟩
    | false =>
      simpa only [writtenScalar, writtenNumber, Style.result, hy, reread, Bool.false_eq_true,
        if_false] using hnull
  | str t =>
    refine ⟨⟨'"', escaped .controls t.toList ++ ['"'], ?_, rfl⟩,
      fun fuel rest hfuel hrest => ?_⟩
    · simpa [writtenScalar] using toList_writtenText t []
    · have hlength : 0 < fuel := by
        have hpos : 0 < (writtenText .result t).toList.length := by simp [writtenText]
        rw [writtenScalar] at hfuel
        omega
      obtain ⟨fuel, rfl⟩ := Nat.exists_eq_succ_of_ne_zero hlength.ne'
      rw [writtenScalar, toList_writtenText, readValue]
      simp only [readText_escaped]
      simp [reread]

/-! ## Arrays and objects -/

theorem skipBlanks_append {blanks rest : List Char} {c : Char}
    (hb : ∀ c ∈ blanks, isBlank c = true) (hc : isBlank c = false) :
    skipBlanks (blanks ++ c :: rest) = c :: rest :=
  Text.dropWhile_append_of_stops hb (Text.stops_cons.2 hc)

theorem skipBlanks_cons {c : Char} (hc : isBlank c = false) (rest : List Char) :
    skipBlanks (c :: rest) = c :: rest :=
  List.dropWhile_cons_of_neg (by simp [hc])

theorem skipBlanks_opens {blanks t : List Char} (hb : ∀ c ∈ blanks, isBlank c = true)
    (ht : Opens t) (rest : List Char) : skipBlanks (blanks ++ (t ++ rest)) = t ++ rest :=
  Text.dropWhile_append_of_stops hb ht.stops

/-- No blank goes on with a number. -/
theorem stops_isNumberPart {blanks rest : List Char} (hb : ∀ c ∈ blanks, isBlank c = true)
    (hrest : Stops isNumberPart rest) : Stops isNumberPart (blanks ++ rest) := by
  cases blanks with
  | nil => exact hrest
  | cons c blanks =>
    refine Text.stops_cons.2 ?_
    have hc := hb c List.mem_cons_self
    simp only [isBlank, Bool.or_eq_true, decide_eq_true_eq] at hc
    rcases hc with ((rfl | rfl) | rfl) | rfl <;> rfl

section Parts

variable {blanks closing : List Char}

/-- A joined list of texts begins like the first one. -/
theorem opens_intercalate (sep : List Char) {t : List Char} (ts : List (List Char)) (h : Opens t) :
    Opens (sep.intercalate (t :: ts)) := by
  cases ts with
  | nil => simpa using h
  | cons u ts =>
    obtain ⟨c, rest, rfl, hc⟩ := h
    exact ⟨c, _, List.intercalate_cons_cons.trans (List.append_assoc ..), hc⟩

/-- Items are read one after another, up to the closing bracket. -/
theorem readItems_intercalate (hb : ∀ c ∈ blanks, isBlank c = true)
    (hc : ∀ c ∈ closing, isBlank c = true) {parts : List (List Char × Json)} (hne : parts ≠ [])
    (h : ∀ p ∈ parts, Opens p.1 ∧ ReadsAs p.1 p.2) (fuel : Nat) (rest : List Char)
    (hfuel : 2 * ((',' :: blanks).intercalate (parts.map (·.1))).length + 1 ≤ fuel) :
    readItems fuel ((',' :: blanks).intercalate (parts.map (·.1)) ++ (closing ++ ']' :: rest)) =
      .ok (parts.map (·.2), rest) := by
  induction parts generalizing fuel with
  | nil => exact absurd rfl hne
  | cons p parts ih =>
    obtain ⟨fuel, rfl⟩ := Nat.exists_eq_succ_of_ne_zero (n := fuel) (by omega)
    have hp := (h p List.mem_cons_self).2
    cases parts with
    | nil =>
      have hvalue := hp fuel (closing ++ ']' :: rest) (by simpa using hfuel)
        (stops_isNumberPart hc (Text.stops_cons.2 rfl))
      have hskip : skipBlanks (closing ++ ']' :: rest) = ']' :: rest := skipBlanks_append hc rfl
      simp only [List.map_cons, List.map_nil, List.intercalate_singleton, readItems, hvalue, hskip]
    | cons q parts =>
      have hq : Opens ((',' :: blanks).intercalate ((q :: parts).map (·.1))) :=
        opens_intercalate _ _ (h q (by simp)).1
      have htext : (',' :: blanks).intercalate ((p :: q :: parts).map (·.1)) =
          p.1 ++ (',' :: (blanks ++ (',' :: blanks).intercalate ((q :: parts).map (·.1)))) :=
        List.intercalate_cons_cons.trans (List.append_assoc ..)
      rw [htext] at hfuel ⊢
      generalize (',' :: blanks).intercalate ((q :: parts).map (·.1)) = tail at *
      simp only [List.length_append, List.length_cons] at hfuel
      have hvalue := hp fuel (',' :: (blanks ++ (tail ++ (closing ++ ']' :: rest)))) (by omega)
        (Text.stops_cons.2 rfl)
      have hskip : ∀ more, skipBlanks (',' :: more) = ',' :: more := skipBlanks_cons rfl
      have hmore := ih (by simp) (fun r hr => h r (List.mem_cons_of_mem _ hr)) fuel (by omega)
      simp only [List.append_assoc, List.cons_append, readItems, hvalue, hskip,
        skipBlanks_opens hb hq, hmore, List.map_cons]

/-- The text of an entry. -/
def entryText (key : String) (t : List Char) : List Char :=
  (writtenText .result key).toList ++ (':' :: ' ' :: t)

theorem opens_entryText (key : String) (t : List Char) : Opens (entryText key t) :=
  ⟨'"', _, toList_writtenText .., rfl⟩

/-- A key is read with the colon behind it. -/
theorem readKey_entryText (key : String) {t : List Char} (ht : Opens t) (rest : List Char) :
    readKey (entryText key t ++ rest) = .ok (key, t ++ rest) := by
  have hskip : skipBlanks ([' '] ++ (t ++ rest)) = t ++ rest :=
    skipBlanks_opens (List.forall_mem_singleton.2 rfl) ht rest
  have hcolon : ∀ more, skipBlanks (':' :: more) = ':' :: more := skipBlanks_cons rfl
  rw [List.singleton_append] at hskip
  rw [entryText, List.append_assoc, toList_writtenText, readKey]
  simp only [readText_escaped, List.reverse_nil, List.nil_append, String.ofList_toList,
    List.cons_append, hcolon, hskip]

/-- Entries are read one after another, up to the closing brace. -/
theorem readEntries_intercalate (hb : ∀ c ∈ blanks, isBlank c = true)
    (hc : ∀ c ∈ closing, isBlank c = true) {parts : List (String × List Char × Json)}
    (hne : parts ≠ []) (h : ∀ p ∈ parts, Opens p.2.1 ∧ ReadsAs p.2.1 p.2.2) (fuel : Nat)
    (rest : List Char)
    (hfuel : 2 * ((',' :: blanks).intercalate
      (parts.map fun p => entryText p.1 p.2.1)).length + 1 ≤ fuel) :
    readEntries fuel ((',' :: blanks).intercalate (parts.map fun p => entryText p.1 p.2.1) ++
        (closing ++ '\x7d' :: rest)) = .ok (parts.map fun p => (p.1, p.2.2), rest) := by
  induction parts generalizing fuel with
  | nil => exact absurd rfl hne
  | cons p parts ih =>
    obtain ⟨fuel, rfl⟩ := Nat.exists_eq_succ_of_ne_zero (n := fuel) (by omega)
    obtain ⟨hopens, hp⟩ := h p List.mem_cons_self
    have hlength : p.2.1.length ≤ (entryText p.1 p.2.1).length := by
      simp only [entryText, List.length_append, List.length_cons]
      omega
    cases parts with
    | nil =>
      rw [List.map_singleton, List.intercalate_singleton] at hfuel ⊢
      have hvalue := hp fuel (closing ++ '\x7d' :: rest) (by omega)
        (stops_isNumberPart hc (Text.stops_cons.2 rfl))
      have hskip : skipBlanks (closing ++ '\x7d' :: rest) = '\x7d' :: rest :=
        skipBlanks_append hc rfl
      simp only [readEntries, readKey_entryText p.1 hopens, hvalue, hskip, List.map_cons,
        List.map_nil]
    | cons q parts =>
      have hq : Opens ((',' :: blanks).intercalate
          ((q :: parts).map fun p => entryText p.1 p.2.1)) :=
        opens_intercalate _ _ (opens_entryText ..)
      have htext : (',' :: blanks).intercalate ((p :: q :: parts).map fun p =>
          entryText p.1 p.2.1) = entryText p.1 p.2.1 ++ (',' :: (blanks ++
            (',' :: blanks).intercalate ((q :: parts).map fun p => entryText p.1 p.2.1))) :=
        List.intercalate_cons_cons.trans (List.append_assoc ..)
      rw [htext] at hfuel ⊢
      generalize (',' :: blanks).intercalate ((q :: parts).map fun p =>
        entryText p.1 p.2.1) = tail at *
      simp only [List.length_append, List.length_cons] at hfuel
      have hvalue := hp fuel (',' :: (blanks ++ (tail ++ (closing ++ '\x7d' :: rest)))) (by omega)
        (Text.stops_cons.2 rfl)
      have hskip : ∀ more, skipBlanks (',' :: more) = ',' :: more := skipBlanks_cons rfl
      have hmore := ih (by simp) (fun r hr => h r (List.mem_cons_of_mem _ hr)) fuel (by omega)
      simp only [List.append_assoc, List.cons_append, readEntries, readKey_entryText p.1 hopens,
        hvalue, hskip, skipBlanks_opens hb hq, hmore, List.map_cons]

end Parts

/-! ## Written values -/

theorem toList_lineStart (level : Nat) :
    (lineStart level).toList = '\n' :: List.replicate (2 * level) ' ' := by
  simp [lineStart]

theorem isBlank_of_mem_lineStart (level : Nat) :
    ∀ c ∈ (lineStart level).toList, isBlank c = true := by
  rw [toList_lineStart, List.forall_mem_cons]
  refine ⟨rfl, fun c hc => ?_⟩
  rw [List.eq_of_mem_replicate hc]
  rfl

/-- The characters of parts between brackets. -/
theorem toList_bracketed (level : Nat) (opening closing : String) {parts : List String}
    (h : parts ≠ []) :
    (bracketed level opening closing parts).toList = opening.toList ++
      ((lineStart (level + 1)).toList ++ ((',' :: (lineStart (level + 1)).toList).intercalate
        (parts.map String.toList) ++ ((lineStart level).toList ++ closing.toList))) := by
  have hempty : parts.isEmpty = false := by simpa using h
  simp [bracketed, hempty, String.toList_intercalate]

/-- An array is read if its items are. -/
theorem readValue_array {fuel : Nat} {rest t more after : List Char} {items : List Json}
    (hrest : skipBlanks rest = t ++ more) (ht : Opens t)
    (hitems : readItems fuel (t ++ more) = .ok (items, after)) :
    readValue (fuel + 1) ('[' :: rest) = .ok (.arr items, after) := by
  obtain ⟨c, tail, rfl, hc⟩ := ht
  replace hc := (opensNothing_eq_false_iff.1 hc).2.1
  rw [readValue.eq_def]
  simp only [hrest]
  split <;> simp_all

/-- An object is read if its entries are. -/
theorem readValue_object {fuel : Nat} {rest t more after : List Char}
    {entries : List (String × Json)} (hrest : skipBlanks rest = t ++ more) (ht : Opens t)
    (hentries : readEntries fuel (t ++ more) = .ok (entries, after)) :
    readValue (fuel + 1) ('\x7b' :: rest) = .ok (.obj (Entries.ofList entries), after) := by
  obtain ⟨c, tail, rfl, hc⟩ := ht
  replace hc := (opensNothing_eq_false_iff.1 hc).2.2.1
  rw [readValue.eq_def]
  simp only [hrest]
  split <;> simp_all

/-- What stands between brackets on lines of its own is read if the joined parts are, whatever
follows the brackets. -/
theorem readsAs_of_readParts {opening closing : Char} {before joined after : List Char} {x : Json}
    (hbefore : ∀ c ∈ before, isBlank c = true) (hopens : Opens joined)
    (h : ∀ fuel rest text, 2 * joined.length + 1 ≤ fuel →
      skipBlanks text = joined ++ (after ++ closing :: rest) →
        readValue (fuel + 1) (opening :: text) = .ok (x, rest)) :
    ReadsAs ([opening] ++ (before ++ (joined ++ (after ++ [closing])))) x := by
  intro fuel rest hfuel _
  simp only [List.length_append, List.length_singleton] at hfuel
  obtain ⟨fuel, rfl⟩ := Nat.exists_eq_succ_of_ne_zero (n := fuel) (by omega)
  simp only [List.append_assoc, List.cons_append, List.nil_append]
  exact h fuel rest _ (by omega) (skipBlanks_opens hbefore hopens _)

/-- A written array is read with the items that its parts are read as. -/
theorem readsAs_array (level : Nat) {parts : List (String × Json)}
    (h : ∀ p ∈ parts, Opens p.1.toList ∧ ReadsAs p.1.toList p.2) :
    ReadsAs (bracketed level "[" "]" (parts.map (·.1))).toList (.arr (parts.map (·.2))) := by
  cases parts with
  | nil =>
    intro fuel rest hfuel hrest
    have htext : (bracketed level "[" "]" []).toList = ['[', ']'] := by simp [bracketed]
    rw [List.map_nil, htext] at hfuel ⊢
    obtain ⟨fuel, rfl⟩ := Nat.exists_eq_succ_of_ne_zero (n := fuel) (by simp at hfuel; omega)
    simp only [List.cons_append, List.nil_append, readValue, List.map_nil,
      skipBlanks_cons (c := ']') rfl]
  | cons p parts =>
    have hparts : ∀ q ∈ (p :: parts).map fun q => (q.1.toList, q.2),
        Opens q.1 ∧ ReadsAs q.1 q.2 := List.forall_mem_map.2 h
    have hitems := readItems_intercalate (isBlank_of_mem_lineStart (level + 1))
      (isBlank_of_mem_lineStart level) (by simp) hparts
    have hopens : Opens ((',' :: (lineStart (level + 1)).toList).intercalate
        (((p :: parts).map (·.1)).map String.toList)) :=
      opens_intercalate _ _ (h p List.mem_cons_self).1
    rw [toList_bracketed level "[" "]" (by simp)]
    simp only [List.map_map, Function.comp_def] at hitems hopens ⊢
    exact readsAs_of_readParts (isBlank_of_mem_lineStart (level + 1)) hopens
      fun fuel rest text hfuel htext => readValue_array htext hopens (hitems fuel rest hfuel)

/-- A written object is read with the entries that its parts are read as. -/
theorem readsAs_object (level : Nat) {parts : List (String × String × Json)}
    (h : ∀ p ∈ parts, Opens p.2.1.toList ∧ ReadsAs p.2.1.toList p.2.2) :
    ReadsAs (bracketed level "\x7b" "\x7d"
        (parts.map fun p => writtenText .result p.1 ++ ": " ++ p.2.1)).toList
      (.obj (Entries.ofList (parts.map fun p => (p.1, p.2.2)))) := by
  cases parts with
  | nil =>
    intro fuel rest hfuel hrest
    have htext : (bracketed level "\x7b" "\x7d" []).toList = ['\x7b', '\x7d'] := by
      simp [bracketed]
    rw [List.map_nil, htext] at hfuel ⊢
    obtain ⟨fuel, rfl⟩ := Nat.exists_eq_succ_of_ne_zero (n := fuel) (by simp at hfuel; omega)
    simp only [List.cons_append, List.nil_append, readValue, List.map_nil,
      skipBlanks_cons (c := '\x7d') rfl]
    rfl
  | cons p parts =>
    have hparts : ∀ q ∈ (p :: parts).map fun q => (q.1, q.2.1.toList, q.2.2),
        Opens q.2.1 ∧ ReadsAs q.2.1 q.2.2 := List.forall_mem_map.2 h
    have hentries := readEntries_intercalate (isBlank_of_mem_lineStart (level + 1))
      (isBlank_of_mem_lineStart level) (by simp) hparts
    have htexts : ((p :: parts).map fun q => writtenText .result q.1 ++ ": " ++ q.2.1).map
        String.toList = (p :: parts).map fun q => entryText q.1 q.2.1.toList := by
      simp [entryText]
    have hopens : Opens ((',' :: (lineStart (level + 1)).toList).intercalate
        ((p :: parts).map fun q => entryText q.1 q.2.1.toList)) :=
      opens_intercalate _ _ (opens_entryText ..)
    rw [toList_bracketed level "\x7b" "\x7d" (by simp), htexts]
    simp only [List.map_map, Function.comp_def] at hentries ⊢
    exact readsAs_of_readParts (isBlank_of_mem_lineStart (level + 1)) hopens
      fun fuel rest text hfuel htext => readValue_object htext hopens (hentries fuel rest hfuel)

theorem opens_bracketed (level : Nat) {opening closing : String} {c : Char}
    (ho : opening.toList = [c]) (hc : opensNothing c = false)
    (parts : List String) : Opens (bracketed level opening closing parts).toList := by
  unfold bracketed
  split
  · exact ⟨c, closing.toList, by simp [ho], hc⟩
  · exact ⟨c, _, by simp only [String.toList_append, ho, List.append_assoc]; rfl, hc⟩

/-- A written value is read wherever it stands. -/
theorem readsAs_indentedAt {x : Json} (hx : Everywhere Legible x) (level : Nat) :
    Opens (indentedAt .result level x).toList ∧
      ReadsAs (indentedAt .result level x).toList x.reread := by
  -- the parts of a value are written one level further in, and read with less fuel
  induction hx generalizing level with
  | @scalar x ha ho hx =>
    have htext : indentedAt .result level x = writtenScalar .result x := by
      cases x with
      | arr => exact absurd rfl ha
      | obj => exact absurd rfl ho
      | _ => rfl
    rw [htext]
    exact readsAs_writtenScalar ha ho hx
  | @arr items _ _ ih =>
    have hparts : ∀ p ∈ items.map fun x => (indentedAt .result (level + 1) x, x.reread),
        Opens p.1.toList ∧ ReadsAs p.1.toList p.2 :=
      List.forall_mem_map.2 fun x hx => ih x hx (level + 1)
    have hreads := readsAs_array level hparts
    simp only [List.map_map, Function.comp_def] at hreads
    rw [indentedAt, indentedItems_eq_map, reread, rereadItems_eq_map]
    exact ⟨opens_bracketed level rfl rfl _, hreads⟩
  | @obj entries _ _ ih =>
    have hparts : ∀ p ∈ entries.map fun e =>
        (e.1, indentedAt .result (level + 1) e.2, e.2.reread),
        Opens p.2.1.toList ∧ ReadsAs p.2.1.toList p.2.2 :=
      List.forall_mem_map.2 fun e he => ih e he (level + 1)
    have hreads := readsAs_object level hparts
    simp only [List.map_map, Function.comp_def] at hreads
    rw [indentedAt, indentedEntries_eq_map, reread, rereadEntries_eq_map]
    exact ⟨opens_bracketed level rfl rfl _, hreads⟩

/-- A text that consists of a written value, with blanks behind it, has this value. -/
theorem read_indented {x : Json} (hx : Everywhere Legible x) {blanks : List Char}
    (hb : ∀ c ∈ blanks, isBlank c = true) :
    Json.read (indented .result x ++ String.ofList blanks) = .ok x.reread := by
  obtain ⟨hopens, hreads⟩ := readsAs_indentedAt hx 0
  have hend := stops_isNumberPart hb (Text.stops_nil isNumberPart)
  rw [List.append_nil] at hend
  have hvalue := hreads (2 * ((indentedAt .result 0 x).toList ++ blanks).length + 2) blanks
    (by rw [List.length_append]; omega) hend
  have hskip : skipBlanks ((indentedAt .result 0 x).toList ++ blanks) =
      (indentedAt .result 0 x).toList ++ blanks :=
    Text.dropWhile_append_of_stops (by simp : ∀ c ∈ ([] : List Char), isBlank c = true) hopens.stops
  have hblanks : skipBlanks (blanks ++ []) = [] :=
    Text.dropWhile_append_of_stops hb (Text.stops_nil _)
  rw [read, indented, String.toList_append, String.toList_ofList]
  obtain ⟨c, tail, hc, hopening⟩ := hopens
  have hmark := (opensNothing_eq_false_iff.1 hopening).2.2.2
  rw [readChars.eq_def]
  rw [List.append_nil] at hblanks
  simp only [hskip, hvalue, hblanks]
  split
  · simp_all
  · rfl

end OperationTools.Json
