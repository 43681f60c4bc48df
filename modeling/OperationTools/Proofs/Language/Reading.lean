import OperationTools.Language.Reader
import OperationTools.Proofs.Language.Scanning

/-!
# Reading what was written

A reader gives back the value whose tokens stand in front, and leaves what follows them. Items that
are told apart from the closing token by their first one are read one after another, and so are the
marks around a named type.

## Main definitions

* `Token.block`: tokens between an opening and a closing one
* `TypeRef.isProper`, `TypeRef.tokens`: references that can be written, and their tokens
* `IsTypeLiteral`: literals of references

## Main results

* `Reader.run_manyUntil`, `Reader.run_optionalBlock`: items are read back
* `TypeRef.writes_literal`, `TypeRef.run_typeWithin`: the literal of a reference is read back
-/

namespace OperationTools

/-- Tokens between an opening and a closing one, if there are any. -/
def Token.block (opening closing : Token) (tokens : List Token) : List Token :=
  if tokens.isEmpty then [] else opening :: tokens ++ [closing]

namespace Reader

variable {α : Type}

/-! ## Tokens -/

@[simp] theorem run_token (t : Token) (rest : List Token) :
    (token t).run (t :: rest) = some ((), rest) := by
  simp [token]

@[simp] theorem run_tokenIf_self (t : Token) (rest : List Token) :
    (tokenIf t).run (t :: rest) = some (true, rest) := by
  simp [tokenIf]

theorem run_tokenIf_of_ne {t : Token} {ts : List Token} (h : ts.head? ≠ some t) :
    (tokenIf t).run ts = some (false, ts) := by
  cases ts with
  | nil => simp [tokenIf]
  | cons u rest =>
    have hu : u ≠ t := by simpa using h
    simp [tokenIf, hu]

@[simp] theorem run_name (s : String) (rest : List Token) :
    name.run (.name s :: rest) = some (s, rest) := by
  simp [name]

/-! ## Items -/

section Items

variable {closing : Token} {item : Reader α} {write : α → List Token} {p : Token → Prop}

/-- Items up to the closing token are read back, if each of them is as long as a token of some kind
follows it, and starts with such a token. -/
theorem run_manyUntil (hclosing : p closing) {as : List α} (hne : as ≠ [])
    (hitem : ∀ a ∈ as, ∀ t rest, p t → item.run (write a ++ t :: rest) = some (a, t :: rest))
    (hstart : ∀ a ∈ as, ∃ t us, write a = t :: us ∧ t ≠ closing ∧ p t) {fuel : Nat}
    (hfuel : as.length ≤ fuel) (rest : List Token) :
    (manyUntil closing item fuel).run (as.flatMap write ++ closing :: rest) = some (as, rest) := by
  induction as generalizing fuel with
  | nil => exact absurd rfl hne
  | cons a as ih =>
    obtain ⟨ha, has⟩ := List.forall_mem_cons.1 hitem
    cases fuel with
    | zero => simp at hfuel
    | succ fuel =>
      rw [manyUntil, List.flatMap_cons, List.append_assoc, StateT.run_bind]
      cases as with
      | nil =>
        have hfirst := ha closing rest hclosing
        rw [List.flatMap_nil, List.nil_append, hfirst]
        simp
      | cons b bs =>
        obtain ⟨t, tail, htail, ht, hp⟩ : ∃ t tail,
            (b :: bs).flatMap write ++ closing :: rest = t :: tail ∧ t ≠ closing ∧ p t := by
          obtain ⟨t, us, hb, h⟩ := hstart b (by simp)
          exact ⟨t, us ++ bs.flatMap write ++ closing :: rest, by simp [hb], h⟩
        have hmore := ih (List.cons_ne_nil b bs) has
          (fun c hc => hstart c (List.mem_cons_of_mem a hc)) (Nat.le_of_succ_le_succ hfuel)
        have hnot : (t :: tail).head? ≠ some closing := by simpa using ht
        rw [htail] at hmore ⊢
        rw [ha t tail hp]
        simp [run_tokenIf_of_ne hnot, hmore]

theorem length_le_length_flatMap {as : List α} (h : ∀ a ∈ as, write a ≠ []) :
    as.length ≤ (as.flatMap write).length := by
  induction as with
  | nil => exact Nat.le_refl 0
  | cons a as ih =>
    obtain ⟨ha, has⟩ := List.forall_mem_cons.1 h
    have hpos := List.length_pos_iff.2 ha
    have := ih has
    rw [List.flatMap_cons, List.length_append, List.length_cons]
    omega

/-- Items between brackets are read back, and so is their absence. -/
theorem run_optionalBlock {opening : Token} (hclosing : p closing) {as : List α}
    (hitem : ∀ a ∈ as, ∀ t rest, p t → item.run (write a ++ t :: rest) = some (a, t :: rest))
    (hstart : ∀ a ∈ as, ∃ t us, write a = t :: us ∧ t ≠ closing ∧ p t) {rest : List Token}
    (hrest : rest.head? ≠ some opening) :
    (optionalBlock opening closing item).run
      (Token.block opening closing (as.flatMap write) ++ rest) = some (as, rest) := by
  by_cases hne : as = []
  · subst hne
    simp [optionalBlock, Token.block, run_tokenIf_of_ne hrest]
  · have hwritten : ∀ a ∈ as, write a ≠ [] := by
      intro a ha he
      obtain ⟨t, us, hw, -⟩ := hstart a ha
      rw [he] at hw
      cases hw
    have hlength := length_le_length_flatMap hwritten
    have hblock : Token.block opening closing (as.flatMap write) ++ rest =
        opening :: (as.flatMap write ++ closing :: rest) := by
      have hpos := List.length_pos_iff.2 hne
      have hflat : (as.flatMap write).isEmpty = false := by
        rw [List.isEmpty_eq_false_iff, ← List.length_pos_iff]
        omega
      simp [Token.block, hflat]
    have hfuel : as.length ≤ (as.flatMap write ++ closing :: rest).length := by
      rw [List.length_append]
      omega
    have hmany := run_manyUntil hclosing hne hitem hstart hfuel rest
    rw [hblock]
    simp [optionalBlock, -List.length_append, hmany]

end Items

end Reader

/-! ## References to types -/

namespace TypeRef

/-- A reference that can be written: names are names, and a mark is not marked again. -/
def isProper : TypeRef → Bool
  | .named name => Token.isName name
  | .list item => item.isProper
  | .nonNull inner => inner.isProper && !inner.isNonNull

/-- The tokens of the literal of a reference. -/
def tokens : TypeRef → List Token
  | .named name => [.name name]
  | .list item => .leftBracket :: item.tokens ++ [.rightBracket]
  | .nonNull inner => inner.tokens ++ [.bang]

/-- How many lists nest in a reference. -/
def nesting : TypeRef → Nat
  | .named _ => 0
  | .list item => item.nesting + 1
  | .nonNull inner => inner.nesting

open Token in
theorem writes_literal {r : TypeRef} (h : r.isProper = true) : Writes r.literal r.tokens := by
  induction r with
  | named name => exact writes_name h
  | list item ih =>
    have hopen : Closes "[" [.leftBracket] := closes_marks "[" (by decide)
    have hclose : Closes "]" [.rightBracket] := closes_marks "]" (by decide)
    exact ((hopen.append (ih h)).close hclose (by decide) (by decide)).writes
  | nonNull inner ih =>
    have hbang : Closes "!" [.bang] := closes_marks "!" (by decide)
    exact (ih (Bool.and_eq_true_iff.1 h).1).append hbang.writes (by decide)

theorem nesting_le_length_tokens (r : TypeRef) : r.nesting ≤ r.tokens.length := by
  induction r with
  | named => simp [nesting]
  | list item ih =>
    simp only [nesting, tokens, List.length_append, List.length_cons]
    omega
  | nonNull inner ih =>
    simp only [nesting, tokens, List.length_append]
    omega

open Reader

/-- A reference without the mark that may follow it. -/
def unmarked : Nat → Reader TypeRef
  | 0 => TypeRef.named <$> Reader.name
  | left + 1 => do
    if ← tokenIf .leftBracket then do
      let item ← typeWithin left
      token .rightBracket
      pure (TypeRef.list item)
    else TypeRef.named <$> Reader.name

theorem typeWithin_eq_marked (levels : Nat) : typeWithin levels = marked (unmarked levels) := by
  cases levels <;> rfl

theorem run_marked {r : TypeRef} {levels : Nat} {rest : List Token}
    (h : (unmarked levels).run (r.tokens ++ rest) = some (r, rest))
    (hrest : rest.head? ≠ some .bang) :
    (typeWithin levels).run (r.tokens ++ rest) = some (r, rest) := by
  rw [typeWithin_eq_marked, marked, StateT.run_bind, h]
  simp [run_tokenIf_of_ne hrest]

theorem run_marked_bang {r : TypeRef} {levels : Nat} {rest : List Token}
    (h : (unmarked levels).run (r.tokens ++ .bang :: rest) = some (r, .bang :: rest)) :
    (typeWithin levels).run (r.tokens ++ .bang :: rest) = some (.nonNull r, rest) := by
  rw [typeWithin_eq_marked, marked, StateT.run_bind, h]
  simp

/-- A proper reference is read back, without the mark behind it if it has none of its own. Both are
shown together, since inside a non-null reference stands one without a mark. -/
theorem run_unmarked_and_typeWithin {r : TypeRef} (h : r.isProper = true) {levels : Nat}
    (hlevels : r.nesting ≤ levels) (rest : List Token) :
    (r.isNonNull = false → (unmarked levels).run (r.tokens ++ rest) = some (r, rest)) ∧
    (rest.head? ≠ some .bang → (typeWithin levels).run (r.tokens ++ rest) = some (r, rest)) := by
  induction r generalizing levels rest with
  | named n =>
    have hun : (unmarked levels).run ((named n).tokens ++ rest) = some (named n, rest) := by
      cases levels with
      | zero => simp [unmarked, tokens]
      | succ left =>
        have hnot : (Token.name n :: rest).head? ≠ some .leftBracket := by simp
        simp [unmarked, tokens, run_tokenIf_of_ne hnot]
    exact ⟨fun _ => hun, run_marked hun⟩
  | list item ih =>
    cases levels with
    | zero => simp [nesting] at hlevels
    | succ left =>
      have hitem := (ih h (Nat.le_of_succ_le_succ hlevels) (.rightBracket :: rest)).2 (by simp)
      have hun : (unmarked (left + 1)).run ((list item).tokens ++ rest) =
          some (list item, rest) := by
        simp [unmarked, tokens, hitem]
      exact ⟨fun _ => hun, run_marked hun⟩
  | nonNull inner ih =>
    refine ⟨fun hn => absurd hn (by simp [isNonNull]), fun _ => ?_⟩
    obtain ⟨hproper, hmark⟩ := Bool.and_eq_true_iff.1 h
    have hinner := (ih hproper hlevels (.bang :: rest)).1 (by simpa using hmark)
    have hread := run_marked_bang hinner
    rwa [tokens, List.append_assoc]

/-- The literal of a proper reference is read back. -/
theorem run_typeWithin {r : TypeRef} (h : r.isProper = true) {levels : Nat}
    (hlevels : r.nesting ≤ levels) {rest : List Token} (hrest : rest.head? ≠ some .bang) :
    (typeWithin levels).run (r.tokens ++ rest) = some (r, rest) :=
  (run_unmarked_and_typeWithin h hlevels rest).2 hrest

end TypeRef

/-- A text is the literal of a reference. -/
def IsTypeLiteral (s : String) : Prop := ∃ r : TypeRef, r.isProper = true ∧ s = r.literal

end OperationTools
