import Mathlib.Data.List.Forall2
import OperationTools.Language.Token

/-!
# Scanning what was written

A text that is put together from names, marks and blanks is scanned piece by piece: each piece gives
its own tokens, whatever follows it. Behind a piece that ends with a name nothing may stand that goes
on with it.

## Main definitions

* `Token.Scans`: characters and their tokens
* `Token.Ends`: characters that do not go on with a name
* `Token.Writes`, `Token.Closes`: a text and its tokens, with anything behind it

## Main results

* `Token.writes_name`, `Token.writes_marks`: the tokens of single pieces
* `Token.Writes.append`, `Token.writes_intercalate`: the tokens of what is put together
-/

namespace OperationTools.Token

/-- Characters have these tokens, if there is a step for each of them. -/
def Scans (cs : List Char) (ts : List Token) : Prop :=
  ∀ fuel, cs.length ≤ fuel → scanSteps? fuel cs = some ts

/-- Characters do not go on with a name. -/
def Ends (cs : List Char) : Prop := ∀ c ∈ cs.head?, isNamePart c = false

instance (cs : List Char) : Decidable (Ends cs) :=
  match cs with
  | [] => .isTrue (by simp [Ends])
  | c :: _ => decidable_of_iff (isNamePart c = false) (by simp [Ends])

/-- A text has these tokens, whatever follows it that does not go on with a name. -/
def Writes (s : String) (ts : List Token) : Prop :=
  ∀ rest us, Ends rest → Scans rest us → Scans (s.toList ++ rest) (ts ++ us)

/-- A text has these tokens, whatever follows it. -/
def Closes (s : String) (ts : List Token) : Prop :=
  ∀ rest us, Scans rest us → Scans (s.toList ++ rest) (ts ++ us)

/-! ## Characters -/

/-- Marks and what is ignored are no parts of names. -/
theorem not_isNamePart_of_mark? {c : Char} {t : Token} (h : mark? c = some t) :
    isNamePart c = false := by
  unfold mark? at h
  split at h
  case h_14 => cases h
  all_goals decide

theorem not_isNamePart_of_isIgnored {c : Char} (h : isIgnored c = true) :
    isNamePart c = false := by
  simp only [isIgnored, Bool.or_eq_true, decide_eq_true_eq] at h
  rcases h with ((((rfl | rfl) | rfl) | rfl) | rfl) | rfl <;> decide

theorem mark?_eq_none_of_isNamePart {c : Char} (h : isNamePart c = true) : mark? c = none := by
  cases hm : mark? c with
  | none => rfl
  | some t => simp [not_isNamePart_of_mark? hm] at h

theorem mark?_eq_none_of_isIgnored {c : Char} (h : isIgnored c = true) : mark? c = none := by
  simp only [isIgnored, Bool.or_eq_true, decide_eq_true_eq] at h
  rcases h with ((((rfl | rfl) | rfl) | rfl) | rfl) | rfl <;> decide

theorem isNamePart_of_isNameStart {c : Char} (h : isNameStart c = true) : isNamePart c = true := by
  simp only [isNameStart, isNamePart, Char.isAlphanum, Bool.or_eq_true, decide_eq_true_eq] at h ⊢
  exact h.imp_left .inl

/-! ## Single tokens -/

theorem Scans.nil : Scans [] [] := fun fuel _ => by cases fuel <;> rfl

theorem eq_nil_of_scans_nil {ts : List Token} (h : Scans [] ts) : ts = [] :=
  (Option.some.inj (h 0 (Nat.le_refl _))).symm

theorem Scans.ignored {c : Char} {cs : List Char} {ts : List Token} (hc : isIgnored c = true)
    (h : Scans cs ts) : Scans (c :: cs) ts := by
  intro fuel hf
  cases fuel with
  | zero => simp at hf
  | succ fuel =>
    rw [scanSteps?, if_pos hc]
    exact h fuel (by simpa using hf)

/-- A token and what follows it. -/
theorem Scans.next {c : Char} {cs after : List Char} {t : Token} {ts : List Token}
    (hc : isIgnored c = false) (hcomment : c ≠ '#') (hn : next? (c :: cs) = some (t, after))
    (hlength : after.length ≤ cs.length) (h : Scans after ts) : Scans (c :: cs) (t :: ts) := by
  intro fuel hf
  cases fuel with
  | zero => simp at hf
  | succ fuel =>
    have hafter := h fuel (Nat.le_trans hlength (by simpa using hf))
    simp [scanSteps?, hc, hcomment, hn, hafter]

theorem next?_mark {c : Char} {t : Token} (h : mark? c = some t) (cs : List Char) :
    next? (c :: cs) = some (t, cs) := by
  unfold next?
  split
  case h_4 c' cs' _ _ _ he =>
    cases he
    rw [h]
  all_goals simp_all [mark?]

theorem Scans.mark {c : Char} {t : Token} {cs : List Char} {ts : List Token}
    (hm : mark? c = some t) (h : Scans cs ts) : Scans (c :: cs) (t :: ts) := by
  have hc : isIgnored c = false := by
    refine eq_false_of_ne_true fun hc => ?_
    rw [mark?_eq_none_of_isIgnored hc] at hm
    cases hm
  refine Scans.next hc ?_ (next?_mark hm cs) (Nat.le_refl _) h
  rintro rfl
  cases hm

/-- Marks and blanks in any order. -/
theorem Scans.marks {cs rest : List Char} {us : List Token}
    (h : ∀ c ∈ cs, isIgnored c = true ∨ (mark? c).isSome = true) (hs : Scans rest us) :
    Scans (cs ++ rest) (cs.filterMap mark? ++ us) := by
  induction cs with
  | nil => exact hs
  | cons c cs ih =>
    obtain ⟨hc, hcs⟩ := List.forall_mem_cons.1 h
    rcases hc with hc | hc
    · rw [List.filterMap_cons_none (mark?_eq_none_of_isIgnored hc)]
      exact (ih hcs).ignored hc
    · obtain ⟨t, ht⟩ := Option.isSome_iff_exists.1 hc
      rw [List.filterMap_cons_some ht]
      exact (ih hcs).mark ht

theorem Scans.ellipsis {cs : List Char} {ts : List Token} (h : Scans cs ts) :
    Scans ('.' :: '.' :: '.' :: cs) (.ellipsis :: ts) :=
  Scans.next (by decide) (by decide) rfl (by simp; omega) h

theorem next?_name {c : Char} (h : isNameStart c = true) (cs : List Char) :
    next? (c :: cs) = some (.name (String.ofList ((c :: cs).takeWhile isNamePart)),
      (c :: cs).dropWhile isNamePart) := by
  have hm := mark?_eq_none_of_isNamePart (isNamePart_of_isNameStart h)
  unfold next?
  split
  case h_4 c' cs' _ _ _ he =>
    cases he
    rw [hm, if_pos h]
  all_goals simp_all [isNameStart]

/-- A name up to where it does not go on. -/
theorem Scans.name {s : String} (hs : isName s = true) {rest : List Char} {ts : List Token}
    (he : Ends rest) (h : Scans rest ts) : Scans (s.toList ++ rest) (.name s :: ts) := by
  unfold isName at hs
  split at hs
  case h_2 => cases hs
  case h_1 c cs hcs =>
    rw [Bool.and_eq_true] at hs
    obtain ⟨hc, hall⟩ := hs
    have hpart := isNamePart_of_isNameStart hc
    have hparts : ∀ d ∈ s.toList, isNamePart d = true := by
      rw [hcs]
      exact List.forall_mem_cons.2 ⟨hpart, List.all_eq_true.1 hall⟩
    have hstop : rest.takeWhile isNamePart = [] ∧ rest.dropWhile isNamePart = rest := by
      cases rest with
      | nil => simp
      | cons d rest => simp [he d rfl]
    have htake : (s.toList ++ rest).takeWhile isNamePart = s.toList := by
      rw [List.takeWhile_append_of_pos hparts, hstop.1, List.append_nil]
    have hdrop : (s.toList ++ rest).dropWhile isNamePart = rest := by
      rw [List.dropWhile_append_of_pos hparts, hstop.2]
    have hn : next? (s.toList ++ rest) = some (.name s, rest) := by
      have hn := next?_name hc (cs ++ rest)
      rwa [← List.cons_append, ← hcs, htake, hdrop, String.ofList_toList] at hn
    have hignored : isIgnored c = false := by
      refine eq_false_of_ne_true fun hi => ?_
      simp [not_isNamePart_of_isIgnored hi] at hpart
    rw [hcs] at hn ⊢
    refine Scans.next hignored ?_ hn (by simp) h
    rintro rfl
    revert hpart
    decide

/-! ## Pieces of text -/

theorem Ends.append {cs rest : List Char} (h : Ends cs) (hrest : Ends rest) :
    Ends (cs ++ rest) := by
  cases cs with
  | nil => exact hrest
  | cons c cs => exact h

theorem Closes.writes {s : String} {ts : List Token} (h : Closes s ts) : Writes s ts :=
  fun rest us _ hs => h rest us hs

theorem Writes.scans {s : String} {ts : List Token} (h : Writes s ts) : Scans s.toList ts := by
  have hs := h [] [] (by simp [Ends]) Scans.nil
  rwa [List.append_nil, List.append_nil] at hs

theorem Writes.scan?_eq {s : String} {ts : List Token} (h : Writes s ts) : scan? s = some ts :=
  h.scans _ (Nat.le_refl _)

/-- An empty text has no tokens. -/
theorem Writes.ne_empty {s : String} {ts : List Token} (h : Writes s ts) (hne : ts ≠ []) :
    s ≠ "" := by
  rintro rfl
  exact hne (eq_nil_of_scans_nil h.scans)

theorem closes_empty : Closes "" [] := fun _ _ h => h

theorem writes_name {s : String} (h : isName s = true) : Writes s [.name s] :=
  fun _ _ he hs => Scans.name h he hs

theorem closes_marks (s : String)
    (h : s.toList.all (fun c => isIgnored c || (mark? c).isSome) = true) :
    Closes s (s.toList.filterMap mark?) := by
  have hmarks : ∀ c ∈ s.toList, isIgnored c = true ∨ (mark? c).isSome = true := by
    simpa using h
  exact fun _ _ hs => Scans.marks hmarks hs

theorem closes_ellipsis : Closes "..." [.ellipsis] := fun _ _ h => h.ellipsis

/-- A text behind another one that leaves no name open. -/
theorem Closes.append {a b : String} {ts us : List Token} (ha : Closes a ts) (hb : Writes b us) :
    Writes (a ++ b) (ts ++ us) := by
  intro rest vs hrest h
  rw [String.toList_append, List.append_assoc, List.append_assoc]
  exact ha _ _ (hb _ _ hrest h)

/-- A text behind another one, with a name of which it does not go on. -/
theorem Writes.append {a b : String} {ts us : List Token} (ha : Writes a ts) (hb : Writes b us)
    (he : Ends b.toList) : Writes (a ++ b) (ts ++ us) := by
  intro rest vs hrest h
  rw [String.toList_append, List.append_assoc, List.append_assoc]
  exact ha _ _ (he.append hrest) (hb _ _ hrest h)

/-- A text that closes another one. -/
theorem Writes.close {a b : String} {ts us : List Token} (ha : Writes a ts) (hb : Closes b us)
    (he : Ends b.toList) (hne : b.toList ≠ []) : Closes (a ++ b) (ts ++ us) := by
  intro rest vs h
  rw [String.toList_append, List.append_assoc, List.append_assoc]
  refine ha _ _ ?_ (hb _ _ h)
  obtain ⟨c, cs, hc⟩ := List.exists_cons_of_ne_nil hne
  rw [hc] at he ⊢
  exact he

/-- Texts with blanks between them. -/
theorem writes_intercalate {separator : String} (hs : Closes separator [])
    (he : Ends separator.toList) (hne : separator.toList ≠ []) {texts : List String}
    {tokens : List (List Token)} (h : List.Forall₂ Writes texts tokens) :
    Writes (separator.intercalate texts) tokens.flatten := by
  induction h with
  | nil => exact closes_empty.writes
  | @cons text ts texts tokens ht hrest ih =>
    cases hrest with
    | nil => simpa using ht
    | cons =>
      rw [String.intercalate_cons_cons, List.flatten_cons]
      have hhead := ht.close hs he hne
      rw [List.append_nil] at hhead
      exact hhead.append ih

end OperationTools.Token
