import OperationTools.CommandLine.Arguments

/-!
# Spelled options

Options may be given in many ways, but all that counts are their values. What a command line gives
can be given once more with each option spelled by its long name, also with another value for one of
the options.

## Main definitions

* `Arguments.Spellable`: options that can be given once more
* `Arguments.spelled`: options by their long names
* `Arguments.withValue`: arguments with another value for an option
* `Arguments.Changes`: arguments that differ from others in the value of an option at most

## Main results

* `Arguments.parse_spelled`: spelled options are parsed as the options that they spell
* `Arguments.spellable_of_parse`: all options that are parsed can be spelled
-/

namespace OperationTools

namespace Parameter

theorem long_injective {p q : Parameter} (h : p.long = q.long) : p = q := by
  cases p <;> cases q <;> simp_all [long]

end Parameter

namespace Arguments

variable {known : List Parameter} {given : List (Parameter × String)}

/-- Options that can be spelled: they are known, and an option without a value has the empty text in
its place. -/
def Spellable (known : List Parameter) (given : List (Parameter × String)) : Prop :=
  ∀ e ∈ given, e.1 ∈ known ∧ (e.1.takesValue = false → e.2 = "")

@[simp] theorem spellable_nil : Spellable known [] := by
  simp [Spellable]

@[simp] theorem spellable_cons {e : Parameter × String} : Spellable known (e :: given) ↔
    (e.1 ∈ known ∧ (e.1.takesValue = false → e.2 = "")) ∧ Spellable known given :=
  List.forall_mem_cons

@[simp] theorem spellable_append {more : List (Parameter × String)} :
    Spellable known (given ++ more) ↔ Spellable known given ∧ Spellable known more :=
  List.forall_mem_append

/-- The arguments that spell options by their long names, each with its value after it. -/
def spelled (given : List (Parameter × String)) : List String :=
  given.flatMap fun (p, value) => if p.takesValue then [p.long, value] else [p.long]

/-- The long name of a known option says that it is given, or that its value follows. -/
theorem piece_long {p : Parameter} (h : p ∈ known) : piece known p.long =
    .ok (if p.takesValue then .awaiting [] p p.long else .options [(p, "")]) := by
  have hfind : known.find? (·.long = p.long) = some p := by
    obtain ⟨q, hq⟩ := Option.isSome_iff_exists.1
      (List.find?_isSome.2 ⟨p, h, by simp⟩ : (known.find? (·.long = p.long)).isSome)
    obtain rfl := Parameter.long_injective (by simpa using List.find?_some hq)
    exact hq
  have hend : p.long ≠ "--" := by
    cases p <;> decide
  have hopens : (p.long.toList.head? ≠ some '-' || p.long.toList.length < 2) = false := by
    cases p <;> decide
  have hname : p.long.toList.takeWhile (· ≠ '=') = p.long.toList := by
    cases p <;> rfl
  have hattached : p.long.toList.dropWhile (· ≠ '=') = [] := by
    cases p <;> rfl
  unfold piece
  dsimp only
  rw [if_neg hend, if_neg (Bool.not_eq_true _ ▸ hopens), hname, String.ofList_toList, hfind,
    hattached]

/-- Spelled options are parsed as the options that they spell. -/
theorem parse_spelled (h : Spellable known given) (mixed : Bool) :
    parse known mixed (spelled given) = .ok ⟨given, []⟩ := by
  induction given with
  | nil => rfl
  | cons e given ih =>
    obtain ⟨p, value⟩ := e
    obtain ⟨⟨hp, hvalue⟩, h⟩ := spellable_cons.1 h
    have hgiven := ih h
    cases hv : p.takesValue with
    | true =>
      have hspelled : spelled ((p, value) :: given) = p.long :: value :: spelled given := by
        simp [spelled, hv]
      simp [hspelled, parse, piece_long hp, hv, hgiven, Except.map]
    | false =>
      have hspelled : spelled ((p, value) :: given) = p.long :: spelled given := by
        simp [spelled, hv]
      obtain rfl : value = "" := hvalue hv
      simp [hspelled, parse, piece_long hp, hv, hgiven, Except.map]

/-! ## Options that are parsed -/

/-- What a piece gives can be spelled. -/
def Piece.Spellable (known : List Parameter) : Piece → Prop
  | .options given => Arguments.Spellable known given
  | .awaiting given last _ =>
    Arguments.Spellable known given ∧ last ∈ known ∧ last.takesValue = true
  | _ => True

theorem spellable_of_letters {points : List Text.Point} (hg : Spellable known given) {r : Piece}
    (h : letters known given points = .ok r) : r.Spellable known := by
  induction points generalizing given with
  | nil =>
    cases h
    exact hg
  | cons p rest ih =>
    rw [letters] at h
    split at h
    · cases h
    · rename_i q hq
      have hknown := List.mem_of_find?_eq_some hq
      cases hv : q.takesValue with
      | false =>
        simp only [hv, Bool.not_false, if_true] at h
        exact ih (by simp [hg, hknown]) h
      | true =>
        simp only [hv, Bool.not_true, Bool.false_eq_true, if_false] at h
        split at h <;> cases h
        · exact ⟨hg, hknown, hv⟩
        · simp [Piece.Spellable, hg, hknown, hv]

theorem spellable_of_piece {argument : String} {r : Piece} (h : piece known argument = .ok r) :
    r.Spellable known := by
  unfold piece at h
  dsimp only at h
  split at h
  · cases h
    trivial
  · split at h
    · cases h
      trivial
    · split at h
      · rename_i p hp _
        have hknown := List.mem_of_find?_eq_some hp
        cases h
        cases hv : p.takesValue <;> simp [Piece.Spellable, hknown, hv]
      · rename_i p value hp _
        have hknown := List.mem_of_find?_eq_some hp
        split at h <;> cases h
        rename_i hv
        simp [Piece.Spellable, hknown, hv]
      · split at h
        · cases h
        · exact spellable_of_letters spellable_nil h

theorem spellable_of_map {r : Except UsageError Arguments} {f : Arguments → Arguments}
    (hf : ∀ b, Spellable known b.given → Spellable known (f b).given)
    (hr : ∀ b, r = .ok b → Spellable known b.given) {a : Arguments} (h : r.map f = .ok a) :
    Spellable known a.given := by
  cases r with
  | error => cases h
  | ok b =>
    cases h
    exact hf b (hr b rfl)

/-- All options that are parsed can be spelled. -/
theorem spellable_of_parse {mixed : Bool} {arguments : List String} {a : Arguments}
    (h : parse known mixed arguments = .ok a) : Spellable known a.given := by
  fun_induction parse known mixed arguments generalizing a with
  | case1 | case3 | case5 =>
    cases h
    exact spellable_nil
  | case2 | case7 => cases h
  | case4 argument _ _ _ ih =>
    exact spellable_of_map (f := fun b => { b with others := argument :: b.others })
      (fun _ hb => hb) (fun _ => ih) h
  | case6 _ _ _ hpiece ih =>
    have hgiven := spellable_of_piece hpiece
    exact spellable_of_map (fun _ hb => spellable_append.2 ⟨hgiven, hb⟩) (fun _ => ih) h
  | case8 _ _ _ _ hpiece _ _ ih =>
    obtain ⟨hgiven, hlast, hv⟩ := spellable_of_piece hpiece
    exact spellable_of_map
      (fun _ hb => spellable_append.2 ⟨hgiven, spellable_cons.2 ⟨⟨hlast, by simp [hv]⟩, hb⟩⟩)
      (fun _ => ih) h

/-! ## Other values -/

/-- The arguments with another value for an option. -/
def withValue (a : Arguments) (p : Parameter) (value : String) : Arguments :=
  { a with given := a.given.filter (·.1 ≠ p) ++ [(p, value)] }

/-- Arguments that give an option a value, and all else as other arguments do. -/
structure Changes (a other : Arguments) (p : Parameter) (value : String) : Prop where
  value : other.value? p = some value
  values : ∀ q ≠ p, other.value? q = a.value? q
  others : other.others = a.others

theorem changes_withValue (a : Arguments) (p : Parameter) (value : String) :
    a.Changes (a.withValue p value) p value where
  value := by simp [withValue, value?]
  values q hq := by
    have hne : ∀ e : Parameter × String,
        (!decide (e.1 = p) && decide (e.1 = q)) = decide (e.1 = q) := by
      intro e
      by_cases he : e.1 = q <;> simp [he, hq]
    simp [withValue, value?, Ne.symm hq, ← List.filter_reverse, List.find?_filter, hne]
  others := rfl

theorem has_eq_isSome (a : Arguments) (p : Parameter) : a.has p = (a.value? p).isSome := by
  rw [has, value?, Option.isSome_map, Bool.eq_iff_iff, List.any_eq_true, List.find?_isSome]
  simp

/-- An option is given by both, unless it is the one with another value. -/
theorem Changes.has_eq {a other : Arguments} {p : Parameter} {value : String}
    (h : a.Changes other p value) {q : Parameter} (hq : q ≠ p) : other.has q = a.has q := by
  rw [has_eq_isSome, has_eq_isSome, h.values q hq]

end Arguments

end OperationTools
