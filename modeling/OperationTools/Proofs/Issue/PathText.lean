import OperationTools.Issue
import OperationTools.Proofs.Language.Scanning
import OperationTools.Proofs.Text.Digits

/-!
# Texts of paths

The text of a path tells its steps. A name ends where a point or a bracket follows, and a position
ends at its closing bracket, so a text can be taken apart in one way only. This needs keys that are
names: a key with a point in it would be read as two steps.

## Main definitions

* `Path.Named`: all keys of a path are names

## Main results

* `Path.stepsText_injective`: steps that are written alike are the same
* `Path.text_eq_iff`: paths with the same text are the same, and messages that give the same reason
  are the same only if they are about the same place
-/

namespace OperationTools

open Text (Stops)

/-- All keys of a path are names. -/
def Path.Named (p : Path) : Prop := ∀ name, .key name ∈ p → Token.isName name = true

namespace Path

variable {p q : Path} {s : Segment} {name : String}

theorem Named.head (h : Named (.key name :: p)) : Token.isName name = true :=
  h name List.mem_cons_self

theorem Named.tail (h : Named (s :: p)) : Named p := fun name hname =>
  h name (List.mem_cons_of_mem _ hname)

/-! ## Steps that follow others -/

/-- The characters of steps that follow others. -/
def stepsText (p : Path) : List Char := p.flatMap fun s => s.text.toList

theorem stepsText_key (name : String) (p : Path) :
    stepsText (.key name :: p) = '.' :: (name.toList ++ stepsText p) := by
  simp [stepsText, Segment.text]

theorem stepsText_index (n : Int) (p : Path) :
    stepsText (.index n :: p) = '[' :: ((toString n).toList ++ (']' :: stepsText p)) := by
  simp [stepsText, Segment.text]

/-- A character neither begins a step nor a position. -/
def isInStep (c : Char) : Bool := c ≠ '.' && c ≠ '['

/-- What follows a step begins another one. -/
theorem stops_stepsText (p : Path) : Stops isInStep (stepsText p) := by
  match p with
  | [] => exact Text.stops_nil _
  | .key _ :: _ => exact stepsText_key .. ▸ Text.stops_cons.2 rfl
  | .index _ :: _ => exact stepsText_index .. ▸ Text.stops_cons.2 rfl

/-- Nothing in a name begins a step, and a name is not empty. -/
theorem isInStep_of_isName (h : Token.isName name = true) :
    name.toList ≠ [] ∧ ∀ c ∈ name.toList, isInStep c = true := by
  have hpart : ∀ c, Token.isNamePart c = true → isInStep c = true := by
    intro c hc
    simp only [isInStep, Bool.and_eq_true, decide_eq_true_eq]
    constructor <;> rintro rfl <;> exact absurd hc (by decide)
  unfold Token.isName at h
  split at h
  · rename_i c rest he
    rw [Bool.and_eq_true, List.all_eq_true] at h
    rw [he]
    refine ⟨List.cons_ne_nil c rest, List.forall_mem_cons.2 ⟨?_, fun d hd => ?_⟩⟩
    · exact hpart c (Token.isNamePart_of_isNameStart h.1)
    · exact hpart d (h.2 d hd)
  · cases h

/-- A name is told from the steps that follow it. -/
theorem eq_of_name_append {other : String} (h : Token.isName name = true)
    (h' : Token.isName other = true)
    (he : name.toList ++ stepsText p = other.toList ++ stepsText q) :
    name = other ∧ stepsText p = stepsText q := by
  obtain ⟨hname, hsteps⟩ := Text.eq_of_append_eq (isInStep_of_isName h).2 (isInStep_of_isName h').2
    (stops_stepsText p) (stops_stepsText q) he
  exact ⟨String.toList_inj.1 hname, hsteps⟩

/-- A position is told from the steps that follow it. -/
theorem eq_of_position_append {m n : Int}
    (he : (toString m).toList ++ (']' :: stepsText p) =
      (toString n).toList ++ (']' :: stepsText q)) :
    m = n ∧ stepsText p = stepsText q := by
  have hrun : ∀ k : Int, ∀ c ∈ (toString k).toList, (c != ']') = true := by
    intro k c hc
    rw [bne_iff_ne]
    rintro rfl
    exact absurd (Text.isDigit_or_eq_of_mem_toString hc) (by decide)
  obtain ⟨hposition, hsteps⟩ := Text.eq_of_append_eq (hrun m) (hrun n)
    (Text.stops_cons.2 rfl) (Text.stops_cons.2 rfl) he
  exact ⟨Text.toString_int_injective (String.toList_inj.1 hposition), (List.cons.inj hsteps).2⟩

/-- Steps that are written alike are the same. -/
theorem stepsText_injective (hp : p.Named) (hq : q.Named) (h : stepsText p = stepsText q) :
    p = q := by
  -- the first character tells a name from a position, and what follows tells where either ends
  induction p generalizing q with
  | nil =>
    match q with
    | [] => rfl
    | .key _ :: _ => exact absurd (h.trans (stepsText_key ..)) (List.cons_ne_nil _ _).symm
    | .index _ :: _ => exact absurd (h.trans (stepsText_index ..)) (List.cons_ne_nil _ _).symm
  | cons s p ih =>
    match s, q with
    | .key name, [] => exact absurd ((stepsText_key ..).symm.trans h) (List.cons_ne_nil _ _)
    | .index n, [] => exact absurd ((stepsText_index ..).symm.trans h) (List.cons_ne_nil _ _)
    | .key name, .key other :: q =>
      rw [stepsText_key, stepsText_key] at h
      obtain ⟨rfl, hsteps⟩ := eq_of_name_append hp.head hq.head (List.cons.inj h).2
      rw [ih hp.tail hq.tail hsteps]
    | .index m, .index n :: q =>
      rw [stepsText_index, stepsText_index] at h
      obtain ⟨rfl, hsteps⟩ := eq_of_position_append (List.cons.inj h).2
      rw [ih hp.tail hq.tail hsteps]
    | .key name, .index n :: q =>
      rw [stepsText_key, stepsText_index] at h
      exact absurd (List.cons.inj h).1 (by decide)
    | .index m, .key other :: q =>
      rw [stepsText_index, stepsText_key] at h
      exact absurd (List.cons.inj h).1 (by decide)

/-! ## Paths -/

theorem toList_text_key (name : String) (p : Path) :
    (text (.key name :: p)).toList = name.toList ++ stepsText p := by
  rw [text, String.toList_append, String.toList_join, List.flatMap_map, stepsText]

theorem toList_text_index (n : Int) (p : Path) :
    (text (.index n :: p)).toList = stepsText (.index n :: p) := by
  rw [text, String.toList_append, String.toList_join, List.flatMap_map, stepsText,
    List.flatMap_cons]

/-- A path that begins with a name has a text that no other path has. -/
theorem eq_of_text_key (hp : Named (.key name :: p)) (hq : q.Named)
    (h : text (.key name :: p) = q.text) : .key name :: p = q := by
  obtain ⟨hne, hstep⟩ := isInStep_of_isName hp.head
  replace h := congrArg String.toList h
  rw [toList_text_key] at h
  match q with
  | [] => exact absurd (List.append_eq_nil_iff.1 h).1 hne
  | .key other :: q =>
    rw [toList_text_key] at h
    obtain ⟨rfl, hsteps⟩ := eq_of_name_append hp.head hq.head h
    rw [stepsText_injective hp.tail hq.tail hsteps]
  | .index n :: q =>
    rw [toList_text_index, stepsText_index] at h
    obtain ⟨c, rest, hname⟩ := List.exists_cons_of_ne_nil hne
    rw [hname] at h hstep
    obtain rfl := (List.cons.inj h).1
    exact absurd (hstep '[' List.mem_cons_self) (by decide)

/-- Paths with the same text are the same. -/
theorem text_injective (hp : p.Named) (hq : q.Named) (h : p.text = q.text) : p = q := by
  match p, q with
  | .key name :: p, q => exact eq_of_text_key hp hq h
  | p, .key other :: q => exact (eq_of_text_key hq hp h.symm).symm
  | [], [] => rfl
  | .index m :: p, [] =>
    have hnil := congrArg String.toList h
    rw [toList_text_index, stepsText_index] at hnil
    cases hnil
  | [], .index n :: q =>
    have hnil := congrArg String.toList h
    rw [toList_text_index, stepsText_index] at hnil
    cases hnil
  | .index m :: p, .index n :: q =>
    have hsteps := congrArg String.toList h
    rw [toList_text_index, toList_text_index] at hsteps
    exact stepsText_injective hp hq hsteps

/-! ## Places in messages -/

/-- What a message says of the place, which is nothing if that is the value itself. -/
def place (p : Path) : String := if p.isEmpty then "" else s!" at '{p.text}'"

/-- Messages about the same reason in the same operation differ in the place only. -/
theorem message_eq_iff_place {reason : Reason} {cls cls' : IssueClass}
    {operation : Option String} :
    Rejection.message ⟨⟨cls, reason, p⟩, operation⟩ =
      Rejection.message ⟨⟨cls', reason, q⟩, operation⟩ ↔ p.place = q.place := by
  unfold Rejection.message place
  exact String.append_right_inj _

theorem place_ne_empty (h : p ≠ []) : p.place ≠ "" := by
  rw [place, if_neg (by simpa using h)]
  intro he
  exact absurd (congrArg String.toList he) (by simp [toString])

theorem place_inj_text (hp : p ≠ []) (hq : q ≠ []) : p.place = q.place ↔ p.text = q.text := by
  rw [place, place, if_neg (by simpa using hp), if_neg (by simpa using hq)]
  simp [← String.toList_inj, toString]

/-- Places are told apart. -/
theorem place_injective (hp : p.Named) (hq : q.Named) (h : p.place = q.place) : p = q := by
  rcases eq_or_ne p [] with rfl | hpne
  · rcases eq_or_ne q [] with rfl | hqne
    · rfl
    · exact absurd h.symm (place_ne_empty hqne)
  · rcases eq_or_ne q [] with rfl | hqne
    · exact absurd h (place_ne_empty hpne)
    · exact text_injective hp hq ((place_inj_text hpne hqne).1 h)

/-- The text of a path determines it, and so does a message, among those that give the same reason
in the same operation. -/
theorem text_eq_iff (hp : p.Named) (hq : q.Named) :
    (p.text = q.text ↔ p = q) ∧
      ∀ (reason : Reason) (cls cls' : IssueClass) (operation : Option String),
        Rejection.message ⟨⟨cls, reason, p⟩, operation⟩ =
          Rejection.message ⟨⟨cls', reason, q⟩, operation⟩ ↔ p = q := by
  refine ⟨⟨text_injective hp hq, congrArg text⟩, fun reason cls cls' operation => ?_⟩
  rw [message_eq_iff_place]
  exact ⟨place_injective hp hq, congrArg place⟩

/-- A path that begins at a position and one that begins at a key. -/
theorem text_eq_iff_rows :
    Named [.index 1, .key "id"] ∧ Named [.key "rows", .index 1, .index 0] ∧
      text [.index 1, .key "id"] = "[1].id" ∧
      text [.key "rows", .index 1, .index 0] = "rows[1][0]" ∧
      text [.index 1, .key "id"] ≠ text [.key "rows", .index 1, .index 0] ∧
      Rejection.message ⟨⟨.typeMismatch, .nullItem, [.index 1, .key "id"]⟩, none⟩ ≠
        Rejection.message ⟨⟨.typeMismatch, .nullItem, [.key "rows", .index 1, .index 0]⟩, none⟩ := by
  have hp : Named [.index 1, .key "id"] := fun name h => by
    obtain rfl : name = "id" := by simpa using h
    decide
  have hq : Named [.key "rows", .index 1, .index 0] := fun name h => by
    obtain rfl : name = "rows" := by simpa using h
    decide
  have hne : ([.index 1, .key "id"] : Path) ≠ [.key "rows", .index 1, .index 0] := by decide
  obtain ⟨htext, hmessage⟩ := text_eq_iff hp hq
  exact ⟨hp, hq, rfl, rfl, mt htext.1 hne, mt (hmessage ..).1 hne⟩

end Path

end OperationTools
