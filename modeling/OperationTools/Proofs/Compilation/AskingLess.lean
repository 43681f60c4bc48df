import OperationTools.Proofs.Compilation.Calls

/-!
# Asking for less

A selection that is accepted is given back as it is, with its order and with all that is switched
off in it. Whoever may ask for a selection may also ask for less: parts may be left out, switched
off or given in another order, at whatever depth and whatever kinds of validators they meet there.
Only where nothing is left to be asked for, the fallback stands in.

## Main definitions

* `Json.LessensTo`: a value asks for no more than another one

## Main results

* `OutputTypes.Arises.takes_of_lessensTo`: validators of selections take what asks for less
* `Compilers.judge_lessensTo`: selections are given back as they are, and asking for less is allowed
-/

namespace OperationTools

/-- The second value asks for no more than the first one. Keys may stand in another order and may be
missing, and `false` or `null` may stand for whatever was there. -/
inductive Json.LessensTo : Json → Json → Prop where
  | refl (x : Json) : LessensTo x x
  | null (x : Json) : LessensTo x .null
  | off (x : Json) : LessensTo x (.bool false)
  | arr {items others : List Json} (hlength : items.length = others.length)
      (h : ∀ (i : Nat) (x y : Json), items[i]? = some x → others[i]? = some y → LessensTo x y) :
      LessensTo (.arr items) (.arr others)
  | obj {entries others : List (String × Json)}
      (hkeys : others.map (·.1) ⊆ entries.map (·.1))
      (h : ∀ key x y, (key, x) ∈ entries → (key, y) ∈ others → LessensTo x y) :
      LessensTo (.obj entries) (.obj others)

/-- One part of an object is asked for, or less of it. -/
theorem Json.LessensTo.only {entries : List (String × Json)} (hn : (entries.map (·.1)).Nodup)
    {key : String} {x y : Json} (hx : (key, x) ∈ entries) (h : x.LessensTo y) :
    (Json.obj entries).LessensTo (.obj [(key, y)]) := by
  have hkey : key ∈ entries.map (·.1) := List.mem_map_of_mem hx
  refine .obj (by simpa using hkey) fun key' x' y' hx' hy' => ?_
  obtain ⟨rfl, rfl⟩ := Prod.mk.inj (List.mem_singleton.1 hy')
  have hlookup := Entries.lookup_of_mem hn hx
  rw [Entries.lookup_of_mem hn hx'] at hlookup
  obtain rfl := Option.some.inj hlookup
  exact h

/-- Among keys that were there before each one has an entry. -/
theorem Entries.exists_mem_of_subset_keys {entries others : List (String × Json)}
    (hkeys : others.map (·.1) ⊆ entries.map (·.1)) {e : String × Json} (he : e ∈ others) :
    ∃ x, (e.1, x) ∈ entries := by
  obtain ⟨d, hd, hkey⟩ := List.mem_map.1 (hkeys (List.mem_map_of_mem he))
  exact ⟨d.2, hkey ▸ hd⟩

/-- The validator of any selection takes every object. -/
theorem Validator.takes_anySelection (entries : List (String × Json)) :
    anySelection.takes (.obj entries) = true := by
  have hover : anySelection.overreaches (.obj entries) = false := by
    simp [overreaches, lacksParts, overreachesEntries_eq_any, child?]
  exact takes_iff.2 ⟨hover, rfl⟩

namespace OutputTypes

variable {types : OutputTypes} {memo : Memo} {v : Validator}

/-- Any part of a selection may be switched off. -/
theorem Arises.takes_off (h : types.Arises memo v) :
    v.takes .null = true ∧ v.takes (.bool false) = true := by
  cases h <;> exact ⟨rfl, rfl⟩

theorem Arises.takes_arr (h : types.Arises memo v) (items : List Json) :
    v.takes (.arr items) = false := by
  have hrefused : v.accepts (.arr items) = false := by cases h <;> rfl
  rw [Validator.takes, hrefused, Bool.and_false]

/-- What asks for less is taken too. -/
theorem Arises.takes_of_lessensTo (h : types.Arises memo v) {x y : Json} (hl : x.LessensTo y)
    (hx : v.takes x = true) : v.takes y = true := by
  -- induction on what is left out; the validators under the keys arise again
  induction hl generalizing v with
  | refl => exact hx
  | null => exact h.takes_off.1
  | off => exact h.takes_off.2
  | arr =>
    rw [h.takes_arr] at hx
    cases hx
  | obj hkeys _ ih =>
    have hchild := fun key c => @Arises.child types memo v c h key
    cases h with
    | leaf => cases (Validator.takes_iff.1 hx).2
    | lazily n =>
      obtain ⟨hleaf, hknown⟩ := Validator.takes_lazySelection_obj_iff.1 hx
      refine Validator.takes_lazySelection_obj_iff.2 ⟨fun hn e he => ?_, fun e he c hc => ?_⟩
      · obtain ⟨x, hx⟩ := Entries.exists_mem_of_subset_keys hkeys he
        exact hleaf hn (e.1, x) hx
      · obtain ⟨x, hx⟩ := Entries.exists_mem_of_subset_keys hkeys he
        exact ih e.1 x e.2 hx he (hchild e.1 c hc) (hknown _ hx c hc)
    | strictly =>
      have hknown := Validator.takes_strictSelection_iff.1 hx
      refine Validator.takes_strictSelection_iff.2 fun e he => ?_
      obtain ⟨x, hx⟩ := Entries.exists_mem_of_subset_keys hkeys he
      obtain ⟨c, hc, ht⟩ := hknown _ hx
      exact ⟨c, hc, ih e.1 x e.2 hx he (hchild e.1 c hc) ht⟩

end OutputTypes

namespace Compilers

variable {c : Compilers}

/-- What is taken is left as it is, and what asks for less is taken as well. -/
theorem takes_policyAfter (calls : List Call) (op : Operation) {entries : List (String × Json)}
    (ht : (c.policyAfter calls op).validator.takes (.obj entries) = true) :
    ((c.policyAfter calls op).validator.report (.obj entries)).value = .obj entries ∧
      ∀ others, (Json.obj entries).LessensTo (.obj others) →
        (c.policyAfter calls op).validator.takes (.obj others) = true := by
  obtain ⟨t, hp⟩ := yields_policyAfter (c := c) calls op
  have hpolicy := OutputTypes.policyFor_of_yields_operation hp (c.settled_record calls).sound
  rcases hpolicy.arises with hany | harises
  · rw [hany]
    exact ⟨rfl, fun others _ => Validator.takes_anySelection others⟩
  · exact ⟨harises.value_eq (Validator.takes_iff.1 ht).2,
      fun others hl => harises.takes_of_lessensTo hl ht⟩

/-- After any calls a selection that is accepted is given back as it is, and everything that asks
for less is accepted as well. It is given back in turn, unless nothing is asked for: then the
fallback stands in. -/
theorem judge_lessensTo (calls : List Call) (op : Operation) {entries : List (String × Json)}
    (hne : entries ≠ []) (ht : (c.policyAfter calls op).takes (.obj entries) = true) :
    (c.policyAfter calls op).judge (.obj entries) = .ok (.obj entries) ∧
      ∀ others, (Json.obj entries).LessensTo (.obj others) →
        (c.policyAfter calls op).judge (.obj others) =
          .ok (if others = [] then (c.policyAfter calls op).fallback else .obj others) := by
  have hjudge : ∀ {given}, given ≠ [] →
      (c.policyAfter calls op).validator.takes (.obj given) = true →
        (c.policyAfter calls op).judge (.obj given) = .ok (.obj given) :=
    fun hg ht => (SelectionPolicy.judge_obj_eq_ok_iff hg).2 ⟨ht, (takes_policyAfter calls op ht).1⟩
  rw [SelectionPolicy.takes_obj hne] at ht
  refine ⟨hjudge hne ht, fun others hl => ?_⟩
  by_cases ho : others = []
  · rw [if_pos ho, ho]
    rfl
  · rw [if_neg ho]
    exact hjudge ho ((takes_policyAfter calls op ht).2 others hl)

/-- Books and series that contain each other, and shelves with a series. -/
def shelves : Compilers where
  schema :=
    { types :=
        [⟨"Book", .object [] [⟨"title", .named "String", [], none⟩,
            ⟨"series", .named "Series", [], none⟩]⟩,
          ⟨"Series", .object [] [⟨"name", .named "String", [], none⟩,
            ⟨"first", .named "Book", [], none⟩]⟩,
          ⟨"Shelf", .object [] [⟨"label", .named "String", [], none⟩,
            ⟨"series", .named "Series", [], none⟩]⟩,
          ⟨"String", .scalar⟩,
          ⟨"Query", .object [] [⟨"book", .named "Book", [], none⟩,
            ⟨"shelf", .named "Shelf", [], none⟩]⟩]
      roots := [(.query, "Query")] }
  settings := {}

/-- The operation of a field without arguments. -/
def shelvesOperation (name typeName : String) : Operation :=
  .ofField shelves.settings .query { name, type := .named typeName }

/-- What is asked of a shelf. The series was compiled for a book, so its first book is looked up
lazily, where `pages` is not known. -/
def fullRequest : List (String × Json) :=
  [("series", .obj [("name", .bool true),
      ("first", .obj [("pages", .int 3), ("title", .bool true)])]),
    ("label", .bool true)]

/-- Less of it: the title of that book, switched off. -/
def smallRequest : List (String × Json) :=
  [("series", .obj [("first", .obj [("title", .bool false)])])]

theorem lessensTo_smallRequest : (Json.obj fullRequest).LessensTo (.obj smallRequest) :=
  .only (by decide) List.mem_cons_self
    (.only (by decide) (List.mem_cons_of_mem _ List.mem_cons_self)
      (.only (by decide) (List.mem_cons_of_mem _ List.mem_cons_self) (.off _)))

/-- The full request is given back with the key that is not known, and so is less of it. Where
nothing is asked for, the label is. -/
theorem judge_lessensTo_fullRequest :
    let policy := shelves.policyAfter [.selection (shelvesOperation "book" "Book")]
      (shelvesOperation "shelf" "Shelf")
    (fullRequest ≠ [] ∧ policy.takes (.obj fullRequest) = true) ∧
      policy.judge (.obj fullRequest) = .ok (.obj fullRequest) ∧
      policy.judge (.obj smallRequest) = .ok (.obj smallRequest) ∧
      policy.judge (.obj []) = .ok (.obj [("label", .bool true)]) := by
  intro policy
  have hne : fullRequest ≠ [] := by simp [fullRequest]
  have ht : policy.takes (.obj fullRequest) = true := by decide +kernel
  obtain ⟨hfull, hless⟩ := judge_lessensTo (c := shelves) _ _ hne ht
  exact ⟨⟨hne, ht⟩, hfull, hless _ lessensTo_smallRequest,
    hless [] (.obj (List.nil_subset _) (by simp))⟩

end Compilers

end OperationTools
