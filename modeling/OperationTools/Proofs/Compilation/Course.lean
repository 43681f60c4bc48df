import OperationTools.Proofs.Compilation.Thread

/-!
# Courses of compilation

The body of a type is walked to compile what is inside it, and bodies are walked inside one another.
A course from one memo to another one tells which bodies were walked on the way. A walk begins where
nothing is kept under the key of the body, which is noted if it is too large. The walk does not come
back to this key, and it ends when a validator is kept there; or else it is broken off by a step
that fails.

## Main definitions

* `Memo.Course`: how a memo is filled by walks
* `TryCompile.Takes`: the course that a step takes
* `TryCompile.along`: what is walked by steps over a list

## Main results

* `Memo.Course.exists_entries`: what is kept on a course is what was walked and not broken off
* `Memo.Course.notes_eq`: what is noted on a course is what was walked
* `Memo.Course.nodup_keys`: no key is kept twice
* `TryCompile.takes_mapM`: the course of a traversal
-/

namespace OperationTools

variable {α β γ : Type} {note : Memo.Key → Option Truncation}

namespace Memo

/-- Adds a note, if there is one. -/
def addNote? (t? : Option Truncation) (memo : Memo) : Memo :=
  { memo with notes := memo.notes ++ t?.toList }

theorem addNote?_none (memo : Memo) : memo.addNote? none = memo := by
  simp [addNote?]

variable (note) in
/-- How a memo is filled while bodies are walked. The keys are those of the bodies in the order in
which their walks begin, and `note` tells what is noted of a body. A course that is not completed
ends inside its last walks. -/
inductive Course : Memo → List Key → Bool → Memo → Prop where
  | idle (s : Memo) : Course s [] true s
  | append {s t u : Memo} {keys keys' : List Key} {completed : Bool} (h : Course s keys true t)
      (h' : Course t keys' completed u) : Course s (keys ++ keys') completed u
  | body {s b t : Memo} {key : Key} {keys : List Key} (hb : b = s.addNote? (note key))
      (hk : s.find? key = none) (hn : key ∉ keys) (h : Course b keys true t) (v : Validator) :
      Course s (key :: keys) true (t.keep key v)
  | failed {s b : Memo} {key : Key} (hb : b = s.addNote? (note key)) : Course s [key] false b
  | broken {s b t : Memo} {key : Key} {keys : List Key} (hb : b = s.addNote? (note key))
      (h : Course b keys false t) : Course s (key :: keys) false t

namespace Course

variable {s t : Memo} {keys : List Key} {completed : Bool}

/-- A course only adds entries. They are those of the bodies whose walks were not broken off, and
the course is completed exactly if none was. -/
theorem exists_entries (h : Course note s keys completed t) :
    ∃ entries broken, t.entries = s.entries ++ entries ∧
      keys.Perm (entries.map (·.1) ++ broken) ∧ (completed = true ↔ broken = []) := by
  induction h with
  | idle s => exact ⟨[], [], by simp, .refl _, by simp⟩
  | append _ _ ih ih' =>
    obtain ⟨entries, broken, he, hp, hb⟩ := ih
    obtain ⟨entries', broken', he', hp', hb'⟩ := ih'
    obtain rfl := hb.1 rfl
    refine ⟨entries ++ entries', broken', by rw [he', he, List.append_assoc], ?_, hb'⟩
    rw [List.append_nil] at hp
    rw [List.map_append, List.append_assoc]
    exact hp.append hp'
  | @body s b _ key _ hs _ _ _ v ih =>
    obtain ⟨entries, broken, he, hp, hb⟩ := ih
    obtain rfl := hb.1 rfl
    have hentries : b.entries = s.entries := by rw [hs, addNote?]
    refine ⟨entries ++ [(key, v)], [], ?_, ?_, by simp⟩
    · rw [keep, he, hentries, List.append_assoc]
    · rw [List.append_nil] at hp ⊢
      rw [List.map_append]
      exact (hp.cons key).trans (List.perm_append_singleton ..).symm
  | @failed _ _ key hs =>
    subst hs
    exact ⟨[], [key], by simp [addNote?], .refl _, by simp⟩
  | @broken _ _ _ key _ hs _ ih =>
    subst hs
    obtain ⟨entries, broken, he, hp, -⟩ := ih
    exact ⟨entries, key :: broken, he, (hp.cons key).trans List.perm_middle.symm, by simp⟩

/-- The keys of the walks that were not broken off are kept after those that were there before. -/
theorem exists_kept (h : Course note s keys completed t) :
    ∃ kept broken, t.keys = s.keys ++ kept ∧ keys.Perm (kept ++ broken) ∧
      (completed = true ↔ broken = []) := by
  obtain ⟨entries, broken, he, hp, hb⟩ := h.exists_entries
  exact ⟨entries.map (·.1), broken, by rw [Memo.keys, he, List.map_append, Memo.keys], hp, hb⟩

/-- What is noted on the way is what there is to note of the bodies, when their walks begin. -/
theorem notes_eq (h : Course note s keys completed t) :
    t.notes = s.notes ++ keys.filterMap note := by
  have hcons : ∀ (key : Key) (keys : List Key),
      (key :: keys).filterMap note = (note key).toList ++ keys.filterMap note := by
    intro key keys
    rw [List.filterMap_cons]
    cases note key <;> rfl
  induction h with
  | idle s => simp
  | append _ _ ih ih' => rw [ih', ih, List.filterMap_append, List.append_assoc]
  | body hb _ _ _ _ ih => rw [notes_keep, ih, hb, addNote?, hcons, List.append_assoc]
  | failed hb => rw [hb, addNote?, hcons, List.filterMap_nil, List.append_nil]
  | broken hb _ ih => rw [ih, hb, addNote?, hcons, List.append_assoc]

/-- What is kept in the end was kept before, or is the key of a body that was walked. -/
theorem mem_keys (h : Course note s keys completed t) {key : Key} (hk : key ∈ t.keys) :
    key ∈ s.keys ∨ key ∈ keys := by
  obtain ⟨kept, broken, he, hp, -⟩ := h.exists_kept
  rw [he, List.mem_append] at hk
  exact hk.imp id fun hk => hp.mem_iff.2 (List.mem_append_left _ hk)

/-- No key is kept twice: when it is kept, it was kept neither before its walk nor inside. -/
theorem nodup_keys (h : Course note s keys completed t) (hs : s.keys.Nodup) : t.keys.Nodup := by
  induction h with
  | idle => exact hs
  | append _ _ ih ih' => exact ih' (ih hs)
  | failed hb =>
    subst hb
    exact hs
  | broken hb _ ih =>
    subst hb
    exact ih hs
  | @body s _ _ key _ hb hk hn h v ih =>
    subst hb
    have hnew : key ∉ s.keys := by
      rw [← contains_iff_mem_keys, contains, hk]
      simp
    rw [keys_keep, List.nodup_append]
    refine ⟨ih hs, by simp, fun k hm k' hk' => ?_⟩
    rw [List.mem_singleton.1 hk']
    rintro rfl
    exact (h.mem_keys hm).elim hnew hn

theorem memo_le (h : Course note s keys completed t) : s ≤ t := by
  obtain ⟨entries, -, he, -⟩ := h.exists_entries
  intro key v hv
  rw [find?, he, List.lookup_append, ← find?, hv, Option.some_or]

/-- Under the keys of other bodies the memo stays as it is. -/
theorem find?_of_notMem (h : Course note s keys completed t) {key : Key} (hk : key ∉ keys) :
    t.find? key = s.find? key := by
  obtain ⟨entries, broken, he, hp, -⟩ := h.exists_entries
  have hnone : entries.lookup key = none := by
    rw [List.lookup_eq_none_iff]
    intro e hm
    rw [bne_iff_ne]
    rintro rfl
    exact hk (hp.mem_iff.2 (List.mem_append_left _ (List.mem_map_of_mem hm)))
  rw [find?, he, List.lookup_append, ← find?, hnone, Option.or_none]

end Course

end Memo

/-- What noting a type with too many fields does to the memo. -/
theorem Compile.memo_noteFields (side : Side) (typeName : String) (count limit : Nat)
    (s : Compilation) : ((noteFields side typeName count limit).run s).2.memo = s.memo.addNote?
      (if limit < count then some ⟨side, typeName, count, limit⟩ else none) := by
  rw [run_noteFields]
  split
  · rfl
  · exact (Memo.addNote?_none s.memo).symm

namespace TryCompile

variable (note) in
/-- From a state on a step takes a course along the given keys, which is completed if it
succeeds. -/
def Takes (step : TryCompile α) (s : Compilation) (keys : List Memo.Key) : Prop :=
  Memo.Course note s.memo keys (step.run.run s).1.isOk (step.run.run s).2.memo

/-- What is walked by steps over a list. Each step starts from the state that the one before it
left, and behind a step that fails nothing is walked any more. -/
def along (step : α → TryCompile β) (walks : α → Compilation → List Memo.Key) :
    List α → Compilation → List Memo.Key
  | [], _ => []
  | a :: rest, s =>
    walks a s ++ match (step a).run.run s with
      | (.ok _, t) => along step walks rest t
      | (.error _, _) => []

theorem takes_pure (a : α) (s : Compilation) : Takes note (pure a) s [] := .idle s.memo

/-- A step that never fails. -/
theorem takes_lift {step : Compile α} {s : Compilation} {keys : List Memo.Key} :
    Takes note (liftM step) s keys ↔ Memo.Course note s.memo keys true (step.run s).2.memo :=
  Iff.rfl

/-- What follows a look-up goes by what is found. -/
theorem takes_kept?_bind {key : Memo.Key} {next : Option Validator → TryCompile α}
    {s : Compilation} {keys : List Memo.Key} :
    Takes note (liftM (Compile.kept? key) >>= next) s keys ↔
      Takes note (next (s.memo.find? key)) s keys := Iff.rfl

/-- The walk of a body ends with a validator that is kept, or is broken off by a failure inside. -/
theorem Takes.walk {step : TryCompile α} {first : Compile Unit} {s : Compilation}
    {keys : List Memo.Key} (h : step.Takes note (first.run s).2 keys) {key : Memo.Key}
    (hf : (first.run s).2.memo = s.memo.addNote? (note key)) (hk : s.memo.find? key = none)
    (hm : key ∉ keys) (f : α → Validator) :
    Takes note (do liftM first; let a ← step; liftM (Compile.keep key (f a))) s
      (key :: keys) := by
  have hrun : (do liftM first; let a ← step; liftM (Compile.keep key (f a)) :
      TryCompile Validator).run.run s =
        (step >>= fun a => liftM (Compile.keep key (f a))).run.run (first.run s).2 := rfl
  unfold Takes at h ⊢
  rw [hrun, run_bind]
  generalize step.run.run (first.run s).2 = r at h ⊢
  rcases r with ⟨_ | a, t⟩
  · exact .broken hf h
  · exact .body hf hk hm h (f a)

/-- Of two steps the second one goes on where the first one succeeds. -/
theorem Takes.bind {step : TryCompile α} {next : α → TryCompile β} {s : Compilation}
    {keys : List Memo.Key} (h : step.Takes note s keys)
    {keys' : α → Compilation → List Memo.Key} (hn : ∀ a t, (next a).Takes note t (keys' a t)) :
    (step >>= next).Takes note s (keys ++ match step.run.run s with
      | (.ok a, t) => keys' a t
      | (.error _, _) => []) := by
  unfold Takes at h ⊢
  rw [run_bind]
  generalize step.run.run s = r at h ⊢
  rcases r with ⟨_ | a, t⟩
  · rw [List.append_nil]
    exact h
  · exact h.append (hn a t)

/-- What is made of a result does not change the course. -/
theorem Takes.map {step : TryCompile α} {s : Compilation} {keys : List Memo.Key}
    (h : step.Takes note s keys) (f : α → β) :
    (step >>= fun a => pure (f a)).Takes note s keys := by
  unfold Takes at h ⊢
  rw [run_bind]
  generalize step.run.run s = r at h ⊢
  rcases r with ⟨_ | a, t⟩ <;> exact h

/-- A traversal walks what its steps walk one after another. -/
theorem takes_mapM {step : α → TryCompile β} {walks : α → Compilation → List Memo.Key}
    (h : ∀ a s, (step a).Takes note s (walks a s)) (g : α → β → γ) (l : List α)
    (s : Compilation) :
    (l.mapM fun a => do pure (g a (← step a))).Takes note s (along step walks l s) := by
  induction l generalizing s with
  | nil => exact takes_pure [] s
  | cons a rest ih =>
    rw [List.mapM_cons, bind_assoc]
    simp only [pure_bind]
    exact (h a s).bind fun b t => (ih t).map fun es => g a b :: es

/-- The steps of a thread walk what they walk one after another. -/
theorem course_of_thread {step : α → TryCompile β} {walks : α → Compilation → List Memo.Key}
    (h : ∀ a s, (step a).Takes note s (walks a s)) {l : List α} {s t : Compilation} {bs : List β}
    (hp : Thread (fun a => (step a).Yields) l s bs t) :
    Memo.Course note s.memo (along step walks l s) true t.memo := by
  have hm := takes_mapM h (fun _ b => b) l s
  simp only [bind_pure] at hm
  rw [Takes, show (l.mapM step).run.run s = (.ok bs, t) from yields_mapM.2 hp] at hm
  exact hm

theorem mem_along {step : α → TryCompile β} {walks : α → Compilation → List Memo.Key} {l : List α}
    {s : Compilation} {key : Memo.Key} (h : key ∈ along step walks l s) :
    ∃ a ∈ l, ∃ t, key ∈ walks a t := by
  induction l generalizing s with
  | nil => cases h
  | cons a rest ih =>
    rcases List.mem_append.1 h with h | h
    · exact ⟨a, List.mem_cons_self, s, h⟩
    · split at h
      · obtain ⟨b, hb, ht⟩ := ih h
        exact ⟨b, List.mem_cons_of_mem _ hb, ht⟩
      · cases h

end TryCompile

end OperationTools
