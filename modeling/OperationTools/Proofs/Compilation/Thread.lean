import Mathlib.Order.Defs.PartialOrder
import OperationTools.Compilation.State

/-!
# Threads of compilation steps

A step yields a result from a state and leaves another state. Steps over a list form a thread: each
takes the state that the one before it left. Memos are ordered by what is found in them, so that a
step that only keeps validators leaves a larger memo.

## Main definitions

* `Compile.Yields`, `TryCompile.Yields`: a step succeeds with a result and a state
* `Thread`: steps over a list
* `Memo.Agrees`: two memos keep no different validators under one key
* `TryCompile.Total`: a step that never fails

## Main results

* `yields_mapM_iff_thread`: a traversal yields what its thread does
* `Thread.exists_map`: where a repeated step repeats its result, a thread is a function of its items
-/

namespace OperationTools

variable {α β γ δ : Type}

/-! ## The order of memos -/

namespace Memo

/-- A memo is below another one that finds everything it finds. -/
instance : Preorder Memo where
  le memo other := ∀ key v, memo.find? key = some v → other.find? key = some v
  le_refl _ _ _ h := h
  le_trans _ _ _ h h' key v hv := h' key v (h key v hv)

theorem find?_of_le {memo other : Memo} (h : memo ≤ other) {key : Key} {v : Validator}
    (hv : memo.find? key = some v) : other.find? key = some v := h key v hv

theorem le_keep (memo : Memo) (key : Key) (v : Validator) : memo ≤ memo.keep key v := by
  intro other w hw
  simp [find?_keep, hw]

/-- What is found after a validator was kept was found before, or is that validator. -/
theorem find?_keep_cases {memo : Memo} {key k : Key} {v w : Validator}
    (h : (memo.keep key v).find? k = some w) : memo.find? k = some w ∨ k = key ∧ w = v := by
  rw [find?_keep] at h
  rcases Option.or_eq_some_iff.1 h with h | ⟨-, h⟩
  · exact .inl h
  · by_cases hk : k = key
    · rw [if_pos hk] at h
      exact .inr ⟨hk, (Option.some.inj h).symm⟩
    · rw [if_neg hk] at h
      cases h

/-- Something is found under the key of a validator that was kept. -/
theorem find?_keep_self (memo : Memo) (key : Key) (v : Validator) :
    ∃ w, (memo.keep key v).find? key = some w := by
  rw [find?_keep, if_pos rfl]
  cases memo.find? key with
  | none => exact ⟨v, rfl⟩
  | some w => exact ⟨w, rfl⟩

/-- Where nothing was found before, the validator that was kept is found. -/
theorem find?_keep_of_none {memo : Memo} {key : Key} (h : memo.find? key = none) (v : Validator) :
    (memo.keep key v).find? key = some v := by
  rw [find?_keep, h, Option.none_or, if_pos rfl]

/-- Whatever is kept under one key in both memos is the same. -/
def Agrees (memo other : Memo) : Prop :=
  ∀ key v w, memo.find? key = some v → other.find? key = some w → v = w

/-- Keeping what the other memo keeps leaves the memos in agreement. -/
theorem Agrees.keep {memo other : Memo} (h : memo.Agrees other) {key : Key} {v : Validator}
    (hv : other.find? key = some v) : (memo.keep key v).Agrees other := by
  intro k w w' hw hw'
  rcases find?_keep_cases hw with hw | ⟨rfl, rfl⟩
  · exact h k w w' hw hw'
  · exact Option.some.inj (hv.symm.trans hw')

/-- How a memo that was filled before relates to one that is filled from the beginning: it keeps
something for all that is kept there, and nothing in it differs from what is kept in the end. -/
structure Ahead (bound memo filled : Memo) : Prop where
  covers : ∀ k v, memo.find? k = some v → ∃ w, filled.find? k = some w
  agrees : filled.Agrees bound

/-- What is found in the end is found in a memo that was filled before, unless it is not kept
yet. -/
theorem Ahead.find? {bound memo filled : Memo} (h : Ahead bound memo filled) (hle : memo ≤ bound)
    {key : Key} {v : Validator} (hv : memo.find? key = some v) : filled.find? key = some v := by
  obtain ⟨w, hw⟩ := h.covers key v hv
  rw [hw, h.agrees key w v hw (find?_of_le hle hv)]

theorem Ahead.congr {bound memo filled memo' filled' : Memo} (h : Ahead bound memo filled)
    (hm : ∀ k, memo'.find? k = memo.find? k) (hf : ∀ k, filled'.find? k = filled.find? k) :
    Ahead bound memo' filled' where
  covers k v hv := by
    rw [hm] at hv
    rw [hf]
    exact h.covers k v hv
  agrees k v w hv hw := by
    rw [hf] at hv
    exact h.agrees k v w hv hw

/-- Both memos keep what is kept in the end. -/
theorem Ahead.keep {bound memo filled : Memo} (h : Ahead bound memo filled) {key : Key}
    {v : Validator} (hv : bound.find? key = some v) :
    Ahead bound (memo.keep key v) (filled.keep key v) where
  covers k w hw := by
    rcases find?_keep_cases hw with hw | ⟨rfl, rfl⟩
    · obtain ⟨x, hx⟩ := h.covers k w hw
      exact ⟨x, find?_of_le (le_keep filled key v) hx⟩
    · exact find?_keep_self filled k w
  agrees := h.agrees.keep hv

end Memo

/-! ## Results of steps -/

/-- Steps over a list, each from the state that the one before it left. -/
inductive Thread (R : α → Compilation → β → Compilation → Prop) :
    List α → Compilation → List β → Compilation → Prop where
  | nil (s : Compilation) : Thread R [] s [] s
  | cons {a : α} {l : List α} {b : β} {bs : List β} {s t u : Compilation}
      (head : R a s b t) (tail : Thread R l t bs u) : Thread R (a :: l) s (b :: bs) u

namespace Compile

/-- The step has a result and leaves a state. -/
def Yields (step : Compile α) (s : Compilation) (a : α) (t : Compilation) : Prop :=
  step.run s = (a, t)

theorem Yields.unique {step : Compile α} {s t u : Compilation} {a b : α}
    (h : step.Yields s a t) (h' : step.Yields s b u) : a = b ∧ t = u :=
  Prod.mk.inj (h.symm.trans h')

theorem yields_pure {a b : α} {s t : Compilation} :
    Yields (pure a) s b t ↔ b = a ∧ t = s := by
  show (a, s) = (b, t) ↔ _
  simp [eq_comm]

theorem yields_bind {step : Compile α} {next : α → Compile β} {s u : Compilation} {b : β} :
    Yields (step >>= next) s b u ↔ ∃ a t, step.Yields s a t ∧ (next a).Yields t b u := by
  simp only [Yields, StateT.run_bind]
  constructor
  · intro h
    exact ⟨_, _, rfl, h⟩
  · rintro ⟨a, t, ha, h⟩
    rw [ha]
    exact h

theorem yields_kept? {key : Memo.Key} {s t : Compilation} {v? : Option Validator} :
    (kept? key).Yields s v? t ↔ v? = s.memo.find? key ∧ t = s := by
  rw [Yields, run_kept?, Prod.mk.injEq, eq_comm, @eq_comm _ s]

/-- What follows a look-up goes by what is found. -/
theorem yields_kept?_bind {key : Memo.Key} {next : Option Validator → Compile Validator}
    {s t : Compilation} {v : Validator} :
    (kept? key >>= next).Yields s v t ↔ (next (s.memo.find? key)).Yields s v t := by
  rw [yields_bind]
  constructor
  · rintro ⟨v?, u, h, hn⟩
    obtain ⟨rfl, rfl⟩ := yields_kept?.1 h
    exact hn
  · intro hn
    exact ⟨_, s, yields_kept?.2 ⟨rfl, rfl⟩, hn⟩

theorem yields_keep {key : Memo.Key} {s t : Compilation} {v w : Validator} :
    (keep key v).Yields s w t ↔ w = v ∧ t = { s with memo := s.memo.keep key v } := by
  rw [Yields, run_keep, Prod.mk.injEq, eq_comm, @eq_comm _ _ t]

end Compile

namespace TryCompile

/-- The step succeeds with a result and leaves a state. -/
def Yields (step : TryCompile α) (s : Compilation) (a : α) (t : Compilation) : Prop :=
  step.run.run s = (.ok a, t)

theorem Yields.unique {step : TryCompile α} {s t u : Compilation} {a b : α}
    (h : step.Yields s a t) (h' : step.Yields s b u) : a = b ∧ t = u := by
  obtain ⟨ha, ht⟩ := Prod.mk.inj (h.symm.trans h')
  exact ⟨Except.ok.inj ha, ht⟩

/-- What a run from a memo on ends with is yielded from the state of that memo. -/
theorem yields_of_runOn {step : TryCompile α} {memo filled : Memo} {a : α} {log : List Notice}
    (h : Compile.runOn step.run memo = (.ok a, filled, log)) :
    step.Yields { memo } a { memo := filled, log } := by
  obtain ⟨ha, ht⟩ := Prod.mk.inj h
  obtain ⟨rfl, rfl⟩ := Prod.mk.inj ht
  exact Prod.ext ha rfl

theorem yields_pure {a b : α} {s t : Compilation} :
    Yields (pure a) s b t ↔ b = a ∧ t = s := by
  show (Except.ok a, s) = (Except.ok b, t) ↔ _
  simp [eq_comm]

theorem not_yields_throw {e : UnreadableEnum} {a : α} {s t : Compilation} :
    ¬ Yields (throw e) s a t := by
  show ¬ (Except.error e, s) = (Except.ok a, t)
  simp

/-- A step that cannot fail. -/
theorem yields_lift {step : Compile α} {a : α} {s t : Compilation} :
    Yields (liftM step) s a t ↔ step.Yields s a t := by
  have hr : (liftM step : TryCompile α).run.run s = ((.ok (step.run s).1), (step.run s).2) := rfl
  rw [Yields, hr, Compile.Yields]
  constructor
  · intro h
    obtain ⟨ha, ht⟩ := Prod.mk.inj h
    exact Prod.ext (Except.ok.inj ha) ht
  · intro h
    rw [h]

theorem yields_bind {step : TryCompile α} {next : α → TryCompile β} {s u : Compilation} {b : β} :
    Yields (step >>= next) s b u ↔ ∃ a t, step.Yields s a t ∧ (next a).Yields t b u := by
  simp only [Yields, run_bind]
  constructor
  · intro h
    split at h
    · exact ⟨_, _, by assumption, h⟩
    · cases h
  · rintro ⟨a, t, ha, h⟩
    rw [ha]
    exact h

/-- What follows a look-up goes by what is found. -/
theorem yields_kept?_bind {key : Memo.Key} {next : Option Validator → TryCompile Validator}
    {s t : Compilation} {v : Validator} :
    (liftM (Compile.kept? key) >>= next).Yields s v t ↔
      (next (s.memo.find? key)).Yields s v t := by
  rw [yields_bind]
  constructor
  · rintro ⟨v?, u, h, hn⟩
    obtain ⟨rfl, rfl⟩ := Compile.yields_kept?.1 (yields_lift.1 h)
    exact hn
  · intro hn
    exact ⟨_, s, yields_lift.2 (Compile.yields_kept?.2 ⟨rfl, rfl⟩), hn⟩

end TryCompile

/-! ## Threads -/

namespace Thread

variable {R : α → Compilation → β → Compilation → Prop}

theorem append_iff {l l' : List α} {bs : List β} {s t : Compilation} :
    Thread R (l ++ l') s bs t ↔
      ∃ cs ds u, bs = cs ++ ds ∧ Thread R l s cs u ∧ Thread R l' u ds t := by
  induction l generalizing s bs with
  | nil =>
    constructor
    · intro h
      exact ⟨[], bs, s, rfl, .nil s, h⟩
    · rintro ⟨cs, ds, u, rfl, ⟨⟩, h⟩
      exact h
  | cons a l ih =>
    constructor
    · intro h
      cases h with
      | cons head tail =>
        obtain ⟨cs, ds, u, rfl, hcs, hds⟩ := ih.1 tail
        exact ⟨_ :: cs, ds, u, rfl, .cons head hcs, hds⟩
    · rintro ⟨cs, ds, u, rfl, hcs, hds⟩
      cases hcs with
      | cons head tail => exact .cons head (ih.2 ⟨_, _, _, rfl, tail, hds⟩)

theorem length_eq {l : List α} {bs : List β} {s t : Compilation} (h : Thread R l s bs t) :
    bs.length = l.length := by
  induction h with
  | nil => rfl
  | cons head tail ih => simp [ih]

/-- The steps of a thread may be replaced by others at its items. -/
theorem mono {R' : α → Compilation → β → Compilation → Prop} {l : List α} {bs : List β}
    {s t : Compilation} (h : Thread R l s bs t) (hm : ∀ a ∈ l, ∀ s b t, R a s b t → R' a s b t) :
    Thread R' l s bs t := by
  induction h with
  | nil s => exact .nil s
  | cons head tail ih =>
    exact .cons (hm _ List.mem_cons_self _ _ _ head)
      (ih fun a ha => hm a (List.mem_cons_of_mem _ ha))

/-- What every step keeps, a thread keeps. -/
theorem preserves {P : Compilation → Prop} {l : List α} {bs : List β} {s t : Compilation}
    (h : Thread R l s bs t) (step : ∀ a s b t, R a s b t → P s → P t) (hs : P s) : P t := by
  induction h with
  | nil => exact hs
  | cons head tail ih => exact ih (step _ _ _ _ head hs)

/-- What every step with the result of the thread at its item keeps, the thread keeps. -/
theorem preserves_map {P : Compilation → Prop} {l : List α} {c : α → β} {s t : Compilation}
    (h : Thread R l s (l.map c) t)
    (step : ∀ a ∈ l, ∀ s t, R a s (c a) t → P s → P t) (hs : P s) : P t := by
  induction l generalizing s with
  | nil =>
    cases h
    exact hs
  | cons a l ih =>
    cases h with
    | cons head tail =>
      apply ih tail fun a ha => step a (List.mem_cons_of_mem _ ha)
      exact step a List.mem_cons_self _ _ head hs

/-- A thread of growing steps leaves a larger memo. -/
theorem memo_le {l : List α} {bs : List β} {s t : Compilation} (h : Thread R l s bs t)
    (step : ∀ a s b t, R a s b t → s.memo ≤ t.memo) : s.memo ≤ t.memo := by
  induction h with
  | nil => exact le_rfl
  | cons head tail ih => exact le_trans (step _ _ _ _ head) ih

/-- What holds of every result with the memo that its step left, and lasts, holds of all results in
the end. -/
theorem preserves_and {P : Compilation → Prop} {Q : Memo → α → β → Prop} {l : List α} {c : α → β}
    {s t : Compilation} (h : Thread R l s (l.map c) t)
    (grows : ∀ a s b t, R a s b t → s.memo ≤ t.memo)
    (lasts : ∀ m m' a b, m ≤ m' → Q m a b → Q m' a b)
    (step : ∀ a s b t, R a s b t → P s → P t ∧ Q t.memo a b) (hs : P s) :
    P t ∧ ∀ a ∈ l, Q t.memo a (c a) := by
  -- induction on the items: what holds of the first result outlasts all later steps
  induction l generalizing s with
  | nil =>
    cases h
    exact ⟨hs, by simp⟩
  | cons a l ih =>
    cases h with
    | cons head tail =>
      obtain ⟨hp, hq⟩ := step _ _ _ _ head hs
      obtain ⟨hp', hq'⟩ := ih tail hp
      refine ⟨hp', fun x hx => ?_⟩
      rcases List.mem_cons.1 hx with rfl | hx
      · exact lasts _ _ _ _ (tail.memo_le grows) hq
      · exact hq' x hx

/-- A thread that stays below a memo is followed by another one with the same results, if single
steps are followed and keep the states related. -/
theorem exists_following {R' : α → Compilation → β → Compilation → Prop}
    {I : Compilation → Compilation → Prop} {bound : Memo} {l : List α} {bs : List β}
    {s t s' : Compilation} (h : Thread R l s bs t)
    (grows : ∀ a s b t, R a s b t → s.memo ≤ t.memo) (hle : t.memo ≤ bound)
    (step : ∀ a s b t s', R a s b t → t.memo ≤ bound → I s s' → ∃ t', R' a s' b t' ∧ I t t')
    (hs : I s s') : ∃ t', Thread R' l s' bs t' ∧ I t t' := by
  induction h generalizing s' with
  | nil => exact ⟨s', .nil s', hs⟩
  | cons head tail ih =>
    obtain ⟨u, head', hu⟩ := step _ _ _ _ _ head (le_trans (tail.memo_le grows) hle) hs
    obtain ⟨t', tail', ht⟩ := ih hle hu
    exact ⟨t', .cons head' tail', ht⟩

/-- Two threads over the same items keep their states related if single steps do. -/
theorem lockstep {R' : α → Compilation → γ → Compilation → Prop}
    {I : Compilation → Compilation → Prop} {l : List α} {bs : List β} {cs : List γ}
    {s t s' t' : Compilation} (h : Thread R l s bs t) (h' : Thread R' l s' cs t')
    (step : ∀ a s b t s' c t', R a s b t → R' a s' c t' → I s s' → I t t') (hs : I s s') :
    I t t' := by
  induction h generalizing s' cs with
  | nil =>
    cases h'
    exact hs
  | cons head tail ih =>
    cases h' with
    | cons head' tail' => exact ih tail' (step _ _ _ _ _ _ _ head head' hs)

/-- Two threads over the same items whose states are related have related results, item by item. -/
theorem lockstep_and {R' : α → Compilation → γ → Compilation → Prop}
    {I : Compilation → Compilation → Prop} {Q : α → β → γ → Prop} {l : List α} {b : α → β}
    {c : α → γ} {s t s' t' : Compilation} (h : Thread R l s (l.map b) t)
    (h' : Thread R' l s' (l.map c) t')
    (step : ∀ a s b t s' c t', R a s b t → R' a s' c t' → I s s' → Q a b c ∧ I t t')
    (hs : I s s') : (∀ a ∈ l, Q a (b a) (c a)) ∧ I t t' := by
  induction l generalizing s s' with
  | nil =>
    cases h
    cases h'
    exact ⟨by simp, hs⟩
  | cons a l ih =>
    cases h with
    | cons head tail =>
      cases h' with
      | cons head' tail' =>
        obtain ⟨hq, hi⟩ := step _ _ _ _ _ _ _ head head' hs
        obtain ⟨hall, hi⟩ := ih tail tail' hi
        exact ⟨List.forall_mem_cons.2 ⟨hq, hall⟩, hi⟩

/-- A thread that adorns the results of another one. -/
theorem adorned_iff {S : γ → Compilation → β → Compilation → Prop} {f : α → γ} {g : α → β → δ}
    {l : List α} {es : List δ} {s t : Compilation} :
    Thread (fun a s e t => ∃ b, S (f a) s b t ∧ e = g a b) l s es t ↔
      ∃ bs, Thread S (l.map f) s bs t ∧ es = List.zipWith g l bs := by
  induction l generalizing s es with
  | nil =>
    constructor
    · rintro ⟨⟩
      exact ⟨[], .nil _, rfl⟩
    · rintro ⟨bs, ⟨⟩, rfl⟩
      exact .nil _
  | cons a l ih =>
    constructor
    · intro h
      cases h with
      | cons head tail =>
        obtain ⟨b, hb, rfl⟩ := head
        obtain ⟨bs, hbs, rfl⟩ := ih.1 tail
        exact ⟨b :: bs, .cons hb hbs, rfl⟩
    · rintro ⟨bs, h, rfl⟩
      cases h with
      | cons head tail => exact .cons ⟨_, head, rfl⟩ (ih.2 ⟨_, tail, rfl⟩)

/-- Steps that repeat their result whenever they are taken again, as long as `P` holds, have results
that depend on the item alone. -/
theorem exists_map [DecidableEq α] [Inhabited β] {P : Compilation → Prop} {l : List α}
    {bs : List β} {s t : Compilation} (h : Thread R l s bs t)
    (grows : ∀ a s b t, R a s b t → s.memo ≤ t.memo) (keeps : ∀ a s b t, R a s b t → P s → P t)
    (again : ∀ a s b t b' u u', P s → R a s b t → t.memo ≤ u.memo → P u → R a u b' u' → b' = b)
    (hs : P s) :
    ∃ c : α → β, bs = l.map c ∧
      ∀ a ∈ l, ∃ s' t', P s' ∧ s.memo ≤ s'.memo ∧ t'.memo ≤ t.memo ∧ R a s' (c a) t' := by
  -- from the end: the results of the later steps are a function already
  induction h with
  | nil s => exact ⟨fun _ => default, rfl, by simp⟩
  | @cons a l b bs s t u head tail ih =>
    obtain ⟨c, rfl, hc⟩ := ih (keeps _ _ _ _ head hs)
    have ht : t.memo ≤ u.memo := tail.memo_le grows
    have hst : s.memo ≤ t.memo := grows _ _ _ _ head
    by_cases ha : a ∈ l
    · obtain ⟨s', t', hs', hle, -, hr⟩ := hc a ha
      have hb : c a = b := again _ _ _ _ _ _ _ hs head hle hs' hr
      refine ⟨c, by rw [List.map_cons, hb], fun x hx => ?_⟩
      have hx' : x ∈ l := by
        rcases List.mem_cons.1 hx with rfl | hx
        · exact ha
        · exact hx
      obtain ⟨s', t', hs', hle, hle', hr⟩ := hc x hx'
      exact ⟨s', t', hs', le_trans hst hle, hle', hr⟩
    · refine ⟨fun x => if x = a then b else c x, ?_, fun x hx => ?_⟩
      · rw [List.map_cons, if_pos rfl]
        congr 1
        apply List.map_congr_left
        intro x hx
        rw [if_neg (fun he : x = a => ha (he ▸ hx))]
      · rcases List.mem_cons.1 hx with rfl | hx
        · exact ⟨s, t, hs, le_rfl, ht, by simpa using head⟩
        · obtain ⟨s', t', hs', hle, hle', hr⟩ := hc x hx
          have hxa : x ≠ a := fun he => ha (he ▸ hx)
          exact ⟨s', t', hs', le_trans hst hle, hle', by simpa [hxa] using hr⟩

end Thread

/-! ## Traversals -/

section Traversals

variable {m : Type → Type} [Monad m] [LawfulMonad m]
  {Y : ∀ {α : Type}, m α → Compilation → α → Compilation → Prop}
  (yields_pure : ∀ {α : Type} {a b : α} {s t : Compilation}, Y (pure a) s b t ↔ b = a ∧ t = s)
  (yields_bind : ∀ {α β : Type} {step : m α} {next : α → m β} {s u : Compilation} {b : β},
    Y (step >>= next) s b u ↔ ∃ a t, Y step s a t ∧ Y (next a) t b u)

include yields_pure yields_bind

/-- A traversal is a thread of its steps, in every monad whose steps yield results one after
another. -/
theorem yields_mapM_iff_thread {step : α → m β} {l : List α} {s t : Compilation} {bs : List β} :
    Y (l.mapM step) s bs t ↔ Thread (fun a => Y (step a)) l s bs t := by
  induction l generalizing s bs with
  | nil =>
    rw [List.mapM_nil, yields_pure]
    constructor
    · rintro ⟨rfl, rfl⟩
      exact .nil _
    · rintro ⟨⟩
      exact ⟨rfl, rfl⟩
  | cons a l ih =>
    simp only [List.mapM_cons, yields_bind, yields_pure]
    constructor
    · rintro ⟨b, u, hb, cs, v, hcs, rfl, rfl⟩
      exact .cons hb (ih.1 hcs)
    · intro h
      cases h with
      | cons head tail => exact ⟨_, _, head, _, _, ih.2 tail, rfl, rfl⟩

/-- A traversal that adorns the results of its steps. -/
theorem yields_adorned_iff_thread {step : γ → m β} {f : α → γ} {g : α → β → δ} {l : List α}
    {s t : Compilation} {es : List δ} :
    Y (l.mapM fun a => do pure (g a (← step (f a)))) s es t ↔
      ∃ bs, Thread (fun c => Y (step c)) (l.map f) s bs t ∧ es = List.zipWith g l bs := by
  have hstep : (fun a => Y (do pure (g a (← step (f a))))) =
      fun a s e t => ∃ b, Y (step (f a)) s b t ∧ e = g a b := by
    funext a s e t
    simp only [yields_bind, yields_pure, eq_iff_iff]
    constructor
    · rintro ⟨b, u, hb, he, rfl⟩
      exact ⟨b, hb, he⟩
    · rintro ⟨b, hb, he⟩
      exact ⟨b, t, hb, he, rfl⟩
  rw [yields_mapM_iff_thread yields_pure yields_bind, hstep]
  exact Thread.adorned_iff (S := fun c => Y (step c))

end Traversals

namespace Compile

theorem yields_mapM {step : α → Compile β} {l : List α} {s t : Compilation} {bs : List β} :
    Yields (l.mapM step) s bs t ↔ Thread (fun a => (step a).Yields) l s bs t :=
  yields_mapM_iff_thread yields_pure yields_bind

theorem yields_mapM_adorned {step : γ → Compile β} {f : α → γ} {g : α → β → δ} {l : List α}
    {s t : Compilation} {es : List δ} :
    Yields (l.mapM fun a => do pure (g a (← step (f a)))) s es t ↔
      ∃ bs, Thread (fun c => (step c).Yields) (l.map f) s bs t ∧ es = List.zipWith g l bs :=
  yields_adorned_iff_thread yields_pure yields_bind

end Compile

namespace TryCompile

theorem yields_mapM {step : α → TryCompile β} {l : List α} {s t : Compilation} {bs : List β} :
    Yields (l.mapM step) s bs t ↔ Thread (fun a => (step a).Yields) l s bs t :=
  yields_mapM_iff_thread yields_pure yields_bind

theorem yields_mapM_adorned {step : γ → TryCompile β} {f : α → γ} {g : α → β → δ} {l : List α}
    {s t : Compilation} {es : List δ} :
    Yields (l.mapM fun a => do pure (g a (← step (f a)))) s es t ↔
      ∃ bs, Thread (fun c => (step c).Yields) (l.map f) s bs t ∧ es = List.zipWith g l bs :=
  yields_adorned_iff_thread yields_pure yields_bind

/-! ### Steps that never fail -/

/-- The step succeeds from every state. -/
def Total (step : TryCompile α) : Prop := ∀ s, ∃ a t, step.Yields s a t

theorem total_pure (a : α) : Total (pure a) := fun s => ⟨a, s, yields_pure.2 ⟨rfl, rfl⟩⟩

theorem total_lift (step : Compile α) : Total (liftM step) :=
  fun s => ⟨(step.run s).1, (step.run s).2, yields_lift.2 rfl⟩

theorem Total.bind {step : TryCompile α} {next : α → TryCompile β} (h : step.Total)
    (hn : ∀ a, (next a).Total) : (step >>= next).Total := by
  intro s
  obtain ⟨a, t, ha⟩ := h s
  obtain ⟨b, u, hb⟩ := hn a t
  exact ⟨b, u, yields_bind.2 ⟨a, t, ha, hb⟩⟩

theorem total_mapM {step : α → TryCompile β} {l : List α} (h : ∀ a ∈ l, (step a).Total) :
    (l.mapM step).Total := by
  induction l with
  | nil => exact total_pure []
  | cons a rest ih =>
    rw [List.mapM_cons]
    exact (h a List.mem_cons_self).bind fun b =>
      (ih fun a ha => h a (List.mem_cons_of_mem _ ha)).bind fun bs => total_pure (b :: bs)

/-- A step that never fails has a result from every memo on. -/
theorem Total.exists_ok {step : TryCompile α} (h : step.Total) (memo : Memo) :
    ∃ a, (Compile.runOn step.run memo).1 = .ok a := by
  obtain ⟨a, t, ha⟩ := h { memo }
  exact ⟨a, congrArg Prod.fst ha⟩

end TryCompile

end OperationTools
