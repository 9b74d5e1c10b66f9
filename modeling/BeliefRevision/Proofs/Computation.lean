/-!
# Computations that change a state and may fail

How two computations run one after the other: the second one starts where the first one ends, and is
not begun when the first one fails. A failure keeps the state that was reached.

* `bind_of_ok`, `bind_of_error` — the two cases, and `bind_eq_ok` — back from an answer
* `bind_congr_run` — two first computations that end alike
* `lift_run`, `lift_ne_failure` — a computation among others that may fail in another way
* `foldlM_invariant` — what a fold knows of the items it has gone through
* `foldlM_succeeds` — a fold whose steps cannot fail
-/

namespace BeliefRevision.Computation

variable {ε σ α β : Type} {x : ExceptT ε (StateM σ) α} {f : α → ExceptT ε (StateM σ) β} {s t : σ}

theorem bind_of_ok {a : α} (h : x s = (.ok a, t)) : (x >>= f) s = f a t := by
  show ExceptT.bindCont f (x s).1 (x s).2 = f a t
  rw [h]
  rfl

theorem bind_of_error {e : ε} (h : x s = (.error e, t)) : (x >>= f) s = (.error e, t) := by
  show ExceptT.bindCont f (x s).1 (x s).2 = (.error e, t)
  rw [h]
  rfl

/-- What follows two computations with the same end goes on in the same way. -/
theorem bind_congr_run {y : ExceptT ε (StateM σ) α} (h : x s = y s) :
    (x >>= f) s = (y >>= f) s := by
  show ExceptT.bindCont f (x s).1 (x s).2 = ExceptT.bindCont f (y s).1 (y s).2
  rw [h]

/-- Where both answer, the second one goes on from where the first one ended. -/
theorem bind_eq_ok {b : β} {u : σ} (h : (x >>= f) s = (.ok b, u)) :
    ∃ a t, x s = (.ok a, t) ∧ f a t = (.ok b, u) := by
  rcases hrun : x s with ⟨error | a, t⟩
  · rw [bind_of_error hrun] at h
    cases h
  · rw [bind_of_ok hrun] at h
    exact ⟨a, t, rfl, h⟩

/-- A lifted computation ends like the computation. -/
theorem lift_run {δ : Type} (x : ExceptT ε (StateM σ) α) (s : σ) :
    (ExceptT.lift x : ExceptT δ (ExceptT ε (StateM σ)) α) s = ((x s).1.map .ok, (x s).2) := by
  show (Except.ok <$> x : ExceptT ε (StateM σ) (Except δ α)) s = _
  rw [← bind_pure_comp]
  rcases hx : x s with ⟨error | a, t⟩
  · rw [bind_of_error hx]
    rfl
  · rw [bind_of_ok hx]
    rfl

/-- A lifted computation fails in no other way than the computation does. -/
theorem lift_ne_failure {δ : Type} (x : ExceptT ε (StateM σ) α) (s : σ) (failure : δ) :
    ((ExceptT.lift x : ExceptT δ (ExceptT ε (StateM σ)) α) s).1 ≠ .ok (.error failure) := by
  rw [lift_run]
  cases (x s).1 with
  | error error => simp [Except.map]
  | ok a => simp [Except.map]

/-! ## Folds that may fail -/

/-- What holds before the first item, and is kept by a look at one more item, holds after all of them. -/
theorem foldlM_invariant {ι : Type} {step : β → ι → Except ε β} {items : List ι}
    {start result : β} (Inv : List ι → β → Prop)
    (hstep : ∀ seen item rest before after, seen ++ item :: rest = items → Inv seen before →
      step before item = .ok after → Inv (seen ++ [item]) after)
    (hstart : Inv [] start) (h : items.foldlM step start = .ok result) : Inv items result := by
  -- the induction is on the items that are left, behind those already seen
  have hrest : ∀ (rest seen : List ι) (before : β), seen ++ rest = items → Inv seen before →
      rest.foldlM step before = .ok result → Inv items result := by
    intro rest
    induction rest with
    | nil =>
      intro seen before hseen hinv hfold
      cases hfold
      rwa [← hseen, List.append_nil]
    | cons item rest ih =>
      intro seen before hseen hinv hfold
      rw [List.foldlM_cons] at hfold
      cases hafter : step before item with
      | error error =>
        rw [hafter] at hfold
        cases hfold
      | ok after =>
        rw [hafter] at hfold
        refine ih (seen ++ [item]) after ?_ (hstep seen item rest before after hseen hinv hafter) hfold
        rw [← hseen, List.append_assoc, List.singleton_append]
  exact hrest items [] start (List.nil_append items) hstart h

/-- A fold succeeds if every step does, wherever it starts. -/
theorem foldlM_succeeds {ι : Type} {step : β → ι → Except ε β} {items : List ι}
    (h : ∀ item ∈ items, ∀ before, ∃ after, step before item = .ok after) (start : β) :
    ∃ result, items.foldlM step start = .ok result := by
  induction items generalizing start with
  | nil => exact ⟨start, rfl⟩
  | cons item items ih =>
    obtain ⟨hitem, hitems⟩ := List.forall_mem_cons.mp h
    obtain ⟨after, hafter⟩ := hitem start
    rw [List.foldlM_cons, hafter]
    exact ih hitems after

end BeliefRevision.Computation
