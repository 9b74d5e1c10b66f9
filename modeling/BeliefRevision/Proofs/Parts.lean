import BeliefRevision.CommandLine
import BeliefRevision.Proofs.Computation

/-!
# Parts of a run

A run is made of parts that write lines and work on the base, the first failure being the end. What a
part comes to is said of both ways it can end, and carried over from part to part.

* `Ensures` — what a part comes to, from some state on
* `ensures_bind`, `ensures_perform`, `ensures_foldlM` — parts made of parts
-/

namespace BeliefRevision.CommandLine

variable {α β : Type}

/-- From the state `before`, the part ends with an answer and a state as in `Good`, or with a failure
and a state as in `Bad`. -/
def Ensures (part : Run α) (before : Progress) (Good : α → Progress → Prop)
    (Bad : Failure → Progress → Prop) : Prop :=
  match part before with
  | (.ok a, after) => Good a after
  | (.error failure, after) => Bad failure after

variable {before : Progress} {Good Better : α → Progress → Prop} {Goal : β → Progress → Prop}
  {Bad Worse : Failure → Progress → Prop} {x : Run α}

theorem ensures_pure {a : α} : Ensures (pure a) before Good Bad ↔ Good a before := Iff.rfl

theorem ensures_throw {failure : Failure} :
    Ensures (throw failure) before Good Bad ↔ Bad failure before := Iff.rfl

theorem ensures_write {line : String} {Good : Unit → Progress → Prop} :
    Ensures (Run.write line) before Good Bad ↔
      Good () { before with lines := before.lines ++ [line] } := Iff.rfl

theorem ensures_writeAll {lines : List String} {Good : Unit → Progress → Prop} :
    Ensures (Run.writeAll lines) before Good Bad ↔
      Good () { before with lines := before.lines ++ lines } := Iff.rfl

theorem ensures_base {Good : Base → Progress → Prop} :
    Ensures Run.base before Good Bad ↔ Good before.session.base before := Iff.rfl

theorem ensures_begin {settings : Settings} {Good : Unit → Progress → Prop} :
    Ensures (Run.begin settings) before Good Bad ↔
      Good () { before with session := { base := { settings } } } := Iff.rfl

/-- Two parts one after the other. -/
theorem ensures_bind {f : α → Run β}
    (h : Ensures x before (fun a after => Ensures (f a) after Goal Bad) Bad) :
    Ensures (x >>= f) before Goal Bad := by
  unfold Ensures at h
  rcases hrun : x before with ⟨failure | a, after⟩
  · rw [hrun] at h
    rw [Ensures, Computation.bind_of_error hrun]
    exact h
  · rw [hrun] at h
    rw [Ensures, Computation.bind_of_ok hrun]
    exact h

theorem Ensures.mono (h : Ensures x before Good Bad) (hgood : ∀ a after, Good a after → Better a after)
    (hbad : ∀ failure after, Bad failure after → Worse failure after) :
    Ensures x before Better Worse := by
  unfold Ensures at *
  rcases hrun : x before with ⟨failure | a, after⟩
  · rw [hrun] at h
    exact hbad failure after h
  · rw [hrun] at h
    exact hgood a after h

/-- An operation that is tried, whatever comes of it. -/
theorem ensures_attempt {operation : Operation α} {Good : Except Error α → Progress → Prop}
    (h : ∀ outcome s, operation.perform before.session = (outcome, s) →
      Good outcome { before with session := s }) :
    Ensures (Run.attempt operation) before Good Bad := h _ _ rfl

/-- An operation whose error is a failure of the run. -/
theorem ensures_perform {operation : Operation α} {failure : Error → Failure}
    (hgood : ∀ a s, operation.perform before.session = (.ok a, s) →
      Good a { before with session := s })
    (hbad : ∀ error s, operation.perform before.session = (.error error, s) →
      Bad (failure error) { before with session := s }) :
    Ensures (Run.perform operation failure) before Good Bad := by
  refine ensures_bind (ensures_attempt fun outcome s hrun => ?_)
  cases outcome with
  | error error => exact hbad error s hrun
  | ok a => exact hgood a s hrun

/-- What every step keeps of the items already seen. -/
theorem ensures_foldlM {ι : Type} {step : α → ι → Run α} {items : List ι} {start : α}
    (Inv : List ι → α → Progress → Prop)
    (hstep : ∀ seen item a before, item ∈ items → Inv seen a before →
      Ensures (step a item) before (Inv (seen ++ [item])) Bad)
    (hstart : Inv [] start before) : Ensures (items.foldlM step start) before (Inv items) Bad := by
  -- the induction is on the items that are left, behind those already seen
  have hrest (rest seen : List ι) (hseen : seen ++ rest = items) (a : α) (before : Progress)
      (hinv : Inv seen a before) : Ensures (rest.foldlM step a) before (Inv items) Bad := by
    induction rest generalizing seen a before with
    | nil =>
      rw [List.append_nil] at hseen
      exact hseen ▸ hinv
    | cons item rest ih =>
      rw [List.foldlM_cons]
      have hitem : item ∈ items := hseen ▸ List.mem_append_right _ List.mem_cons_self
      refine ensures_bind ((hstep seen item a before hitem hinv).mono ?_ fun _ _ => id)
      intro next after hafter
      exact ih (seen ++ [item]) (by rw [List.append_assoc]; exact hseen) next after hafter
  exact hrest items [] (List.nil_append items) start before hstart

theorem forM_eq_foldlM {ι : Type} (step : ι → Run Unit) (items : List ι) :
    items.forM step = items.foldlM (fun _ item => step item) () := by
  induction items with
  | nil => rfl
  | cons item rest ih =>
    rw [List.foldlM_cons]
    exact congrArg (step item >>= ·) (funext fun _ => ih)

end BeliefRevision.CommandLine
