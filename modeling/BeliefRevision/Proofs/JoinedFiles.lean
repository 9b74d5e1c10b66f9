import BeliefRevision.Proofs.BeliefLines
import BeliefRevision.Proofs.LimitErrors
import BeliefRevision.Proofs.Revision

/-!
# Files put together

To read one file behind another is to read the two one after the other, so a file is read line by line
without any memory of the lines above but their number. A line that cannot be read or added ends the
reading, with the base as the lines above have left it, and it does not matter what comes below.

* `Text.lines_append`, `Text.length_lines` — the lines of files put together, and how many there are
* `readLines_below`, `readLines_append` — lines read further down, and lines read in two parts
* `IgnoresEvents` — what an operation does has nothing to do with the events sent before
* `readLines_counts` — the counts go with what is added
* `readBeliefs_append` — reading one file behind another is reading one after the other
-/

namespace BeliefRevision

/-! ## Lines -/

namespace Text

/-- The last line of the file, if there is any, ends with a newline. -/
def IsComplete (file : List UInt8) : Prop := file = [] ∨ file.getLast? = some newline

/-- A complete file consists of lines with their newlines. -/
theorem IsComplete.exists_lines {file : List UInt8} (h : IsComplete file) :
    ∃ texts : List (List UInt8), (∀ text ∈ texts, newline ∉ text) ∧
      file = texts.flatMap (· ++ [newline]) := by
  induction hlength : file.length using Nat.strongRecOn generalizing file with
  | ind length ih =>
    rcases h with rfl | hlast
    · exact ⟨[], by simp, rfl⟩
    · obtain ⟨text, rest, rfl, htext⟩ := List.eq_append_cons_of_mem (List.mem_of_getLast? hlast)
      have hrest : IsComplete rest := by
        by_cases hempty : rest = []
        · exact .inl hempty
        · have hsplit : text ++ newline :: rest = (text ++ [newline]) ++ rest := by simp
          rw [hsplit, List.getLast?_append_of_ne_nil _ hempty] at hlast
          exact .inr hlast
      have hshorter : rest.length < length := by
        rw [← hlength, List.length_append, List.length_cons]
        omega
      obtain ⟨texts, htexts, rfl⟩ := ih _ hshorter hrest rfl
      refine ⟨text :: texts, List.forall_mem_cons.mpr ⟨htext, htexts⟩, ?_⟩
      rw [List.flatMap_cons, List.append_assoc, List.singleton_append]

theorem lines_flatMap_append {texts : List (List UInt8)} (h : ∀ text ∈ texts, newline ∉ text)
    (rest : List UInt8) : lines (texts.flatMap (· ++ [newline]) ++ rest) = texts ++ lines rest := by
  induction texts with
  | nil => rfl
  | cons text texts ih =>
    obtain ⟨htext, htexts⟩ := List.forall_mem_cons.mp h
    rw [List.flatMap_cons, List.append_assoc, List.append_assoc, List.singleton_append,
      lines_cons htext, ih htexts, List.cons_append]

/-- **Behind a complete file a new line begins.** -/
theorem lines_append {file : List UInt8} (h : IsComplete file) (rest : List UInt8) :
    lines (file ++ rest) = lines file ++ lines rest := by
  obtain ⟨texts, htexts, rfl⟩ := h.exists_lines
  have hlines := lines_flatMap_append htexts []
  rw [List.append_nil, lines, List.append_nil] at hlines
  rw [lines_flatMap_append htexts, hlines]

/-- **A complete file has as many lines as newlines.** -/
theorem length_lines {file : List UInt8} (h : IsComplete file) :
    (lines file).length = file.count newline := by
  obtain ⟨texts, htexts, rfl⟩ := h.exists_lines
  have hlines := lines_flatMap_append htexts []
  rw [List.append_nil, lines, List.append_nil] at hlines
  rw [hlines]
  clear hlines h
  induction texts with
  | nil => rfl
  | cons text texts ih =>
    obtain ⟨htext, htexts⟩ := List.forall_mem_cons.mp htexts
    rw [List.flatMap_cons, List.count_append, List.count_append, List.count_eq_zero_of_not_mem htext,
      ← ih htexts, List.length_cons, List.count_singleton_self]
    omega

end Text

/-! ## Further down in a file -/

/-- The error, as it is reported with so many more lines above. -/
def Error.below (lines : Nat) : Error → Error
  | .malformedLine line => .malformedLine (line + lines)
  | .malformedPriority line => .malformedPriority (line + lines)
  | error => error

namespace FileSummary

/-- What was counted in two parts of a file. -/
instance : Add FileSummary where
  add above below :=
    ⟨above.beliefs + below.beliefs, above.added + below.added, above.duplicates + below.duplicates⟩

theorem add_count (above below : FileSummary) (expansion : Expansion) :
    above + below.count expansion = (above + below).count expansion := by
  cases expansion <;> rfl

/-- Each belief that was read is counted as added or as one that was there. -/
def IsBalanced (summary : FileSummary) : Prop :=
  summary.beliefs = summary.added + summary.duplicates

theorem IsBalanced.count {summary : FileSummary} (h : summary.IsBalanced) (expansion : Expansion) :
    (summary.count expansion).IsBalanced := by
  unfold IsBalanced at h ⊢
  cases expansion <;> dsimp only [FileSummary.count] <;> omega

end FileSummary

theorem BeliefLine.ofBytes_below (number lines : Nat) (bytes : List UInt8) :
    ofBytes (number + lines) bytes = (ofBytes number bytes).mapError (·.below lines) := by
  unfold ofBytes
  cases Text.decode? bytes with
  | none => rfl
  | some text =>
    dsimp only
    generalize Text.trim text = text
    unfold ofText
    split
    · rfl
    · split
      · split
        · split <;> rfl
        · rfl
      · split <;> rfl

namespace Operation

section

variable {α β : Type}

/-- The first operation does what the second one does and counts it on top of what was counted above, and
its errors are those of the second one with so many more lines above. -/
def ReadsBelow (lines : Nat) (above : FileSummary) (x y : Operation FileSummary) : Prop :=
  ∀ s, x s =
    match y s with
    | (.ok below, t) => (.ok (above + below), t)
    | (.error error, t) => (.error (error.below lines), t)

theorem readsBelow_bind {lines : Nat} {above : FileSummary} {x : Operation α}
    {f g : α → Operation FileSummary}
    (hx : ∀ s error t, x s = (.error error, t) → error.below lines = error)
    (hfg : ∀ a, ReadsBelow lines above (f a) (g a)) : ReadsBelow lines above (x >>= f) (x >>= g) := by
  intro s
  rcases hrun : x s with ⟨error | a, t⟩
  · rw [Computation.bind_of_error hrun, Computation.bind_of_error hrun]
    dsimp only
    rw [hx s error t hrun]
  · rw [Computation.bind_of_ok hrun, Computation.bind_of_ok hrun]
    exact hfg a t

end

/-- What an expansion fails with has nothing to do with lines. -/
theorem expandWith_below {φ : Formula} {priority : Nat} {s t : Session} {error : Error}
    (h : expandWith φ priority s = (.error error, t)) (lines : Nat) : error.below lines = error := by
  cases expandWith_run h with
  | invalidPriority => rfl
  | failed _ _ hclauses =>
    rw [Formula.eq_conversionLimit hclauses]
    rfl

/-- **Further down in a file** lines are read in the same way. -/
theorem readLines_below (number above : Nat) (before summary : FileSummary) (lines : List (List UInt8)) :
    ReadsBelow above before (readLines (number + above) (before + summary) lines)
      (readLines number summary lines) := by
  fun_induction readLines number summary lines with
  | case1 => exact fun s => rfl
  | case2 number summary line lines error hline =>
    rw [readLines, BeliefLine.ofBytes_below, hline]
    exact fun s => rfl
  | case3 number summary line lines hline ih =>
    rw [readLines, BeliefLine.ofBytes_below, hline, Nat.add_right_comm]
    exact ih
  | case4 number summary line lines priority φ hline ih =>
    rw [readLines, BeliefLine.ofBytes_below, hline, Nat.add_right_comm]
    exact readsBelow_bind (fun s error t hrun => expandWith_below hrun above) fun expansion =>
      before.add_count summary expansion ▸ ih expansion
  | case5 number summary line lines φ hline ih =>
    rw [readLines, BeliefLine.ofBytes_below, hline, Nat.add_right_comm]
    refine readsBelow_bind (fun s error t hrun => ?_) fun expansion =>
      before.add_count summary expansion ▸ ih expansion
    exact expandWith_below (show expandWith φ s.base.settings.defaultPriority.value s = _ from hrun) above

/-- **Lines are read in two parts** like all of them in one. -/
theorem readLines_append (number : Nat) (summary : FileSummary) (lines more : List (List UInt8)) :
    readLines number summary (lines ++ more) = (do
      let summary ← readLines number summary lines
      readLines (number + lines.length) summary more) := by
  fun_induction readLines number summary lines with
  | case1 => rw [List.nil_append, pure_bind, List.length_nil, Nat.add_zero]
  | case2 number summary line lines error hline =>
    rw [List.cons_append, readLines, hline]
    rfl
  | case3 number summary line lines hline ih =>
    rw [List.cons_append, readLines, hline, ih, List.length_cons, Nat.add_assoc number, Nat.add_comm 1]
  | case4 number summary line lines priority φ hline ih =>
    rw [List.cons_append, readLines, hline, bind_assoc]
    refine bind_congr fun expansion => ?_
    rw [ih, List.length_cons, Nat.add_assoc number, Nat.add_comm 1]
  | case5 number summary line lines φ hline ih =>
    rw [List.cons_append, readLines, hline, bind_assoc]
    refine bind_congr fun expansion => ?_
    rw [ih, List.length_cons, Nat.add_assoc number, Nat.add_comm 1]

/-! ## What was told before -/

section

variable {α β : Type}

/-- The answer and the base afterwards do not depend on the events that were sent before. -/
def IgnoresEvents (x : Operation α) : Prop :=
  ∀ s t : Session, s.base = t.base → (x s).1 = (x t).1 ∧ (x s).2.base = (x t).2.base

/-- An operation runs again, whatever was told before, to the same answer and the same base. -/
theorem IgnoresEvents.rerun {x : Operation α} (hx : IgnoresEvents x) {s t u : Session}
    {answer : Except Error α} (h : x t = (answer, u)) (hbase : s.base = t.base) :
    ∃ v, x s = (answer, v) ∧ v.base = u.base := by
  obtain ⟨hanswer, hafter⟩ := hx s t hbase
  rw [h] at hanswer hafter
  exact ⟨(x s).2, Prod.ext hanswer rfl, hafter⟩

theorem ignoresEvents_bind {x : Operation α} {f : α → Operation β} (hx : IgnoresEvents x)
    (hf : ∀ a, IgnoresEvents (f a)) : IgnoresEvents (x >>= f) := by
  intro s t hbase
  obtain ⟨hanswer, hafter⟩ := hx s t hbase
  rcases hs : x s with ⟨answer, s'⟩
  rcases ht : x t with ⟨answer', t'⟩
  rw [hs, ht] at hanswer hafter
  dsimp only at hanswer hafter
  subst hanswer
  cases answer with
  | error error =>
    rw [Computation.bind_of_error hs, Computation.bind_of_error ht]
    exact ⟨rfl, hafter⟩
  | ok a =>
    rw [Computation.bind_of_ok hs, Computation.bind_of_ok ht]
    exact hf a s' t' hafter

theorem ignoresEvents_pure (a : α) : IgnoresEvents (pure a) := fun _ _ hbase => ⟨rfl, hbase⟩

theorem ignoresEvents_throw (error : Error) : IgnoresEvents (throw error : Operation α) :=
  fun _ _ hbase => ⟨rfl, hbase⟩

theorem ignoresEvents_base : IgnoresEvents base :=
  fun _ _ hbase => ⟨congrArg Except.ok hbase, hbase⟩

theorem ignoresEvents_emit (event : Event) : IgnoresEvents (emit event) := fun _ _ hbase => ⟨rfl, hbase⟩

theorem ignoresEvents_modifyBase (change : Base → Base) : IgnoresEvents (modifyBase change) :=
  fun _ _ hbase => ⟨rfl, congrArg change hbase⟩

end

theorem ignoresEvents_clausesOf (φ : Formula) : IgnoresEvents (clausesOf φ) := by
  intro s t hbase
  rw [clausesOf_run, clausesOf_run, Session.withVocabulary, Session.withVocabulary, hbase]
  exact ⟨rfl, rfl⟩

theorem ignoresEvents_expandWith (φ : Formula) (priority : Nat) :
    IgnoresEvents (expandWith φ priority) := by
  unfold expandWith
  split
  · refine ignoresEvents_bind ignoresEvents_base fun base => ?_
    split
    · exact ignoresEvents_bind (ignoresEvents_emit _) fun _ => ignoresEvents_pure _
    · refine ignoresEvents_bind (ignoresEvents_clausesOf φ) fun clauses => ?_
      refine ignoresEvents_bind (ignoresEvents_modifyBase _) fun _ => ?_
      exact ignoresEvents_bind (ignoresEvents_emit _) fun _ => ignoresEvents_pure _
  · exact ignoresEvents_throw _

theorem ignoresEvents_readLines (number : Nat) (summary : FileSummary) (lines : List (List UInt8)) :
    IgnoresEvents (readLines number summary lines) := by
  fun_induction readLines number summary lines with
  | case1 => exact ignoresEvents_pure _
  | case2 => exact ignoresEvents_throw _
  | case3 number summary line lines hline ih => exact ih
  | case4 number summary line lines priority φ hline ih =>
    exact ignoresEvents_bind (ignoresEvents_expandWith φ priority) ih
  | case5 number summary line lines φ hline ih =>
    refine ignoresEvents_bind ?_ ih
    exact ignoresEvents_bind ignoresEvents_base fun _ => ignoresEvents_expandWith φ _

/-! ## What was counted -/

/-- What an expansion is counted as goes with what it adds. -/
theorem count_of_expandWith {φ : Formula} {priority : Nat} {s t : Session} {expansion : Expansion}
    (h : expandWith φ priority s = (.ok expansion, t)) (summary : FileSummary) :
    t.base.entries.length + summary.added = s.base.entries.length + (summary.count expansion).added := by
  have hlength := congrArg List.length (expandWith_eq_ok h).2
  rw [List.length_append, List.length_map, List.length_map] at hlength
  rw [hlength, Nat.add_assoc, Nat.add_comm _ summary.added]
  cases expansion <;> rfl

/-- The beliefs read are those added and those that were there, and the base grows by those added. -/
theorem readLines_counts {number : Nat} {summary total : FileSummary} {lines : List (List UInt8)}
    {s t : Session} (hsummary : summary.IsBalanced)
    (h : readLines number summary lines s = (.ok total, t)) :
    total.IsBalanced ∧
      t.base.entries.length + summary.added = s.base.entries.length + total.added := by
  fun_induction readLines number summary lines generalizing s with
  | case1 =>
    cases h
    exact ⟨hsummary, rfl⟩
  | case2 => cases h
  | case3 number summary line lines hline ih => exact ih hsummary h
  | case4 number summary line lines priority φ hline ih =>
    obtain ⟨expansion, u, hexpand, hrest⟩ := Computation.bind_eq_ok h
    obtain ⟨htotal, hgrown⟩ := ih expansion (hsummary.count expansion) hrest
    have hadded := count_of_expandWith hexpand summary
    exact ⟨htotal, by omega⟩
  | case5 number summary line lines φ hline ih =>
    obtain ⟨expansion, u, hexpand, hrest⟩ := Computation.bind_eq_ok h
    obtain ⟨htotal, hgrown⟩ := ih expansion (hsummary.count expansion) hrest
    have hadded := count_of_expandWith
      (show expandWith φ s.base.settings.defaultPriority.value s = _ from hexpand) summary
    exact ⟨htotal, by omega⟩

/-! ## Files -/

/-- A file that is read to its end is told about at the end. -/
theorem readBeliefs_eq_ok {file : List UInt8} {summary : FileSummary} {s t : Session} :
    (readBeliefs file).perform s = (.ok summary, t) ↔
      ∃ u, readLines 1 {} (Text.lines file) s = (.ok summary, u) ∧
        (u.send (.beliefsRead summary.beliefs)).send (.beliefsAdded summary.added summary.duplicates) =
          t := by
  show (readLines 1 {} (Text.lines file) >>= _) s = _ ↔ _
  constructor
  · intro h
    obtain ⟨summary', u, hrun, hrest⟩ := Computation.bind_eq_ok h
    cases hrest
    exact ⟨u, hrun, rfl⟩
  · rintro ⟨u, hrun, rfl⟩
    exact Computation.bind_of_ok hrun

/-- A file that is not read to its end is not told about. -/
theorem readBeliefs_eq_error {file : List UInt8} {error : Error} {s t : Session} :
    (readBeliefs file).perform s = (.error error, t) ↔
      readLines 1 {} (Text.lines file) s = (.error error, t) := by
  show (readLines 1 {} (Text.lines file) >>= _) s = _ ↔ _
  rcases hrun : readLines 1 {} (Text.lines file) s with ⟨error' | summary, u⟩
  · rw [Computation.bind_of_error hrun]
  · rw [Computation.bind_of_ok hrun]
    constructor <;> intro h <;> cases h

/-- Behind the lines of a complete file, those of a second file are read as on their own, but for their
numbers. -/
theorem readLines_lines_append {first : List UInt8} (hfirst : Text.IsComplete first)
    (second : List UInt8) {s t : Session} {above : FileSummary}
    (h : readLines 1 {} (Text.lines first) s = (.ok above, t)) :
    readLines 1 {} (Text.lines (first ++ second)) s =
      match readLines 1 {} (Text.lines second) t with
      | (.ok below, u) => (.ok (above + below), u)
      | (.error error, u) => (.error (error.below (first.count Text.newline)), u) := by
  rw [Text.lines_append hfirst, readLines_append, Computation.bind_of_ok h, Text.length_lines hfirst]
  exact readLines_below 1 (first.count Text.newline) above {} (Text.lines second) t

/-- **To read one file behind another is to read them one after the other.** If the first one cannot be
read to its end, nothing of the second one matters. Else what is read of the second one, and the base
that it leaves, are those of a reading of its own, but an error that tells a line tells it further
down. Whatever is read to its end adds as many beliefs as it tells. -/
theorem readBeliefs_append {first : List UInt8} (hfirst : Text.IsComplete first)
    (second : List UInt8) (s : Session) :
    (∀ error t, (readBeliefs first).perform s = (.error error, t) →
      (readBeliefs (first ++ second)).perform s = (.error error, t)) ∧
    (∀ above t, (readBeliefs first).perform s = (.ok above, t) →
      (∀ below u, (readBeliefs second).perform t = (.ok below, u) →
        ∃ v, (readBeliefs (first ++ second)).perform s =
            (.ok ⟨above.beliefs + below.beliefs, above.added + below.added,
              above.duplicates + below.duplicates⟩, v) ∧ v.base = u.base) ∧
      (∀ error u, (readBeliefs second).perform t = (.error error, u) →
        ∃ v, (readBeliefs (first ++ second)).perform s =
            (.error (error.below (first.count Text.newline)), v) ∧ v.base = u.base)) ∧
    (∀ file summary t, (readBeliefs file).perform s = (.ok summary, t) →
      summary.beliefs = summary.added + summary.duplicates ∧
        t.base.entries.length = s.base.entries.length + summary.added) := by
  refine ⟨fun error t hread => ?_, fun above t hread => ?_, fun file summary t hread => ?_⟩
  · rw [readBeliefs_eq_error] at hread ⊢
    rw [Text.lines_append hfirst, readLines_append, Computation.bind_of_error hread]
  · obtain ⟨t', hrun, rfl⟩ := readBeliefs_eq_ok.mp hread
    have hbehind := readLines_lines_append hfirst second hrun
    -- on its own, the second file is read with two more events sent before
    have hignores := ignoresEvents_readLines 1 {} (Text.lines second)
    constructor
    · intro below u hread
      obtain ⟨u', hrun, rfl⟩ := readBeliefs_eq_ok.mp hread
      obtain ⟨v, hrerun, hbase⟩ := hignores.rerun (s := t') hrun rfl
      rw [hrerun] at hbehind
      exact ⟨_, readBeliefs_eq_ok.mpr ⟨v, hbehind, rfl⟩, hbase⟩
    · intro error u hread
      obtain ⟨v, hrerun, hbase⟩ := hignores.rerun (s := t') (readBeliefs_eq_error.mp hread) rfl
      rw [hrerun] at hbehind
      exact ⟨v, readBeliefs_eq_error.mpr hbehind, hbase⟩
  · obtain ⟨u, hrun, rfl⟩ := readBeliefs_eq_ok.mp hread
    have hempty : FileSummary.IsBalanced {} := rfl
    obtain ⟨hbalanced, hgrown⟩ := readLines_counts hempty hrun
    exact ⟨hbalanced, hgrown⟩

/-- Behind a belief and a comment, the belief is there already; and an implication that lacks its second
part on the third line there stands on the fifth line of both. -/
theorem readBeliefs_append_to_comment :
    let first := Text.encode "p\n# q\n"
    let second := Text.encode "p\n1 q\n"
    let third := Text.encode "p\n1 q\np →\nr"
    Text.IsComplete first ∧
      (∃ u, (readBeliefs (first ++ second)).perform {} = (.ok ⟨3, 2, 1⟩, u) ∧
        u.base.entries.length = 2) ∧
      (∃ u, (readBeliefs (first ++ third)).perform {} = (.error (.malformedLine 5), u) ∧
        u.base.entries.length = 2) := by
  intro first second third
  have hfirst : Text.IsComplete first := .inr (by decide +kernel)
  have hlines : first.count Text.newline = 2 := by decide +kernel
  let t := ((readBeliefs first).perform {}).2
  have hread : (readBeliefs first).perform {} = (.ok ⟨1, 1, 0⟩, t) := Prod.ext (by decide +kernel) rfl
  refine ⟨hfirst, ?_, ?_⟩
  · have hsecond : (readBeliefs second).perform t =
        (.ok ⟨2, 1, 1⟩, ((readBeliefs second).perform t).2) := Prod.ext (by decide +kernel) rfl
    obtain ⟨u, happend, hbase⟩ :=
      ((readBeliefs_append hfirst second {}).2.1 _ _ hread).1 _ _ hsecond
    refine ⟨u, happend, ?_⟩
    rw [hbase]
    decide +kernel
  · have hthird : (readBeliefs third).perform t =
        (.error (.malformedLine 3), ((readBeliefs third).perform t).2) :=
      Prod.ext (by decide +kernel) rfl
    obtain ⟨u, happend, hbase⟩ :=
      ((readBeliefs_append hfirst third {}).2.1 _ _ hread).2 _ _ hthird
    refine ⟨u, by rwa [hlines] at happend, ?_⟩
    rw [hbase]
    decide +kernel

end Operation

end BeliefRevision
