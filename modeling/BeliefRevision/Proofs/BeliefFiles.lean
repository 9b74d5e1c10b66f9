import BeliefRevision.Proofs.BeliefLines
import BeliefRevision.Proofs.Renumbering
import BeliefRevision.Proofs.Representation
import BeliefRevision.Proofs.Revision

/-!
# Written bases are read back

A base is written as a belief file, which an empty base reads. There is nothing that could go wrong: every
line is a belief, no formula comes twice, the priorities are those of beliefs, and the conversions
succeed since they did so before. Only the names may get other numbers.

* `expandWith_of_new`, `readLines_display` — beliefs are added one after the other
* `Session.AddedWithin` — beliefs that were added under some limit
* `readBeliefs_display` — a base that was written is read back
-/

namespace BeliefRevision

/-! ## Adding beliefs -/

namespace Operation

/-- What is not believed yet and can be converted is added. -/
theorem expandWith_of_new {φ : Formula} {priority : Nat} {s : Session} {clauses : ClauseSet}
    {w : Vocabulary} (hpriority : Parameter.defaultPriority.Admits priority)
    (hnew : φ ∉ s.base.formulas)
    (hclauses : φ.clauses s.base.settings.clauseLimit.value s.base.vocabulary = (.ok clauses, w)) :
    ∃ t, expandWith φ priority s = (.ok .added, t) := by
  rcases h : expandWith φ priority s with ⟨result, t⟩
  cases expandWith_run h with
  | invalidPriority hnot => exact absurd hpriority hnot
  | duplicate _ hmem => exact absurd hmem hnew
  | failed _ _ hfailed =>
    rw [hclauses] at hfailed
    cases hfailed
  | added => exact ⟨_, rfl⟩

/-- The formula could be converted under the limit, from whatever vocabulary. -/
def Convertible (limit : Nat) (φ : Formula) : Prop :=
  ∀ v, ∃ clauses w, φ.clauses limit v = (.ok clauses, w)

/-- **The lines of beliefs are read as these beliefs**, all of which are added. -/
theorem readLines_display {entries : List Entry} {s : Session}
    (hadmitted : ∀ entry ∈ entries, Parameter.defaultPriority.Admits entry.priority)
    (hnames : ∀ entry ∈ entries, ∀ name ∈ entry.formula.names, IsAtomName name)
    (hconvertible : ∀ entry ∈ entries,
      Convertible s.base.settings.clauseLimit.value entry.formula)
    (hdistinct : (s.base.formulas ++ entries.map Entry.formula).Nodup)
    (number : Nat) (summary : FileSummary) :
    ∃ t, readLines number summary (entries.map fun entry => Text.encode entry.display) s =
        (.ok { summary with
          beliefs := summary.beliefs + entries.length
          added := summary.added + entries.length }, t) ∧
      t.base.entries.map Entry.belief = s.base.entries.map Entry.belief ++ entries.map Entry.belief := by
  induction entries generalizing s number summary with
  | nil => exact ⟨s, rfl, (List.append_nil _).symm⟩
  | cons entry rest ih =>
    obtain ⟨hpriority, hadmitted⟩ := List.forall_mem_cons.mp hadmitted
    obtain ⟨hname, hnames⟩ := List.forall_mem_cons.mp hnames
    obtain ⟨hfirst, hconvertible⟩ := List.forall_mem_cons.mp hconvertible
    have hnew : entry.formula ∉ s.base.formulas := by
      intro hmem
      exact (List.nodup_append.mp hdistinct).2.2 _ hmem _ (List.mem_cons_self ..) rfl
    obtain ⟨clauses, w, hclauses⟩ := hfirst s.base.vocabulary
    obtain ⟨t, hexpand⟩ := expandWith_of_new hpriority hnew hclauses
    have hsettings : t.base.settings = s.base.settings := by
      have hsteps := proceeds_expandWith entry.formula entry.priority s
      rw [hexpand] at hsteps
      exact hsteps.settings
    obtain ⟨_, hbeliefs⟩ := expandWith_eq_ok hexpand
    rw [if_pos rfl] at hbeliefs
    have hformulas : t.base.formulas = s.base.formulas ++ [entry.formula] := by
      have hfirsts := congrArg (List.map Prod.fst) hbeliefs
      simpa [Base.formulas, Entry.belief, Function.comp_def] using hfirsts
    obtain ⟨u, hread, hrest⟩ := ih (s := t) hadmitted hnames (hsettings ▸ hconvertible)
      (by simpa [hformulas] using hdistinct) (number + 1) (summary.count .added)
    refine ⟨u, ?_, ?_⟩
    · rw [List.map_cons, readLines, BeliefLine.ofBytes_display number hpriority hname]
      show (expandWith entry.formula entry.priority >>= _) s = _
      rw [Computation.bind_of_ok hexpand, hread]
      simp only [FileSummary.count, List.length_cons]
      simp only [Nat.add_assoc, Nat.add_comm 1]
    · rw [hrest, hbeliefs, List.map_cons, List.append_assoc]
      rfl

end Operation

/-! ## Reading back -/

/-- The belief was added at a moment when no more than `limit` clauses were allowed. -/
def Session.AddedWithin (start : Session) (actions : List Action) (limit : Nat) (entry : Entry) : Prop :=
  ∃ earlier action later, actions = earlier ++ action :: later ∧
    action.Announces (start.afterAll earlier) entry ∧
    (start.afterAll earlier).base.settings.clauseLimit.value ≤ limit

theorem Session.AddedWithin.convertible {start : Session} {actions : List Action} {limit : Nat}
    {entry : Entry} (h : start.AddedWithin actions limit entry) :
    Operation.Convertible limit entry.formula := by
  obtain ⟨earlier, action, later, _, hannounces, hlimit⟩ := h
  obtain ⟨clauses, hclauses⟩ := hannounces.converted
  intro v
  obtain ⟨others, hothers⟩ :=
    Formula.converts_elsewhere (Formula.clauses_of_limit_le hclauses hlimit) v
  exact ⟨others, _, hothers⟩

theorem Base.lines_display {base : Base}
    (hnames : ∀ entry ∈ base.entries, ∀ name ∈ entry.formula.names, IsAtomName name) :
    Text.lines (Text.encode base.display) =
      base.entries.map fun entry => Text.encode entry.display := by
  have hdisplay : base.display = String.join ((base.entries.map Entry.display).map (· ++ "\n")) := by
    rw [display, List.map_map]
    rfl
  rw [hdisplay, Text.lines_join, List.map_map]
  · rfl
  · rw [List.forall_mem_map]
    exact fun entry hentry => Entry.newline_not_mem_display (hnames entry hentry)

theorem forall₂_belief {entries copies : List Entry}
    (h : copies.map Entry.belief = entries.map Entry.belief) :
    List.Forall₂ (fun entry copy => copy.belief = entry.belief) entries copies := by
  have hequal : List.Forall₂ (flip Eq) (entries.map Entry.belief) (copies.map Entry.belief) := by
    rw [h, List.forall₂_same]
    exact fun _ _ => rfl
  rwa [List.forall₂_map_left_iff, List.forall₂_map_right_iff] at hequal

/-- **A base that was written is read back.** Take any actions on an empty base, failed ones included,
after which all names can be read, and any base without beliefs, whatever its settings and vocabulary,
that allows as many clauses as were allowed when each belief was added. Reading succeeds there and
adds every belief: the same formulas with the same priorities in the same order. Their clauses are the
same, too, but for the numbers of the names. -/
theorem readBeliefs_display (settings : Settings) (actions : List Action) (t : Session) :
    let start : Session := { base := { settings } }
    let s := start.afterAll actions
    (∀ entry ∈ s.base.entries, ∀ name ∈ entry.formula.names, IsAtomName name) →
    t.base.entries = [] →
    (∀ entry ∈ s.base.entries,
      start.AddedWithin actions t.base.settings.clauseLimit.value entry) →
      ∃ u, (Operation.readBeliefs (Text.encode s.base.display)).perform t =
          (.ok ⟨s.base.entries.length, s.base.entries.length, 0⟩, u) ∧
        List.Forall₂ (fun entry copy => copy.belief = entry.belief ∧
          entry.clauses.SameByName s.base.vocabulary u.base.vocabulary copy.clauses)
          s.base.entries u.base.entries := by
  intro start s hnames hempty hadded
  have hs : s.Reachable := (Session.Reachable.start settings).afterAll actions
  have hlines := Base.lines_display hnames
  have hdistinct : (t.base.formulas ++ s.base.entries.map Entry.formula).Nodup := by
    rw [Base.formulas, hempty]
    exact hs.tidy.distinct
  obtain ⟨u, hread, hbeliefs⟩ := Operation.readLines_display hs.tidy.admitted hnames
    (fun entry hentry => (hadded entry hentry).convertible) hdistinct 1 {}
  rw [hempty, List.map_nil, List.nil_append] at hbeliefs
  have hrun : (Operation.readBeliefs (Text.encode s.base.display)).perform t =
      (.ok ⟨s.base.entries.length, s.base.entries.length, 0⟩,
        (u.send (.beliefsRead s.base.entries.length)).send
          (.beliefsAdded s.base.entries.length 0)) := by
    show (Operation.readLines 1 {} (Text.lines (Text.encode s.base.display)) >>= _) t = _
    rw [hlines, Computation.bind_of_ok hread]
    simp only [Nat.zero_add]
    rfl
  refine ⟨_, hrun, ?_⟩
  -- what was stored there comes from conversions, as what is stored here
  have hrecorded : ∀ copy ∈ u.base.entries, copy.formula.clauses t.base.settings.clauseLimit.value
      u.base.vocabulary = (.ok copy.clauses, u.base.vocabulary) := by
    have hsteps := Operation.proceeds_readLines 1 {} (Text.lines (Text.encode s.base.display)) t
    rw [hlines, hread] at hsteps
    intro copy hcopy
    refine (Session.Steps.recorded hsteps hcopy).resolve_left ?_
    rw [hempty]
    exact List.not_mem_nil
  have hpairs := forall₂_belief hbeliefs
  refine List.forall₂_iff_zip.mpr ⟨hpairs.length_eq, fun {entry copy} hpair => ?_⟩
  obtain ⟨hentry, hcopy⟩ := List.of_mem_zip hpair
  have hsame : copy.belief = entry.belief := (List.forall₂_iff_zip.mp hpairs).2 hpair
  refine ⟨hsame, ?_⟩
  obtain ⟨limit, hclauses⟩ := hs.recorded entry hentry
  have hformula : copy.formula = entry.formula := congrArg Prod.fst hsame
  exact Formula.clauses_sameByName hclauses (hformula ▸ hrecorded copy hcopy)

/-- Two beliefs that were added under limits of 4 and of 1, read under a limit of 4 by a base that knows
one of the names. -/
theorem readBeliefs_display_under_limits :
    let φ : Formula := .binary .or (.binary .and (.atom "a") (.atom "b"))
      (.binary .and (.atom "c") (.atom "d"))
    let ψ : Formula := .binary .implies (.atom "d") (.not (.atom "a"))
    let actions : List Action := [.configure (.clauseLimit 4), .expandWith φ 7,
      .configure (.clauseLimit 1), .expandWith ψ 4294967295]
    let s := Session.afterAll {} actions
    let t : Session :=
      { base := { settings := { clauseLimit := ⟨4, by decide⟩ }, vocabulary := ⟨["d"], by decide⟩ } }
    s.base.display = "7 (a ∧ b) ∨ (c ∧ d)\n4294967295 d → ¬a\n" ∧
      ∃ u, (Operation.readBeliefs (Text.encode s.base.display)).perform t = (.ok ⟨2, 2, 0⟩, u) ∧
        List.Forall₂ (fun entry copy => copy.belief = entry.belief ∧
          entry.clauses.SameByName s.base.vocabulary u.base.vocabulary copy.clauses)
          s.base.entries u.base.entries := by
  intro φ ψ actions s t
  have hbeliefs : s.base.entries.map Entry.belief = [(φ, 7), (ψ, 4294967295)] := by decide +kernel
  have hbelief {entry : Entry} (hentry : entry ∈ s.base.entries) :
      entry.belief = (φ, 7) ∨ entry.belief = (ψ, 4294967295) := by
    have hmem := List.mem_map_of_mem (f := Entry.belief) hentry
    rwa [hbeliefs, List.mem_pair] at hmem
  have hlength : s.base.entries.length = 2 := by simpa using congrArg List.length hbeliefs
  have hnames : ∀ entry ∈ s.base.entries, ∀ name ∈ entry.formula.names, IsAtomName name := by
    have hall : ∀ belief ∈ s.base.entries.map Entry.belief, ∀ name ∈ belief.1.names,
        IsAtomName name := by
      rw [hbeliefs]
      decide
    exact List.forall_mem_map.mp hall
  have hadded : ∀ entry ∈ s.base.entries, Session.AddedWithin {} actions 4 entry := by
    intro entry hentry
    rcases hbelief hentry with h | h
    · obtain ⟨hformula, hpriority⟩ := Prod.mk.inj h
      refine ⟨[.configure (.clauseLimit 4)], .expandWith φ 7, _, rfl, ⟨[.added φ 7], ?_, ?_⟩, ?_⟩
      · decide +kernel
      · rw [hformula, hpriority]
        exact List.mem_singleton_self _
      · decide +kernel
    · obtain ⟨hformula, hpriority⟩ := Prod.mk.inj h
      refine ⟨[.configure (.clauseLimit 4), .expandWith φ 7, .configure (.clauseLimit 1)],
        .expandWith ψ 4294967295, [], rfl, ⟨[.added ψ 4294967295], ?_, ?_⟩, ?_⟩
      · decide +kernel
      · rw [hformula, hpriority]
        exact List.mem_singleton_self _
      · decide +kernel
  obtain ⟨u, hrun, hcopies⟩ := readBeliefs_display {} actions t hnames rfl hadded
  rw [hlength] at hrun
  exact ⟨by decide +kernel, u, hrun, hcopies⟩

end BeliefRevision
