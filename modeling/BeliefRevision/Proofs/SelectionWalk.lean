import BeliefRevision.Proofs.Selections
import Mathlib.Data.List.Induction
import Mathlib.Data.Nat.PSub

/-!
# Selections one after the other

The selections of a size can also be gone through with nothing in hand but the present one. To get the next
one, the last position that has room moves up by one, and all positions behind it move up close to it.
Nothing in the lists themselves ensures that a place exists or that a difference is no negative number: a
walk that comes upon such a thing breaks off.

* `SelectionWalk` — the walk, with all that it may break off at
* `successor?`, `moveLast?_eq` — what a move comes to, by recursion on the list
* `Visits`, `visits_selectionsFrom` — from successor to successor through all selections of a size
* `walk_exact` — a walk gives out the selections, each of them once and in order, and nothing after them

A position has room if the ones behind it, moved up close, still stay below the bound. So the positions
without room are those at the end of the list that stand as far up as they can, and the recursion for the
successor sees them first.
-/

namespace BeliefRevision

/-! ## The walk -/

/-- The list with another value at a place, which it must have. -/
def putAt? (positions : List Nat) (place value : Nat) : Option (List Nat) :=
  if place < positions.length then some (positions.set place value) else none

/-- Moves the position behind a place close to the one at the place. -/
def closeUp? (positions : List Nat) (place : Nat) : Option (List Nat) := do
  let before ← positions[place]?
  putAt? positions (place + 1) (before + 1)

/-- Moves the position at a place up by one, and all those behind it close to it. -/
def moveUp? (positions : List Nat) (place : Nat) : Option (List Nat) := do
  let position ← positions[place]?
  let moved ← putAt? positions place (position + 1)
  (List.range' place (positions.length - (place + 1))).foldlM closeUp? moved

/-- Moves up the last of the positions before a place that has room below `count`, if any of them has. -/
def moveLast? (count : Nat) (positions : List Nat) : Nat → Option (Option (List Nat))
  | 0 => some none
  | place + 1 => do
    let position ← positions[place]?
    let spare ← Nat.psub count positions.length
    if position < spare + place then (moveUp? positions place).map some
    else moveLast? count positions place

/-- A walk through the selections of one size. -/
structure SelectionWalk where
  /-- All positions are below this number. -/
  count : Nat
  /-- The selection that is given out next, or was the last one. -/
  positions : List Nat
  /-- Nothing is left to be given out. -/
  exhausted : Bool

namespace SelectionWalk

/-- In front of the first selection. -/
def start (count size : Nat) : SelectionWalk := ⟨count, List.range size, decide (count < size)⟩

/-- Gives out a selection, unless the walk is exhausted, and goes on to the next one. -/
def next (walk : SelectionWalk) : Option (Option (List Nat) × SelectionWalk) :=
  if walk.exhausted then some (none, walk)
  else
    (moveLast? walk.count walk.positions walk.positions.length).map fun
      | some positions => (some walk.positions, { walk with positions })
      | none => (some walk.positions, { walk with exhausted := true })

/-- What a number of calls give out, one after the other. -/
def answers : Nat → SelectionWalk → Option (List (Option (List Nat)))
  | 0, _ => some []
  | calls + 1, walk => do
    let (answer, walk) ← walk.next
    let others ← answers calls walk
    pure (answer :: others)

end SelectionWalk

/-! ## Successors -/

/-- The next list of as many positions below `bound`, in lexicographic order. -/
def successor? (bound : Nat) : List Nat → Option (List Nat)
  | [] => none
  | first :: rest =>
    ((successor? bound rest).map (first :: ·)).or
      (if first + 1 + rest.length < bound then some (List.range' (first + 1) (rest.length + 1)) else none)

theorem successor?_append {bound : Nat} {back moved : List Nat}
    (h : successor? bound back = some moved) (front : List Nat) :
    successor? bound (front ++ back) = some (front ++ moved) := by
  induction front with
  | nil => exact h
  | cons first front ih =>
    rw [List.cons_append, successor?, ih]
    rfl

theorem closeUp?_split (front back : List Nat) (position other : Nat) :
    closeUp? (front ++ position :: other :: back) front.length =
      some (front ++ position :: (position + 1) :: back) := by
  simp [closeUp?, putAt?]

/-- Each position moved close stands one behind the one before it. -/
theorem closeUp?_all (front back : List Nat) (position : Nat) :
    (List.range' front.length back.length).foldlM closeUp? (front ++ position :: back) =
      some (front ++ List.range' position (back.length + 1)) := by
  induction back generalizing front position with
  | nil => rfl
  | cons other back ih =>
    have hfront : front.length + 1 = (front ++ [position]).length := by simp
    have hmoved : front ++ position :: (position + 1) :: back =
        (front ++ [position]) ++ (position + 1) :: back := by simp
    rw [List.length_cons, List.range'_succ, List.foldlM_cons, closeUp?_split, Option.bind_eq_bind,
      Option.bind_some, hfront, hmoved, ih, List.range'_succ (s := position), List.append_assoc]
    rfl

theorem moveUp?_split (front back : List Nat) (position : Nat) :
    moveUp? (front ++ position :: back) front.length =
      some (front ++ List.range' (position + 1) (back.length + 1)) := by
  have hget : (front ++ position :: back)[front.length]? = some position := by simp
  have hput : putAt? (front ++ position :: back) front.length (position + 1) =
      some (front ++ (position + 1) :: back) := by
    simp [putAt?]
  have hbehind : (front ++ position :: back).length - (front.length + 1) = back.length := by
    simp only [List.length_append, List.length_cons]
    omega
  simp only [moveUp?, hget, hput, Option.bind_eq_bind, Option.bind_some, hbehind]
  exact closeUp?_all front back (position + 1)

/-- Where the positions behind a place have no room, the place is looked at next. -/
theorem moveLast?_split {count : Nat} (front back : List Nat)
    (hlength : (front ++ back).length ≤ count) (hback : successor? count back = none) :
    moveLast? count (front ++ back) front.length = some (successor? count (front ++ back)) := by
  induction front using List.reverseRecOn generalizing back with
  | nil => exact congrArg some hback.symm
  | append_singleton front position ih =>
    have hsplit : (front ++ [position]) ++ back = front ++ position :: back := by simp
    have hget : (front ++ position :: back)[front.length]? = some position := by simp
    rw [hsplit] at hlength
    have hsum : (front ++ position :: back).length = front.length + (back.length + 1) := by simp
    rw [hsplit, List.length_append, List.length_singleton, moveLast?, hget,
      Nat.psub_eq_sub hlength, hsum, Option.bind_eq_bind, Option.bind_some, Option.bind_some]
    by_cases hroom : position + 1 + back.length < count
    · have hmoved : successor? count (position :: back) =
          some (List.range' (position + 1) (back.length + 1)) := by
        rw [successor?, hback, if_pos hroom]
        rfl
      rw [if_pos (by omega), moveUp?_split, successor?_append hmoved]
      rfl
    · have hnone : successor? count (position :: back) = none := by
        rw [successor?, hback, if_neg hroom]
        rfl
      rw [if_neg (by omega)]
      exact ih (position :: back) hlength hnone

/-- **A move gives the successor**, and nothing is missing for it. -/
theorem moveLast?_eq {count : Nat} {positions : List Nat} (h : positions.length ≤ count) :
    moveLast? count positions positions.length = some (successor? count positions) := by
  have hwithin : (positions ++ []).length ≤ count := by rwa [List.append_nil]
  have hsplit := moveLast?_split positions [] hwithin rfl
  rwa [List.append_nil] at hsplit

/-! ## From successor to successor -/

/-- To go from a list, if there is one, from successor to successor until there is none is to come by these
lists. -/
inductive Visits (bound : Nat) : Option (List Nat) → List (List Nat) → Prop where
  | done : Visits bound none []
  | item {positions : List Nat} {others : List (List Nat)}
      (h : Visits bound (successor? bound positions) others) :
      Visits bound (some positions) (positions :: others)

/-- The lists that begin with `first` are visited until there is no successor behind `first`, and then those
in which the first position has moved up. -/
theorem Visits.cons {bound first size : Nat} {present : Option (List Nat)}
    {items others : List (List Nat)} (h : Visits bound present items)
    (hsize : ∀ positions ∈ items, positions.length = size)
    (hothers : Visits bound (if first + 1 + size < bound then some (List.range' (first + 1) (size + 1))
      else none) others) :
    Visits bound
      ((present.map (first :: ·)).or
        (if first + 1 + size < bound then some (List.range' (first + 1) (size + 1)) else none))
      (items.map (first :: ·) ++ others) := by
  induction h with
  | done => exact hothers
  | @item positions items _ ih =>
    obtain ⟨hpositions, hitems⟩ := List.forall_mem_cons.mp hsize
    refine .item ?_
    rw [successor?, hpositions]
    exact ih hitems

/-- **The selections are visited from successor to successor.** -/
theorem visits_selectionsFrom (start count size : Nat) :
    Visits (start + count) (if size ≤ count then some (List.range' start size) else none)
      (selectionsFrom start count size).toList := by
  fun_induction selectionsFrom start count size with
  | case1 count start =>
    rw [if_pos (Nat.zero_le count)]
    exact .item .done
  | case2 start size =>
    rw [if_neg (Nat.not_succ_le_zero size)]
    exact .done
  | case3 start count size hlt =>
    rw [if_neg (by omega)]
    exact .done
  | case4 start count size hle ihwith ihwithout =>
    have hwithin : size ≤ count := Nat.le_of_not_lt hle
    have hbound : start + 1 + count = start + (count + 1) := by omega
    rw [hbound, if_pos hwithin] at ihwith
    have hroom : size + 1 ≤ count ↔ start + 1 + size < start + (count + 1) := by omega
    rw [hbound] at ihwithout
    simp only [hroom] at ihwithout
    rw [if_pos (Nat.succ_le_succ hwithin), Enumeration.toList_append, Enumeration.toList_map]
    exact ihwith.cons (fun positions hmem => (mem_selectionsFrom.mp hmem).1) ihwithout

/-! ## What a walk gives out -/

namespace SelectionWalk

/-- The selection that the next call gives out. -/
def upcoming (walk : SelectionWalk) : Option (List Nat) :=
  if walk.exhausted then none else some walk.positions

theorem next_exhausted {walk : SelectionWalk} (h : walk.upcoming = none) :
    walk.next = some (none, walk) := by
  unfold upcoming at h
  by_cases hexhausted : walk.exhausted = true
  · rw [next, if_pos hexhausted]
  · rw [if_neg hexhausted] at h
    cases h

/-- A call gives out what is upcoming and goes on to the successor of it. -/
theorem next_upcoming {walk : SelectionWalk} {positions : List Nat}
    (h : walk.upcoming = some positions) (hlength : positions.length ≤ walk.count) :
    ∃ walk', walk.next = some (some positions, walk') ∧ walk'.count = walk.count ∧
      walk'.upcoming = successor? walk.count positions := by
  unfold upcoming at h
  by_cases hexhausted : walk.exhausted = true
  · rw [if_pos hexhausted] at h
    cases h
  · rw [if_neg hexhausted] at h
    cases h
    rw [next, if_neg hexhausted, moveLast?_eq hlength]
    cases successor? walk.count walk.positions with
    | none => exact ⟨_, rfl, rfl, rfl⟩
    | some moved => exact ⟨_, rfl, rfl, if_neg hexhausted⟩

/-- **A walk gives out the lists that are visited**, and nothing after them. -/
theorem answers_of_visits {walk : SelectionWalk} {items : List (List Nat)}
    (h : Visits walk.count walk.upcoming items)
    (hlength : ∀ positions ∈ items, positions.length ≤ walk.count) (calls : Nat) :
    walk.answers calls = some ((List.range calls).map (items[·]?)) := by
  induction calls generalizing walk items with
  | zero => rfl
  | succ calls ih =>
    rw [answers, List.range_succ_eq_map, List.map_cons, List.map_map]
    generalize hupcoming : walk.upcoming = present at h
    cases h with
    | done =>
      have hdone : Visits walk.count walk.upcoming [] := hupcoming ▸ .done
      rw [next_exhausted hupcoming, Option.bind_eq_bind, Option.bind_some]
      dsimp only
      rw [ih hdone (by simp)]
      rfl
    | @item positions others h =>
      obtain ⟨hpositions, hothers⟩ := List.forall_mem_cons.mp hlength
      obtain ⟨walk', hnext, hcount, hupcoming'⟩ := next_upcoming hupcoming hpositions
      rw [← hupcoming', ← hcount] at h
      rw [← hcount] at hothers
      rw [hnext, Option.bind_eq_bind, Option.bind_some]
      dsimp only
      rw [ih h hothers]
      rfl

theorem upcoming_start (count size : Nat) :
    (start count size).upcoming = if size ≤ count then some (List.range size) else none := by
  unfold upcoming start
  by_cases hwithin : size ≤ count
  · rw [if_neg (by simpa using hwithin), if_pos hwithin]
  · rw [if_pos (by simpa using hwithin), if_neg hwithin]

/-- From the start the selections of the size are visited. -/
theorem visits_start (count size : Nat) :
    Visits (start count size).count (start count size).upcoming (selections count size).toList := by
  have hvisits := visits_selectionsFrom 0 count size
  rw [Nat.zero_add, ← List.range_eq_range'] at hvisits
  rw [upcoming_start]
  exact hvisits

end SelectionWalk

/-- **A walk gives out the selections of a size, one after the other.** It never breaks off, whatever the two
numbers are: it looks at no place that a list does not have, and takes no number from a smaller one. What
its calls give out are the ascending lists of `size` numbers below `count`, all of them, each of them once
and in lexicographic order, and after them nothing, however many calls follow. With a size above `count`
they give out nothing at all. -/
theorem walk_exact (count size : Nat) :
    let items := (selections count size).toList
    (∀ calls, (SelectionWalk.start count size).answers calls =
        some ((List.range calls).map (items[·]?))) ∧
      (∀ positions, positions ∈ items ↔ IsSelection count positions ∧ positions.length = size) ∧
      items.Pairwise (· < ·) ∧ items.Nodup ∧ (count < size → items = []) := by
  intro items
  have hlength : ∀ positions ∈ items, positions.length ≤ count :=
    fun positions hmem => (mem_selections.mp hmem).1.length_le
  have hordered : items.Pairwise (· < ·) := selections_ascending count size
  refine ⟨fun calls => ?_, fun positions => mem_selections, hordered, ?_, selectionsFrom_of_lt 0⟩
  · exact SelectionWalk.answers_of_visits (SelectionWalk.visits_start count size) hlength calls
  · refine hordered.imp fun {left right} hlt hsame => ?_
    subst hsame
    exact List.lt_irrefl left hlt

/-- Two numbers of four, with two calls too many, and three numbers of two. -/
theorem walk_exact_of_pairs :
    (SelectionWalk.start 4 2).answers 8 = some [some [0, 1], some [0, 2], some [0, 3], some [1, 2],
        some [1, 3], some [2, 3], none, none] ∧
      2 < 3 ∧ (selections 2 3).toList = [] := by
  obtain ⟨hcalls, _⟩ := walk_exact 4 2
  obtain ⟨_, _, _, _, hnone⟩ := walk_exact 2 3
  exact ⟨hcalls 8, by decide, hnone (by decide)⟩

end BeliefRevision
