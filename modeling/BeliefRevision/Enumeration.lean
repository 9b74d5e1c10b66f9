/-!
# Enumerations

An enumeration is a list whose rest is computed only when it is asked for. It serves for collections
that are too large to be held, of which often only the beginning is needed.
-/

namespace BeliefRevision

universe u v

/-- A finite sequence of items, each rest of which is computed on demand. -/
inductive Enumeration (α : Type u) where
  | done
  | item (first : α) (rest : Unit → Enumeration α)

namespace Enumeration

variable {α : Type u} {β : Type v}

/-- All items in order. -/
def toList : Enumeration α → List α
  | .done => []
  | .item first rest => first :: (rest ()).toList

/-- The items of the first enumeration, then those of the second. -/
def append : Enumeration α → (Unit → Enumeration α) → Enumeration α
  | .done, second => second ()
  | .item first rest, second => .item first fun _ => (rest ()).append second

/-- The images of the items. -/
def map (f : α → β) : Enumeration α → Enumeration β
  | .done => .done
  | .item first rest => .item (f first) fun _ => (rest ()).map f

/-- The first `count` items, and the enumeration of the others. -/
def splitAt : Nat → Enumeration α → List α × Enumeration α
  | 0, items => ([], items)
  | _ + 1, .done => ([], .done)
  | count + 1, .item first rest =>
    let (taken, others) := splitAt count (rest ())
    (first :: taken, others)

/-- The first item, unless there is none. -/
def head? : Enumeration α → Option α
  | .done => none
  | .item first _ => some first

@[simp] theorem toList_append (items : Enumeration α) (second : Unit → Enumeration α) :
    (items.append second).toList = items.toList ++ (second ()).toList := by
  induction items with
  | done => rfl
  | item first rest ih => simp [append, toList, ih]

@[simp] theorem toList_map (f : α → β) (items : Enumeration α) :
    (items.map f).toList = items.toList.map f := by
  induction items with
  | done => rfl
  | item first rest ih => simp [map, toList, ih]

theorem splitAt_toList (count : Nat) (items : Enumeration α) :
    (items.splitAt count).1 ++ (items.splitAt count).2.toList = items.toList := by
  fun_induction splitAt count items with
  | case1 | case2 => rfl
  | case3 count first rest taken others h ih => simp [h, toList] at ih ⊢; exact ih

end Enumeration

/-! ## Selections -/

/-- The ascending lists of `size` positions among the `count` ones from `start` on, in lexicographic
order: those with the first position before those without it. Nothing is computed for positions that
are not reached, so `count` may be large. -/
def selectionsFrom : (start count size : Nat) → Enumeration (List Nat)
  | _, _, 0 => .item [] fun _ => .done
  | _, 0, _ + 1 => .done
  | start, count + 1, size + 1 =>
    if count < size then .done
    else
      ((selectionsFrom (start + 1) count size).map (start :: ·)).append fun _ =>
        selectionsFrom (start + 1) count (size + 1)

/-- No list is longer than the number of positions. -/
theorem selectionsFrom_of_lt (start : Nat) {count size : Nat} (h : count < size) :
    (selectionsFrom start count size).toList = [] := by
  match count, size with
  | 0, _ + 1 => rfl
  | count + 1, size + 1 => rw [selectionsFrom, if_pos (Nat.lt_of_succ_lt_succ h)]; rfl

/-- The selections of `size` positions below `count`, in lexicographic order. -/
def selections (count size : Nat) : Enumeration (List Nat) := selectionsFrom 0 count size

end BeliefRevision
