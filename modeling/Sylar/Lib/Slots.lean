import Mathlib.Data.Nat.Notation
import Mathlib.Logic.Basic

/-!
# Slot vectors

A vector of optional entries, read as a finite map from indices to entries: an
index past the end and an empty slot both hold nothing. `resize` is the one of
a vector, which appends empty slots or cuts the vector off.
-/

namespace Slots

variable {α : Type*} {l : List (Option α)} {i j n : ℕ}

/-- The entry at an index. -/
def lookup (l : List (Option α)) (i : ℕ) : Option α := l[i]?.join

/-- The vector with `n` slots. -/
def resize (l : List (Option α)) (n : ℕ) : List (Option α) :=
  l.take n ++ List.replicate (n - l.length) none

theorem lookup_of_length_le (past : l.length ≤ i) : lookup l i = none := by
  rw [lookup, List.getElem?_eq_none past, Option.join_none]

theorem lookup_replicate_none : lookup (List.replicate n (none : Option α)) i = none := by
  rw [lookup, List.getElem?_replicate]
  split <;> rfl

theorem lookup_set (inside : i < l.length) (x : Option α) :
    lookup (l.set i x) j = if i = j then x else lookup l j := by
  rw [lookup, List.getElem?_set]
  by_cases same : i = j
  · rw [if_pos same, if_pos inside, if_pos same, Option.join_some]
  · rw [if_neg same, if_neg same, lookup]

theorem lookup_modify (f : α → α) :
    lookup (l.modify i (Option.map f)) j = if i = j then (lookup l j).map f else lookup l j := by
  rw [lookup, List.getElem?_modify, lookup]
  cases l[j]? with
  | none => exact (ite_self _).symm
  | some x =>
    split
    · rfl
    · rfl

@[simp] theorem length_resize : (resize l n).length = n := by
  rw [resize, List.length_append, List.length_take, List.length_replicate]
  omega

/-- What is left of the entries after a resize: those inside. -/
theorem lookup_resize : lookup (resize l n) i = if i < n then lookup l i else none := by
  by_cases inside : i < n
  · rw [if_pos inside, lookup, resize]
    by_cases stored : i < l.length
    · rw [List.getElem?_append_left (by rw [List.length_take]; omega),
        List.getElem?_take_of_lt inside, lookup]
    · rw [List.getElem?_append_right (by rw [List.length_take]; omega),
        lookup_of_length_le (by omega), List.getElem?_replicate]
      split <;> rfl
  · rw [if_neg inside, lookup_of_length_le (by rw [length_resize]; omega)]

/-- Growing drops nothing. -/
theorem lookup_resize_of_le (grows : l.length ≤ n) : lookup (resize l n) i = lookup l i := by
  rw [lookup_resize]
  by_cases inside : i < n
  · exact if_pos inside
  · rw [if_neg inside, lookup_of_length_le (by omega)]

end Slots
