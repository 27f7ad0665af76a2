import Mathlib.Algebra.Group.Action.Defs
import Mathlib.Algebra.Order.Ring.Nat
import Mathlib.Algebra.Order.BigOperators.Group.List
import Mathlib.Data.List.AList

/-!
# The weight of a table

A table weighs what its values weigh together. Taking a key out, or giving it a new
value, changes the weight by the values of that key alone.
-/

namespace AList

variable {K V : Type} {m : AList fun _ : K => V} {k : K} {v : V} {f : V → ℕ}

/-- The weights of all values together. -/
def weight (f : V → ℕ) (m : AList fun _ : K => V) : ℕ :=
  (m.entries.map fun e => f e.2).sum

/-- A bound for every value bounds the weight. -/
theorem weight_le {b : ℕ} (bound : ∀ v, f v ≤ b) : m.weight f ≤ m.keys.length * b := by
  have lengths : m.keys.length = (m.entries.map fun e => f e.2).length := by
    rw [List.length_map]
    exact List.length_map _
  rw [weight, lengths, ← smul_eq_mul]
  apply List.sum_le_card_nsmul
  intro x member
  obtain ⟨e, -, rfl⟩ := List.mem_map.mp member
  exact bound e.2

variable [DecidableEq K]

/-- The weight of a key: nothing where it has no value. -/
def weightAt (f : V → ℕ) (m : AList fun _ : K => V) (k : K) : ℕ := (m.lookup k).elim 0 f

theorem weightAt_of_none (absent : m.lookup k = none) : m.weightAt f k = 0 := by
  rw [weightAt, absent]
  rfl

/-- Without a key, a list of entries weighs less by its first value. -/
theorem sum_kerase (f : V → ℕ) (k : K) (es : List (Sigma fun _ : K => V)) :
    ((es.kerase k).map fun e => f e.2).sum + (es.dlookup k).elim 0 f =
      (es.map fun e => f e.2).sum := by
  induction es with
  | nil => rfl
  | cons e es ih =>
    by_cases here : k = e.1
    · subst here
      rw [List.kerase_cons_eq rfl, List.dlookup_cons_eq, List.map_cons, List.sum_cons]
      exact Nat.add_comm _ _
    · rw [List.kerase_cons_ne here, List.dlookup_cons_ne _ _ here, List.map_cons, List.map_cons,
        List.sum_cons, List.sum_cons, Nat.add_assoc, ih]

theorem weight_erase : (m.erase k).weight f + m.weightAt f k = m.weight f :=
  sum_kerase f k m.entries

theorem weight_insert : (m.insert k v).weight f + m.weightAt f k = m.weight f + f v := by
  have erased := weight_erase (m := m) (k := k) (f := f)
  have cons : (m.insert k v).weight f = f v + (m.erase k).weight f := by
    unfold weight
    rw [entries_insert, List.map_cons, List.sum_cons]
    rfl
  omega

theorem weightAt_le : m.weightAt f k ≤ m.weight f := by
  have erased := weight_erase (m := m) (k := k) (f := f)
  omega

end AList
