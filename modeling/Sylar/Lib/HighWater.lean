import Mathlib.Data.Nat.Notation
import Mathlib.Order.Bounds.Defs
import Sylar.Lib.Runs

/-!
# High-water marks

A store that grows only when it is full keeps the record of its own use: its
size is the largest number of entries it has had to hold. `Peak` is that number
for a measure of the states of a run, and `peak_of_step` the rule: a size that
each step moves to the maximum of itself and the measure reached is the peak.
-/

namespace Runs

variable {σ α : Type*} {step : σ → α → Option σ} {f size : σ → ℕ} {s t : σ} {as : List α} {n : ℕ}

/-- `n` is the greatest value of `f` in the states that a run visits. -/
def Peak (step : σ → α → Option σ) (f : σ → ℕ) (s : σ) (as : List α) (n : ℕ) : Prop :=
  IsGreatest {k | ∃ l r t, as = l ++ r ∧ exec step s l = some t ∧ f t = k} n

/-- Every state of a run is within the size it ends with. -/
theorem visited_le_of_step (grows : ∀ {s a t}, step s a = some t → size t = max (size s) (f t))
    (start : f s ≤ size s) (run : exec step s as = some t) : Always step (f · ≤ size t) s as := by
  have sizes : Always step (size · ≤ size t) s as := by
    refine always_of_last (fun {u a v} edge within => ?_) run (Nat.le_refl _)
    have next := grows edge
    omega
  refine always_iff.mpr fun l r u split visited => ?_
  have use : f u ≤ size u := by
    refine exec_inv (I := fun u => f u ≤ size u) (fun {u a v} _ edge => ?_) start visited
    have next := grows edge
    omega
  exact Nat.le_trans use (always_iff.mp sizes l r u split visited)

/-- The size a run ends with is the one it began with, or one that it has had to
hold. -/
theorem attained_of_step (grows : ∀ {s a t}, step s a = some t → size t = max (size s) (f t))
    (run : exec step s as = some t) :
    size t = size s ∨ ∃ l r u, as = l ++ r ∧ exec step s l = some u ∧ f u = size t := by
  induction as generalizing s with
  | nil =>
    cases run
    exact .inl rfl
  | cons a as ih =>
    obtain ⟨u, edge, rest⟩ := exec_cons_eq_some.mp run
    rcases ih rest with same | ⟨l, r, v, split, visited, held⟩
    · have next := grows edge
      rcases Nat.le_total (f u) (size s) with within | beyond
      · exact .inl (by omega)
      · exact .inr ⟨[a], as, u, rfl, exec_cons_eq_some.mpr ⟨u, edge, rfl⟩, by omega⟩
    · refine .inr ⟨a :: l, r, v, ?_, exec_cons_eq_some.mpr ⟨u, edge, visited⟩, held⟩
      rw [split, List.cons_append]

/-- A size that starts at the measure and that each step moves to the maximum of
itself and the measure reached is the peak of the measure. -/
theorem peak_of_step (grows : ∀ {s a t}, step s a = some t → size t = max (size s) (f t))
    (start : size s = f s) (run : exec step s as = some t) : Peak step f s as (size t) := by
  constructor
  · rcases attained_of_step grows run with same | attained
    · exact ⟨[], as, s, rfl, rfl, (same.trans start).symm⟩
    · exact attained
  · rintro k ⟨l, r, u, split, visited, rfl⟩
    have within := visited_le_of_step grows (Nat.le_of_eq start.symm) run
    exact always_iff.mp within l r u split visited

end Runs
