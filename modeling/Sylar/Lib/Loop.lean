import Mathlib.Data.Nat.Notation
import Mathlib.Logic.Relation

/-!
# Loops

A loop is a partial function on its states: it is left where the function is undefined. As
it is a function, a loop that comes back to a state is never left.

* `not_halts_of_return`: a state is reached from itself.
* `halts_of_measure`: a number becomes smaller with every iteration.
* `Halts.project`: a part of the state that runs on its own.
-/

namespace Loop

variable {σ κ : Type*} {next : σ → Option σ} {s t u : σ}

/-- One iteration. -/
def Step (next : σ → Option σ) (s t : σ) : Prop := next s = some t

/-- Some iterations. -/
abbrev Reaches (next : σ → Option σ) : σ → σ → Prop := Relation.ReflTransGen (Step next)

/-- The loop is left in a state. -/
def Ends (next : σ → Option σ) (s t : σ) : Prop := Reaches next s t ∧ next t = none

def Halts (next : σ → Option σ) (s : σ) : Prop := ∃ t, Ends next s t

theorem Step.unique (first : Step next s t) (second : Step next s u) : t = u :=
  Option.some.inj (first.symm.trans second)

theorem Ends.head (first : Step next s t) (rest : Ends next t u) : Ends next s u :=
  ⟨.head first rest.1, rest.2⟩

/-- Two sequences of iterations follow the same states. -/
theorem reaches_total (first : Reaches next s t) (second : Reaches next s u) :
    Reaches next t u ∨ Reaches next u t := by
  induction first with
  | refl => exact .inl second
  | tail _ step ih =>
    rcases ih with ahead | behind
    · rcases Relation.ReflTransGen.cases_head ahead with rfl | ⟨v, step', rest⟩
      · exact .inr (.single step)
      · exact .inl (step.unique step' ▸ rest)
    · exact .inr (behind.tail step)

/-- There is no way on from where a loop is left. -/
theorem eq_of_reaches (left : next s = none) (reach : Reaches next s t) : s = t := by
  rcases Relation.ReflTransGen.cases_head reach with same | ⟨v, step, -⟩
  · exact same
  · rw [Step, left] at step
    cases step

/-- A loop is left in one state at most. -/
theorem Ends.unique (first : Ends next s t) (second : Ends next s u) : t = u := by
  rcases reaches_total first.1 second.1 with ahead | behind
  · exact eq_of_reaches first.2 ahead
  · exact (eq_of_reaches second.2 behind).symm

/-- On a cycle every state leads back. -/
theorem reaches_back (back : Relation.TransGen (Step next) t t) (reach : Reaches next t u) :
    Reaches next u t := by
  induction reach with
  | refl => exact .refl
  | tail _ step ih =>
    rcases Relation.ReflTransGen.cases_head ih with rfl | ⟨v, step', rest⟩
    · obtain ⟨v, step', rest⟩ := Relation.TransGen.head'_iff.mp back
      exact step.unique step' ▸ rest
    · exact step.unique step' ▸ rest

/-- A loop that comes back to a state is never left. -/
theorem not_halts_of_return (reach : Reaches next s t)
    (back : Relation.TransGen (Step next) t t) : ¬ Halts next s := by
  rintro ⟨u, ends, left⟩
  have around : Reaches next u t := by
    rcases reaches_total ends reach with ahead | behind
    · exact ahead
    · exact reaches_back back behind
  obtain rfl := eq_of_reaches left around
  obtain ⟨v, step, -⟩ := Relation.TransGen.head'_iff.mp back
  rw [Step, left] at step
  cases step

/-- What an iteration keeps, holds wherever the loop comes. -/
theorem Reaches.inv {I : σ → Prop} (keep : ∀ {s t}, I s → Step next s t → I t) (holds : I s)
    (reach : Reaches next s t) : I t := by
  induction reach with
  | refl => exact holds
  | tail _ step ih => exact keep ih step

/-- A loop is left when every iteration makes a number smaller. -/
theorem halts_of_measure {I : σ → Prop} (μ : σ → ℕ)
    (keep : ∀ {s t}, I s → Step next s t → I t ∧ μ t < μ s) (holds : I s) : Halts next s := by
  induction bound : μ s using Nat.strongRecOn generalizing s with
  | ind n ih =>
    cases here : next s with
    | none => exact ⟨s, .refl, here⟩
    | some t =>
      obtain ⟨kept, less⟩ := keep holds here
      obtain ⟨u, ends⟩ := ih (μ t) (bound ▸ less) kept rfl
      exact ⟨u, ends.head here⟩

section Projection

variable {π : σ → κ} {next' : κ → Option κ}

theorem Reaches.project (part : ∀ s, (next s).map π = next' (π s)) (reach : Reaches next s t) :
    Reaches next' (π s) (π t) := by
  apply reach.lift π
  intro a b step
  have image := part a
  rw [step, Option.map_some] at image
  exact image.symm

/-- Where the part comes, the whole comes with it. -/
theorem Reaches.unproject (part : ∀ s, (next s).map π = next' (π s)) {k : κ}
    (reach : Reaches next' (π s) k) : ∃ t, Reaches next s t ∧ π t = k := by
  induction reach with
  | refl => exact ⟨s, .refl, rfl⟩
  | tail _ step ih =>
    obtain ⟨t, reached, rfl⟩ := ih
    obtain ⟨u, onward, same⟩ := Option.map_eq_some_iff.mp ((part t).trans step)
    exact ⟨u, reached.tail onward, same⟩

/-- When a loop is left, so is a part of it that runs on its own. -/
theorem Halts.project (part : ∀ s, (next s).map π = next' (π s)) (halts : Halts next s) :
    Halts next' (π s) := by
  obtain ⟨t, reach, left⟩ := halts
  refine ⟨π t, reach.project part, ?_⟩
  rw [← part t, left, Option.map_none]

end Projection

end Loop
