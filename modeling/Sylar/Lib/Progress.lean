import Mathlib.Data.Nat.Notation
import Sylar.Lib.Runs

/-!
# What a system left to some of its labels can reach

`Reaches C s t` says that a run of labels that meet the condition `C` leads from
`s` to `t`. A goal that some such run comes closer to from every state that has
not met it is reached: `reaches_goal` is the rule, with a measure and an invariant.
-/

namespace Runs

variable {σ α : Type*}

/-- A run whose labels all meet `C` leads from the first state to the second. -/
def Reaches (step : σ → α → Option σ) (C : σ → α → Prop) (s t : σ) : Prop :=
  ∃ as, exec step s as = some t ∧ Along step C s as

variable {step : σ → α → Option σ} {C : σ → α → Prop} {s t u : σ} {a : α} {as bs : List α}

/-- A condition along two runs, one after the other. -/
theorem along_append (run : exec step s as = some t) :
    Along step C s (as ++ bs) ↔ Along step C s as ∧ Along step C t bs := by
  induction as generalizing s with
  | nil =>
    cases run
    exact (true_and _).to_iff.symm
  | cons a as ih =>
    obtain ⟨u, edge, run⟩ := exec_cons_eq_some.mp run
    constructor
    · intro along
      obtain ⟨here, later⟩ := along u edge
      obtain ⟨left, right⟩ := (ih run).mp later
      exact ⟨along_cons here edge left, right⟩
    · rintro ⟨left, right⟩
      obtain ⟨here, later⟩ := left u edge
      exact along_cons here edge ((ih run).mpr ⟨later, right⟩)

theorem exec_append_eq_some (run : exec step s as = some t) :
    exec step s (as ++ bs) = exec step t bs := by
  rw [exec_append, run]
  rfl

namespace Reaches

theorem refl (s : σ) : Reaches step C s s := ⟨[], rfl, trivial⟩

theorem single (edge : step s a = some t) (here : C s a) : Reaches step C s t :=
  ⟨[a], exec_cons_eq_some.mpr ⟨t, edge, rfl⟩, along_cons here edge trivial⟩

theorem trans (first : Reaches step C s t) (second : Reaches step C t u) :
    Reaches step C s u := by
  obtain ⟨as, run, along⟩ := first
  obtain ⟨bs, more, after⟩ := second
  exact ⟨as ++ bs, (exec_append_eq_some run).trans more, (along_append run).mpr ⟨along, after⟩⟩

/-- What the labels allowed keep still holds where a run of them leads. -/
theorem inv {I : σ → Prop} (keep : ∀ {s a t}, I s → C s a → step s a = some t → I t)
    (start : I s) (reaches : Reaches step C s t) : I t := by
  obtain ⟨as, run, along⟩ := reaches
  exact (always_of_along keep start along).last run

end Reaches

/-- The rule of progress: where some run brings every state short of the goal closer to
it, the goal is reached. -/
theorem reaches_goal {I G : σ → Prop} (μ : σ → ℕ)
    (closer : ∀ s, I s → ¬ G s → ∃ t, Reaches step C s t ∧ I t ∧ μ t < μ s) (start : I s) :
    ∃ t, Reaches step C s t ∧ I t ∧ G t := by
  induction size : μ s using Nat.strongRecOn generalizing s with
  | ind n ih =>
    by_cases goal : G s
    · exact ⟨s, Reaches.refl s, start, goal⟩
    · obtain ⟨u, first, inv, less⟩ := closer s start goal
      rw [size] at less
      obtain ⟨t, rest, inv', goal'⟩ := ih (μ u) less inv rfl
      exact ⟨t, first.trans rest, inv', goal'⟩

end Runs
