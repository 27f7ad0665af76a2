import Mathlib.Data.Nat.Notation
import Mathlib.Data.List.Basic

/-!
# Times a gap apart

* `Spaced gap times`: the times, newest first, are at least `gap` apart.
* `Spaced.cons` adds a time that is late enough after the last one.
* `Spaced.window` bounds how many of them fall into a window.
-/

/-- Times, newest first, at least `gap` apart. -/
def Spaced (gap : ℕ) (times : List ℕ) : Prop :=
  times.Pairwise fun newer older => older + gap ≤ newer

namespace Spaced

variable {gap start stop now : ℕ} {times : List ℕ}

theorem nil : Spaced gap [] := List.Pairwise.nil

theorem cons (spaced : Spaced gap times) (late : ∀ last ∈ times.head?, last + gap ≤ now) :
    Spaced gap (now :: times) := by
  refine List.pairwise_cons.mpr ⟨fun x member => ?_, spaced⟩
  cases times with
  | nil => cases member
  | cons last times =>
    have here := late last rfl
    rcases List.mem_cons.mp member with rfl | old
    · exact here
    · have before := (List.pairwise_cons.mp spaced).1 x old
      omega

theorem le_head (spaced : Spaced gap (now :: times)) (after : ∀ x ∈ now :: times, start ≤ x) :
    times.length * gap + start ≤ now := by
  induction times generalizing now with
  | nil =>
    rw [List.length_nil, Nat.zero_mul, Nat.zero_add]
    exact after now List.mem_cons_self
  | cons last times ih =>
    obtain ⟨apart, rest⟩ := List.pairwise_cons.mp spaced
    have earlier := ih rest fun x member => after x (List.mem_cons_of_mem now member)
    have here := apart last List.mem_cons_self
    rw [List.length_cons, Nat.succ_mul]
    omega

theorem length_mul_le (spaced : Spaced gap times)
    (inside : ∀ x ∈ times, start ≤ x ∧ x ≤ stop) : times.length * gap ≤ stop - start + gap := by
  cases times with
  | nil =>
    rw [List.length_nil, Nat.zero_mul]
    exact Nat.zero_le _
  | cons now times =>
    have first := spaced.le_head fun x member => (inside x member).1
    have last := (inside now List.mem_cons_self).2
    rw [List.length_cons, Nat.succ_mul]
    omega

/-- In a window there are at most as many as gaps fit into it, and one more. -/
theorem window (spaced : Spaced gap times) (start stop : ℕ) :
    (times.filter fun x => start ≤ x ∧ x ≤ stop).length * gap ≤ stop - start + gap := by
  refine length_mul_le (List.Pairwise.filter _ spaced) fun x member => ?_
  exact of_decide_eq_true (List.mem_filter.mp member).2

end Spaced
