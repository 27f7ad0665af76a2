import Mathlib.Data.Nat.Notation
import Sylar.Lib.Runs

/-!
# A pipe reported by its edges

Notifications are bytes written into a pipe, whose read end is registered
edge-triggered: a poll reports it once for all bytes written since the last report.
Whoever handles a report reads at most `size` bytes, and what it leaves is not
reported again before the next write. A write into a full pipe blocks.

* `drained_step_iff`: what a handling leaves behind, by the writes since the one
  before it.
-/

namespace EdgePipe

open Runs

/-- The bytes in the pipe, whether one has been written since the last report, the
reports that have not been handled, and the bytes written since one was. -/
structure Pipe where
  unread : ℕ
  edge : Bool
  reports : ℕ
  since : ℕ
  deriving DecidableEq

inductive Act where
  | write
  | poll
  | handle
  deriving DecidableEq

/-- One step, `none` where a write blocks and where there is no report to handle. A
poll that finds an edge but no byte reports nothing. -/
def step (capacity size : ℕ) (p : Pipe) : Act → Option Pipe
  | .write =>
    if p.unread < capacity then
      some { p with unread := p.unread + 1, edge := true, since := p.since + 1 }
    else none
  | .poll =>
    some { p with
      edge := false
      reports := if p.edge = true ∧ 0 < p.unread then p.reports + 1 else p.reports }
  | .handle =>
    if 0 < p.reports then
      some { p with unread := p.unread - size, reports := p.reports - 1, since := 0 }
    else none

def empty : Pipe := ⟨0, false, 0, 0⟩

variable {capacity size : ℕ} {p q : Pipe} {a : Act}

/-- All bytes in the pipe have been written since the last report was handled, and a
write blocks only when as many have been as the pipe holds. -/
structure Drained (capacity : ℕ) (p : Pipe) : Prop where
  unread : p.unread ≤ p.since
  room : ∀ size, step capacity size p .write = none → capacity ≤ p.since

/-- The bytes written since a report was handled are in the pipe. -/
def Fresh (p : Pipe) : Prop := p.since ≤ p.unread

theorem write_eq_none : step capacity size p .write = none ↔ capacity ≤ p.unread := by
  show (if p.unread < capacity then _ else none) = none ↔ _
  split
  · next room => exact iff_of_false (fun same => nomatch same) (Nat.not_le.mpr room)
  · next full => exact iff_of_true rfl (Nat.not_lt.mp full)

theorem drained_iff_unread_le : Drained capacity p ↔ p.unread ≤ p.since := by
  constructor
  · exact Drained.unread
  · intro unread
    exact ⟨unread, fun size blocked => Nat.le_trans (write_eq_none.mp blocked) unread⟩

/-- What a step does to the bytes. -/
theorem step_bytes (edge : step capacity size p a = some q) :
    (a = .write ∧ q.unread = p.unread + 1 ∧ q.since = p.since + 1) ∨
      (a = .poll ∧ q.unread = p.unread ∧ q.since = p.since) ∨
      (a = .handle ∧ q.unread = p.unread - size ∧ q.since = 0) := by
  cases a with
  | write =>
    obtain ⟨-, after⟩ := Option.ite_none_right_eq_some.mp edge
    cases after
    exact .inl ⟨rfl, rfl, rfl⟩
  | poll =>
    cases edge
    exact .inr (.inl ⟨rfl, rfl, rfl⟩)
  | handle =>
    obtain ⟨-, after⟩ := Option.ite_none_right_eq_some.mp edge
    cases after
    exact .inr (.inr ⟨rfl, rfl, rfl⟩)

theorem Fresh.next (fresh : Fresh p) (edge : step capacity size p a = some q) : Fresh q := by
  unfold Fresh at fresh ⊢
  rcases step_bytes edge with ⟨-, unread, since⟩ | ⟨-, unread, since⟩ | ⟨-, unread, since⟩
  · omega
  · omega
  · omega

/-- A handling leaves nothing behind exactly when no more bytes than it reads have been
written since the one before it. -/
theorem drained_step_iff (fresh : Fresh p) (drained : Drained capacity p)
    (edge : step capacity size p a = some q) :
    Drained capacity q ↔ (a = .handle → p.since ≤ size) := by
  have unread := drained.unread
  unfold Fresh at fresh
  rw [drained_iff_unread_le]
  rcases step_bytes edge with ⟨rfl, unread, since⟩ | ⟨rfl, unread, since⟩ | ⟨rfl, unread, since⟩
  · exact iff_of_true (by omega) nofun
  · exact iff_of_true (by omega) nofun
  · rw [forall_prop_of_true rfl]
    omega

end EdgePipe
