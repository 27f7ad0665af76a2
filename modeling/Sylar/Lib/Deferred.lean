import Mathlib.Tactic.SplitIfs
import Sylar.Lib.Runs

/-!
# Tables that are filled at the first read

A state keeps tables with indices `ι` and keys `κ`. Each has a pending part, which the
first read of the table puts below what is held already; writes and erasures do not
wait for it. `Table` says what the operations of such a state do.

* `Marks` follows the pending parts and what an erased key gets back from them.
* `answers_eq_iff`: a state answers as one that was filled beforehand if and only if
  no read is asked for a key that has come back, unless its answer is the same.
-/

namespace Deferred

variable {σ ι κ V A : Type*} [DecidableEq ι] {same : κ → κ → Prop} [DecidableRel same]

/-- The operations of a state with deferred tables, and their effects. `same k k'` says
that an operation on `k` is one on `k'`. -/
structure Table (σ ι κ V : Type*) [DecidableEq ι] (same : κ → κ → Prop) [DecidableRel same] where
  write : σ → ι → κ → V → σ
  erase : σ → ι → κ → σ
  fill : σ → ι → σ
  held : σ → ι → κ → Option V
  pending : σ → ι → κ → Option V
  held_write : ∀ s i k v j k', held (write s i k v) j k' =
    if i = j ∧ same k k' then some v else held s j k'
  pending_write : ∀ s i k v j k', pending (write s i k v) j k' = pending s j k'
  held_erase : ∀ s i k j k', held (erase s i k) j k' =
    if i = j ∧ same k k' then none else held s j k'
  pending_erase : ∀ s i k j k', pending (erase s i k) j k' = pending s j k'
  held_fill : ∀ s i j k', held (fill s i) j k' =
    if i = j then (held s j k').or (pending s j k') else held s j k'
  pending_fill : ∀ s i j k', pending (fill s i) j k' = if i = j then none else pending s j k'

/-- The operations. A read answers with what it makes of the entry. -/
inductive Op (ι κ V A : Type*) where
  | write (i : ι) (k : κ) (v : V)
  | erase (i : ι) (k : κ)
  | read (i : ι) (k : κ) (answer : Option V → A)

/-- The pending parts, and what erased keys get back from them. -/
structure Marks (ι κ V : Type*) where
  pending : ι → κ → Option V
  back : ι → κ → Option V

namespace Marks

variable (same) in
/-- An erasure leaves the pending entry, which the next read brings back; a write puts
its own in front of it. -/
def step (m : Marks ι κ V) : Op ι κ V A → Marks ι κ V
  | .write i k _ =>
    { m with back := fun j k' => if i = j ∧ same k k' then none else m.back j k' }
  | .erase i k =>
    { m with back := fun j k' => if i = j ∧ same k k' then m.pending j k' else m.back j k' }
  | .read i _ _ => { m with pending := fun j k' => if i = j then none else m.pending j k' }

/-- What an erased key gets back is what is pending. -/
theorem back_erase {m : Marks ι κ V} {i : ι} {k k' : κ} (hit : same k k') :
    (m.step same (.erase i k : Op ι κ V A)).back i k' = m.pending i k' :=
  if_pos ⟨rfl, hit⟩

/-- A read of a key that has come back answers as if it had not. -/
def Harmless (m : Marks ι κ V) : Op ι κ V A → Prop
  | .read i k answer => ∀ v, m.back i k = some v → answer (some v) = answer none
  | _ => True

end Marks

namespace Table

variable (T : Table σ ι κ V same)

/-- What a read sees. -/
def seen (s : σ) (i : ι) (k : κ) : Option V := (T.held s i k).or (T.pending s i k)

/-- One operation: its answer, and the state behind it. -/
def step (s : σ) : Op ι κ V A → Option A × σ
  | .write i k v => (none, T.write s i k v)
  | .erase i k => (none, T.erase s i k)
  | .read i k answer => (some (answer (T.held (T.fill s i) i k)), T.fill s i)

/-- The answers of a run. -/
def answers (s : σ) : List (Op ι κ V A) → List (Option A)
  | [] => []
  | op :: ops => (T.step s op).1 :: answers (T.step s op).2 ops

/-- The marks of a state before any operation. -/
def marks (s : σ) : Marks ι κ V := ⟨T.pending s, fun _ _ => none⟩

/-- `e` was filled beforehand. -/
structure Filled (s e : σ) : Prop where
  held : ∀ i k, T.held e i k = T.seen s i k
  pending : ∀ i k, T.pending e i k = none

/-- How a state and one that was filled beforehand differ: in the keys that are back. -/
structure Apart (m : Marks ι κ V) (s e : σ) : Prop where
  marked : ∀ i k, T.pending s i k = m.pending i k
  filled : ∀ i k, T.pending e i k = none
  kept : ∀ i k, m.back i k = none → T.held e i k = T.seen s i k
  lost : ∀ i k v, m.back i k = some v → T.held e i k = none ∧ T.seen s i k = some v

variable {T} {m : Marks ι κ V} {s e : σ}

theorem Filled.apart (filled : T.Filled s e) : T.Apart (T.marks s) s e :=
  ⟨fun _ _ => rfl, filled.pending, fun i k _ => filled.held i k, fun _ _ _ back => nomatch back⟩

/-! ## What a read sees after an operation -/

theorem seen_write (s : σ) (i j : ι) (k k' : κ) (v : V) :
    T.seen (T.write s i k v) j k' = if i = j ∧ same k k' then some v else T.seen s j k' := by
  rw [seen, T.held_write, T.pending_write]
  split_ifs
  · exact Option.some_or
  · rfl

theorem seen_erase (s : σ) (i j : ι) (k k' : κ) :
    T.seen (T.erase s i k) j k' =
      if i = j ∧ same k k' then T.pending s j k' else T.seen s j k' := by
  rw [seen, T.held_erase, T.pending_erase]
  split_ifs
  · exact Option.none_or
  · rfl

theorem seen_fill (s : σ) (i j : ι) (k' : κ) : T.seen (T.fill s i) j k' = T.seen s j k' := by
  rw [seen, T.held_fill, T.pending_fill]
  split_ifs
  · exact Option.or_none
  · rfl

/-- A read answers from what is seen before it. -/
theorem held_fill_self (s : σ) (i : ι) (k : κ) : T.held (T.fill s i) i k = T.seen s i k :=
  (T.held_fill s i i k).trans (if_pos rfl)

/-- Where nothing is pending, a read sees what is held. -/
theorem seen_filled (filled : ∀ i k, T.pending e i k = none) (i : ι) (k : κ) :
    T.seen e i k = T.held e i k := by
  rw [seen, filled, Option.or_none]

/-! ## The two runs -/

theorem Apart.write (apart : T.Apart m s e) (i : ι) (k : κ) (v : V) :
    T.Apart (m.step same (A := A) (.write i k v)) (T.write s i k v) (T.write e i k v) where
  marked j k' := (T.pending_write s i k v j k').trans (apart.marked j k')
  filled j k' := (T.pending_write e i k v j k').trans (apart.filled j k')
  kept j k' back := by
    rw [T.held_write, seen_write]
    simp only [Marks.step] at back
    split_ifs at back ⊢ with hit
    · rfl
    · exact apart.kept j k' back
  lost j k' w back := by
    rw [T.held_write, seen_write]
    simp only [Marks.step] at back
    split_ifs at back ⊢ with hit
    exact apart.lost j k' w back

theorem Apart.erase (apart : T.Apart m s e) (i : ι) (k : κ) :
    T.Apart (m.step same (A := A) (.erase i k)) (T.erase s i k) (T.erase e i k) where
  marked j k' := (T.pending_erase s i k j k').trans (apart.marked j k')
  filled j k' := (T.pending_erase e i k j k').trans (apart.filled j k')
  kept j k' back := by
    rw [T.held_erase, seen_erase]
    simp only [Marks.step] at back
    split_ifs at back ⊢ with hit
    · rw [apart.marked, back]
    · exact apart.kept j k' back
  lost j k' w back := by
    rw [T.held_erase, seen_erase]
    simp only [Marks.step] at back
    split_ifs at back ⊢ with hit
    · exact ⟨rfl, (apart.marked j k').trans back⟩
    · exact apart.lost j k' w back

theorem Apart.fill (apart : T.Apart m s e) (i : ι) (k : κ) (answer : Option V → A) :
    T.Apart (m.step same (.read i k answer)) (T.fill s i) (T.fill e i) := by
  have held (j : ι) (k' : κ) : T.held (T.fill e i) j k' = T.held e j k' := by
    rw [T.held_fill, apart.filled, Option.or_none, ite_self]
  refine ⟨fun j k' => ?_, fun j k' => ?_, fun j k' back => ?_, fun j k' w back => ?_⟩
  · rw [T.pending_fill, apart.marked]
    rfl
  · rw [T.pending_fill, apart.filled, ite_self]
  · rw [held, seen_fill]
    exact apart.kept j k' back
  · rw [held, seen_fill]
    exact apart.lost j k' w back

/-- One operation on both states. -/
theorem Apart.step (apart : T.Apart m s e) (op : Op ι κ V A) :
    T.Apart (m.step same op) (T.step s op).2 (T.step e op).2 := by
  cases op with
  | write i k v => exact apart.write i k v
  | erase i k => exact apart.erase i k
  | read i k answer => exact apart.fill i k answer

/-- The answers to one operation agree if and only if it is harmless. -/
theorem Apart.answer_eq_iff (apart : T.Apart m s e) (op : Op ι κ V A) :
    (T.step s op).1 = (T.step e op).1 ↔ m.Harmless op := by
  cases op with
  | write i k v => exact iff_of_true rfl trivial
  | erase i k => exact iff_of_true rfl trivial
  | read i k answer =>
    have answers : (T.step s (.read i k answer)).1 = (T.step e (.read i k answer)).1 ↔
        answer (T.seen s i k) = answer (T.held e i k) := by
      simp only [Table.step, held_fill_self, Option.some.injEq, seen_filled apart.filled]
    rw [answers, Marks.Harmless]
    cases back : m.back i k with
    | none =>
      rw [apart.kept i k back]
      exact iff_of_true rfl fun _ none => nomatch none
    | some v =>
      obtain ⟨gone, seen⟩ := apart.lost i k v back
      rw [gone, seen]
      exact ⟨fun agree w same => Option.some.inj same ▸ agree, fun agree => agree v rfl⟩

theorem Apart.answers_eq_iff (apart : T.Apart m s e) (ops : List (Op ι κ V A)) :
    T.answers s ops = T.answers e ops ↔
      Runs.Along (fun m op => some (m.step same op)) Marks.Harmless m ops := by
  induction ops generalizing m s e with
  | nil => exact iff_of_true rfl trivial
  | cons op ops ih =>
    have rest := ih (apart.step op)
    simp only [answers, List.cons.injEq, apart.answer_eq_iff op, rest]
    simp only [Runs.Along, Option.some.injEq, forall_eq']

/-- A state answers as one that was filled beforehand if and only if every read is
harmless. -/
theorem answers_eq_iff (filled : T.Filled s e) (ops : List (Op ι κ V A)) :
    T.answers s ops = T.answers e ops ↔
      Runs.Along (fun m op => some (m.step same op)) Marks.Harmless (T.marks s) ops :=
  filled.apart.answers_eq_iff ops

end Table

end Deferred
