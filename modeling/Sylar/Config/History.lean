import Sylar.Config.Model

/-!
# What a listener is told

A listener follows the variable when the pairs it is told form a chain from the
value at its registration, and the last new value is the current one once all
operations are over. The two sections of `setValue` break this when anything
comes between them: another `setValue` tells the same old value again, and a
listener registered there has missed what is about to be assigned.

* `tell_spec`: one round of calls in which no exception leaves the loop.
* `Inv`: between the sections of the one `setValue` that has told its value, the
  listeners are one value ahead of the variable.
* `follows_along`: without such overlaps, every listener follows.
-/

namespace Sylar

/-- The pairs form a chain from `v`: each old value is the new one before it. -/
def Chained {T : Type} (v : T) : List (T × T) → Prop
  | [] => True
  | (old, new) :: rest => old = v ∧ Chained new rest

/-- The last value that the pairs tell, from `v` on. -/
def lastTold {T : Type} (v : T) : List (T × T) → T
  | [] => v
  | (_, new) :: rest => lastTold new rest

section Chains

variable {T : Type} {v old new : T} {pairs : List (T × T)}

theorem chained_append (chained : Chained v pairs) (next : old = lastTold v pairs) :
    Chained v (pairs ++ [(old, new)]) := by
  induction pairs generalizing v with
  | nil => exact ⟨next, trivial⟩
  | cons pair pairs ih => exact ⟨chained.1, ih chained.2 next⟩

theorem lastTold_append : lastTold v (pairs ++ [(old, new)]) = new := by
  induction pairs generalizing v with
  | nil => rfl
  | cons pair pairs ih => exact ih

end Chains

namespace ConfigVar

open Runs Threads

variable {T : Type} {s : ConfigVar T} {old new : T} {outcome : ℕ → Outcome}
  {order : List ℕ} {told : ℕ → List (T × T)}

/-- No exception leaves the loop: every listener of the table is told once. -/
theorem tell_spec (old new : T) (told : ℕ → List (T × T)) (nodup : order.Nodup)
    (stays : ∀ k ∈ order, outcome k ≠ .throwsOther) :
    (tell outcome old new order told).2 = true ∧
      ∀ k, (tell outcome old new order told).1 k =
        if k ∈ order then told k ++ [(old, new)] else told k := by
  induction order generalizing told with
  | nil => exact ⟨rfl, fun k => rfl⟩
  | cons x order ih =>
    obtain ⟨out, nodup⟩ := List.nodup_cons.mp nodup
    have later := ih (Function.update told x (told x ++ [(old, new)])) nodup
      fun k member => stays k (List.mem_cons_of_mem x member)
    have goes : tell outcome old new (x :: order) told =
        tell outcome old new order (Function.update told x (told x ++ [(old, new)])) := by
      rw [tell]
      cases returned : outcome x with
      | returns => rfl
      | throwsStd => rfl
      | throwsOther => exact absurd returned (stays x List.mem_cons_self)
    rw [goes]
    refine ⟨later.1, fun k => ?_⟩
    rw [later.2 k]
    by_cases here : k = x
    · rw [here, if_neg out, Function.update_self, if_pos List.mem_cons_self]
    · rw [Function.update_of_ne here]
      simp only [List.mem_cons, here, false_or]

/-! ## The invariant -/

/-- The last value that a listener was told. -/
def latest (s : ConfigVar T) (k : ℕ) : T := lastTold (s.since k) (s.told k)

/-- Thread `i` has told `v` and has not assigned it. -/
def Assigning (p : Pool (ConfigVar T) (ConfigPc T)) (i : ℕ) (v : T) : Prop :=
  p.ops i = some (.assign v)

/-- A state of the variable between sections. -/
structure Inv (p : Pool (ConfigVar T) (ConfigPc T)) : Prop where
  chained : ∀ k, Chained (p.shared.since k) (p.shared.told k)
  nodup : p.shared.functionMaps.Nodup
  known : ∀ k ∈ p.shared.functionMaps, k ≤ p.shared.key
  alone : p.shared.functionMaps ≠ [] → ∀ i j v w, Assigning p i v → Assigning p j w → i = j
  ahead : ∀ k ∈ p.shared.functionMaps, ∀ i v, Assigning p i v → p.shared.latest k = v
  level : (∀ i v, ¬ Assigning p i v) → ∀ k ∈ p.shared.functionMaps,
    p.shared.latest k = p.shared.mVal

/-- Every listener follows the variable. -/
structure Follows (p : Pool (ConfigVar T) (ConfigPc T)) : Prop where
  chained : ∀ k, Chained (p.shared.since k) (p.shared.told k)
  level : p.Quiet → ∀ k ∈ p.shared.functionMaps, p.shared.latest k = p.shared.mVal

/-- What a section must not do: tell listeners a value, or register one, while
another `setValue` has told a value that it has not assigned; nor tell a value
where an exception not derived from `std::exception` leaves the loop. -/
def Apart (p : Pool (ConfigVar T) (ConfigPc T)) : Act (ConfigOp T) ConfigInput → Prop
  | .enter _ _ => True
  | .run i input => ∀ pc, p.ops i = some pc → match pc with
    | .compare value => value ≠ p.shared.mVal → p.shared.functionMaps ≠ [] →
        (∀ j v, ¬ Assigning p j v) ∧
          ∀ k ∈ p.shared.functionMaps, input.outcome k ≠ .throwsOther
    | .add => ∀ j v, ¬ Assigning p j v
    | _ => True

theorem Inv.follows {p : Pool (ConfigVar T) (ConfigPc T)} (inv : Inv p) : Follows p where
  chained := inv.chained
  level quiet := inv.level fun i v here => by
    rw [Assigning, quiet i] at here
    cases here

/-! ## What a section keeps -/

variable {p q : Pool (ConfigVar T) (ConfigPc T)} {i : ℕ} {o : Option (ConfigPc T)}

/-- A section that neither ends an assignment nor leaves one to make. -/
theorem assigning_same {l : Option (ConfigPc T)} (here : p.ops i = l)
    (before : ∀ v, l ≠ some (.assign v)) (after : ∀ v, o ≠ some (.assign v)) (j : ℕ) (v : T) :
    Assigning ⟨s, Function.update p.ops i o⟩ j v ↔ Assigning p j v := by
  constructor
  · intro assigning
    rcases update_eq_some assigning with ⟨-, own⟩ | ⟨-, other⟩
    · exact absurd own (after v)
    · exact other
  · intro assigning
    have distinct : j ≠ i := by
      rintro rfl
      exact before v (here.symm.trans assigning)
    exact (Function.update_of_ne distinct o p.ops).trans assigning

/-- With no assignment under way, one of thread `i` is the only one. -/
theorem only_assigning (free : ∀ j v, ¬ Assigning p j v) {j : ℕ} {v : T}
    (assigning : Assigning ⟨s, Function.update p.ops i o⟩ j v) : j = i ∧ o = some (.assign v) := by
  rcases update_eq_some assigning with own | ⟨-, other⟩
  · exact own
  · exact absurd other (free j v)

/-- A table without listeners. -/
theorem inv_of_empty (chained : ∀ k, Chained (q.shared.since k) (q.shared.told k))
    (empty : q.shared.functionMaps = []) : Inv q where
  chained := chained
  nodup := empty ▸ List.nodup_nil
  known k member := by
    rw [empty] at member
    cases member
  alone listeners := absurd empty listeners
  ahead k member := by
    rw [empty] at member
    cases member
  level _ k member := by
    rw [empty] at member
    cases member

/-- Listeners can leave at any time. -/
theorem Inv.fewer (inv : Inv p) {keys : List ℕ} (fewer : keys.Sublist p.shared.functionMaps)
    (shared : q.shared = { p.shared with functionMaps := keys })
    (same : ∀ j v, Assigning q j v ↔ Assigning p j v) : Inv q := by
  obtain ⟨s, ops⟩ := q
  obtain rfl : s = { p.shared with functionMaps := keys } := shared
  constructor
  case chained => exact inv.chained
  case nodup => exact inv.nodup.sublist fewer
  case known => exact fun k member => inv.known k (fewer.subset member)
  case alone =>
    intro listeners i j v w first second
    have before : p.shared.functionMaps ≠ [] := by
      intro empty
      rw [empty] at fewer
      exact listeners (List.sublist_nil.mp fewer)
    exact inv.alone before i j v w ((same i v).mp first) ((same j w).mp second)
  case ahead =>
    intro k member i v assigning
    exact inv.ahead k (fewer.subset member) i v ((same i v).mp assigning)
  case level =>
    intro free k member
    exact inv.level (fun i v here => free i v ((same i v).mpr here)) k (fewer.subset member)

/-- The first section of `setValue`, when every listener has been told. -/
theorem Inv.notified (inv : Inv p) {value : T} {after : ℕ → List (T × T)}
    (free : ∀ j v, ¬ Assigning p j v)
    (tells : ∀ k, after k = if k ∈ p.shared.functionMaps
      then p.shared.told k ++ [(p.shared.mVal, value)] else p.shared.told k) :
    Inv ⟨{ p.shared with told := after }, Function.update p.ops i (some (.assign value))⟩ := by
  constructor
  case chained =>
    intro k
    show Chained (p.shared.since k) (after k)
    rw [tells k]
    by_cases member : k ∈ p.shared.functionMaps
    · rw [if_pos member]
      exact chained_append (inv.chained k) (inv.level free k member).symm
    · rw [if_neg member]
      exact inv.chained k
  case nodup => exact inv.nodup
  case known => exact inv.known
  case alone =>
    intro _ j j' v w first second
    exact (only_assigning free first).1.trans (only_assigning free second).1.symm
  case ahead =>
    intro k member j v assigning
    have value_eq : value = v :=
      ConfigPc.assign.inj (Option.some.inj (only_assigning free assigning).2)
    show lastTold (p.shared.since k) (after k) = v
    rw [tells k, if_pos member, lastTold_append, value_eq]
  case level =>
    intro ended
    exact absurd (Function.update_self i _ p.ops) (ended i value)

/-- The second section of `setValue`. -/
theorem Inv.assigned (inv : Inv p) {value : T} (here : Assigning p i value) :
    Inv ⟨{ p.shared with mVal := value }, Function.update p.ops i none⟩ := by
  by_cases empty : p.shared.functionMaps = []
  · exact inv_of_empty inv.chained empty
  have ended : ∀ j v, ¬ Assigning ⟨{ p.shared with mVal := value },
      Function.update p.ops i none⟩ j v := by
    intro j v assigning
    rcases update_eq_some assigning with ⟨-, own⟩ | ⟨distinct, other⟩
    · cases own
    · exact distinct (inv.alone empty j i v value other here)
  constructor
  case chained => exact inv.chained
  case nodup => exact inv.nodup
  case known => exact inv.known
  case alone => exact fun _ j _ v _ first => absurd first (ended j v)
  case ahead => exact fun _ _ j v assigning => absurd assigning (ended j v)
  case level => exact fun _ k member => inv.ahead k member i value here

/-- `addlisten`: the new key has not been in the table. -/
theorem Inv.added (inv : Inv p) {key : ℕ} (fresh : p.shared.key < key)
    (free : ∀ j v, ¬ Assigning p j v) :
    Inv ⟨{ p.shared with
        functionMaps := p.shared.functionMaps ++ [key]
        key := key
        since := Function.update p.shared.since key p.shared.mVal
        told := Function.update p.shared.told key [] },
      Function.update p.ops i none⟩ := by
  have out : ∀ k ∈ p.shared.functionMaps, k ≠ key := by
    rintro k member rfl
    exact absurd (inv.known k member) (Nat.not_le.mpr fresh)
  constructor
  case chained =>
    intro k
    by_cases new : k = key
    · simp only [new, Function.update_self, Chained]
    · simp only [Function.update_of_ne new]
      exact inv.chained k
  case nodup =>
    have single : [key].Nodup := List.nodup_cons.mpr ⟨List.not_mem_nil, List.nodup_nil⟩
    refine List.nodup_append.mpr ⟨inv.nodup, single, ?_⟩
    intro k member k' new
    rw [List.mem_singleton.mp new]
    exact out k member
  case known =>
    intro k member
    rcases List.mem_append.mp member with old | new
    · exact Nat.le_trans (inv.known k old) (Nat.le_of_lt fresh)
    · exact Nat.le_of_eq (List.mem_singleton.mp new)
  case alone =>
    intro _ j j' v w first second
    exact (only_assigning free first).1.trans (only_assigning free second).1.symm
  case ahead =>
    intro k member j v assigning
    cases (only_assigning free assigning).2
  case level =>
    intro _ k member
    show lastTold (Function.update p.shared.since key p.shared.mVal k)
      (Function.update p.shared.told key [] k) = p.shared.mVal
    rcases List.mem_append.mp member with old | new
    · rw [Function.update_of_ne (out k old), Function.update_of_ne (out k old)]
      exact inv.level free k old
    · rw [List.mem_singleton.mp new, Function.update_self, Function.update_self]
      rfl

/-- A step that keeps apart keeps the invariant. -/
theorem Inv.keep [DecidableEq T] {a : Act (ConfigOp T) ConfigInput} (inv : Inv p)
    (apart : Apart p a) (edge : step p a = some q) : Inv q := by
  cases a with
  | enter i op =>
    obtain ⟨idle, rfl⟩ := step_enter edge
    refine inv.fewer (List.Sublist.refl _) rfl (assigning_same idle (by nofun) ?_)
    intro v begun
    cases op with
    | _ => cases begun
  | run i input =>
    obtain ⟨pc, s, o, here, moved, rfl⟩ := step_run edge
    have apart := apart pc here
    cases pc with
    | compare value =>
      by_cases same : value = p.shared.mVal
      · rw [move, if_pos same] at moved
        cases moved
        exact inv.fewer (List.Sublist.refl _) rfl (assigning_same here (by nofun) (by nofun))
      · rw [move, if_neg same] at moved
        obtain ⟨order, moved⟩ := Option.ite_none_right_eq_some.mp moved
        by_cases empty : p.shared.functionMaps = []
        · have nobody : input.order = [] := (empty ▸ order).eq_nil
          rw [nobody] at moved
          cases moved
          exact inv_of_empty inv.chained empty
        · obtain ⟨free, stays⟩ := apart same empty
          obtain ⟨ends, tells⟩ := tell_spec p.shared.mVal value p.shared.told
            (order.nodup_iff.mpr inv.nodup)
            fun k member => stays k (order.mem_iff.mp member)
          have moved := Option.some.inj moved
          rw [ends, if_pos rfl] at moved
          cases moved
          refine inv.notified free fun k => ?_
          rw [tells k]
          simp only [order.mem_iff]
    | assign value =>
      cases moved
      exact inv.assigned here
    | add =>
      cases moved
      exact inv.added (by omega) apart
    | search key =>
      cases moved
      exact inv.fewer (List.Sublist.refl _) rfl (assigning_same here (by nofun) (by nofun))
    | erase keys =>
      cases moved
      exact inv.fewer List.erase_sublist rfl (assigning_same here (by nofun) (by nofun))
    | clear =>
      cases moved
      exact inv.fewer (List.nil_sublist _) rfl (assigning_same here (by nofun) (by nofun))

/-! ## Runs -/

theorem inv_init (v : T) : Inv (Pool.idle (init v)) :=
  inv_of_empty (fun _ => trivial) rfl

/-- In a run whose sections keep apart, every listener follows the variable. -/
theorem follows_along [DecidableEq T] {v : T} {as : List (Act (ConfigOp T) ConfigInput)}
    (along : Along step Apart (Pool.idle (init v)) as) :
    Always step Follows (Pool.idle (init v)) as :=
  (always_of_along Inv.keep (inv_init v) along).mono fun _ => Inv.follows

/-- A section that traverses the table in `order`, and no listener throws. -/
def inOrder (order : List ℕ) : ConfigInput := ⟨order, fun _ => .returns, 0⟩

/-- A listener is registered, and two threads set the value one after the other. -/
def oneByOne : List (Act (ConfigOp ℕ) ConfigInput) :=
  [.enter 0 .addlisten, .run 0 (inOrder []),
    .enter 0 (.setValue 1), .run 0 (inOrder [1]), .run 0 (inOrder []),
    .enter 1 (.setValue 2), .run 1 (inOrder [1]), .run 1 (inOrder [])]

theorem follows_oneByOne : Always step Follows (Pool.idle (init 0)) oneByOne := by
  apply follows_along
  refine along_cons trivial rfl ?_
  refine along_cons ?_ rfl ?_
  · rintro _ ⟨⟩ j v here
    match j with
    | 0 => cases here
    | j + 1 => cases here
  refine along_cons trivial rfl ?_
  refine along_cons ?_ rfl ?_
  · rintro _ ⟨⟩ - -
    refine ⟨fun j v here => ?_, fun _ _ => by nofun⟩
    match j with
    | 0 => cases here
    | j + 1 => cases here
  refine along_cons (fun _ here => ?_) rfl ?_
  · cases here
    trivial
  refine along_cons trivial rfl ?_
  refine along_cons ?_ rfl ?_
  · rintro _ ⟨⟩ - -
    refine ⟨fun j v here => ?_, fun _ _ => by nofun⟩
    match j with
    | 0 => cases here
    | 1 => cases here
    | j + 2 => cases here
  refine along_cons (fun _ here => ?_) rfl trivial
  cases here
  trivial

/-- The same calls, the second before the first has assigned. -/
def overlapping : List (Act (ConfigOp ℕ) ConfigInput) :=
  [.enter 0 .addlisten, .run 0 (inOrder []),
    .enter 0 (.setValue 1), .enter 1 (.setValue 2),
    .run 0 (inOrder [1]), .run 1 (inOrder [1]), .run 1 (inOrder []), .run 0 (inOrder [])]

/-- The listener is told that the value went from 0 to 1 and from 0 to 2, and it
is 1 that stays. -/
theorem overlapping_strays : ¬ Always step Follows (Pool.idle (init 0)) overlapping := by
  intro always
  have last := always.last rfl
  have level := last.level ?_ 1 List.mem_cons_self
  · cases level
  · intro i
    match i with
    | 0 => rfl
    | 1 => rfl
    | i + 2 => rfl

end ConfigVar

end Sylar
