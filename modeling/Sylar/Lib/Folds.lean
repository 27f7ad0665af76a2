import Mathlib.Data.Finset.Lattice.Lemmas

/-!
# Loops over a list that may stop

A loop that handles one element after the other and may fail is a `foldlM` in `Option`.
The lemmas turn the loops that collect what they find, in a list or in a set, into `mapM`.
-/

namespace Folds

/-- A loop over the indices of a list is one over its items. -/
theorem foldlM_range {α β : Type} (items : List α) (f : β → α → Option β) (g : β → ℕ → Option β)
    (same : ∀ b, ∀ i < items.length, g b i = items[i]?.bind (f b)) (ans : β) :
    (List.range items.length).foldlM g ans = items.foldlM f ans := by
  have upTo (n : ℕ) (below : n ≤ items.length) :
      (List.range n).foldlM g ans = (items.take n).foldlM f ans := by
    induction n with
    | zero => rfl
    | succ n ih =>
      have there : items[n]? = some items[n] := List.getElem?_eq_getElem below
      rw [List.range_succ, List.foldlM_append, ih (Nat.le_of_succ_le below), List.take_add_one,
        there, List.foldlM_append]
      refine congrArg _ (funext fun b => ?_)
      rw [Option.toList_some, List.foldlM_cons, List.foldlM_cons, same b n below, there]
      rfl
  rw [upTo items.length (Nat.le_refl _), List.take_length]

/-- A loop that appends what it finds. -/
theorem foldlM_append_singleton {α β : Type} (f : α → Option β) (l : List α) (ans : List β) :
    l.foldlM (fun ans x => (f x).bind fun y => some (ans ++ [y])) ans =
      (l.mapM f).map (ans ++ ·) := by
  induction l generalizing ans with
  | nil =>
    rw [List.foldlM_nil, List.mapM_nil]
    simp only [Option.pure_def, Option.map_some, List.append_nil]
  | cons x l ih =>
    rw [List.foldlM_cons, List.mapM_cons]
    cases f x with
    | none => rfl
    | some y =>
      simp only [Option.bind_eq_bind, Option.bind_some, ih]
      cases l.mapM f with
      | none => rfl
      | some ys =>
        simp only [Option.map_some, Option.bind_some, Option.pure_def, List.append_assoc,
          List.singleton_append]

/-- A loop that inserts what it finds. -/
theorem foldlM_insert {α β : Type} [DecidableEq β] (f : α → Option β) (l : List α)
    (ans : Finset β) :
    l.foldlM (fun ans x => (f x).bind fun y => some (insert y ans)) ans =
      (l.mapM f).map fun ys => ys.toFinset ∪ ans := by
  induction l generalizing ans with
  | nil =>
    rw [List.foldlM_nil, List.mapM_nil]
    simp only [Option.pure_def, Option.map_some, List.toFinset_nil, Finset.empty_union]
  | cons x l ih =>
    rw [List.foldlM_cons, List.mapM_cons]
    cases f x with
    | none => rfl
    | some y =>
      simp only [Option.bind_eq_bind, Option.bind_some, ih]
      cases l.mapM f with
      | none => rfl
      | some ys =>
        simp only [Option.map_some, Option.bind_some, Option.pure_def, List.toFinset_cons,
          Finset.union_insert, Finset.insert_union]

/-- Two loops over the elements, one after the other, go element by element. -/
theorem mapM_bind_mapM {α β γ : Type} (f : α → Option β) (g : β → Option γ) (l : List α) :
    ((l.mapM f).bind fun ys => ys.mapM g) = l.mapM fun x => (f x).bind g := by
  induction l with
  | nil => rfl
  | cons x l ih =>
    rw [List.mapM_cons, List.mapM_cons, ← ih]
    cases f x with
    | none => rfl
    | some y =>
      cases l.mapM f with
      | none =>
        simp only [Option.bind_eq_bind, Option.bind_some, Option.bind_none]
        cases g y <;> rfl
      | some ys =>
        simp only [Option.bind_eq_bind, Option.bind_some, Option.pure_def, List.mapM_cons]

theorem mapM_eq_self {α : Type} {f : α → Option α} {l : List α} :
    l.mapM f = some l ↔ ∀ x ∈ l, f x = some x := by
  induction l with
  | nil => exact iff_of_true rfl (List.forall_mem_nil _)
  | cons x l ih =>
    rw [List.mapM_cons, List.forall_mem_cons, ← ih]
    simp only [Option.bind_eq_bind, Option.bind_eq_some_iff, Option.pure_def, Option.some.injEq,
      List.cons.injEq]
    constructor
    · intro found
      obtain ⟨y, here, ys, rest, rfl, rfl⟩ := found
      exact ⟨here, rest⟩
    · exact fun both => ⟨x, both.1, l, both.2, rfl, rfl⟩

/-- A loop comes to its end when it finds something at each element. -/
theorem isSome_mapM {α β : Type} {f : α → Option β} {l : List α} :
    (l.mapM f).isSome = true ↔ ∀ x ∈ l, (f x).isSome = true := by
  induction l with
  | nil => exact iff_of_true rfl (List.forall_mem_nil _)
  | cons x l ih =>
    rw [List.mapM_cons, List.forall_mem_cons, ← ih]
    cases f x with
    | none => simp
    | some y => cases l.mapM f <;> simp

/-- What a loop finds, it finds at some element, and it finds something at each. -/
theorem mem_of_mapM {α β : Type} {f : α → Option β} {l : List α} {ys : List β}
    (found : l.mapM f = some ys) :
    (∀ y ∈ ys, ∃ x ∈ l, f x = some y) ∧ ∀ x ∈ l, ∃ y ∈ ys, f x = some y := by
  induction l generalizing ys with
  | nil =>
    cases found
    exact ⟨List.forall_mem_nil _, List.forall_mem_nil _⟩
  | cons x l ih =>
    rw [List.mapM_cons] at found
    simp only [Option.bind_eq_bind, Option.bind_eq_some_iff, Option.pure_def,
      Option.some.injEq] at found
    obtain ⟨y, here, ys, rest, rfl⟩ := found
    obtain ⟨back, forth⟩ := ih rest
    refine ⟨List.forall_mem_cons.mpr ⟨⟨x, List.mem_cons_self, here⟩, fun z member => ?_⟩,
      List.forall_mem_cons.mpr ⟨⟨y, List.mem_cons_self, here⟩, fun z member => ?_⟩⟩
    · obtain ⟨w, inside, same⟩ := back z member
      exact ⟨w, List.mem_cons_of_mem x inside, same⟩
    · obtain ⟨w, inside, same⟩ := forth z member
      exact ⟨w, List.mem_cons_of_mem y inside, same⟩

end Folds
