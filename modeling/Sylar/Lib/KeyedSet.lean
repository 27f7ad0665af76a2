import Mathlib.Data.List.Basic
import Mathlib.Data.List.Nodup
import Mathlib.Order.Lattice

/-!
# Sets ordered by a key

The list model of an ordered associative set whose comparator looks at a key
only: `Ordered key l` says that the keys increase strictly along `l`, `insert`
drops an element whose key is already present, `find` looks an element up by
key. The key is a parameter, so the same elements can be ordered under
different keys; `Ordered.congr` moves the order between keys that agree on the
elements.

* `Ordered.insert`, `Ordered.erase`: the operations keep the order.
* `Ordered.mem_insert`: what an insertion adds, and when it adds nothing.
* `Ordered.find_eq_some`: a lookup returns the one element with the key.
* `Ordered.takeWhile_eq_filter`: a cut at a bound selects by the bound.
-/

namespace KeyedSet

variable {α κ : Type*} [LinearOrder κ]

/-- The keys increase strictly along the list. -/
def Ordered (key : α → κ) (l : List α) : Prop := l.Pairwise fun x y => key x < key y

/-- Insert at the place the key asks for. An element with an equal key is
already there: nothing is inserted. -/
def insert (key : α → κ) (x : α) : List α → List α
  | [] => [x]
  | y :: l =>
    if key x < key y then x :: y :: l
    else if key y < key x then y :: insert key x l
    else y :: l

/-- The element with the key `k`. -/
def find (key : α → κ) (k : κ) (l : List α) : Option α := l.find? fun x => decide (key x = k)

theorem key_of_find {key : α → κ} {k : κ} {l : List α} {x : α} (found : find key k l = some x) :
    key x = k := by
  have holds := List.find?_some (p := fun x => decide (key x = k)) found
  exact of_decide_eq_true holds

variable {key : α → κ} {x y z : α} {k : κ} {l : List α}

theorem ordered_nil : Ordered key [] := List.Pairwise.nil

theorem ordered_cons : Ordered key (x :: l) ↔ (∀ y ∈ l, key x < key y) ∧ Ordered key l :=
  List.pairwise_cons

theorem Ordered.tail (ordered : Ordered key (x :: l)) : Ordered key l :=
  (ordered_cons.mp ordered).2

theorem Ordered.head_lt (ordered : Ordered key (x :: l)) (member : y ∈ l) : key x < key y :=
  (ordered_cons.mp ordered).1 y member

theorem Ordered.nodup (ordered : Ordered key l) : l.Nodup :=
  ordered.imp fun lt same => lt.ne (congrArg key same)

theorem Ordered.sublist {l' : List α} (ordered : Ordered key l) (sub : l'.Sublist l) :
    Ordered key l' := List.Pairwise.sublist sub ordered

/-- Two elements of an ordered list with one key are the same element. -/
theorem Ordered.eq_of_key (ordered : Ordered key l) (hx : x ∈ l) (hy : y ∈ l)
    (same : key x = key y) : x = y := by
  induction l with
  | nil => cases hx
  | cons z l ih =>
    rcases List.mem_cons.mp hx with rfl | xl <;> rcases List.mem_cons.mp hy with rfl | yl
    · rfl
    · exact absurd same (ordered.head_lt yl).ne
    · exact absurd same.symm (ordered.head_lt xl).ne
    · exact ih ordered.tail xl yl

/-- Only the keys of the elements matter. -/
theorem Ordered.congr {key' : α → κ} (ordered : Ordered key l)
    (agree : ∀ x ∈ l, key' x = key x) : Ordered key' l := by
  refine List.Pairwise.imp_of_mem ?_ ordered
  intro x y hx hy lt
  rwa [agree x hx, agree y hy]

/-! ## Insertion -/

theorem mem_of_mem_insert (member : y ∈ insert key x l) : y = x ∨ y ∈ l := by
  induction l with
  | nil => exact .inl (List.mem_singleton.mp member)
  | cons z l ih =>
    rw [insert] at member
    split_ifs at member
    · exact List.mem_cons.mp member
    · rcases List.mem_cons.mp member with rfl | member
      · exact .inr List.mem_cons_self
      · exact (ih member).imp_right (List.mem_cons_of_mem z)
    · exact .inr member

theorem mem_insert_of_mem (member : y ∈ l) : y ∈ insert key x l := by
  induction l with
  | nil => cases member
  | cons z l ih =>
    rw [insert]
    split_ifs
    · exact List.mem_cons_of_mem x member
    · rcases List.mem_cons.mp member with rfl | member
      · exact List.mem_cons_self
      · exact List.mem_cons_of_mem z (ih member)
    · exact member

/-- An insertion adds the element once, or drops it. -/
theorem insert_perm (key : α → κ) (x : α) (l : List α) :
    insert key x l = l ∨ (insert key x l).Perm (x :: l) := by
  induction l with
  | nil => exact .inr (List.Perm.refl _)
  | cons y l ih =>
    unfold KeyedSet.insert
    split
    · exact .inr (List.Perm.refl _)
    · split
      · rcases ih with same | added
        · exact .inl (congrArg (y :: ·) same)
        · exact .inr ((List.Perm.cons y added).trans (List.Perm.swap x y l))
      · exact .inl rfl

theorem Ordered.insert (ordered : Ordered key l) (x : α) : Ordered key (insert key x l) := by
  induction l with
  | nil => exact List.pairwise_singleton _ x
  | cons z l ih =>
    rw [KeyedSet.insert]
    split_ifs with below above
    · refine ordered_cons.mpr ⟨fun y member => ?_, ordered⟩
      rcases List.mem_cons.mp member with rfl | member
      · exact below
      · exact below.trans (ordered.head_lt member)
    · refine ordered_cons.mpr ⟨fun y member => ?_, ih ordered.tail⟩
      rcases mem_of_mem_insert member with rfl | member
      · exact above
      · exact ordered.head_lt member
    · exact ordered

/-- The new element is in the set unless another element has its key. -/
theorem Ordered.mem_insert_self (ordered : Ordered key l) :
    x ∈ KeyedSet.insert key x l ↔ ∀ y ∈ l, key y = key x → y = x := by
  constructor
  · intro member y hy same
    exact (ordered.insert x).eq_of_key (mem_insert_of_mem hy) member same
  · intro free
    induction l with
    | nil => exact List.mem_singleton.mpr rfl
    | cons z l ih =>
      rw [KeyedSet.insert]
      split_ifs with below above
      · exact List.mem_cons_self
      · exact List.mem_cons_of_mem z
          (ih ordered.tail fun y hy => free y (List.mem_cons_of_mem z hy))
      · have same : key z = key x := le_antisymm (not_lt.mp below) (not_lt.mp above)
        rw [free z List.mem_cons_self same]
        exact List.mem_cons_self

theorem Ordered.mem_insert (ordered : Ordered key l) :
    y ∈ KeyedSet.insert key x l ↔ y ∈ l ∨ (y = x ∧ ∀ z ∈ l, key z = key x → z = x) := by
  constructor
  · intro member
    rcases mem_of_mem_insert member with rfl | old
    · exact .inr ⟨rfl, ordered.mem_insert_self.mp member⟩
    · exact .inl old
  · rintro (old | ⟨rfl, free⟩)
    · exact mem_insert_of_mem old
    · exact ordered.mem_insert_self.mpr free

/-! ## Erasure and lookup -/

theorem Ordered.erase [DecidableEq α] (ordered : Ordered key l) (x : α) :
    Ordered key (l.erase x) := ordered.sublist List.erase_sublist

theorem Ordered.mem_erase [DecidableEq α] (ordered : Ordered key l) :
    y ∈ l.erase x ↔ y ≠ x ∧ y ∈ l := ordered.nodup.mem_erase_iff

theorem Ordered.find_eq_some (ordered : Ordered key l) :
    find key k l = some x ↔ x ∈ l ∧ key x = k := by
  constructor
  · intro found
    exact ⟨List.mem_of_find?_eq_some found, key_of_find found⟩
  · rintro ⟨member, same⟩
    cases found : find key k l with
    | none =>
      have missing := List.find?_eq_none.mp found x member
      exact absurd (decide_eq_true same) missing
    | some y =>
      have hy : key y = k := key_of_find found
      rw [ordered.eq_of_key (List.mem_of_find?_eq_some found) member (hy.trans same.symm)]

theorem find_eq_none : find key k l = none ↔ ∀ x ∈ l, key x ≠ k := by
  simp only [find, List.find?_eq_none, decide_eq_true_eq, ne_eq]

/-- An element is found by its own key. -/
theorem Ordered.find_self (ordered : Ordered key l) (member : x ∈ l) :
    find key (key x) l = some x := ordered.find_eq_some.mpr ⟨member, rfl⟩

/-! ## Cuts -/

/-- Cutting an ordered list where a downward closed condition first fails
selects the elements that meet the condition. -/
theorem Ordered.takeWhile_eq_filter {p : α → Bool} (ordered : Ordered key l)
    (down : ∀ x y, key x < key y → p y = true → p x = true) :
    l.takeWhile p = l.filter p := by
  induction l with
  | nil => rfl
  | cons x l ih =>
    cases here : p x with
    | true => rw [List.takeWhile_cons_of_pos here, List.filter_cons_of_pos here, ih ordered.tail]
    | false =>
      have none_later : ∀ y ∈ l, ¬ p y = true := by
        intro y hy holds
        rw [down x y (ordered.head_lt hy) holds] at here
        cases here
      rw [List.takeWhile_cons_of_neg (by simp only [here, Bool.false_eq_true, not_false_eq_true]),
        List.filter_cons_of_neg (by simp only [here, Bool.false_eq_true, not_false_eq_true]),
        List.filter_eq_nil_iff.mpr none_later]

theorem Ordered.dropWhile_eq_filter {p : α → Bool} (ordered : Ordered key l)
    (down : ∀ x y, key x < key y → p y = true → p x = true) :
    l.dropWhile p = l.filter fun x => !p x := by
  induction l with
  | nil => rfl
  | cons x l ih =>
    cases here : p x with
    | true =>
      rw [List.dropWhile_cons_of_pos here, ih ordered.tail, List.filter_cons_of_neg]
      simp only [here, Bool.not_true, Bool.false_eq_true, not_false_eq_true]
    | false =>
      have all_later : ∀ y ∈ x :: l, (!p y) = true := by
        intro y hy
        rcases List.mem_cons.mp hy with rfl | hy
        · simp only [here, Bool.not_false]
        · cases holds : p y with
          | false => rfl
          | true =>
            rw [down x y (ordered.head_lt hy) holds] at here
            cases here
      rw [List.dropWhile_cons_of_neg (by simp only [here, Bool.false_eq_true, not_false_eq_true]),
        List.filter_eq_self.mpr all_later]

end KeyedSet
