import Sylar.Fd.Manager

/-!
# The indexes of `FdManager`

`get` and `del` test a descriptor against the size of `m_datas` before they use it
as an index. Neither tests it against 0, `del` lets the size itself through, and
`get` leaves only -1 to its caller. `accesses` lists the indexes that a call uses,
each with the size of the vector at that moment; `Proper` says which descriptors
keep them inside.

* `within_iff_run`: a call of the model has a result exactly when its indexes are
  inside the vector.
* `within_iff_proper`: the calls whose indexes are inside, in every state that calls
  reach.
-/

namespace Sylar

namespace FdCall

variable {P : Type} {m : FdManager P} {a : FdCall P} {as : List (FdCall P)} {fd : Int32} {ctx : P}

/-- The indexes into `m_datas` that a call uses, each with the size of the vector. -/
def accesses (m : FdManager P) : FdCall P → List (Int × ℕ)
  | .get fd autoCreate _ =>
    (if fd = -1 ∨ m.sizeInt ≤ fd.toInt then [] else [(fd.toInt, m.mDatas.length)]) ++
      match m.find fd autoCreate with
      | some .create => [(fd.toInt, (m.grow fd).mDatas.length)]
      | _ => []
  | .del fd => if m.sizeInt < fd.toInt then [] else [(fd.toInt, m.mDatas.length)]

/-- All of them are inside the vector. -/
def Within (m : FdManager P) (a : FdCall P) : Prop :=
  ∀ access ∈ accesses m a, 0 ≤ access.1 ∧ access.1 < access.2

/-- The descriptors that the tests of a call suffice for: `get(fd)` takes what is not
below -1, `get(fd, true)` -1 and what is not negative, `del` what is not negative and
not the size. Past 2^31 slots the size is a negative number: `get(fd)` and `del`
take also what is not below it, and what is above it, and `get(fd, true)` takes
neither 0 nor 1. -/
def Proper (m : FdManager P) : FdCall P → Prop
  | .get fd false _ => -1 ≤ fd.toInt ∨ m.sizeInt ≤ fd.toInt
  | .get fd true _ => fd = -1 ∨ (0 ≤ fd.toInt ∧ (m.mDatas.length < 2 ^ 31 ∨ 2 ≤ fd.toInt))
  | .del fd => (0 ≤ fd.toInt ∧ fd.toInt ≠ m.mDatas.length) ∨
      (2 ^ 31 ≤ m.mDatas.length ∧ m.sizeInt < fd.toInt)

/-! ## The calls of the model -/

theorem slot_isSome : (m.slot fd).isSome ↔ 0 ≤ fd.toInt ∧ fd.toInt < m.mDatas.length := by
  unfold FdManager.slot
  by_cases index : 0 ≤ fd.toInt
  · rw [if_pos index, isSome_getElem?]
    omega
  · rw [if_neg index]
    exact iff_of_false Bool.false_ne_true fun inside => index inside.1

theorem store_isSome {p : Option P} :
    (m.store fd p).isSome ↔ 0 ≤ fd.toInt ∧ fd.toInt < m.mDatas.length := by
  unfold FdManager.store
  by_cases inside : 0 ≤ fd.toInt ∧ fd.toInt.toNat < m.mDatas.length
  · rw [if_pos inside]
    exact iff_of_true rfl (by omega)
  · rw [if_neg inside]
    exact iff_of_false Bool.false_ne_true (by omega)

theorem within_del : Within m (.del fd) ↔
    m.sizeInt < fd.toInt ∨ (0 ≤ fd.toInt ∧ fd.toInt < m.mDatas.length) := by
  show (∀ access ∈ (if m.sizeInt < fd.toInt then [] else [(fd.toInt, m.mDatas.length)]), _) ↔ _
  by_cases past : m.sizeInt < fd.toInt
  · rw [if_pos past]
    exact iff_of_true (fun access inside => nomatch inside) (.inl past)
  · rw [if_neg past, List.forall_mem_singleton, or_iff_right past]

theorem within_get {autoCreate : Bool} : Within m (.get fd autoCreate ctx) ↔
    (fd = -1 ∨ m.sizeInt ≤ fd.toInt ∨ (0 ≤ fd.toInt ∧ fd.toInt < m.mDatas.length)) ∧
      (m.find fd autoCreate = some .create →
        0 ≤ fd.toInt ∧ fd.toInt < (m.grow fd).mDatas.length) := by
  unfold Within accesses
  dsimp only
  rw [List.forall_mem_append]
  refine and_congr ?_ ?_
  · by_cases unread : fd = -1 ∨ m.sizeInt ≤ fd.toInt
    · rw [if_pos unread]
      exact iff_of_true (fun access inside => nomatch inside) (unread.imp_right .inl)
    · rw [if_neg unread, List.forall_mem_singleton, ← or_assoc, or_iff_right unread]
  · cases found : m.find fd autoCreate with
    | none => exact iff_of_true (fun access inside => nomatch inside) (fun same => nomatch same)
    | some decision =>
      cases decision with
      | answer p =>
        exact iff_of_true (fun access inside => nomatch inside) (fun same => nomatch same)
      | create =>
        dsimp only
        rw [List.forall_mem_singleton]
        exact ⟨fun inside _ => inside, fun inside => inside rfl⟩

/-- A call of the model has a result exactly when its indexes are inside the vector. -/
theorem within_iff_run (m : FdManager P) (a : FdCall P) : Within m a ↔ (run m a).isSome := by
  cases a with
  | get fd autoCreate ctx =>
    rw [within_get]
    show _ ↔ (m.get fd autoCreate ctx).isSome
    unfold FdManager.get
    cases found : m.find fd autoCreate with
    | none =>
      unfold FdManager.find at found
      split at found
      · cases found
      · next other =>
        split at found
        · cases found
        · next read =>
          have outside := Option.map_eq_none_iff.mp found
          refine iff_of_false (fun within => ?_) Bool.false_ne_true
          have inside := slot_isSome.mpr ((within.1.resolve_left other).resolve_left read)
          rw [outside] at inside
          cases inside
    | some decision =>
      have read : fd = -1 ∨ m.sizeInt ≤ fd.toInt ∨
          (0 ≤ fd.toInt ∧ fd.toInt < m.mDatas.length) := by
        unfold FdManager.find at found
        split at found
        · next same => exact .inl same
        · split at found
          · next past => exact .inr (.inl past)
          · obtain ⟨d, here, -⟩ := Option.map_eq_some_iff.mp found
            exact .inr (.inr (slot_isSome.mp (Option.isSome_of_mem here)))
      cases decision with
      | answer p => exact iff_of_true ⟨read, fun same => nomatch same⟩ rfl
      | create =>
        dsimp only
        rw [Option.isSome_map, FdManager.create, store_isSome]
        exact ⟨fun within => within.2 rfl, fun inside => ⟨read, fun _ => inside⟩⟩
  | del fd =>
    rw [within_del]
    show _ ↔ ((m.del fd).map fun m => (m, (none : Option P))).isSome
    rw [Option.isSome_map, FdManager.del]
    by_cases past : m.sizeInt < fd.toInt
    · rw [if_pos past]
      exact iff_of_true (.inl past) rfl
    · rw [if_neg past, store_isSome, or_iff_right past]

/-! ## The tests -/

/-- Where `get` goes on to create. -/
theorem find_eq_create {autoCreate : Bool} (found : m.find fd autoCreate = some .create) :
    autoCreate = true ∧ fd ≠ -1 := by
  unfold FdManager.find at found
  split at found
  · cases found
  · next other =>
    refine ⟨?_, other⟩
    by_contra reads
    rw [Bool.not_eq_true] at reads
    subst reads
    split at found
    · cases found
    · obtain ⟨d, -, decided⟩ := Option.map_eq_some_iff.mp found
      rw [if_pos (by rw [Bool.not_false, Bool.or_true])] at decided
      cases decided

theorem within_get_false (sized : m.Sized) : Within m (.get fd false ctx) ↔
    -1 ≤ fd.toInt ∨ m.sizeInt ≤ fd.toInt := by
  have minus : fd = -1 ↔ fd.toInt = -1 := Int32.toInt_inj.symm
  have reads : m.find fd false ≠ some .create := fun found => nomatch (find_eq_create found).1
  rw [within_get, minus]
  by_cases small : m.mDatas.length < 2 ^ 31
  · have size := FdManager.sizeInt_of_lt small
    rw [size]
    constructor
    · rintro ⟨read, -⟩
      omega
    · intro proper
      exact ⟨by omega, fun found => absurd found reads⟩
  · have high := sized.high
    have negative := FdManager.sizeInt_neg (by omega) (by omega : m.mDatas.length < 2 ^ 32)
    constructor
    · rintro ⟨read, -⟩
      omega
    · intro proper
      exact ⟨by omega, fun found => absurd found reads⟩

theorem within_get_true (sized : m.Sized) : Within m (.get fd true ctx) ↔
    fd = -1 ∨ (0 ≤ fd.toInt ∧ (m.mDatas.length < 2 ^ 31 ∨ 2 ≤ fd.toInt)) := by
  rw [within_get]
  by_cases minus : fd = -1
  · refine iff_of_true ⟨.inl minus, fun found => ?_⟩ (.inl minus)
    exact absurd minus (find_eq_create found).2
  rw [or_iff_right minus, or_iff_right minus]
  have creates (past : m.sizeInt ≤ fd.toInt) : m.find fd true = some .create := by
    rw [FdManager.find, if_neg minus, if_pos past, if_pos rfl]
  by_cases small : m.mDatas.length < 2 ^ 31
  · have size := FdManager.sizeInt_of_lt small
    rw [and_iff_left (.inl small : m.mDatas.length < 2 ^ 31 ∨ 2 ≤ fd.toInt)]
    constructor
    · rintro ⟨read, -⟩
      omega
    · intro index
      refine ⟨by omega, fun _ => ?_⟩
      have inside := (FdManager.inside_grow sized small index).1
      omega
  · have high := sized.high
    have negative := FdManager.sizeInt_neg (by omega) (by omega : m.mDatas.length < 2 ^ 32)
    rw [or_iff_right small]
    -- the vector is resized to `fd*1.5`, whatever it held
    have length (past : m.sizeInt ≤ fd.toInt) :
        (m.grow fd).mDatas.length = fd.toInt.toNat * 3 / 2 := by
      rw [FdManager.grow_of_past past, Slots.length_resize]
    constructor
    · rintro ⟨read, stored⟩
      by_cases past : m.sizeInt ≤ fd.toInt
      · have inside := stored (creates past)
        rw [length past] at inside
        omega
      · omega
    · rintro ⟨index, far⟩
      refine ⟨by omega, fun _ => ?_⟩
      rw [length (by omega)]
      omega

theorem within_iff_of_sized (sized : m.Sized) (a : FdCall P) : Within m a ↔ Proper m a := by
  cases a with
  | get fd autoCreate ctx =>
    cases autoCreate with
    | false => exact within_get_false sized
    | true => exact within_get_true sized
  | del fd =>
    rw [within_del, Proper]
    by_cases small : m.mDatas.length < 2 ^ 31
    · have size := FdManager.sizeInt_of_lt small
      omega
    · have high := sized.high
      have negative := FdManager.sizeInt_neg (by omega) (by omega : m.mDatas.length < 2 ^ 32)
      have last := fd.toInt_lt
      omega

/-! ## Runs -/

/-- A call, whatever its descriptor, where its indexes are inside the vector. -/
def call (m : FdManager P) (a : FdCall P) : Option (FdManager P) := (run m a).map Prod.fst

theorem sized_of_exec (reached : Runs.exec call FdManager.init as = some m) : m.Sized := by
  refine Runs.exec_inv (I := FdManager.Sized) (fun {m a m'} sized edge => ?_)
    FdManager.sized_init reached
  obtain ⟨⟨_, p⟩, reply, rfl⟩ := Option.map_eq_some_iff.mp edge
  exact sized_run sized reply

/-- In every state that calls reach, for every descriptor: a call uses only indexes
inside the vector if and only if the descriptor is proper for it. -/
theorem within_iff_proper (reached : Runs.exec call FdManager.init as = some m) (a : FdCall P) :
    Within m a ↔ Proper m a :=
  within_iff_of_sized (sized_of_exec reached) a

/-- The last of the 64 slots at the start. -/
theorem within_last : ∃ m : FdManager ℕ, Runs.exec call FdManager.init [.get 63 true 0] = some m ∧
    Within m (.get 63 false 1) ∧ Within m (.del 63) := by
  have reached : Runs.exec call FdManager.init [.get 63 true 0] = some (_ : FdManager ℕ) := rfl
  refine ⟨_, reached, (within_iff_proper reached _).mpr ?_, (within_iff_proper reached _).mpr ?_⟩
  · exact .inl (by decide)
  · exact .inl (by decide)

/-- Before any call: `get` of a descriptor below -1, and `del` of -1 and of the size. -/
theorem within_fails : ¬ Within (FdManager.init : FdManager ℕ) (.get (-2) false 0) ∧
    ¬ Within (FdManager.init : FdManager ℕ) (.get (-2) true 0) ∧
    ¬ Within (FdManager.init : FdManager ℕ) (.del (-1)) ∧
    ¬ Within (FdManager.init : FdManager ℕ) (.del 64) := by
  refine ⟨fun within => ?_, fun within => ?_, fun within => ?_, fun within => ?_⟩
  · exact absurd (within (-2, 64) (by decide)).1 (by decide)
  · exact absurd (within (-2, 64) (by decide)).1 (by decide)
  · exact absurd (within (-1, 64) (by decide)).1 (by decide)
  · exact absurd (within (64, 64) (by decide)).2 (by decide)

end FdCall

end Sylar
