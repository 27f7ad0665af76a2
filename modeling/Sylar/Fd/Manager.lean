import Sylar.Fd.Model
import Sylar.Lib.Runs

/-!
# `FdManager` is a finite map, below 2^31 slots

The vector is read as a map from descriptors to contexts (`FdManager.lookup`),
and each operation is compared with the one of a map (`FdCall.spec`). `get`
compares a descriptor with `(int)m_datas.size()`: as long as the vector has
fewer than 2^31 slots this is its size, `fd*1.5` lies beyond `fd` and beyond the
end, and every call follows the map. The step from a descriptor to `fd*1.5` slots passes
2^31 before descriptors end, and from then on the size is a negative number:
`get(fd)` misses what is stored, and `get(fd, true)` creates again and cuts the
vector off at `fd*1.5`.

* `get_false`, `get_true`, `del_spec`: the operations below 2^31 slots.
* `lawful_iff_fits`: the calls of a run that follow the map, exactly.
-/

namespace Sylar

namespace FdManager

variable {P : Type} {m m' : FdManager P} {fd d : Int32} {ctx : P} {p : Option P}

/-! ## The vector as a map -/

theorem lookup_def (index : 0 ≤ fd.toInt) :
    m.lookup fd = Slots.lookup m.mDatas fd.toInt.toNat := if_pos index

theorem toNat_toInt_inj (index : 0 ≤ fd.toInt) (index' : 0 ≤ d.toInt)
    (same : fd.toInt.toNat = d.toInt.toNat) : fd = d :=
  Int32.toInt_inj.mp (by omega)

theorem store_eq_some (stored : m.store fd p = some m') :
    0 ≤ fd.toInt ∧ fd.toInt.toNat < m.mDatas.length ∧
      m' = ⟨m.mDatas.set fd.toInt.toNat p⟩ := by
  rw [store, Option.ite_none_right_eq_some] at stored
  exact ⟨stored.1.1, stored.1.2, (Option.some.inj stored.2).symm⟩

theorem store_inside (index : 0 ≤ fd.toInt) (inside : fd.toInt.toNat < m.mDatas.length) :
    m.store fd p = some ⟨m.mDatas.set fd.toInt.toNat p⟩ := if_pos ⟨index, inside⟩

theorem lookup_store (stored : m.store fd p = some m') :
    m'.lookup d = if d = fd then p else m.lookup d := by
  obtain ⟨index, inside, rfl⟩ := store_eq_some stored
  by_cases index' : 0 ≤ d.toInt
  · rw [lookup_def index', lookup_def index', Slots.lookup_set inside]
    by_cases same : d = fd
    · rw [if_pos same, if_pos (by rw [same])]
    · rw [if_neg same, if_neg fun same' => same (toNat_toInt_inj index index' same').symm]
  · rw [lookup, lookup, if_neg index', if_neg index', if_neg]
    rintro rfl
    exact index' index

theorem length_store (stored : m.store fd p = some m') : m'.mDatas.length = m.mDatas.length := by
  obtain ⟨-, -, rfl⟩ := store_eq_some stored
  exact List.length_set

theorem lookup_modify (index : 0 ≤ fd.toInt) (f : P → P) :
    (m.modify fd f).lookup d = if d = fd then (m.lookup d).map f else m.lookup d := by
  by_cases index' : 0 ≤ d.toInt
  · rw [lookup_def index', lookup_def index', modify, Slots.lookup_modify]
    by_cases same : d = fd
    · rw [if_pos same, if_pos (by rw [same])]
    · rw [if_neg same, if_neg fun same' => same (toNat_toInt_inj index index' same').symm]
  · rw [lookup, lookup, if_neg index', if_neg index', Option.map_none, ite_self]

theorem length_modify (f : P → P) : (m.modify fd f).mDatas.length = m.mDatas.length :=
  List.length_modify _ _ _

theorem sizeInt_modify (f : P → P) : (m.modify fd f).sizeInt = m.sizeInt := by
  unfold sizeInt
  rw [length_modify]

/-! ## The size as an `int` -/

theorem sizeInt_of_lt (small : m.mDatas.length < 2 ^ 31) : m.sizeInt = m.mDatas.length := by
  apply Int.bmod_eq_of_le
  · omega
  · omega

theorem sizeInt_neg (large : 2 ^ 31 ≤ m.mDatas.length) (bounded : m.mDatas.length < 2 ^ 32) :
    m.sizeInt < 0 := by
  have size : m.sizeInt = Int.bmod m.mDatas.length (2 ^ 32) := rfl
  rw [Int.bmod_def] at size
  split at size <;> omega

/-- What the vector's length stays between. Its least value comes from
`resize(2*1.5)`, its greatest from the last descriptor. -/
structure Sized (m : FdManager P) : Prop where
  low : 3 ≤ m.mDatas.length
  high : m.mDatas.length < 3 * 2 ^ 30

theorem Sized.modify (sized : m.Sized) (f : P → P) : (m.modify fd f).Sized :=
  ⟨(length_modify f).symm ▸ sized.low, (length_modify f).symm ▸ sized.high⟩

theorem sized_init : (FdManager.init : FdManager P).Sized := by
  have length : (FdManager.init : FdManager P).mDatas.length = 64 := List.length_replicate
  exact ⟨by omega, by omega⟩

theorem lookup_init : (FdManager.init : FdManager P).lookup fd = none := by
  rw [lookup]
  split
  · exact Slots.lookup_replicate_none
  · rfl

theorem ne_of_index (index : 0 ≤ fd.toInt) : fd ≠ -1 := by
  rintro rfl
  exact absurd index (by decide)

theorem grow_of_inside (inside : fd.toInt < m.sizeInt) : m.grow fd = m :=
  if_neg (by omega)

theorem grow_of_past (past : m.sizeInt ≤ fd.toInt) :
    m.grow fd = ⟨Slots.resize m.mDatas (fd.toInt.toNat * 3 / 2)⟩ := if_pos past

/-- Below 2^31 slots, `fd*1.5` lies beyond `fd` and beyond the end. -/
theorem inside_grow (sized : m.Sized) (small : m.mDatas.length < 2 ^ 31) (index : 0 ≤ fd.toInt) :
    fd.toInt.toNat < (m.grow fd).mDatas.length ∧
      m.mDatas.length ≤ (m.grow fd).mDatas.length := by
  have size := sizeInt_of_lt small
  have low := sized.low
  by_cases inside : fd.toInt < m.sizeInt
  · rw [grow_of_inside inside]
    omega
  · rw [grow_of_past (by omega), Slots.length_resize]
    omega

theorem length_grow (sized : m.Sized) (fd : Int32) :
    (m.grow fd).mDatas.length < 3 * 2 ^ 30 := by
  have high := sized.high
  have last := fd.toInt_lt
  by_cases inside : fd.toInt < m.sizeInt
  · rw [grow_of_inside inside]
    exact high
  · rw [grow_of_past (by omega), Slots.length_resize]
    omega

theorem lookup_grow (sized : m.Sized) (small : m.mDatas.length < 2 ^ 31) (index : 0 ≤ fd.toInt) :
    (m.grow fd).lookup d = m.lookup d := by
  have grows := (inside_grow sized small index).2
  by_cases inside : fd.toInt < m.sizeInt
  · rw [grow_of_inside inside]
  · rw [grow_of_past (by omega)] at grows ⊢
    rw [Slots.length_resize] at grows
    rw [lookup, lookup, Slots.lookup_resize_of_le grows]

theorem lookup_resized {n : ℕ} :
    lookup ⟨Slots.resize m.mDatas n⟩ d =
      if d.toInt.toNat < n then m.lookup d else none := by
  rw [lookup, lookup]
  by_cases index : 0 ≤ d.toInt
  · rw [if_pos index, if_pos index, Slots.lookup_resize]
  · rw [if_neg index, if_neg index, ite_self]

/-- A change of the size adds no entry. -/
theorem lookup_grow_or : (m.grow fd).lookup d = none ∨ (m.grow fd).lookup d = m.lookup d := by
  by_cases past : m.sizeInt ≤ fd.toInt
  · rw [grow_of_past past, lookup_resized]
    split
    · exact .inr rfl
    · exact .inl rfl
  · rw [grow_of_inside (by omega)]
    exact .inr rfl

/-! ## `get` and `del` -/

theorem find_small (small : m.mDatas.length < 2 ^ 31) (index : 0 ≤ fd.toInt) (autoCreate : Bool) :
    m.find fd autoCreate =
      some (if (m.lookup fd).isSome || !autoCreate then .answer (m.lookup fd) else .create) := by
  have size := sizeInt_of_lt small
  rw [find, if_neg (ne_of_index index), lookup_def index]
  by_cases past : m.sizeInt ≤ fd.toInt
  · rw [if_pos past, Slots.lookup_of_length_le (by omega)]
    cases autoCreate with
    | true => rfl
    | false => rfl
  · rw [if_neg past, slot, if_pos index, List.getElem?_eq_getElem (by omega), Option.map_some,
      Slots.lookup, List.getElem?_eq_getElem (by omega), Option.join_some]

theorem find_false (small : m.mDatas.length < 2 ^ 31) (index : 0 ≤ fd.toInt) :
    m.find fd false = some (.answer (m.lookup fd)) := by
  rw [find_small small index, Bool.not_false, Bool.or_true, if_pos rfl]

theorem find_true (small : m.mDatas.length < 2 ^ 31) (index : 0 ≤ fd.toInt) :
    m.find fd true =
      some (if (m.lookup fd).isSome then .answer (m.lookup fd) else .create) := by
  rw [find_small small index, Bool.not_true, Bool.or_false]

/-- Past 2^31 slots every descriptor seems to lie past the end. -/
theorem find_large (sized : m.Sized) (large : 2 ^ 31 ≤ m.mDatas.length) (index : 0 ≤ fd.toInt)
    (autoCreate : Bool) :
    m.find fd autoCreate = some (if autoCreate then .create else .answer none) := by
  have high := sized.high
  have negative := sizeInt_neg large (by omega)
  rw [find, if_neg (ne_of_index index), if_pos (by omega)]

/-- `get(fd, true)` where `fd` seems to lie past the end: the vector gets `fd*1.5`
slots, whether it grows by that or is cut off. -/
theorem get_past (index : 0 ≤ fd.toInt) (past : m.sizeInt ≤ fd.toInt) :
    m.get fd true ctx = (FdManager.store ⟨Slots.resize m.mDatas (fd.toInt.toNat * 3 / 2)⟩ fd
      (some ctx)).map fun m => (m, some ctx) := by
  rw [get, find, if_neg (ne_of_index index), if_pos past, if_pos rfl, create, grow_of_past past]

theorem lookup_create (created : m.create fd ctx = some m') :
    m'.lookup d = if d = fd then some ctx else (m.grow fd).lookup d :=
  lookup_store created

theorem sized_create (sized : m.Sized) (created : m.create fd ctx = some m') : m'.Sized := by
  have length := length_store created
  have high := length_grow sized fd
  obtain ⟨-, inside, -⟩ := store_eq_some created
  have low := sized.low
  refine ⟨?_, by omega⟩
  by_cases past : m.sizeInt ≤ fd.toInt
  · rw [grow_of_past past, Slots.length_resize] at length inside
    omega
  · rw [grow_of_inside (by omega)] at length
    omega

theorem sized_del (sized : m.Sized) (deleted : m.del fd = some m') : m'.Sized := by
  rw [del] at deleted
  split at deleted
  · cases deleted
    exact sized
  · have length := length_store deleted
    exact ⟨length ▸ sized.low, length ▸ sized.high⟩

/-- What a context is found for below 2^31 slots is what is stored. -/
theorem get_false (small : m.mDatas.length < 2 ^ 31) (index : 0 ≤ fd.toInt) :
    m.get fd false ctx = some (m, m.lookup fd) := by
  rw [get, find_false small index]

/-- `get(fd, true)` below 2^31 slots answers with what is stored, and otherwise
stores the new context and touches nothing else. -/
theorem get_true (sized : m.Sized) (small : m.mDatas.length < 2 ^ 31) (index : 0 ≤ fd.toInt) :
    ∃ m', m.get fd true ctx = some (m', some ((m.lookup fd).getD ctx)) ∧
      ∀ d, m'.lookup d = if d = fd then some ((m.lookup fd).getD ctx) else m.lookup d := by
  rw [get, find_true small index]
  cases stored : m.lookup fd with
  | some p =>
    refine ⟨m, rfl, fun d => ?_⟩
    by_cases same : d = fd
    · rw [if_pos same, same, stored, Option.getD_some]
    · rw [if_neg same]
  | none =>
    have inside := (inside_grow sized small index).1
    obtain ⟨m', created⟩ : ∃ m', m.create fd ctx = some m' := ⟨_, store_inside index inside⟩
    refine ⟨m', by rw [Option.isSome_none, if_neg Bool.false_ne_true, created]; rfl, fun d => ?_⟩
    rw [lookup_create created, lookup_grow sized small index, Option.getD_none]

/-- The vector after a first context past its end. -/
theorem get_init_past (fd : Int32) (ctx : P) (past : 64 ≤ fd.toInt) :
    ∃ m', (FdManager.init : FdManager P).get fd true ctx = some (m', some ctx) ∧
      m'.lookup fd = some ctx ∧ m'.mDatas.length = fd.toInt.toNat * 3 / 2 := by
  have length : (FdManager.init : FdManager P).mDatas.length = 64 := List.length_replicate
  have size := sizeInt_of_lt (m := (FdManager.init : FdManager P)) (by omega)
  have inside : fd.toInt.toNat <
      (Slots.resize (FdManager.init : FdManager P).mDatas (fd.toInt.toNat * 3 / 2)).length := by
    rw [Slots.length_resize]
    omega
  have stored : store ⟨Slots.resize (FdManager.init : FdManager P).mDatas
      (fd.toInt.toNat * 3 / 2)⟩ fd (some ctx) = some _ :=
    store_inside (by omega) inside
  refine ⟨_, by rw [get_past (by omega) (by omega), stored]; rfl, ?_, ?_⟩
  · rw [lookup_store stored, if_pos rfl]
  · rw [length_store stored, Slots.length_resize]

/-- The context that `get(fd)` answers with. -/
def found (m : FdManager P) (fd : Int32) : Option P :=
  match m.find fd false with
  | some (.answer p) => p
  | _ => none

theorem found_eq (index : 0 ≤ fd.toInt) :
    m.found fd = if m.sizeInt ≤ fd.toInt then none else m.lookup fd := by
  rw [found, find, if_neg (ne_of_index index)]
  by_cases past : m.sizeInt ≤ fd.toInt
  · rw [if_pos past, if_pos past]
    rfl
  · rw [if_neg past, if_neg past, slot, if_pos index, lookup_def index, Slots.lookup]
    cases m.mDatas[fd.toInt.toNat]? with
    | none => rfl
    | some d =>
      rw [Option.map_some, if_pos (by rw [Bool.not_false, Bool.or_true]), Option.join_some]

theorem found_of_small (small : m.mDatas.length < 2 ^ 31) (index : 0 ≤ fd.toInt) :
    m.found fd = m.lookup fd := by
  rw [found, find_false small index]

theorem found_of_large (sized : m.Sized) (large : 2 ^ 31 ≤ m.mDatas.length)
    (index : 0 ≤ fd.toInt) : m.found fd = none := by
  rw [found, find_large sized large index]
  rfl

theorem index_of_found {c : P} (answer : m.found fd = some c) : 0 ≤ fd.toInt := by
  unfold found find at answer
  split at answer
  · rename_i p decided
    subst answer
    split at decided
    · cases decided
    · split at decided
      · cases decided
      · obtain ⟨d, here, -⟩ := Option.map_eq_some_iff.mp decided
        exact (Option.ite_none_right_eq_some.mp here).1
  · cases answer

/-- What `get(fd)` answers with is stored. -/
theorem lookup_of_found {c : P} (sized : m.Sized) (answer : m.found fd = some c) :
    m.lookup fd = some c := by
  have index := index_of_found answer
  by_cases small : m.mDatas.length < 2 ^ 31
  · rw [← found_of_small small index, answer]
  · rw [found_of_large sized (by omega) index] at answer
    cases answer

theorem found_modify (f : P → P) : (m.modify fd f).found fd = (m.found fd).map f := by
  by_cases index : 0 ≤ fd.toInt
  · rw [found_eq index, found_eq index, lookup_modify index, if_pos rfl, sizeInt_modify]
    by_cases past : m.sizeInt ≤ fd.toInt
    · rw [if_pos past, if_pos past, Option.map_none]
    · rw [if_neg past, if_neg past]
  · have nothing : ∀ m : FdManager P, m.found fd = none := fun m =>
      Option.eq_none_iff_forall_ne_some.mpr fun c answer => index (index_of_found answer)
    rw [nothing, nothing, Option.map_none]

/-- `get(fd)` decides in its first section. -/
theorem find_false_eq_some {x : Found P} (decided : m.find fd false = some x) :
    x = .answer (m.found fd) := by
  rw [found, decided]
  unfold find at decided
  split at decided
  · exact (Option.some.inj decided).symm ▸ rfl
  · split at decided
    · exact (Option.some.inj decided).symm ▸ rfl
    · obtain ⟨d, -, rfl⟩ := Option.map_eq_some_iff.mp decided
      rw [if_pos (by rw [Bool.not_false, Bool.or_true])]

/-- `get(fd, true)` creates where `get(fd)` answers with nothing. -/
theorem find_true_eq_some {x : Found P} (index : 0 ≤ fd.toInt)
    (decided : m.find fd true = some x) :
    (x = .answer (m.found fd) ∧ m.found fd ≠ none) ∨ (x = .create ∧ m.found fd = none) := by
  unfold found
  unfold find at decided ⊢
  rw [if_neg (ne_of_index index)] at decided ⊢
  split at decided
  · rename_i past
    rw [if_pos past]
    exact .inr ⟨(Option.some.inj decided).symm, rfl⟩
  · rename_i inside
    rw [if_neg inside]
    obtain ⟨d, here, rfl⟩ := Option.map_eq_some_iff.mp decided
    rw [here]
    cases d with
    | none => exact .inr ⟨rfl, rfl⟩
    | some c => exact .inl ⟨rfl, nofun⟩

theorem index_of_lookup (stored : m.lookup fd ≠ none) :
    0 ≤ fd.toInt ∧ fd.toInt.toNat < m.mDatas.length := by
  have index : 0 ≤ fd.toInt := by
    by_contra negative
    exact stored (if_neg negative)
  refine ⟨index, ?_⟩
  by_contra past
  exact stored ((lookup_def index).trans (Slots.lookup_of_length_le (by omega)))

/-- `del`, where `close` calls it. -/
theorem del_spec (sized : m.Sized) (index : 0 ≤ fd.toInt) (present : m.found fd ≠ none) :
    ∃ m', m.del fd = some m' ∧ ∀ d, m'.lookup d = if d = fd then none else m.lookup d := by
  have small : m.mDatas.length < 2 ^ 31 := by
    by_contra large
    exact present (found_of_large sized (by omega) index)
  rw [found_of_small small index] at present
  have inside := (index_of_lookup present).2
  have size := sizeInt_of_lt small
  have stored := store_inside (p := none) index inside
  refine ⟨_, by rw [del, if_neg (by omega), stored], fun d => lookup_store stored⟩

theorem lookup_del_or (deleted : m.del fd = some m') :
    m'.lookup d = none ∨ m'.lookup d = m.lookup d := by
  rw [del] at deleted
  split at deleted
  · cases deleted
    exact .inr rfl
  · rw [lookup_store deleted]
    split
    · exact .inl rfl
    · exact .inr rfl

/-! ## Calls, and the map they should be calls of -/

end FdManager

/-- A call of `get` or `del`; `ctx` is the context that `get` creates if it
creates one. -/
inductive FdCall (P : Type) where
  | get (fd : Int32) (autoCreate : Bool) (ctx : P)
  | del (fd : Int32)

namespace FdCall

variable {P : Type} {m m' : FdManager P} {a : FdCall P} {as : List (FdCall P)}
  {s t : Option (FdManager P)}

/-- The call of `FdManager`. -/
def run (m : FdManager P) : FdCall P → Option (FdManager P × Option P)
  | .get fd autoCreate ctx => m.get fd autoCreate ctx
  | .del fd => (m.del fd).map fun m => (m, none)

/-- The call of a finite map: the map after it, and the answer. -/
def spec (t : Int32 → Option P) : FdCall P → (Int32 → Option P) × Option P
  | .get fd false _ => (t, t fd)
  | .get fd true ctx =>
    (fun d => if d = fd then some ((t fd).getD ctx) else t d, some ((t fd).getD ctx))
  | .del fd => (fun d => if d = fd then none else t d, none)

/-- The calls that are made: with `fd >= 0`, where the context that `new` makes
is not the one that is stored, and `del(fd)` where `get(fd)` answers with one. -/
def Made (m : FdManager P) : FdCall P → Prop
  | .get fd autoCreate ctx => 0 ≤ fd.toInt ∧ (autoCreate = true → m.lookup fd ≠ some ctx)
  | .del fd => 0 ≤ fd.toInt ∧ m.found fd ≠ none

instance [DecidableEq P] (m : FdManager P) : ∀ a : FdCall P, Decidable (Made m a)
  | .get _ _ _ => inferInstanceAs (Decidable (_ ∧ _))
  | .del _ => inferInstanceAs (Decidable (_ ∧ _))

/-- A run of calls. There is no manager left after an index outside the vector. -/
def step [DecidableEq P] : Option (FdManager P) → FdCall P → Option (Option (FdManager P))
  | some m, a => if Made m a then some ((run m a).map Prod.fst) else none
  | none, _ => none

/-- A call is the one of the map: no index is outside the vector, the answer is
the one of the map, and what is stored afterwards is what the map then holds. -/
def Lawful (s : Option (FdManager P)) (a : FdCall P) : Prop :=
  ∀ m, s = some m → ∃ m', run m a = some (m', (spec m.lookup a).2) ∧
    ∀ d, m'.lookup d = (spec m.lookup a).1 d

/-- What a call needs once the vector has 2^31 slots: `get(fd)` that nothing is
stored for `fd`, `get(fd, true)` besides that nothing is stored from `fd*1.5`
on, and that `fd*1.5` is beyond `fd`. -/
def Spared (m : FdManager P) : FdCall P → Prop
  | .get fd false _ => m.lookup fd = none
  | .get fd true _ => m.lookup fd = none ∧ 2 ≤ fd.toInt ∧
      ∀ d : Int32, fd.toInt * 3 / 2 ≤ d.toInt → m.lookup d = none
  | .del _ => True

/-- The vector has fewer than 2^31 slots before the call, or the call is spared. -/
def Fits (s : Option (FdManager P)) (a : FdCall P) : Prop :=
  ∀ m, s = some m → m.mDatas.length < 2 ^ 31 ∨ Spared m a

/-! ## The law -/

theorem lawful_of_small (sized : m.Sized) (small : m.mDatas.length < 2 ^ 31) (made : Made m a) :
    ∃ m', run m a = some (m', (spec m.lookup a).2) ∧
      ∀ d, m'.lookup d = (spec m.lookup a).1 d := by
  cases a with
  | get fd autoCreate ctx =>
    cases autoCreate with
    | false => exact ⟨m, FdManager.get_false small made.1, fun _ => rfl⟩
    | true => exact FdManager.get_true sized small made.1
  | del fd =>
    obtain ⟨m', deleted, stored⟩ := FdManager.del_spec sized made.1 made.2
    exact ⟨m', by rw [run, deleted]; rfl, stored⟩

theorem get_true_large_iff {fd : Int32} {ctx : P} (sized : m.Sized)
    (large : 2 ^ 31 ≤ m.mDatas.length) (index : 0 ≤ fd.toInt) (new : m.lookup fd ≠ some ctx) :
    (∃ m', m.get fd true ctx = some (m', some ((m.lookup fd).getD ctx)) ∧
      ∀ d, m'.lookup d = if d = fd then some ((m.lookup fd).getD ctx) else m.lookup d) ↔
    m.lookup fd = none ∧ 2 ≤ fd.toInt ∧
      ∀ d : Int32, fd.toInt * 3 / 2 ≤ d.toInt → m.lookup d = none := by
  have negative := FdManager.sizeInt_neg large (by have := sized.high; omega)
  rw [FdManager.get_past index (by omega)]
  constructor
  · rintro ⟨_, reply, stored⟩
    obtain ⟨m', cut, same⟩ := Option.map_eq_some_iff.mp reply
    obtain ⟨rfl, answer⟩ := Prod.mk.inj same
    obtain ⟨-, inside, -⟩ := FdManager.store_eq_some cut
    rw [Slots.length_resize] at inside
    refine ⟨?_, by omega, fun d past => ?_⟩
    · cases held : m.lookup fd with
      | none => rfl
      | some p =>
        rw [held, Option.getD_some] at answer
        exact absurd (held.trans answer.symm) new
    · have other : d ≠ fd := by
        rintro rfl
        omega
      calc
        m.lookup d = if d = fd then some ((m.lookup fd).getD ctx) else m.lookup d :=
          (if_neg other).symm
        _ = m'.lookup d := (stored d).symm
        _ = none := by
          rw [FdManager.lookup_store cut, if_neg other, FdManager.lookup_resized,
            if_neg (by omega)]
  · rintro ⟨empty, far, past⟩
    have inside : fd.toInt.toNat < (Slots.resize m.mDatas (fd.toInt.toNat * 3 / 2)).length := by
      rw [Slots.length_resize]
      omega
    obtain ⟨m', cut⟩ : ∃ m', FdManager.store ⟨Slots.resize m.mDatas (fd.toInt.toNat * 3 / 2)⟩ fd
        (some ctx) = some m' := ⟨_, FdManager.store_inside index inside⟩
    refine ⟨m', by rw [cut, empty]; rfl, fun d => ?_⟩
    rw [FdManager.lookup_store cut, empty, Option.getD_none, FdManager.lookup_resized]
    by_cases kept : d.toInt.toNat < fd.toInt.toNat * 3 / 2
    · rw [if_pos kept]
    · rw [if_neg kept, past d (by omega)]

theorem lawful_large_iff (sized : m.Sized) (large : 2 ^ 31 ≤ m.mDatas.length)
    (made : Made m a) :
    (∃ m', run m a = some (m', (spec m.lookup a).2) ∧
      ∀ d, m'.lookup d = (spec m.lookup a).1 d) ↔ Spared m a := by
  cases a with
  | get fd autoCreate ctx =>
    obtain ⟨index, new⟩ := made
    cases autoCreate with
    | false =>
      have answer : run m (.get fd false ctx) = some (m, none) := by
        rw [run, FdManager.get, FdManager.find_large sized large index]
        rfl
      rw [answer]
      constructor
      · rintro ⟨m', reply, -⟩
        exact (Prod.mk.inj (Option.some.inj reply)).2.symm
      · intro empty
        exact ⟨m, by rw [← show m.lookup fd = none from empty]; rfl, fun _ => rfl⟩
    | true => exact get_true_large_iff sized large index (new rfl)
  | del fd => exact absurd (FdManager.found_of_large sized large made.1) made.2

theorem sized_run (sized : m.Sized) {p : Option P}
    (reply : run m a = some (m', p)) : m'.Sized := by
  cases a with
  | get fd autoCreate ctx =>
    rw [run, FdManager.get] at reply
    cases found : m.find fd autoCreate with
    | none =>
      rw [found] at reply
      cases reply
    | some decision =>
      rw [found] at reply
      cases decision with
      | answer q =>
        obtain ⟨rfl, -⟩ := Prod.mk.inj (Option.some.inj reply)
        exact sized
      | create =>
        obtain ⟨m'', created, same⟩ := Option.map_eq_some_iff.mp reply
        obtain ⟨rfl, -⟩ := Prod.mk.inj same
        exact FdManager.sized_create sized created
  | del fd =>
    obtain ⟨m'', deleted, same⟩ := Option.map_eq_some_iff.mp reply
    obtain ⟨rfl, -⟩ := Prod.mk.inj same
    exact FdManager.sized_del sized deleted

section Runs

variable [DecidableEq P]

theorem step_of_made (made : Made m a) : step (some m) a = some ((run m a).map Prod.fst) :=
  if_pos made

theorem step_eq_some (edge : step (some m) a = some t) : Made m a ∧ t = (run m a).map Prod.fst := by
  obtain ⟨made, after⟩ := Option.ite_none_right_eq_some.mp edge
  exact ⟨made, (Option.some.inj after).symm⟩

theorem sized_step (sized : ∀ m, s = some m → m.Sized) (edge : step s a = some t) :
    ∀ m, t = some m → m.Sized := by
  rintro m' rfl
  cases s with
  | none => cases edge
  | some m =>
    have after := (step_eq_some edge).2
    obtain ⟨⟨_, p⟩, reply, rfl⟩ := Option.map_eq_some_iff.mp after.symm
    exact sized_run (sized m rfl) reply

theorem lawful_iff_fits_step (sized : ∀ m, s = some m → m.Sized) (edge : step s a = some t) :
    Lawful s a ↔ Fits s a := by
  cases s with
  | none => cases edge
  | some m =>
    have made := (step_eq_some edge).1
    have law : Lawful (some m) a ↔ _ := ⟨fun lawful => lawful m rfl, fun call _ same =>
      Option.some.inj same ▸ call⟩
    have fits : Fits (some m) a ↔ _ := ⟨fun fits => fits m rfl, fun here _ same =>
      Option.some.inj same ▸ here⟩
    rw [law, fits]
    by_cases small : m.mDatas.length < 2 ^ 31
    · exact iff_of_true (lawful_of_small (sized m rfl) small made) (.inl small)
    · rw [lawful_large_iff (sized m rfl) (by omega) made, or_iff_right small]

/-- **The manager is a map, call by call.** In every run of `get` and `del` from
the first 64 slots, all calls are those of the map if and only if each is made
on fewer than 2^31 slots or is one of those that the larger vector spares. -/
theorem lawful_iff_fits :
    Runs.Along step Lawful (some (FdManager.init : FdManager P)) as ↔
      Runs.Along step Fits (some FdManager.init) as :=
  Runs.along_congr_inv (I := fun s => ∀ m, s = some m → m.Sized) sized_step lawful_iff_fits_step
    fun _ same => Option.some.inj same ▸ FdManager.sized_init

/-- A context for descriptor 1431655766 is not found again. -/
theorem get_misses_stored : ¬ Runs.Along step Lawful (some (FdManager.init : FdManager ℕ))
    [.get 1431655766 true 0, .get 1431655766 false 0] := by
  intro lawful
  have fd : (1431655766 : Int32).toInt = 1431655766 := by decide
  have sized := FdManager.sized_init (P := ℕ)
  obtain ⟨m, reply, stored, length⟩ :=
    FdManager.get_init_past 1431655766 0 (by omega)
  have made : Made (FdManager.init : FdManager ℕ) (.get 1431655766 true 0) :=
    ⟨by omega, fun _ => by rw [FdManager.lookup_init]; nofun⟩
  have made' : Made m (.get 1431655766 false 0) := ⟨by omega, nofun⟩
  have first : step (some FdManager.init) (.get 1431655766 true 0) = some (some m) := by
    rw [step_of_made made, run, reply]
    rfl
  have law := ((lawful _ first).2 _ (step_of_made made')).1 m rfl
  have grown : m.Sized := sized_run (a := .get 1431655766 true 0) sized reply
  have spared := (lawful_large_iff grown (by omega) made').mp law
  rw [Spared, stored] at spared
  cases spared

end Runs

end FdCall

end Sylar
