import Sylar.Fd.Manager

/-!
# A context that says non-blocking

A context with `isSocket()` and `getSysNonblock()` promises that its descriptor
is a socket with `O_NONBLOCK` set, and `do_io` makes its system calls on that
promise. The promise is made when a context is created, and kept by `F_SETFL`,
which adds the flag to what the user asks for. `ioctl(FIONBIO)` hands the user's
value on as it is, and `close` with the hook off leaves the context to whoever
gets the number next.

* `get_true_cases`, `setfl_spec`, `fionbio_spec`, `close_spec`: what each call
  does to the contexts and to the kernel.
* `step_spec`: one call keeps the promise at its descriptor, exactly when.
* `kept_iff_heeded`: the runs in which it is always kept.
-/

namespace Sylar

/-! ## The kernel's calls -/

namespace Kernel

variable {k : Kernel} {fd d : Int32} {f : File} {arg : BitVec 32} {nonblock refused : Bool}

@[simp] theorem opened_self : k.opened fd f fd = some f := if_pos rfl

theorem opened_other (other : d ≠ fd) : k.opened fd f d = k d := if_neg other

@[simp] theorem close_self : k.close fd fd = none := if_pos rfl

theorem close_other (other : d ≠ fd) : k.close fd d = k d := if_neg other

theorem getfl_open (here : k fd = some f) :
    k.getfl fd refused = if refused then -1 else f.flags := by
  cases refused <;> simp [getfl, here]

theorem setfl_other (other : d ≠ fd) : (k.setfl fd arg refused).1 d = k d := by
  unfold setfl
  split
  · exact opened_other other
  · rfl

theorem setfl_self : (k.setfl fd arg refused).1 fd = (k fd).map fun f =>
    if refused then f else f.setfl arg := by
  cases here : k fd with
  | none => simp [setfl, here]
  | some f => cases refused <;> simp [setfl, here]

theorem fionbio_other (other : d ≠ fd) : (k.fionbio fd nonblock refused).1 d = k d := by
  unfold fionbio
  split
  · exact opened_other other
  · rfl

theorem fionbio_self : (k.fionbio fd nonblock refused).1 fd = (k fd).map fun f =>
    if refused then f else f.fionbio nonblock := by
  cases here : k fd with
  | none => simp [fionbio, here]
  | some f => cases refused <;> simp [fionbio, here]

end Kernel

namespace FdCtx

variable {k : Kernel} {fd d : Int32} {f : File} {c : FdCtx}

/-- What a context promises about its descriptor. -/
def forced (c : FdCtx) : Bool := c.mIsScoket && c.mSysNonblock

/-- What `init` leaves in every context, and no setter changes. -/
structure Sound (c : FdCtx) : Prop where
  isClose : c.mIsClose = false
  sysNonblock : c.mSysNonblock = c.mIsScoket

theorem Sound.setUserNonblock (sound : c.Sound) (v : Bool) : (c.setUserNonblock v).Sound :=
  ⟨sound.isClose, sound.sysNonblock⟩

theorem forced_eq (sound : c.Sound) : c.forced = c.mIsScoket := by
  rw [forced, sound.sysNonblock, Bool.and_self]

/-- The context of an open descriptor, and the kernel with the flag set if the
descriptor is a socket. -/
theorem new_open (here : k fd = some f) :
    new k fd = (⟨true, f.isSock, false, false, f.isSock, fd, -1, -1⟩,
      if f.isSock = true ∧ isNonblock f.flags = false then
        (k.setfl fd (f.flags ||| O_NONBLOCK) false).1
      else k) := by
  simp [new, init, here, Kernel.getfl]

theorem new_other (here : k fd = some f) (other : d ≠ fd) : (new k fd).2 d = k d := by
  rw [new_open here]
  dsimp only
  split
  · exact Kernel.setfl_other other
  · rfl

theorem new_self (here : k fd = some f) :
    ∃ f', (new k fd).2 fd = some f' ∧ f'.isSock = f.isSock ∧
      (f.isSock = true → isNonblock f'.flags = true) := by
  rw [new_open here]
  dsimp only
  split
  · rw [Kernel.setfl_self, here]
    exact ⟨_, rfl, rfl, fun _ => by simp⟩
  · rename_i set
    refine ⟨f, here, rfl, fun isSock => ?_⟩
    rw [isSock] at set
    simpa using set

end FdCtx

namespace Process

variable {s t : Process} {fd d : Int32} {f : File} {c : FdCtx} {p : Option FdCtx}

/-! ## What each call does -/

/-- The process is tidy: the vector has a size it can have, and what it stores
are contexts that `init` has been through. -/
structure Tidy (s : Process) : Prop where
  sized : s.fdMgr.Sized
  sound : ∀ fd c, s.fdMgr.lookup fd = some c → c.Sound

/-- A call with `fd` may lose contexts of other descriptors, but adds none and
leaves the kernel alone there. -/
structure OnlyAt (fd : Int32) (s t : Process) : Prop where
  lookup : ∀ d, d ≠ fd → t.fdMgr.lookup d = none ∨ t.fdMgr.lookup d = s.fdMgr.lookup d
  kernel : ∀ d, d ≠ fd → t.kernel d = s.kernel d

theorem tidy_init (k : Kernel) : (init k).Tidy where
  sized := FdManager.sized_init
  sound fd c stored := by
    rw [init, FdManager.lookup_init] at stored
    cases stored

/-- A process stays tidy when only what is stored for `fd` is new. -/
theorem tidy_of_onlyAt (tidy : s.Tidy) (only : OnlyAt fd s t) (sized : t.fdMgr.Sized)
    (sound : ∀ c, t.fdMgr.lookup fd = some c → c.Sound) : t.Tidy where
  sized := sized
  sound d c stored := by
    by_cases same : d = fd
    · exact sound c (same ▸ stored)
    · rcases only.lookup d same with gone | kept
      · rw [gone] at stored
        cases stored
      · exact tidy.sound d c (kept ▸ stored)

theorem get_false_eq_some (answer : s.get fd false = some (t, p)) :
    t = s ∧ p = s.fdMgr.found fd := by
  unfold get at answer
  cases decided : s.fdMgr.find fd false with
  | none =>
    rw [decided] at answer
    cases answer
  | some x =>
    rw [decided, FdManager.find_false_eq_some decided] at answer
    obtain ⟨same, answered⟩ := Prod.mk.inj (Option.some.inj answer)
    exact ⟨same.symm, answered.symm⟩

/-- `get(fd, true)` on an open descriptor leaves all as it is, or stores the new
context that its `init` makes of the descriptor. -/
theorem get_true_cases (tidy : s.Tidy) (index : 0 ≤ fd.toInt) (here : s.kernel fd = some f)
    (answer : s.get fd true = some (t, p)) :
    (t = s ∧ s.fdMgr.found fd ≠ none) ∨
    (s.fdMgr.found fd = none ∧ OnlyAt fd s t ∧ t.fdMgr.Sized ∧
      t.fdMgr.lookup fd = some (FdCtx.new s.kernel fd).1 ∧
      t.kernel = (FdCtx.new s.kernel fd).2) := by
  unfold get at answer
  cases decided : s.fdMgr.find fd true with
  | none =>
    rw [decided] at answer
    cases answer
  | some x =>
    rw [decided] at answer
    rcases FdManager.find_true_eq_some index decided with ⟨rfl, present⟩ | ⟨rfl, absent⟩
    · exact .inl ⟨(Prod.mk.inj (Option.some.inj answer)).1.symm, present⟩
    · obtain ⟨m, created, same⟩ := Option.map_eq_some_iff.mp answer
      obtain ⟨rfl, -⟩ := Prod.mk.inj same
      refine .inr ⟨absent, ⟨fun d other => ?_, fun d other => FdCtx.new_other here other⟩,
        FdManager.sized_create tidy.sized created, ?_, rfl⟩
      · rw [FdManager.lookup_create created, if_neg other]
        exact FdManager.lookup_grow_or
      · rw [FdManager.lookup_create created, if_pos rfl]

/-! ## The promise -/

/-- A stored context makes a promise about `fd`. -/
def Held (s : Process) (fd : Int32) : Prop :=
  ∃ c, s.fdMgr.lookup fd = some c ∧ c.forced = true

/-- The context that `get(fd)` answers with makes a promise about `fd`. -/
def Promised (s : Process) (fd : Int32) : Prop :=
  ∃ c, s.fdMgr.found fd = some c ∧ c.forced = true

/-- What is promised about `fd` is so. -/
def CoherentAt (s : Process) (fd : Int32) : Prop :=
  Held s fd → ∀ f, s.kernel fd = some f → f.isSock = true ∧ isNonblock f.flags = true

/-- `do_io` with the hook on does not hand a call on `fd` to the system as it is,
but waits itself where the call would block. -/
def Waits (s : Process) (fd : Int32) : Prop :=
  ∃ c, s.fdMgr.found fd = some c ∧ c.mIsClose = false ∧ c.mIsScoket = true ∧
    c.mUserNonblock = false

/-- Every promise is kept, and no call that `do_io` waits for itself can block in
the system. -/
structure Kept (s : Process) : Prop where
  coherent : ∀ fd, CoherentAt s fd
  neverBlocks : ∀ fd f, Waits s fd → s.kernel fd = some f → isNonblock f.flags = true

theorem held_of_promised (tidy : s.Tidy) (promised : Promised s fd) : Held s fd := by
  obtain ⟨c, answer, forced⟩ := promised
  exact ⟨c, FdManager.lookup_of_found tidy.sized answer, forced⟩

theorem kept_of_coherent (tidy : s.Tidy) (coherent : ∀ fd, CoherentAt s fd) : Kept s where
  coherent := coherent
  neverBlocks fd f waits here := by
    obtain ⟨c, answer, -, isSocket, -⟩ := waits
    have stored := FdManager.lookup_of_found tidy.sized answer
    have forced : c.forced = true := by
      rw [FdCtx.forced, (tidy.sound fd c stored).sysNonblock, isSocket, Bool.and_self]
    exact (coherent fd ⟨c, stored, forced⟩ f here).2

/-! ## The promise after each call -/

/-- A descriptor is opened without a look at its context. -/
theorem coherentAt_opened :
    CoherentAt { s with kernel := s.kernel.opened fd f } fd ↔
      (Held s fd → f.isSock = true ∧ isNonblock f.flags = true) := by
  constructor
  · intro coherent held
    exact coherent held f Kernel.opened_self
  · intro heeded held f' here
    rw [← Option.some.inj (Kernel.opened_self.symm.trans here)]
    exact heeded held

/-- A socket is opened, and the hook gets its context: one that is found there is
taken as it is. -/
theorem coherentAt_get_true (tidy : s.Tidy) (index : 0 ≤ fd.toInt) (here : s.kernel fd = some f)
    (isSock : f.isSock = true) (answer : s.get fd true = some (t, p)) :
    CoherentAt t fd ↔ (Promised s fd → isNonblock f.flags = true) := by
  rcases get_true_cases tidy index here answer with ⟨rfl, present⟩ | ⟨absent, -, -, stored, kernel⟩
  · obtain ⟨c, found⟩ := Option.ne_none_iff_exists'.mp present
    have stored := FdManager.lookup_of_found tidy.sized found
    constructor
    · intro coherent promised
      exact (coherent (held_of_promised tidy promised) f here).2
    · intro heeded held f' here'
      obtain ⟨c', stored', forced⟩ := held
      obtain rfl := Option.some.inj (stored.symm.trans stored')
      obtain rfl := Option.some.inj (here.symm.trans here')
      exact ⟨isSock, heeded ⟨c, found, forced⟩⟩
  · obtain ⟨f', here', isSock', nonblock⟩ := FdCtx.new_self here
    refine iff_of_true ?_ ?_
    · intro held f'' here''
      rw [kernel] at here''
      obtain rfl := Option.some.inj (here'.symm.trans here'')
      exact ⟨isSock'.trans isSock, nonblock isSock⟩
    · rintro ⟨c, found, -⟩
      rw [absent] at found
      cases found

theorem held_kernel (k : Kernel) : Held ⟨s.fdMgr, k⟩ fd ↔ Held s fd := Iff.rfl

theorem held_modify (index : 0 ≤ fd.toInt) (v : Bool) (k : Kernel) :
    Held ⟨s.fdMgr.modify fd fun c => c.setUserNonblock v, k⟩ fd ↔ Held s fd := by
  unfold Held
  rw [FdManager.lookup_modify index, if_pos rfl]
  cases s.fdMgr.lookup fd with
  | none => simp
  | some c => simp [FdCtx.forced, FdCtx.setUserNonblock]

/-- A system call changes the flags of `fd`, unless it is refused, and no
promise. -/
theorem coherentAt_changed (coherent : CoherentAt s fd) (held : Held t fd ↔ Held s fd)
    {g : File → File} {refused : Bool}
    (kernel : t.kernel fd = (s.kernel fd).map fun f => if refused then f else g f)
    (isSock : ∀ f, (g f).isSock = f.isSock) {nonblock : Bool}
    (flags : ∀ f, isNonblock (g f).flags = nonblock) :
    CoherentAt t fd ↔
      (Held s fd → s.kernel fd ≠ none → nonblock = true ∨ refused = true) := by
  unfold CoherentAt
  rw [held, kernel]
  cases refused with
  | true =>
    simp only [if_true, Option.map_id']
    exact iff_of_true coherent fun _ _ => .inr trivial
  | false =>
    simp only [Bool.false_eq_true, if_false, or_false]
    constructor
    · intro after promise exists_file
      obtain ⟨f, here⟩ := Option.ne_none_iff_exists'.mp exists_file
      rw [← flags f]
      exact (after promise (g f) (by rw [here, Option.map_some])).2
    · intro heeded promise f' here'
      obtain ⟨f, here, rfl⟩ := Option.map_eq_some_iff.mp here'
      rw [isSock, flags]
      exact ⟨(coherent promise f here).1, heeded promise (by rw [here]; nofun)⟩

theorem not_promised (tidy : s.Tidy) (silent : (s.fdMgr.found fd).filter FdCtx.answersFor = none) :
    ¬ Promised s fd := by
  rintro ⟨c, answer, forced⟩
  have sound := tidy.sound fd c (FdManager.lookup_of_found tidy.sized answer)
  rw [FdCtx.forced, sound.sysNonblock, Bool.and_self] at forced
  rw [answer, Option.filter_some, if_pos (by rw [FdCtx.answersFor, sound.isClose, forced]; rfl)]
    at silent
  cases silent

/-- `fcntl(fd, F_SETFL, arg)` goes to the system as it is, or with the flag that
the context of `fd` asks for. -/
theorem setfl_cases {arg r : BitVec 32} {refused : Bool}
    (answer : s.setfl fd arg refused = some (t, r)) :
    ((s.fdMgr.found fd).filter FdCtx.answersFor = none ∧
      t = ⟨s.fdMgr, (s.kernel.setfl fd arg refused).1⟩) ∨
    ∃ c, s.fdMgr.found fd = some c ∧ c.answersFor = true ∧
      t = ⟨s.fdMgr.modify fd fun c => c.setUserNonblock (isNonblock arg),
        (s.kernel.setfl fd (if c.mSysNonblock then arg ||| O_NONBLOCK
          else arg &&& ~~~O_NONBLOCK) refused).1⟩ := by
  obtain ⟨⟨u, p⟩, got, result⟩ := Option.map_eq_some_iff.mp answer
  obtain ⟨-, rfl⟩ := get_false_eq_some got
  dsimp only at result
  split at result
  · rename_i silent
    exact .inl ⟨silent, (Prod.mk.inj result).1.symm⟩
  · rename_i c speaks
    obtain ⟨found, answers⟩ := Option.filter_eq_some_iff.mp speaks
    exact .inr ⟨c, found, answers, (Prod.mk.inj result).1.symm⟩

/-- `ioctl(fd, FIONBIO, &v)` goes to the system as it is. -/
theorem fionbio_cases {v : Int32} {r : BitVec 32} {refused : Bool}
    (answer : s.fionbio fd v refused = some (t, r)) :
    t.kernel = (s.kernel.fionbio fd (v ≠ 0) refused).1 ∧
    ((s.fdMgr.found fd).filter FdCtx.answersFor = none ∧ t.fdMgr = s.fdMgr ∨
      ∃ c, s.fdMgr.found fd = some c ∧ c.answersFor = true ∧
        t.fdMgr = s.fdMgr.modify fd fun c => c.setUserNonblock (v ≠ 0)) := by
  obtain ⟨⟨u, p⟩, got, result⟩ := Option.map_eq_some_iff.mp answer
  obtain ⟨-, rfl⟩ := get_false_eq_some got
  obtain ⟨rfl, -⟩ := Prod.mk.inj result
  refine ⟨rfl, ?_⟩
  dsimp only
  split
  · rename_i silent
    exact .inl ⟨silent, rfl⟩
  · rename_i c speaks
    obtain ⟨found, answers⟩ := Option.filter_eq_some_iff.mp speaks
    exact .inr ⟨c, found, answers, rfl⟩

/-- A write to the context of `fd`, and one to the kernel's flags of `fd`. -/
theorem onlyAt_modify (index : 0 ≤ fd.toInt) (g : FdCtx → FdCtx) {k : Kernel}
    (kernel : ∀ d, d ≠ fd → k d = s.kernel d) :
    OnlyAt fd s ⟨s.fdMgr.modify fd g, k⟩ where
  lookup d other := .inr (by rw [FdManager.lookup_modify index, if_neg other])
  kernel := kernel

theorem tidy_modify (tidy : s.Tidy) (index : 0 ≤ fd.toInt) (v : Bool) (k : Kernel) :
    Tidy ⟨s.fdMgr.modify fd fun c => c.setUserNonblock v, k⟩ where
  sized := tidy.sized.modify _
  sound d c stored := by
    rw [FdManager.lookup_modify index] at stored
    split at stored
    · obtain ⟨c', stored', rfl⟩ := Option.map_eq_some_iff.mp stored
      exact (tidy.sound d c' stored').setUserNonblock v
    · exact tidy.sound d c stored

/-- `fcntl(fd, F_SETFL, arg)`, and whether it keeps the promise. -/
theorem setfl_spec (tidy : s.Tidy) {arg r : BitVec 32} {refused : Bool}
    (answer : s.setfl fd arg refused = some (t, r)) :
    OnlyAt fd s t ∧ t.Tidy ∧ (CoherentAt s fd →
      (CoherentAt t fd ↔ (¬ Promised s fd → Held s fd → s.kernel fd ≠ none →
        isNonblock arg = true ∨ refused = true))) := by
  rcases setfl_cases answer with ⟨silent, rfl⟩ | ⟨c, found, answers, rfl⟩
  · refine ⟨⟨fun d other => .inr rfl, fun d other => Kernel.setfl_other other⟩,
      ⟨tidy.sized, tidy.sound⟩, fun coherent => ?_⟩
    rw [imp_iff_right (not_promised tidy silent)]
    exact coherentAt_changed coherent (held_kernel _) Kernel.setfl_self (fun _ => rfl)
      fun f => f.isNonblock_setfl arg
  · have index := FdManager.index_of_found found
    have sound := tidy.sound fd c (FdManager.lookup_of_found tidy.sized found)
    have isSocket : c.mIsScoket = true := (Bool.and_eq_true_iff.mp answers).2
    have promised : Promised s fd := ⟨c, found, (FdCtx.forced_eq sound).trans isSocket⟩
    rw [sound.sysNonblock, isSocket, if_pos rfl]
    refine ⟨onlyAt_modify index _ fun d other => Kernel.setfl_other other,
      tidy_modify tidy index _ _, fun coherent => ?_⟩
    refine iff_of_true ?_ fun unpromised => absurd promised unpromised
    refine (coherentAt_changed coherent (held_modify index _ _) Kernel.setfl_self
      (fun _ => rfl) fun f => f.isNonblock_setfl _).mpr fun _ _ => .inl (isNonblock_set arg)

/-- `ioctl(fd, FIONBIO, &v)`, and whether it keeps the promise. -/
theorem fionbio_spec (tidy : s.Tidy) {v : Int32} {r : BitVec 32} {refused : Bool}
    (answer : s.fionbio fd v refused = some (t, r)) :
    OnlyAt fd s t ∧ t.Tidy ∧ (CoherentAt s fd →
      (CoherentAt t fd ↔ (Held s fd → s.kernel fd ≠ none →
        decide (v ≠ 0) = true ∨ refused = true))) := by
  obtain ⟨kernel, contexts⟩ := fionbio_cases answer
  obtain ⟨m, k⟩ := t
  obtain rfl : k = _ := kernel
  rcases contexts with ⟨-, same⟩ | ⟨c, found, -, same⟩
  · obtain rfl : m = _ := same
    refine ⟨⟨fun d other => .inr rfl, fun d other => Kernel.fionbio_other other⟩,
      ⟨tidy.sized, tidy.sound⟩, fun coherent => ?_⟩
    exact coherentAt_changed coherent (held_kernel _) Kernel.fionbio_self (fun _ => rfl)
      fun f => f.isNonblock_fionbio _
  · obtain rfl : m = _ := same
    have index := FdManager.index_of_found found
    refine ⟨onlyAt_modify index _ fun d other => Kernel.fionbio_other other,
      tidy_modify tidy index _ _, fun coherent => ?_⟩
    exact coherentAt_changed coherent (held_modify index _ _) Kernel.fionbio_self (fun _ => rfl)
      fun f => f.isNonblock_fionbio _

/-- `close(fd)`: no promise is left about an open descriptor. -/
theorem close_spec (tidy : s.Tidy) {hook : Bool} (closed : s.close hook fd = some t) :
    OnlyAt fd s t ∧ t.Tidy ∧ CoherentAt t fd := by
  have shut : t.kernel = s.kernel.close fd ∧ t.fdMgr.Sized ∧
      ∀ d, t.fdMgr.lookup d = none ∨ t.fdMgr.lookup d = s.fdMgr.lookup d := by
    unfold close at closed
    split at closed
    · obtain ⟨⟨_, ctx⟩, got, closed⟩ := Option.bind_eq_some_iff.mp closed
      dsimp only at closed
      cases ctx with
      | none =>
        cases closed
        exact ⟨rfl, tidy.sized, fun d => .inr rfl⟩
      | some c =>
        obtain ⟨m, deleted, rfl⟩ := Option.map_eq_some_iff.mp closed
        exact ⟨rfl, FdManager.sized_del tidy.sized deleted,
          fun d => FdManager.lookup_del_or deleted⟩
    · cases closed
      exact ⟨rfl, tidy.sized, fun d => .inr rfl⟩
  obtain ⟨kernel, sized, stored⟩ := shut
  have only : OnlyAt fd s t :=
    ⟨fun d _ => stored d, fun d other => by rw [kernel, Kernel.close_other other]⟩
  refine ⟨only, tidy_of_onlyAt tidy only sized fun c here => ?_, fun _ f here => ?_⟩
  · rcases stored fd with gone | kept
    · rw [gone] at here
      cases here
    · exact tidy.sound fd c (kept ▸ here)
  · rw [kernel, Kernel.close_self] at here
    cases here

/-- `get(fd, true)` on the socket that was just opened. -/
theorem get_true_spec (tidy : s.Tidy) (index : 0 ≤ fd.toInt) (isSock : f.isSock = true)
    (answer : get { s with kernel := s.kernel.opened fd f } fd true = some (t, p)) :
    OnlyAt fd s t ∧ t.Tidy ∧ (CoherentAt t fd ↔ (Promised s fd → isNonblock f.flags = true)) := by
  have tidy' : Tidy { s with kernel := s.kernel.opened fd f } := ⟨tidy.sized, tidy.sound⟩
  have here : (s.kernel.opened fd f) fd = some f := Kernel.opened_self
  have coherent := coherentAt_get_true tidy' index here isSock answer
  refine ⟨?_, ?_, coherent⟩
  · rcases get_true_cases tidy' index here answer with ⟨rfl, -⟩ | ⟨-, only, -, -, -⟩
    · exact ⟨fun d _ => .inr rfl, fun d other => Kernel.opened_other other⟩
    · exact ⟨only.lookup, fun d other => (only.kernel d other).trans (Kernel.opened_other other)⟩
  · rcases get_true_cases tidy' index here answer with ⟨rfl, -⟩ | ⟨-, only, sized, stored, -⟩
    · exact tidy'
    · refine tidy_of_onlyAt tidy' only sized fun c here' => ?_
      rw [stored, FdCtx.new_open here] at here'
      cases here'
      exact ⟨rfl, rfl⟩

end Process

/-! ## Runs of calls -/

/-- A call on descriptors, by a thread whose hook is on or off. `others` is any
other call that is handed a number: `open`, `pipe`, `epoll_create`, `dup`. -/
inductive FlagCall where
  | socket (hook : Bool) (type : BitVec 32) (fd : Int32)
  | accept (fd : Int32)
  | others (fd : Int32) (f : File)
  | close (hook : Bool) (fd : Int32)
  | setfl (fd : Int32) (arg : BitVec 32) (refused : Bool)
  | fionbio (fd : Int32) (v : Int32) (refused : Bool)

namespace FlagCall

open Process

variable {s t : Process} {a : FlagCall} {as : List FlagCall}

/-- The descriptor of a call. -/
def fd : FlagCall → Int32
  | .socket _ _ fd | .accept fd | .others fd _ | .close _ fd | .setfl fd _ _ | .fionbio fd _ _ => fd

/-- The numbers the kernel may hand out. -/
def Free (s : Process) (fd : Int32) : Prop := 0 ≤ fd.toInt ∧ s.kernel fd = none

instance (s : Process) (fd : Int32) : Decidable (Free s fd) := inferInstanceAs (Decidable (_ ∧ _))

/-- One call. -/
def step (s : Process) : FlagCall → Option Process
  | .socket hook type fd => if Free s fd then s.socket hook type fd else none
  | .accept fd => if Free s fd then s.accept fd else none
  | .others fd f =>
    if Free s fd then some { s with kernel := s.kernel.opened fd f } else none
  | .close hook fd => s.close hook fd
  | .setfl fd arg refused => (s.setfl fd arg refused).map Prod.fst
  | .fionbio fd v refused => (s.fionbio fd v refused).map Prod.fst

/-- What a call has to heed for the promise about its descriptor. A number with
a context from before must become a non-blocking socket: with the hook, where
`get(fd, true)` finds that context, without it, where it is stored. The flag is
not taken away past the hook (`F_SETFL` where `get(fd)` answers with nothing) or
through it (`FIONBIO`). -/
def Heeds (s : Process) : FlagCall → Prop
  | .socket true type fd => Promised s fd → isNonblock type = true
  | .socket false type fd => Held s fd → isNonblock type = true
  | .accept fd => ¬ Promised s fd
  | .others fd f => Held s fd → f.isSock = true ∧ isNonblock f.flags = true
  | .close _ _ => True
  | .setfl fd arg refused => ¬ Promised s fd → Held s fd → s.kernel fd ≠ none →
      isNonblock arg = true ∨ refused = true
  | .fionbio fd v refused => Held s fd → s.kernel fd ≠ none → v ≠ 0 ∨ refused = true

/-- One call: what it leaves alone, and whether its descriptor's promise is kept
after it. -/
theorem step_spec (tidy : s.Tidy) (edge : step s a = some t) :
    OnlyAt a.fd s t ∧ t.Tidy ∧ (CoherentAt s a.fd → (CoherentAt t a.fd ↔ Heeds s a)) := by
  have opened : ∀ fd f, OnlyAt fd s { s with kernel := s.kernel.opened fd f } ∧
      Tidy { s with kernel := s.kernel.opened fd f } := fun fd f =>
    ⟨⟨fun d _ => .inr rfl, fun d other => Kernel.opened_other other⟩, tidy.sized, tidy.sound⟩
  cases a with
  | socket hook type fd =>
    obtain ⟨free, edge⟩ := Option.ite_none_right_eq_some.mp edge
    have nonblock := isNonblock_type type
    cases hook with
    | true =>
      obtain ⟨⟨_, p⟩, answer, rfl⟩ := Option.map_eq_some_iff.mp edge
      obtain ⟨only, tidy', coherent'⟩ := get_true_spec tidy free.1 rfl answer
      rw [nonblock] at coherent'
      exact ⟨only, tidy', fun _ => coherent'⟩
    | false =>
      cases edge
      obtain ⟨only, tidy'⟩ := opened fd ⟨true, O_RDWR ||| (type &&& O_NONBLOCK)⟩
      refine ⟨only, tidy', fun _ => coherentAt_opened.trans ?_⟩
      rw [nonblock]
      exact imp_congr_right fun _ => and_iff_right rfl
  | accept fd =>
    obtain ⟨free, edge⟩ := Option.ite_none_right_eq_some.mp edge
    obtain ⟨⟨_, p⟩, answer, rfl⟩ := Option.map_eq_some_iff.mp edge
    obtain ⟨only, tidy', coherent'⟩ := get_true_spec tidy free.1 rfl answer
    have blocking : isNonblock O_RDWR = false := by decide
    rw [blocking] at coherent'
    refine ⟨only, tidy', fun _ => coherent'.trans ?_⟩
    exact imp_congr_right fun _ => iff_of_false nofun id
  | others fd f =>
    obtain ⟨-, edge⟩ := Option.ite_none_right_eq_some.mp edge
    cases edge
    exact ⟨(opened fd f).1, (opened fd f).2, fun _ => coherentAt_opened⟩
  | close hook fd =>
    obtain ⟨only, tidy', coherent'⟩ := close_spec tidy edge
    exact ⟨only, tidy', fun _ => iff_of_true coherent' trivial⟩
  | setfl fd arg refused =>
    obtain ⟨⟨_, r⟩, answer, rfl⟩ := Option.map_eq_some_iff.mp edge
    exact setfl_spec tidy answer
  | fionbio fd v refused =>
    obtain ⟨⟨_, r⟩, answer, rfl⟩ := Option.map_eq_some_iff.mp edge
    obtain ⟨only, tidy', coherent'⟩ := fionbio_spec tidy answer
    rw [decide_eq_true_iff] at coherent'
    exact ⟨only, tidy', coherent'⟩

theorem tidy_step (tidy : s.Tidy) (edge : step s a = some t) : t.Tidy := (step_spec tidy edge).2.1

/-- A promise about a descriptor that a call does not name stays kept. -/
theorem coherentAt_other (only : OnlyAt a.fd s t) {d : Int32} (other : d ≠ a.fd)
    (coherent : CoherentAt s d) : CoherentAt t d := by
  rintro ⟨c, stored, forced⟩ f here
  rcases only.lookup d other with gone | kept
  · rw [gone] at stored
    cases stored
  · exact coherent ⟨c, kept ▸ stored, forced⟩ f (only.kernel d other ▸ here)

/-- One call keeps all promises, exactly when it heeds what it has to. -/
theorem kept_iff_heeds (tidy : s.Tidy) (kept : Kept s) (edge : step s a = some t) :
    Kept t ↔ Heeds s a := by
  obtain ⟨only, tidy', coherent⟩ := step_spec tidy edge
  rw [← coherent (kept.coherent a.fd)]
  constructor
  · intro kept'
    exact kept'.coherent a.fd
  · intro here
    refine kept_of_coherent tidy' fun d => ?_
    by_cases same : d = a.fd
    · exact same ▸ here
    · exact coherentAt_other only same (kept.coherent d)

/-- **The promise of non-blocking.** From a process without contexts, on any open
files, the promise of every context is kept in every state of a run, and no call
that `do_io` waits for itself can block in the system, if and only if every call
of the run heeds what it has to. -/
theorem kept_iff_heeded (k : Kernel) :
    Runs.Always step Kept (Process.init k) as ↔ Runs.Along step Heeds (Process.init k) as := by
  refine Runs.always_iff_along tidy_step kept_iff_heeds (tidy_init k) ?_
  refine kept_of_coherent (tidy_init k) fun fd => ?_
  rintro ⟨c, stored, -⟩
  rw [Process.init, FdManager.lookup_init] at stored
  cases stored

/-- What is promised about `fd` is not so. -/
def broken (s : Process) (fd : Int32) : Bool :=
  match s.fdMgr.lookup fd, s.kernel fd with
  | some c, some f => c.forced && !(f.isSock && isNonblock f.flags)
  | _, _ => false

theorem not_kept_of_broken (fd : Int32) (bad : broken s fd = true) : ¬ Kept s := by
  intro kept
  unfold broken at bad
  split at bad
  · rename_i c f stored here
    obtain ⟨forced, refuted⟩ := Bool.and_eq_true_iff.mp bad
    obtain ⟨isSock, nonblock⟩ := kept.coherent fd ⟨c, stored, forced⟩ f here
    rw [isSock, nonblock] at refuted
    cases refuted
  · cases bad

/-- A socket of the hooks that `ioctl(FIONBIO)` makes blocking, and one whose
number comes from a socket that was closed with the hook off. -/
theorem promise_broken :
    ¬ Runs.Always step Kept (Process.init fun _ => none)
        [.socket true 0 5, .fionbio 5 0 false] ∧
      ¬ Runs.Always step Kept (Process.init fun _ => none)
        [.socket true 0 5, .close false 5, .accept 5] := by
  constructor
  · intro kept
    have last := kept.last rfl
    exact not_kept_of_broken 5 rfl last
  · intro kept
    have last := kept.last rfl
    exact not_kept_of_broken 5 rfl last

end FlagCall

end Sylar
