import Sylar.Config.Load
import Sylar.Lib.Threads

/-!
# Registering a variable

`config::Lookup` of `config.hpp` looks for the name under the shared lock, twice, gives
the lock up, and registers a new variable under the exclusive one without looking again.
The bytes that it takes in a name are listed apart from those that `ListAllMember` takes
in a path.

* `agree_iff`: the names on which the two lists agree.
* `one_along_iff`: the interleavings in which all callers hold the variable that is
  found are those in which nobody registers one after another has been answered.
-/

namespace Sylar

open Bytes Runs Threads Yaml

/-- `ConfigVarBase::ptr`: which object, and the type of its value. -/
structure ConfigItem (τ : Type) where
  id : ℕ
  type : τ

/-- What a call answers: `nullptr`, a variable, or it throws `std::invalid_argument`. -/
inductive LookupAnswer where
  | null
  | var (id : ℕ)
  | throws
  deriving DecidableEq

/-- `s_datas`. Beside it: how many variables have been made, and what the calls have
answered for which names. -/
structure ConfigDatas (τ : Type) where
  sDatas : Bytes → Option (ConfigItem τ)
  created : ℕ
  answers : List (Bytes × LookupAnswer)

/-- A call `Lookup<want>(key, ..)`. The calls for `name` are all for one type. -/
structure LookupOp {τ : Type} (name : Bytes) (type : τ) where
  key : Bytes
  want : τ
  same : key = name → want = type

/-- The call for `name` itself. -/
def LookupOp.own {τ : Type} (name : Bytes) (type : τ) : LookupOp name type :=
  ⟨name, type, fun _ => rfl⟩

/-- Where a call is: before `LookupBase`, before the overload that finds, or before the
registration. -/
inductive LookupPc {τ : Type} (name : Bytes) (type : τ) where
  | base (op : LookupOp name type)
  | typed (op : LookupOp name type)
  | register (op : LookupOp name type)

/-- Of a node at a valid path, the node itself comes first. -/
theorem Config.members_cons {p : List Bytes} (node : Node) (valid : ValidPath (dotted p)) :
    ∃ more, members p node = (dotted p, node) :: more := by
  cases node with
  | map entries => exact ⟨_, members_map entries valid⟩
  | null | scalar text | sequence items =>
    refine ⟨[], ?_⟩
    rw [members, Node.preorder_leaf p fun _ same => by cases same]
    simp [valid]

namespace ConfigDatas

/-- The bytes that a name may consist of. -/
def nameBytes : Bytes := lit "abcdefghigklmnopqrstuvwxyz._0123456789 "

/-- `find_first_not_of` finds nothing. -/
def ValidName (name : Bytes) : Prop := findFirstNotOf name nameBytes = none

instance (name : Bytes) : Decidable (ValidName name) :=
  inferInstanceAs (Decidable (findFirstNotOf name nameBytes = none))

variable {τ : Type}

/-- `LookupBase`. -/
def lookupBase (s : ConfigDatas τ) (name : Bytes) : Option (ConfigItem τ) := s.sDatas name

/-- The call for `name` answers. -/
def answered (s : ConfigDatas τ) (name : Bytes) (r : LookupAnswer) : ConfigDatas τ :=
  { s with answers := s.answers ++ [(name, r)] }

/-- `s_datas[name] = v`, for a new variable `v` that is answered with. -/
def registered (s : ConfigDatas τ) (name : Bytes) (type : τ) : ConfigDatas τ :=
  answered ⟨Function.update s.sDatas name (some ⟨s.created, type⟩), s.created + 1, s.answers⟩
    name (.var s.created)

variable {name : Bytes} {type : τ}

/-- One section. A variable of another type is an error at first, and not found by the
overload. -/
def move [DecidableEq τ] (s : ConfigDatas τ) (pc : LookupPc name type) (_ : Unit) :
    Option (ConfigDatas τ × Option (LookupPc name type)) :=
  match pc with
  | .base op =>
    if ∃ item ∈ s.lookupBase op.key, item.type ≠ op.want then
      some (s.answered op.key .null, none)
    else some (s, some (.typed op))
  | .typed op =>
    match (s.sDatas op.key).filter (·.type = op.want) with
    | some item => some (s.answered op.key (.var item.id), none)
    | none =>
      if ValidName op.key then some (s, some (.register op))
      else some (s.answered op.key .throws, none)
  | .register op => some (s.registered op.key op.want, none)

/-- An interleaving, section by section. -/
def step [DecidableEq τ] :
    Pool (ConfigDatas τ) (LookupPc name type) → Act (LookupOp name type) Unit →
      Option (Pool (ConfigDatas τ) (LookupPc name type)) :=
  Threads.step .base move

/-- The sections of one call, with nothing between them. -/
def lookup [DecidableEq τ] (s : ConfigDatas τ) (op : LookupOp name type) :
    Option (ConfigDatas τ) :=
  (move s (.base op) ()).bind fun
    | (s, none) => some s
    | (s, some pc) => (move s pc ()).bind fun
      | (s, none) => some s
      | (s, some pc) => (move s pc ()).map Prod.fst

/-- No variable yet. -/
def init : ConfigDatas τ := ⟨fun _ => none, 0, []⟩

/-! ## The two lists of bytes -/

section Lists

variable [DecidableEq τ] {path : Bytes}

/-- `Lookup` takes `name` for a new variable. -/
def Accepts (type : τ) (name : Bytes) : Prop :=
  ∀ s : ConfigDatas τ, s.lookupBase name = none →
    s.lookup (.own name type) = some (s.registered name type)

/-- `ListAllMember` takes `path`: it emits every node that it is called on with it. -/
def AcceptsPath (path : Bytes) : Prop :=
  ∀ node output, ∃ more,
    Config.listAllMember path node output = output ++ (path, node) :: more

theorem validName_iff : ValidName name ↔ ∀ c ∈ name, c ∈ nameBytes := by
  constructor
  · intro valid c inName
    have allIn := List.findIdx?_eq_none_iff.mp valid c inName
    simpa using allIn
  · exact findFirstNotOf_none

theorem accepts_iff (type : τ) : Accepts type name ↔ ValidName name := by
  constructor
  · intro accepts
    by_contra invalid
    have thrown := accepts init rfl
    have refused : init.lookup (.own name type) =
        some (init.answered name .throws) := by
      simp [lookup, move, LookupOp.own, lookupBase, init, invalid]
    rw [refused] at thrown
    have answers := congrArg ConfigDatas.answers (Option.some.inj thrown)
    simp [answered, registered, init] at answers
  · intro valid s none_there
    have absent : s.sDatas name = none := none_there
    simp [lookup, move, LookupOp.own, lookupBase, absent, valid]

theorem acceptsPath_iff : AcceptsPath path ↔ Config.ValidPath path := by
  constructor
  · intro accepts
    by_contra invalid
    obtain ⟨more, emitted⟩ := accepts .null []
    have nothing : Config.listAllMember path .null [] = [] := by
      rw [Config.listAllMember, if_pos (Config.findFirstNotOf_pathBytes.mpr invalid)]
      intro entries isMap
      cases isMap
    rw [nothing] at emitted
    cases emitted
  · intro valid node output
    obtain ⟨more, first⟩ := Config.members_cons (p := [path]) node valid
    exact ⟨more, first ▸ Config.listAllMember_eq [path] output node⟩

/-- Against the paths, the names have the space and lack the `j`. -/
theorem mem_nameBytes (c : UInt8) :
    c ∈ nameBytes ↔ (c ∈ Config.pathBytes ∧ c ≠ byte 'j') ∨ c = byte ' ' := by
  have there : ∀ c ∈ nameBytes, (c ∈ Config.pathBytes ∧ c ≠ byte 'j') ∨ c = byte ' ' := by
    decide +kernel
  have back : ∀ c ∈ Config.pathBytes, c ≠ byte 'j' → c ∈ nameBytes := by decide +kernel
  have space : byte ' ' ∈ nameBytes := by decide +kernel
  constructor
  · exact there c
  · rintro (⟨inPath, other⟩ | rfl)
    · exact back c inPath other
    · exact space

/-- `Lookup` and `ListAllMember` agree on the names with a byte that neither takes, on
those with both a `j` and a space, and on those with neither of the two. -/
theorem agree_iff (type : τ) (name : Bytes) :
    (Accepts type name ↔ AcceptsPath name) ↔
      (∃ c ∈ name, c ∉ Config.pathBytes ∧ c ≠ byte ' ') ∨
        (byte 'j' ∈ name ↔ byte ' ' ∈ name) := by
  rw [accepts_iff, acceptsPath_iff, validName_iff, Config.ValidPath]
  by_cases foreign : ∃ c ∈ name, c ∉ Config.pathBytes ∧ c ≠ byte ' '
  · refine iff_of_true ?_ (.inl foreign)
    obtain ⟨c, inName, outside, other⟩ := foreign
    refine iff_of_false (fun valid => ?_) fun valid => outside (valid c inName)
    rcases (mem_nameBytes c).mp (valid c inName) with ⟨inside, -⟩ | space
    · exact outside inside
    · exact other space
  · have known : ∀ c ∈ name, c ∈ Config.pathBytes ∨ c = byte ' ' := by
      intro c inName
      by_contra outside
      rw [not_or] at outside
      exact foreign ⟨c, inName, outside⟩
    have asName : (∀ c ∈ name, c ∈ nameBytes) ↔ byte 'j' ∉ name := by
      constructor
      · intro valid inName
        exact absurd (valid _ inName) (by decide +kernel)
      · intro free c inName
        refine (mem_nameBytes c).mpr ((known c inName).imp_left fun inside => ⟨inside, ?_⟩)
        rintro rfl
        exact free inName
    have asPath : (∀ c ∈ name, c ∈ Config.pathBytes) ↔ byte ' ' ∉ name := by
      constructor
      · intro valid inName
        exact absurd (valid _ inName) (by decide +kernel)
      · intro free c inName
        refine (known c inName).resolve_right ?_
        rintro rfl
        exact free inName
    rw [asName, asPath, or_iff_right foreign, not_iff_not]

/-- A variable `j` is refused, and the node of a file with this name is emitted. -/
theorem j_disagrees : ¬ (Accepts () [byte 'j'] ↔ AcceptsPath [byte 'j']) := by
  rw [accepts_iff, acceptsPath_iff]
  decide +kernel

end Lists

/-! ## One variable for a name -/

/-- A call for `name` has been answered. -/
def Known (name : Bytes) (s : ConfigDatas τ) : Prop := ∃ r, (name, r) ∈ s.answers

/-- All calls for `name` that have been answered hold the same variable, the one that
`LookupBase` finds. -/
def One (name : Bytes) (p : Pool (ConfigDatas τ) (LookupPc name type)) : Prop :=
  ∀ r, (name, r) ∈ p.shared.answers →
    ∃ item, p.shared.lookupBase name = some item ∧ r = .var item.id

/-- A variable is registered under `name` only before any call has been answered. -/
def Alone (p : Pool (ConfigDatas τ) (LookupPc name type)) : Act (LookupOp name type) Unit → Prop
  | .enter _ _ => True
  | .run i _ => ∀ op, p.ops i = some (.register op) → op.key = name → ¬ Known name p.shared

/-- The variable of `name` has been made, for the type of the calls. -/
structure Inv (name : Bytes) (type : τ) (s : ConfigDatas τ) : Prop where
  made : ∀ item, s.sDatas name = some item → item.id < s.created
  typed : ∀ item, s.sDatas name = some item → item.type = type

variable {s s' : ConfigDatas τ} {pc : LookupPc name type} {o : Option (LookupPc name type)}
  {p q : Pool (ConfigDatas τ) (LookupPc name type)} {a : Act (LookupOp name type) Unit}

theorem mem_answered {n : Bytes} {r r' : LookupAnswer} :
    (name, r) ∈ (s.answered n r').answers ↔ (name, r) ∈ s.answers ∨ (name = n ∧ r = r') := by
  show (name, r) ∈ s.answers ++ [(n, r')] ↔ _
  rw [List.mem_append, List.mem_singleton, Prod.mk.injEq]

theorem Inv.registered (inv : Inv name type s) {n : Bytes} {t : τ} (same : n = name → t = type) :
    Inv name type (s.registered n t) := by
  have now (item : ConfigItem τ) (found : (s.registered n t).sDatas name = some item) :
      (n = name ∧ item = ⟨s.created, t⟩) ∨ s.sDatas name = some item := by
    by_cases own : name = n
    · subst own
      rw [show (s.registered name t).sDatas name = _ from Function.update_self name _ _] at found
      exact .inl ⟨rfl, (Option.some.inj found).symm⟩
    · rw [show (s.registered n t).sDatas name = _ from Function.update_of_ne own _ _] at found
      exact .inr found
  constructor
  · intro item found
    rcases now item found with ⟨-, rfl⟩ | old
    · exact Nat.lt_succ_self _
    · exact Nat.lt_succ_of_lt (inv.made item old)
  · intro item found
    rcases now item found with ⟨own, rfl⟩ | old
    · exact same own
    · exact inv.typed item old

/-- The registration for `name` itself. -/
theorem one_registered {ops : ℕ → Option (LookupPc name type)} (inv : Inv name type s)
    (before : ∀ r, (name, r) ∈ s.answers → ∃ item, s.sDatas name = some item ∧ r = .var item.id) :
    One name ⟨s.registered name type, ops⟩ ↔ ¬ Known name s := by
  have found : (s.registered name type).lookupBase name = some ⟨s.created, type⟩ :=
    Function.update_self name _ s.sDatas
  constructor
  · rintro one ⟨r, old⟩
    obtain ⟨item, there, rfl⟩ := before r old
    obtain ⟨new, now, same⟩ := one (.var item.id) (mem_answered.mpr (.inl old))
    obtain rfl := Option.some.inj (found.symm.trans now)
    have distinct := inv.made item there
    rw [LookupAnswer.var.inj same] at distinct
    exact absurd distinct (Nat.lt_irrefl _)
  · intro first r member
    rcases mem_answered.mp member with old | ⟨-, rfl⟩
    · exact absurd ⟨r, old⟩ first
    · exact ⟨_, found, rfl⟩

variable [DecidableEq τ]

/-- A section registers, or it leaves the table as it is and answers at most once: with
the variable that is found, when it is for `name` and this is valid. -/
theorem move_cases (valid : ValidName name) (inv : Inv name type s)
    (moved : move s pc () = some (s', o)) :
    (∃ op, pc = .register op ∧ s' = s.registered op.key op.want) ∨
      (∀ op, pc ≠ .register op) ∧ (s' = s ∨ ∃ n r, s' = s.answered n r ∧
        (n = name → ∃ item, s.sDatas name = some item ∧ r = .var item.id)) := by
  cases pc with
  | register op =>
    cases moved
    exact .inl ⟨op, rfl, rfl⟩
  | base op =>
    refine .inr ⟨nofun, ?_⟩
    unfold move at moved
    dsimp only at moved
    split at moved
    · next other =>
      cases moved
      refine .inr ⟨op.key, .null, rfl, fun own => ?_⟩
      obtain ⟨item, found, differs⟩ := other
      rw [own] at found
      exact absurd ((inv.typed item found).trans (op.same own).symm) differs
    · cases moved
      exact .inl rfl
  | typed op =>
    refine .inr ⟨nofun, ?_⟩
    unfold move at moved
    dsimp only at moved
    split at moved
    · next item found =>
      cases moved
      refine .inr ⟨op.key, .var item.id, rfl, fun own => ⟨item, ?_, rfl⟩⟩
      rw [← own]
      exact (Option.filter_eq_some_iff.mp found).1
    · split at moved
      · cases moved
        exact .inl rfl
      · next invalid =>
        cases moved
        exact .inr ⟨op.key, .throws, rfl, fun own => absurd valid (own ▸ invalid)⟩

theorem Inv.next (valid : ValidName name) (inv : Inv name type p.shared)
    (edge : step p a = some q) : Inv name type q.shared := by
  cases a with
  | enter i op =>
    obtain ⟨-, rfl⟩ := step_enter edge
    exact inv
  | run i input =>
    obtain ⟨pc, s, o, -, moved, rfl⟩ := step_run edge
    rcases move_cases valid inv moved with ⟨op, -, rfl⟩ | ⟨-, rfl | ⟨n, r, rfl, -⟩⟩
    · exact inv.registered op.same
    · exact inv
    · exact ⟨inv.made, inv.typed⟩

theorem one_step_iff (valid : ValidName name) (inv : Inv name type p.shared) (one : One name p)
    (edge : step p a = some q) : One name q ↔ Alone p a := by
  cases a with
  | enter i op =>
    obtain ⟨-, rfl⟩ := step_enter edge
    exact iff_of_true one trivial
  | run i input =>
    obtain ⟨pc, s, o, here, moved, rfl⟩ := step_run edge
    rcases move_cases valid inv moved with ⟨op, rfl, rfl⟩ | ⟨other, stays⟩
    · by_cases own : op.key = name
      · have now : One name ⟨p.shared.registered op.key op.want, Function.update p.ops i o⟩ ↔
            ¬ Known name p.shared := by
          rw [own, op.same own]
          exact one_registered inv one
        rw [now]
        constructor
        · intro first op' _ _
          exact first
        · exact fun alone => alone op here own
      · refine iff_of_true (fun r member => ?_) fun op' there same => ?_
        · rcases mem_answered.mp member with old | ⟨same, -⟩
          · obtain ⟨item, found, answer⟩ := one r old
            exact ⟨item, (Function.update_of_ne (Ne.symm own) _ _).trans found, answer⟩
          · exact absurd same.symm own
        · cases here.symm.trans there
          exact absurd same own
    · have elsewhere : Alone p (.run i input) := by
        intro op there
        exact absurd (Option.some.inj (here.symm.trans there)) (other op)
      refine iff_of_true ?_ elsewhere
      rcases stays with rfl | ⟨n, r, rfl, found⟩
      · exact one
      · intro r' member
        rcases mem_answered.mp member with old | ⟨same, rfl⟩
        · exact one r' old
        · exact found same.symm

/-- The interleavings of calls for one valid name, with calls for other names among
them, in which all callers hold one variable, the one found later, are those in which no
call registers one under the name after another has been answered. -/
theorem one_along_iff (valid : ValidName name) (as : List (Act (LookupOp name type) Unit)) :
    Always step (One name) (Pool.idle init) as ↔ Along step Alone (Pool.idle init) as := by
  have start : Inv name type init := ⟨nofun, nofun⟩
  exact always_iff_along (I := fun p => Inv name type p.shared) (Inv.next valid)
    (one_step_iff valid) start fun r member => by cases member

/-- A second thread looks after the first has registered. -/
theorem one_after_another :
    Always step (One [byte 'a']) (Pool.idle init)
      [.enter 0 (.own [byte 'a'] ()), .run 0 (), .run 0 (), .run 0 (),
        .enter 1 (.own [byte 'a'] ()), .run 1 (), .run 1 ()] := by
  rw [one_along_iff (by decide +kernel)]
  refine along_cons trivial rfl ?_
  refine along_cons (fun op here => by cases here) rfl ?_
  refine along_cons (fun op here => by cases here) rfl ?_
  refine along_cons ?_ rfl ?_
  · rintro op - - ⟨r, member⟩
    cases member
  refine along_cons trivial rfl ?_
  refine along_cons (fun op here => by cases here) rfl ?_
  exact along_cons (fun op here => by cases here) rfl trivial

/-- Both look before either registers: the first is left with a variable that nobody
finds. -/
theorem both_register :
    ¬ Always step (One [byte 'a']) (Pool.idle init)
      [.enter 0 (.own [byte 'a'] ()), .enter 1 (.own [byte 'a'] ()), .run 0 (), .run 1 (),
        .run 0 (), .run 1 (), .run 0 (), .run 1 ()] := by
  intro always
  obtain ⟨item, found, answer⟩ := always.last rfl (.var 0) List.mem_cons_self
  cases found
  cases answer

end ConfigDatas

end Sylar
