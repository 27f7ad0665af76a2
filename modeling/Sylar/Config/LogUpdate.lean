import Sylar.Config.History
import Sylar.Config.LogDefine

/-!
# Setting the loggers

`setValue` on a variable that holds a `std::set<logDefine>`. It returns at once when
`operator==` of the set says that nothing changes, and this goes through `operator==` of
`logDefine`, which compares `appenders` with itself.

* `setValue_eq_move`: the call is the two sections of `ConfigVar.move` in a row.
* `equal_iff`: the sets that `operator==` takes for equal.
* `heeds_iff`: the new values that are stored and told.
-/

namespace Sylar

/-! ## `operator==` -/

/-- `operator==` of `LogAppenderDefine`. -/
def LogAppenderDefine.equal (a oth : LogAppenderDefine) : Bool :=
  a.type == oth.type && a.level == oth.level && a.formatter == oth.formatter && a.file == oth.file

/-- `operator==` of `logDefine`. The appenders that it compares are both its own. -/
def LogDefine.equal (a oth : LogDefine) : Bool :=
  a.name == oth.name && a.level == oth.level && a.formatter == oth.formatter &&
    a.appenders.isEqv a.appenders LogAppenderDefine.equal

/-- `operator==` of `std::set<logDefine>`: as many loggers, and equal ones in turn. -/
def LogDefines.equal (a oth : LogDefines) : Bool := a.toList.isEqv oth.toList LogDefine.equal

/-- A logger without its appenders. -/
def LogDefine.bare (a : LogDefine) : LogDefine := { a with appenders := [] }

theorem LogAppenderDefine.equal_self (a : LogAppenderDefine) : a.equal a = true := by
  simp [LogAppenderDefine.equal]

theorem LogDefine.equal_iff {a oth : LogDefine} : a.equal oth = true ↔ a.bare = oth.bare := by
  have own (l : List LogAppenderDefine) : l.isEqv l LogAppenderDefine.equal = true := by
    induction l with
    | nil => rfl
    | cons it l ih => simp [List.isEqv, LogAppenderDefine.equal_self, ih]
  simp [LogDefine.equal, LogDefine.bare, own, and_assoc]

theorem LogDefines.isEqv_iff (a oth : List LogDefine) :
    a.isEqv oth LogDefine.equal = true ↔ a.map LogDefine.bare = oth.map LogDefine.bare := by
  induction a generalizing oth with
  | nil => cases oth <;> simp [List.isEqv]
  | cons l a ih =>
    cases oth with
    | nil => simp [List.isEqv]
    | cons l' oth => simp [List.isEqv, LogDefine.equal_iff, ih]

/-- The sets with the same loggers but for their appenders are taken for equal. -/
theorem LogDefines.equal_iff {a oth : LogDefines} :
    a.equal oth = true ↔ a.toList.map LogDefine.bare = oth.toList.map LogDefine.bare :=
  isEqv_iff a.toList oth.toList

namespace ConfigVar

/-! ## `setValue` as a whole -/

variable {T : Type}

/-- `setValue`, with nothing between its sections. `equal` is `operator==` of `T`. -/
def setValue (equal : T → T → Bool) (s : ConfigVar T) (value : T) (input : ConfigInput) :
    ConfigVar T :=
  if equal value s.mVal then s
  else
    let r := tell input.outcome s.mVal value input.order s.told
    if r.2 then { s with told := r.1, mVal := value } else { s with told := r.1 }

/-- One section after the other, until the operation is over. -/
def through [DecidableEq T] (s : ConfigVar T) (pc : ConfigPc T) (input : ConfigInput) :
    Option (ConfigVar T) :=
  (move s pc input).bind fun
    | (s, none) => some s
    | (s, some pc) => (move s pc input).map Prod.fst

/-- With an `operator==` that compares everything, `setValue` is its two sections in a
row. -/
theorem setValue_eq_move [DecidableEq T] {s : ConfigVar T} {input : ConfigInput}
    (order : input.order.Perm s.functionMaps) (value : T) :
    through s (.compare value) input =
      some (s.setValue (fun a b => decide (a = b)) value input) := by
  unfold through setValue
  by_cases same : value = s.mVal
  · simp [move, same]
  · have differs : ¬ decide (value = s.mVal) = true := mt of_decide_eq_true same
    dsimp only
    rw [if_neg differs, move, if_neg same, if_pos order, Option.bind_some]
    cases ends : (tell input.outcome s.mVal value input.order s.told).2 <;> rfl

/-- A listener that throws what is no `std::exception` ends the loop. -/
theorem tell_leaves {outcome : ℕ → Outcome} {old new : T} {order : List ℕ}
    {told : ℕ → List (T × T)} {k : ℕ} (member : k ∈ order) (leaves : outcome k = .throwsOther) :
    (tell outcome old new order told).2 = false := by
  induction order generalizing told with
  | nil => cases member
  | cons x order ih =>
    rw [tell]
    cases returned : outcome x with
    | throwsOther => rfl
    | returns | throwsStd =>
      rcases List.mem_cons.mp member with rfl | later
      · cases returned.symm.trans leaves
      · exact ih later

/-- What listeners and readers expect of a call: a value that differs is stored, and every
listener is told once; the same value changes nothing. -/
def Heeds (same : T → T → Prop) (equal : T → T → Bool) (s : ConfigVar T) (value : T)
    (input : ConfigInput) : Prop :=
  (¬ same value s.mVal →
    (s.setValue equal value input).mVal = value ∧
      ∀ k, (s.setValue equal value input).told k =
        if k ∈ s.functionMaps then s.told k ++ [(s.mVal, value)] else s.told k) ∧
    (same value s.mVal → s.setValue equal value input = s)

/-- When `operator==` takes the same values for equal, a call does what is expected of it
exactly when the values are the same, or differ for `operator==` too and no listener
leaves the loop. -/
theorem heeds_iff_of_refl {same : T → T → Prop} {equal : T → T → Bool}
    (refl : ∀ a, same a a) (sound : ∀ a b, same a b → equal a b = true) {s : ConfigVar T}
    {input : ConfigInput} (keys : s.functionMaps.Nodup) (order : input.order.Perm s.functionMaps)
    (value : T) :
    Heeds same equal s value input ↔ same value s.mVal ∨
      (equal value s.mVal = false ∧ ∀ k ∈ s.functionMaps, input.outcome k ≠ .throwsOther) := by
  by_cases unchanged : same value s.mVal
  · refine iff_of_true ⟨fun differs => absurd unchanged differs, fun _ => ?_⟩ (.inl unchanged)
    exact if_pos (sound value s.mVal unchanged)
  have kept {t : ConfigVar T} (stays : t.mVal = s.mVal) : t.mVal ≠ value := by
    intro stored
    rw [← stored, stays] at unchanged
    exact unchanged (refl s.mVal)
  rw [or_iff_right unchanged]
  constructor
  · rintro ⟨changes, -⟩
    obtain ⟨stored, -⟩ := changes unchanged
    cases equals : equal value s.mVal with
    | true =>
      have stays : s.setValue equal value input = s := if_pos equals
      exact absurd stored (kept (congrArg mVal stays))
    | false =>
      refine ⟨rfl, fun k member leaves => ?_⟩
      have ended : (tell input.outcome s.mVal value input.order s.told).2 = false :=
        tell_leaves (order.mem_iff.mpr member) leaves
      refine kept ?_ stored
      rw [setValue, equals, if_neg Bool.false_ne_true]
      dsimp only
      rw [ended, if_neg Bool.false_ne_true]
  · rintro ⟨differs, stays⟩
    refine ⟨fun _ => ?_, fun same => absurd same unchanged⟩
    obtain ⟨ends, tells⟩ := tell_spec s.mVal value s.told (order.nodup_iff.mpr keys)
      fun k member => stays k (order.mem_iff.mp member)
    have after : s.setValue equal value input =
        { s with
          told := (tell input.outcome s.mVal value input.order s.told).1
          mVal := value } := by
      rw [setValue, differs, if_neg Bool.false_ne_true]
      dsimp only
      rw [ends, if_pos rfl]
    rw [after]
    refine ⟨rfl, fun k => ?_⟩
    simp only [tells k, order.mem_iff]

/-! ## The loggers -/

/-- The two sets agree in every field of every logger. -/
def SameLoggers (a b : LogDefines) : Prop := a.toList = b.toList

/-- A new set of loggers is stored and told exactly when it is the old one, or differs
from it in more than appenders and no listener leaves the loop. -/
theorem heeds_iff {s : ConfigVar LogDefines} {input : ConfigInput}
    (keys : s.functionMaps.Nodup) (order : input.order.Perm s.functionMaps) (b : LogDefines) :
    Heeds SameLoggers LogDefines.equal s b input ↔ b.toList = s.mVal.toList ∨
      (b.toList.map LogDefine.bare ≠ s.mVal.toList.map LogDefine.bare ∧
        ∀ k ∈ s.functionMaps, input.outcome k ≠ .throwsOther) := by
  have sound (a b : LogDefines) (same : SameLoggers a b) : a.equal b = true :=
    LogDefines.equal_iff.mpr (congrArg _ same)
  have refl (a : LogDefines) : SameLoggers a a := rfl
  rw [heeds_iff_of_refl refl sound keys order b, ← Bool.not_eq_true,
    LogDefines.equal_iff]
  rfl

/-- One logger `root` with the given level and appenders. -/
def rootWith (level : LogLevel) (appenders : List LogAppenderDefine) : LogDefines :=
  (∅ : LogDefines).insert { name := lit "root", level, appenders }

/-- A change of the level is told. -/
theorem level_heeded :
    Heeds SameLoggers LogDefines.equal ⟨rootWith .INFO [], [1], 1, fun _ => ∅, fun _ => []⟩
      (rootWith .DEBUG []) (inOrder [1]) := by
  rw [heeds_iff (by decide) (List.Perm.refl _)]
  exact .inr ⟨by decide, fun _ _ => by nofun⟩

/-- A new appender is not. -/
theorem appender_dropped :
    ¬ Heeds SameLoggers LogDefines.equal ⟨rootWith .INFO [], [1], 1, fun _ => ∅, fun _ => []⟩
      (rootWith .INFO [{ type := 1 }]) (inOrder [1]) := by
  rw [heeds_iff (by decide) (List.Perm.refl _)]
  rintro (same | ⟨differs, -⟩)
  · exact absurd same (by decide)
  · exact absurd differs (by decide)

end ConfigVar

end Sylar
