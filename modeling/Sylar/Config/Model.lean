import Mathlib.Data.List.Perm.Basic
import Sylar.Lib.Threads

/-!
# A configuration variable and its listeners

`configvar<T>` of `config.hpp`: a value, and a table of listeners that are called
with the old and the new value when it is set. `setValue` calls them under the
shared lock and assigns under the exclusive one, in two sections; the table
changes in sections of their own. What the listeners are told is recorded beside
the variable.
-/

namespace Sylar

/-- How a listener returns from a call. -/
inductive Outcome where
  | returns
  | throwsStd
  | throwsOther
  deriving DecidableEq

/-- `configvar<T>`. `key` is the counter of `addlisten`. Beside it, for every key,
the value that was current at its registration and the pairs it was told. -/
structure ConfigVar (T : Type) where
  mVal : T
  functionMaps : List ℕ
  key : ℕ
  since : ℕ → T
  told : ℕ → List (T × T)

namespace ConfigVar

variable {T : Type}

/-- `configvar::configvar`. -/
def init (defaultValue : T) : ConfigVar T :=
  ⟨defaultValue, [], 0, fun _ => defaultValue, fun _ => []⟩

/-- The loop of `setValue` over the listeners: an exception derived from
`std::exception` goes on to the next listener, any other leaves the call. With
what was told, whether the loop came to its end. -/
def tell (outcome : ℕ → Outcome) (old new : T) :
    List ℕ → (ℕ → List (T × T)) → (ℕ → List (T × T)) × Bool
  | [], told => (told, true)
  | k :: ks, told =>
    let told := Function.update told k (told k ++ [(old, new)])
    match outcome k with
    | .returns | .throwsStd => tell outcome old new ks told
    | .throwsOther => (told, false)

end ConfigVar

/-- Where a thread is in an operation: `setValue` before its two sections,
`addlisten`, `dellisten` before its two, `clearFcuntionMaps`. -/
inductive ConfigPc (T : Type) where
  | compare (value : T)
  | assign (value : T)
  | add
  | search (key : ℕ)
  | erase (keys : ℕ)
  | clear

/-- The operations; `fromString` is a `setValue` of the value it has read. -/
inductive ConfigOp (T : Type) where
  | setValue (value : T)
  | addlisten
  | dellisten (key : ℕ)
  | clearFcuntionMaps

/-- What a section cannot know: the order in which the table is traversed, how
the listeners return, and how many keys other variables of the type have taken. -/
structure ConfigInput where
  order : List ℕ
  outcome : ℕ → Outcome
  skipped : ℕ

namespace ConfigVar

variable {T : Type}

/-- The first section of an operation. -/
def begins : ConfigOp T → ConfigPc T
  | .setValue value => .compare value
  | .addlisten => .add
  | .dellisten key => .search key
  | .clearFcuntionMaps => .clear

/-- One section. -/
def move [DecidableEq T] (s : ConfigVar T) (pc : ConfigPc T) (input : ConfigInput) :
    Option (ConfigVar T × Option (ConfigPc T)) :=
  match pc with
  | .compare value =>
    if value = s.mVal then some (s, none)
    else if input.order.Perm s.functionMaps then
      let r := tell input.outcome s.mVal value input.order s.told
      some ({ s with told := r.1 }, if r.2 then some (.assign value) else none)
    else none
  | .assign value => some ({ s with mVal := value }, none)
  | .add =>
    let key := s.key + input.skipped + 1
    some ({ s with
      functionMaps := s.functionMaps ++ [key]
      key := key
      since := Function.update s.since key s.mVal
      told := Function.update s.told key [] }, none)
  | .search key => some (s, some (.erase (if key ∈ s.functionMaps then key else 0)))
  | .erase keys => some ({ s with functionMaps := s.functionMaps.erase keys }, none)
  | .clear => some ({ s with functionMaps := [] }, none)

/-- An interleaving of operations, section by section. -/
def step [DecidableEq T] :
    Threads.Pool (ConfigVar T) (ConfigPc T) → Threads.Act (ConfigOp T) ConfigInput →
      Option (Threads.Pool (ConfigVar T) (ConfigPc T)) :=
  Threads.step begins move

end ConfigVar

end Sylar
