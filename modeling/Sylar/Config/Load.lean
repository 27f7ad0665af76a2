import Mathlib.Logic.Function.Basic
import Sylar.Config.Members
import Sylar.Lib.Runs

/-!
# Loading a configuration file

`config::LoadFileFromYaml` of `config.hpp`: `ListAllMember` appends the nodes of the new
document to `all_node`, and every node of `all_node` is then set in the variable of its
name. The list is never cleared, so the nodes of the earlier documents are set again.

* `values_loadFileFromYaml`: what a load does to one variable.
* `rightLoads_along`: when every load of a run sets just what its own document says.
-/

namespace Sylar

open Bytes Yaml

/-! ## The variables -/

/-- `s_datas`: the registered variables, `T name` the type of the one called `name`. -/
structure ConfigVars (T : Bytes → Type) where
  /-- `LookupBase` finds a variable. -/
  registered : Bytes → Bool
  /-- `operator==` of its type. -/
  equal : (name : Bytes) → T name → T name → Bool
  /-- `LexicalCast<std::string, T>`, `none` where it throws. -/
  cast : (name : Bytes) → Bytes → Option (T name)
  /-- Told the old and the new value, a listener throws what is no `std::exception`. -/
  leaves : (name : Bytes) → T name → T name → Bool

/-- `config`, with the values of the variables. -/
structure Config (T : Bytes → Type) where
  allNode : List (Bytes × Node)
  values : (name : Bytes) → T name

namespace Config

variable {T : Bytes → Type} (V : ConfigVars T) (emit : Node → Bytes)

/-- `setValue`: the values behind it, and whether it returns. -/
def setValue (values : (name : Bytes) → T name) (name : Bytes) (value : T name) :
    ((name : Bytes) → T name) × Bool :=
  if V.equal name value (values name) then (values, true)
  else if V.leaves name (values name) value then (values, false)
  else (Function.update values name value, true)

/-- `fromString`. -/
def fromString (values : (name : Bytes) → T name) (name val : Bytes) :
    ((name : Bytes) → T name) × Bool :=
  match V.cast name val with
  | none => (values, true)
  | some value => setValue V values name value

/-- What `fromString` is given of a node. `emit` is `operator<<` of `YAML::Node`. -/
def nodeText : Node → Bytes
  | .scalar text => text
  | node => emit node

/-- The loop of `LoadFileFromYaml` over `all_node`. -/
def applyNodes : List (Bytes × Node) → ((name : Bytes) → T name) → ((name : Bytes) → T name) × Bool
  | [], values => (values, true)
  | (key, node) :: rest, values =>
    if key = [] then applyNodes rest values
    else if V.registered (key.map tolower) then
      let r := fromString V values (key.map tolower) (nodeText emit node)
      if r.2 then applyNodes rest r.1 else r
    else applyNodes rest values

/-- `LoadFileFromYaml`. The file holds a document, or `YAML::LoadFile` throws. -/
def loadFileFromYaml (s : Config T) : Option Node → Config T
  | none => s
  | some doc =>
    { allNode := listAllMember [] doc s.allNode
      values := (applyNodes V emit (listAllMember [] doc s.allNode) s.values).1 }

/-! ## What a load does to a variable -/

/-- The values that the nodes of a list convert to, for the variable `name`. -/
def castsOf (name : Bytes) (nodes : List (Bytes × Node)) : List (T name) :=
  nodes.filterMap fun e =>
    if e.1 ≠ [] ∧ e.1.map tolower = name then V.cast name (nodeText emit e.2) else none

/-- `setValue` does its work on the values that a variable goes through: `operator==`
equates none of them with another one, and no listener leaves. -/
def Smooth (name : Bytes) (value : T name) (casts : List (T name)) : Prop :=
  ∀ old ∈ value :: casts, ∀ new ∈ casts,
    (V.equal name new old = true → new = old) ∧ V.leaves name old new = false

variable {V emit} {values : (name : Bytes) → T name}

theorem Smooth.tail {name : Bytes} {value next : T name} {casts : List (T name)}
    (smooth : Smooth V name value (next :: casts)) : Smooth V name next casts :=
  fun old inOld new inNew =>
    smooth old (List.mem_cons_of_mem _ inOld) new (List.mem_cons_of_mem _ inNew)

/-- A smooth `setValue` stores the value. -/
theorem setValue_smooth {name : Bytes} {value : T name} {casts : List (T name)}
    (smooth : Smooth V name (values name) (value :: casts)) :
    setValue V values name value = (Function.update values name value, true) := by
  obtain ⟨apart, heeded⟩ := smooth (values name) List.mem_cons_self value List.mem_cons_self
  unfold setValue
  split_ifs with same leaves
  · rw [apart same, Function.update_eq_self]
  · rw [heeded] at leaves
    cases leaves
  · rfl

theorem castsOf_cons_other {name key : Bytes} {node : Node} (rest : List (Bytes × Node))
    (other : ¬ (key ≠ [] ∧ key.map tolower = name)) :
    castsOf V emit name ((key, node) :: rest) = castsOf V emit name rest :=
  List.filterMap_cons_none (if_neg other)

theorem castsOf_cons {key : Bytes} {node : Node} (rest : List (Bytes × Node)) (named : key ≠ []) :
    castsOf V emit (key.map tolower) ((key, node) :: rest) =
      (V.cast (key.map tolower) (nodeText emit node)).toList ++
        castsOf V emit (key.map tolower) rest := by
  rw [castsOf, List.filterMap_cons, if_pos ⟨named, rfl⟩]
  cases V.cast (key.map tolower) (nodeText emit node) with
  | none => rfl
  | some value => rfl

/-- A step of the loop that sets nothing. -/
theorem applyNodes_skip {key : Bytes} {node : Node} (rest : List (Bytes × Node))
    (skip : key = [] ∨ V.registered (key.map tolower) = false ∨
      V.cast (key.map tolower) (nodeText emit node) = none) :
    applyNodes V emit ((key, node) :: rest) values = applyNodes V emit rest values := by
  rw [applyNodes]
  split_ifs with empty found
  · rfl
  · obtain noCast := (skip.resolve_left empty).resolve_left (by simp [found])
    simp only [fromString, noCast, if_true]
  · rfl

/-- A step of the loop that sets a value. -/
theorem applyNodes_set {key : Bytes} {node : Node} {value : T (key.map tolower)}
    (rest : List (Bytes × Node)) (named : key ≠ [])
    (registered : V.registered (key.map tolower) = true)
    (cast : V.cast (key.map tolower) (nodeText emit node) = some value)
    (smooth : Smooth V (key.map tolower) (values (key.map tolower))
      (castsOf V emit (key.map tolower) ((key, node) :: rest))) :
    applyNodes V emit ((key, node) :: rest) values =
      applyNodes V emit rest (Function.update values (key.map tolower) value) := by
  rw [castsOf_cons rest named, cast, Option.toList_some, List.singleton_append] at smooth
  rw [applyNodes, if_neg named, if_pos registered]
  simp only [fromString, cast, setValue_smooth smooth, if_true]

/-- The loop leaves a variable with the last value that one of its nodes converts to. -/
theorem applyNodes_smooth (nodes : List (Bytes × Node))
    (smooth : ∀ name, V.registered name = true →
      Smooth V name (values name) (castsOf V emit name nodes))
    {name : Bytes} (registered : V.registered name = true) :
    (applyNodes V emit nodes values).1 name =
      (castsOf V emit name nodes).getLast?.getD (values name) := by
  induction nodes generalizing values with
  | nil => rfl
  | cons e rest ih =>
    obtain ⟨key, node⟩ := e
    by_cases skip : key = [] ∨ V.registered (key.map tolower) = false ∨
        V.cast (key.map tolower) (nodeText emit node) = none
    · -- no registered variable gets a value from this node
      have same : ∀ n, V.registered n = true →
          castsOf V emit n ((key, node) :: rest) = castsOf V emit n rest := by
        intro n found
        by_cases hit : key ≠ [] ∧ key.map tolower = n
        · obtain ⟨named, rfl⟩ := hit
          have noCast := (skip.resolve_left named).resolve_left (by simp [found])
          rw [castsOf_cons rest named, noCast, Option.toList_none, List.nil_append]
        · exact castsOf_cons_other rest hit
      rw [applyNodes_skip rest skip, same name registered]
      exact ih fun n found => same n found ▸ smooth n found
    · obtain ⟨named, found, casts⟩ : key ≠ [] ∧ V.registered (key.map tolower) = true ∧
          ∃ value, V.cast (key.map tolower) (nodeText emit node) = some value := by
        simpa [Option.ne_none_iff_exists'] using skip
      obtain ⟨value, cast⟩ := casts
      have here : castsOf V emit (key.map tolower) ((key, node) :: rest) =
          value :: castsOf V emit (key.map tolower) rest := by
        rw [castsOf_cons rest named, cast, Option.toList_some, List.singleton_append]
      have other {n : Bytes} (ne : n ≠ key.map tolower) :
          castsOf V emit n ((key, node) :: rest) = castsOf V emit n rest :=
        castsOf_cons_other rest fun hit => ne hit.2.symm
      rw [applyNodes_set rest named found cast (smooth _ found)]
      rw [ih]
      · by_cases hit : name = key.map tolower
        · subst hit
          rw [here, Function.update_self, List.getLast?_cons, Option.getD_some]
        · rw [other hit, Function.update_of_ne hit]
      · intro n known
        by_cases hit : n = key.map tolower
        · subst hit
          rw [Function.update_self]
          exact (here ▸ smooth _ known).tail
        · rw [Function.update_of_ne hit, ← other hit]
          exact smooth n known

/-! ## What the file says -/

/-- The nodes of a document at the valid dotted path `name`, in pre-order. -/
def nodesAt (doc : Node) (name : Bytes) : List Node :=
  ((doc.preorder []).filter fun e => ValidPath (dotted e.1) ∧ dotted e.1 = name ∧ name ≠ []).map
    Prod.snd

variable (V emit) in
/-- The values that they convert to. -/
def castsAt (doc : Node) (name : Bytes) : List (T name) :=
  (nodesAt doc name).filterMap fun node => V.cast name (nodeText emit node)

/-- The bytes of paths are lower case. -/
theorem map_tolower_eq {path : Bytes} (valid : ValidPath path) : path.map tolower = path := by
  have lower : ∀ c ∈ pathBytes, tolower c = c := by decide +kernel
  exact (List.map_congr_left fun c inPath => lower c (valid c inPath)).trans (List.map_id path)

theorem castsOf_members (doc : Node) (name : Bytes) :
    castsOf V emit name (members [] doc) = castsAt V emit doc name := by
  rw [castsOf, members, castsAt, nodesAt, List.filterMap_filter, List.filterMap_map,
    List.filterMap_map, List.filterMap_filter]
  apply List.filterMap_congr
  intro e _
  by_cases valid : ValidPath (dotted e.1)
  · by_cases hit : dotted e.1 = name
    · by_cases named : name = []
      · simp [hit, named]
      · simp [hit, named, map_tolower_eq (hit ▸ valid)]
    · simp [valid, hit, map_tolower_eq valid]
  · simp [valid]

/-! ## Runs -/

/-- The calls on one `config` object and on the variables. -/
inductive Call (T : Bytes → Type) where
  | load (file : Option Node)
  | setValue (name : Bytes) (value : T name)

variable (V emit)

/-- One call. -/
def step (s : Config T) : Call T → Option (Config T)
  | .load file => some (loadFileFromYaml V emit s file)
  | .setValue name value => some { s with values := (setValue V s.values name value).1 }

/-- Behind a load, a variable has the last value that the document gives it, and without
one the value that it had. -/
def RightLoad (s : Config T) : Call T → Prop
  | .load (some doc) => ∀ name, V.registered name = true →
      (loadFileFromYaml V emit s (some doc)).values name =
        (castsAt V emit doc name).getLast?.getD (s.values name)
  | .load none => ∀ name, (loadFileFromYaml V emit s none).values name = s.values name
  | .setValue _ _ => True

/-- `setValue` does its work on what the nodes of a load convert to. -/
def SmoothLoad (s : Config T) : Call T → Prop
  | .load (some doc) => ∀ name, V.registered name = true →
      Smooth V name (s.values name) (castsOf V emit name s.allNode ++ castsAt V emit doc name)
  | _ => True

/-- A variable that the document gives no value has the last one that the earlier
documents give it. -/
def NoneStale (s : Config T) : Call T → Prop
  | .load (some doc) => ∀ name, V.registered name = true → castsAt V emit doc name = [] →
      ∀ value ∈ (castsOf V emit name s.allNode).getLast?, value = s.values name
  | _ => True

variable {V emit}

/-- A smooth load sets what the earlier documents say, and then what its own says. -/
theorem values_loadFileFromYaml {s : Config T} {doc : Node}
    (smooth : SmoothLoad V emit s (.load (some doc))) {name : Bytes}
    (registered : V.registered name = true) :
    (loadFileFromYaml V emit s (some doc)).values name =
      (castsOf V emit name s.allNode ++ castsAt V emit doc name).getLast?.getD (s.values name) := by
  have listed : listAllMember [] doc s.allNode = s.allNode ++ members [] doc :=
    listAllMember_eq [] s.allNode doc
  have casts (n : Bytes) : castsOf V emit n (s.allNode ++ members [] doc) =
      castsOf V emit n s.allNode ++ castsAt V emit doc n := by
    rw [castsOf, List.filterMap_append, ← castsOf_members]
    rfl
  show (applyNodes V emit (listAllMember [] doc s.allNode) s.values).1 name = _
  rw [listed, applyNodes_smooth _ _ registered, casts]
  intro n found
  rw [casts]
  exact smooth n found

/-- A smooth load is right if and only if nothing stale is set. -/
theorem rightLoad_iff {s : Config T} {call : Call T} (smooth : SmoothLoad V emit s call) :
    RightLoad V emit s call ↔ NoneStale V emit s call := by
  match call with
  | .setValue _ _ => exact Iff.rfl
  | .load none => exact iff_of_true (fun _ => rfl) trivial
  | .load (some doc) =>
    apply forall_congr'
    intro name
    apply imp_congr_right
    intro registered
    rw [values_loadFileFromYaml smooth registered]
    rcases List.eq_nil_or_concat (castsAt V emit doc name) with none_new | ⟨init, last, some_new⟩
    · rw [none_new, List.append_nil]
      cases (castsOf V emit name s.allNode).getLast? with
      | none => simp
      | some value => simp
    · simp [some_new]

/-- The loads of a run are right when they are smooth and set nothing stale. Among runs
whose loads are smooth, only those are. -/
theorem rightLoads_along (s : Config T) (calls : List (Call T)) :
    (Runs.Along (step V emit) (fun s call => SmoothLoad V emit s call ∧ NoneStale V emit s call)
        s calls → Runs.Along (step V emit) (RightLoad V emit) s calls) ∧
      (Runs.Along (step V emit) (SmoothLoad V emit) s calls →
        Runs.Along (step V emit) (RightLoad V emit) s calls →
          Runs.Along (step V emit) (NoneStale V emit) s calls) := by
  constructor
  · exact Runs.along_of_inv (I := fun _ => True) (fun _ _ _ => trivial)
      (fun _ both _ => (rightLoad_iff both.1).mpr both.2) trivial
  · intro smooth right
    exact Runs.along_of_inv (I := fun _ => True) (fun _ _ _ => trivial)
      (fun _ both _ => (rightLoad_iff both.1).mp both.2) trivial (smooth.and right)

/-! A string variable that is called `x`. -/

def xVars : ConfigVars fun _ => Bytes where
  registered name := name = [byte 'x']
  equal _ value old := value = old
  cast _ text := some text
  leaves _ _ _ := false

/-- The document `key: value`. -/
def oneEntry (key value : Char) : Node := .map [(.scalar [byte key], .scalar [byte value])]

theorem smooth_xVars (name : Bytes) (value : Bytes) (casts : List Bytes) :
    Smooth xVars name value casts :=
  fun _ _ _ _ => ⟨of_decide_eq_true, rfl⟩

/-- Two files that both have the variable. -/
theorem rightLoads_both :
    Runs.Along (step xVars fun _ => []) (RightLoad xVars fun _ => []) ⟨[], fun _ => []⟩
      [.load (some (oneEntry 'x' '1')), .load (some (oneEntry 'x' '2'))] := by
  apply (rightLoads_along _ _).1
  have held (s : Config fun _ => Bytes) (value : Char) (named : value = '1' ∨ value = '2') :
      SmoothLoad xVars (fun _ => []) s (.load (some (oneEntry 'x' value))) ∧
        NoneStale xVars (fun _ => []) s (.load (some (oneEntry 'x' value))) := by
    refine ⟨fun name _ => smooth_xVars name _ _, fun name registered none_new => ?_⟩
    obtain rfl : name = [byte 'x'] := of_decide_eq_true registered
    rcases named with rfl | rfl
    · exact absurd none_new (by decide +kernel)
    · exact absurd none_new (by decide +kernel)
  exact Runs.along_cons (held _ '1' (Or.inl rfl)) rfl
    (Runs.along_cons (held _ '2' (Or.inr rfl)) rfl trivial)

/-- `x: 1` is loaded, `x` is set to `5`, and `y: 2` is loaded: `x` is `1` again. -/
theorem stale_value_returns :
    ¬ Runs.Along (step xVars fun _ => []) (RightLoad xVars fun _ => []) ⟨[], fun _ => []⟩
      [.load (some (oneEntry 'x' '1')), .setValue [byte 'x'] [byte '5'],
        .load (some (oneEntry 'y' '2'))] := by
  intro along
  have last := (((along _ rfl).2 _ rfl).2 _ rfl).1 [byte 'x'] (by decide)
  exact absurd last (by decide +kernel)

end Config

end Sylar
