import Sylar.Config.LogUpdate
import Sylar.Config.TcpServerConf
import Sylar.Lib.Folds
import Sylar.Lib.Runs

/-!
# Containers as text

The casts of `config.hpp` between containers and YAML. An element of a vector, a list or
a set is parsed as a document of its own before it is printed with the others, and what
is read is the print of a node; so a text comes back as the print of what it parses to.
A map read as a vector is asked for its numbers, and what it lacks reads as an empty text.
The value of a map is printed as the scalar it is, and read as its print, quotes and all.

* `ofText_toText` is one round trip of a sequence, element by element; `strings_back` is
  about strings.
* `reloads_quiet`: a variable over strings that is written and read again keeps its
  value, whatever is read in between, and says nothing to its listeners.
* `reloaded_spec`: with a map, every round trip prints the values once more.
-/

namespace Sylar.Containers

open Yaml Folds

variable (Y : YamlCpp)

/-! ## Sequences -/

section Sequences

variable {T : Type} (cast : T → Bytes) (read : Bytes → Option T)

/-- `node.push_back(YAML::Load(boost::lexical_cast<std::string>(it)))`. -/
def push (node : Node) (it : T) : Option Node := do
  let value ← Y.load (cast it)
  Y.pushBack node value

/-- `LexicalCast<std::vector<T>, std::string>`, and the same of `std::list<T>`,
`std::set<T>` and `std::unordered_set<T>`, over the elements in the order of iteration. -/
def toText (vec : List T) : Option Bytes := do
  let node ← vec.foldlM (push Y cast) .null
  return Y.emit node

/-- The print of `node[i]`. For a key that a map does not have, `node[i]` makes a node that is
not defined, and nothing is printed; a node without subscripts throws. -/
def itemText (node : Node) (i : ℕ) : Option Bytes :=
  match Y.item node i, node with
  | some child, _ => some (Y.emit child)
  | none, .map _ => some []
  | none, _ => none

/-- `boost::lexical_cast<T>` of the print of `node[i]`. -/
def element (node : Node) (i : ℕ) : Option T := (itemText Y node i).bind read

/-- `LexicalCast<std::string, std::vector<T>>`, and the same of `std::list<T>`. -/
def ofText (v : Bytes) : Option (List T) := do
  let node ← Y.load v
  (List.range (Y.size node)).foldlM
    (fun ans i => do
      let x ← element Y read node i
      return ans ++ [x]) []

/-- `LexicalCast<std::string, std::set<T>>`, and the same of `std::unordered_set<T>`. -/
def setOfText [DecidableEq T] (str : Bytes) : Option (Finset T) := do
  let node ← Y.load str
  match node with
  | .sequence items =>
    (List.range items.length).foldlM
      (fun ans i => do
        let x ← element Y read node i
        return insert x ans) ∅
  | _ => return ∅

/-- What an element comes back as. -/
def reread (x : T) : Option T := do
  let node ← Y.load (cast x)
  read (Y.emit node)

variable {Y cast read}

/-- A node with some items pushed to it. -/
def pushed : List Node → Node
  | [] => .null
  | items => .sequence items

theorem pushBack_pushed (items : List Node) (value : Node) :
    Y.pushBack (pushed items) value = some (pushed (items ++ [value])) := by
  cases items with
  | nil => exact Y.pushBack_null value
  | cons item items => exact Y.pushBack_sequence (item :: items) value

theorem foldlM_push (before : List Node) (vec : List T) :
    vec.foldlM (push Y cast) (pushed before) =
      (vec.mapM fun x => Y.load (cast x)).map fun nodes => pushed (before ++ nodes) := by
  induction vec generalizing before with
  | nil =>
    rw [List.foldlM_nil, List.mapM_nil]
    simp only [Option.pure_def, Option.map_some, List.append_nil]
  | cons x vec ih =>
    rw [List.foldlM_cons, List.mapM_cons, push]
    cases Y.load (cast x) with
    | none => rfl
    | some node =>
      simp only [Option.bind_eq_bind, Option.bind_some, pushBack_pushed, Option.pure_def]
      rw [ih]
      cases vec.mapM fun x => Y.load (cast x) with
      | none => rfl
      | some nodes =>
        simp only [Option.map_some, Option.bind_some, List.append_assoc, List.singleton_append]

/-- The text is the print of the parsed elements. -/
theorem toText_eq (vec : List T) :
    toText Y cast vec =
      (vec.mapM fun x => Y.load (cast x)).map fun nodes => Y.emit (pushed nodes) := by
  have loop : vec.foldlM (push Y cast) (pushed []) = _ := foldlM_push [] vec
  rw [toText]
  show (vec.foldlM (push Y cast) (pushed [])).bind _ = _
  rw [loop]
  cases vec.mapM fun x => Y.load (cast x) with
  | none => rfl
  | some nodes => rfl

theorem element_sequence (items : List Node) (i : ℕ) :
    element Y read (.sequence items) i = items[i]?.bind fun node => read (Y.emit node) := by
  simp only [element, itemText, Y.item_sequence]
  cases items[i]? <;> rfl

/-- The print of some items is read as the prints of the items. -/
theorem ofText_pushed (items : List Node) :
    ofText Y read (Y.emit (pushed items)) = items.mapM fun node => read (Y.emit node) := by
  rw [ofText, Y.load_emit, Option.bind_eq_bind, Option.bind_some]
  cases items with
  | nil =>
    rw [pushed, Y.size_null]
    rfl
  | cons item items =>
    have listed : pushed (item :: items) = .sequence (item :: items) := rfl
    rw [listed, Y.size_sequence, foldlM_range (item :: items)
      (fun ans node => (read (Y.emit node)).bind fun x => some (ans ++ [x]))]
    · rw [foldlM_append_singleton]
      cases (item :: items).mapM fun node => read (Y.emit node) with
      | none => rfl
      | some xs => rw [Option.map_some, List.nil_append]
    · intro ans i _
      rw [element_sequence]
      cases (item :: items)[i]? <;> rfl

theorem setOfText_pushed [DecidableEq T] (items : List Node) :
    setOfText Y read (Y.emit (pushed items)) =
      (items.mapM fun node => read (Y.emit node)).map List.toFinset := by
  rw [setOfText, Y.load_emit, Option.bind_eq_bind, Option.bind_some]
  cases items with
  | nil => rfl
  | cons item items =>
    have listed : pushed (item :: items) = .sequence (item :: items) := rfl
    rw [listed]
    show (List.range (item :: items).length).foldlM _ ∅ = _
    rw [foldlM_range (item :: items)
      (fun ans node => (read (Y.emit node)).bind fun x => some (insert x ans))]
    · rw [foldlM_insert]
      cases (item :: items).mapM fun node => read (Y.emit node) with
      | none => rfl
      | some xs => rw [Option.map_some, Option.map_some, Finset.union_empty]
    · intro ans i _
      rw [element_sequence]
      cases (item :: items)[i]? <;> rfl

/-! ## One round trip -/

/-- A sequence comes back element by element. -/
theorem ofText_toText (vec : List T) :
    (toText Y cast vec).bind (ofText Y read) = vec.mapM (reread Y cast read) := by
  have elements := mapM_bind_mapM (fun x => Y.load (cast x)) (fun node => read (Y.emit node)) vec
  rw [toText_eq, Option.bind_map]
  refine Eq.trans ?_ elements
  exact congrArg _ (funext ofText_pushed)

theorem setOfText_toText [DecidableEq T] (vec : List T) :
    (toText Y cast vec).bind (setOfText Y read) =
      (vec.mapM (reread Y cast read)).map List.toFinset := by
  have elements := mapM_bind_mapM (fun x => Y.load (cast x)) (fun node => read (Y.emit node)) vec
  rw [toText_eq, Option.bind_map]
  show _ = (vec.mapM fun x => (Y.load (cast x)).bind fun node => read (Y.emit node)).map _
  rw [← elements]
  cases vec.mapM fun x => Y.load (cast x) with
  | none => rfl
  | some nodes => exact setOfText_pushed nodes

/-- A vector or a list comes back as it was if and only if each element does. -/
theorem ofText_toText_iff {vec : List T} :
    (toText Y cast vec).bind (ofText Y read) = some vec ↔
      ∀ x ∈ vec, reread Y cast read x = some x := by
  rw [ofText_toText]
  exact mapM_eq_self

/-- So does a set, when what comes back once comes back as it is. -/
theorem setOfText_toText_iff [DecidableEq T]
    (settles : ∀ x y, reread Y cast read x = some y → reread Y cast read y = some y)
    {vec : List T} :
    (toText Y cast vec).bind (setOfText Y read) = some vec.toFinset ↔
      ∀ x ∈ vec, reread Y cast read x = some x := by
  rw [setOfText_toText]
  constructor
  · intro back x member
    obtain ⟨ys, found, same⟩ := Option.map_eq_some_iff.mp back
    have inside : x ∈ ys.toFinset := same ▸ List.mem_toFinset.mpr member
    obtain ⟨z, -, here⟩ := (mem_of_mapM found).1 x (List.mem_toFinset.mp inside)
    exact settles z x here
  · intro each
    rw [mapM_eq_self.mpr each]
    rfl

end Sequences

/-! ## Strings

`boost::lexical_cast` of a string to a string copies it. -/

variable {Y}

/-- The string parses to a node that prints as the string. -/
def Survives (Y : YamlCpp) (x : Bytes) : Prop := ∃ node, Y.load x = some node ∧ Y.emit node = x

theorem reread_eq_some {x y : Bytes} :
    reread Y id some x = some y ↔ ∃ node, Y.load x = some node ∧ Y.emit node = y := by
  simp only [reread, id, Option.bind_eq_bind, Option.bind_eq_some_iff, Option.some.injEq]

theorem survives_emit (node : Node) : Survives Y (Y.emit node) := ⟨node, Y.load_emit node, rfl⟩

theorem reread_settles (x y : Bytes) (back : reread Y id some x = some y) :
    reread Y id some y = some y := by
  obtain ⟨node, -, rfl⟩ := reread_eq_some.mp back
  exact reread_eq_some.mpr (survives_emit node)

/-- The empty text is parsed to null. -/
theorem survives_nil : Survives Y [] ↔ Y.emit .null = [] := by
  constructor
  · rintro ⟨node, parsed, printed⟩
    obtain rfl := Option.some.inj (Y.load_nil.symm.trans parsed)
    exact printed
  · exact fun printed => ⟨.null, Y.load_nil, printed⟩

/-- The text is no map, or a map with the numbers below its size among the keys. -/
def Listed (Y : YamlCpp) (v : Bytes) : Prop :=
  ∀ entries, Y.load v = some (.map entries) →
    ∀ i < entries.length, (Y.item (.map entries) i).isSome = true

/-- What a vector is read from: the prints of the items, one after the other. -/
theorem mem_ofText {v : Bytes} {vec : List Bytes} (read : ofText Y some v = some vec) :
    ∃ node, Y.load v = some node ∧ (∀ x ∈ vec, ∃ i < Y.size node, itemText Y node i = some x) ∧
      ∀ i < Y.size node, ∃ x ∈ vec, itemText Y node i = some x := by
  obtain ⟨node, parsed, loop⟩ := Option.bind_eq_some_iff.mp read
  have collects := foldlM_append_singleton (element Y some node) (List.range (Y.size node)) []
  obtain ⟨ys, found, same⟩ := Option.map_eq_some_iff.mp (collects.symm.trans loop)
  rw [List.nil_append] at same
  subst same
  have text (i : ℕ) : element Y some node i = itemText Y node i := Option.bind_fun_some _
  obtain ⟨back, forth⟩ := mem_of_mapM found
  refine ⟨node, parsed, fun x member => ?_, fun i below => ?_⟩
  · obtain ⟨i, below, here⟩ := back x member
    exact ⟨i, List.mem_range.mp below, (text i).symm.trans here⟩
  · obtain ⟨x, member, here⟩ := forth i (List.mem_range.mpr below)
    exact ⟨x, member, (text i).symm.trans here⟩

/-- A text is the print of a node, or what stands for a key that a map lacks. -/
theorem itemText_cases {node : Node} {i : ℕ} {x : Bytes} (printed : itemText Y node i = some x) :
    ((Y.item node i).isSome = true ∧ Survives Y x) ∨
      ((∃ entries, node = .map entries) ∧ Y.item node i = none ∧ x = []) := by
  unfold itemText at printed
  split at printed
  · next child found =>
    cases printed
    exact .inl ⟨by rw [found]; rfl, survives_emit child⟩
  · next entries lacks =>
    cases printed
    exact .inr ⟨⟨entries, rfl⟩, lacks, rfl⟩
  · cases printed

/-- A vector that was read from a text has strings that survive, unless a map lacked a key. -/
theorem survives_ofText_iff {v : Bytes} {vec : List Bytes} (read : ofText Y some v = some vec) :
    (∀ x ∈ vec, Survives Y x) ↔ Listed Y v ∨ Y.emit .null = [] := by
  obtain ⟨node, parsed, back, forth⟩ := mem_ofText read
  constructor
  · intro survive
    refine or_iff_not_imp_right.mpr fun shown entries map i below => ?_
    obtain rfl := Option.some.inj (map.symm.trans parsed)
    obtain ⟨x, member, printed⟩ := forth i ((Y.size_map entries).symm ▸ below)
    rcases itemText_cases printed with ⟨there, -⟩ | ⟨-, -, rfl⟩
    · exact there
    · exact absurd (survives_nil.mp (survive [] member)) shown
  · intro either x member
    obtain ⟨i, below, printed⟩ := back x member
    rcases itemText_cases printed with ⟨-, survives⟩ | ⟨⟨entries, rfl⟩, lacks, rfl⟩
    · exact survives
    · rcases either with listed | hidden
      · have there := listed entries parsed i (Y.size_map entries ▸ below)
        rw [lacks] at there
        cases there
      · exact survives_nil.mpr hidden

/-- A vector, a list or a set of strings comes back as it was if and only if every string
is the print of what it parses to; and a vector that was read from a text comes back unless
the text is a map that lacks one of the numbers below its size, where a string of the
vector is empty and null does not print as nothing. -/
theorem strings_back (Y : YamlCpp) (vec : List Bytes) :
    ((toText Y id vec).bind (ofText Y some) = some vec ↔ ∀ x ∈ vec, Survives Y x) ∧
      ((toText Y id vec).bind (setOfText Y some) = some vec.toFinset ↔
        ∀ x ∈ vec, Survives Y x) ∧
      ∀ v, ofText Y some v = some vec →
        ((toText Y id vec).bind (ofText Y some) = some vec ↔
          Listed Y v ∨ Y.emit .null = []) := by
  have each : (∀ x ∈ vec, reread Y id some x = some x) ↔ ∀ x ∈ vec, Survives Y x :=
    forall₂_congr fun _ _ => reread_eq_some
  refine ⟨?_, ?_, fun v read => ?_⟩
  · rw [ofText_toText_iff, each]
  · rw [setOfText_toText_iff reread_settles, each]
  · rw [ofText_toText_iff, each]
    exact survives_ofText_iff read

/-! ## A variable that is written and read again -/

/-- A call on a `configvar<std::vector<std::string>>`: one of its operations, a
`fromString`, or a `fromString` of its own `toString`. -/
inductive VarCall where
  | op (o : ConfigOp (List Bytes)) (input : ConfigInput)
  | fromString (val : Bytes) (input : ConfigInput)
  | reload (input : ConfigInput)

variable (Y)

/-- `configvar::toString`. An exception ends in an empty text. -/
def toString (s : ConfigVar (List Bytes)) : Bytes := (toText Y id s.mVal).getD []

/-- `configvar::fromString`. An exception leaves the variable as it is. -/
def fromString (s : ConfigVar (List Bytes)) (val : Bytes) (input : ConfigInput) :
    Option (ConfigVar (List Bytes)) :=
  match ofText Y some val with
  | none => some s
  | some vec => s.through (ConfigVar.begins (.setValue vec)) input

/-- One call after the other. -/
def step (s : ConfigVar (List Bytes)) : VarCall → Option (ConfigVar (List Bytes))
  | .op o input => s.through (ConfigVar.begins o) input
  | .fromString val input => fromString Y s val input
  | .reload input => fromString Y s (toString Y s) input

/-- A reload changes nothing and tells nobody. -/
def Quiet (s : ConfigVar (List Bytes)) : VarCall → Prop
  | .reload input => step Y s (.reload input) = some s
  | _ => True

/-- At a reload, every string of the value survives. -/
def Kept (s : ConfigVar (List Bytes)) : VarCall → Prop
  | .reload _ => ∀ x ∈ s.mVal, Survives Y x
  | _ => True

/-- A value that is set has strings that survive, and a text that is read is no map that
lacks a key. -/
def Sets : VarCall → Prop
  | .op (.setValue value) _ => ∀ x ∈ value, Survives Y x
  | .fromString val _ => Listed Y val
  | _ => True

variable {Y} {s t : ConfigVar (List Bytes)} {input : ConfigInput} {vec : List Bytes}

/-- What is written is read: as the value if it survives, and else as another one. -/
theorem ofText_toString (s : ConfigVar (List Bytes)) :
    ∃ vec, ofText Y some (toString Y s) = some vec ∧
      (vec = s.mVal ↔ ∀ x ∈ s.mVal, Survives Y x) := by
  have each : (∀ x ∈ s.mVal, Survives Y x) ↔ ∀ x ∈ s.mVal, reread Y id some x = some x :=
    forall₂_congr fun _ _ => reread_eq_some.symm
  rw [each, ← mapM_eq_self]
  have back : (toText Y id s.mVal).bind (ofText Y some) = s.mVal.mapM (reread Y id some) :=
    ofText_toText s.mVal
  cases written : toText Y id s.mVal with
  | some v =>
    obtain ⟨nodes, -, rfl⟩ := Option.map_eq_some_iff.mp ((toText_eq s.mVal).symm.trans written)
    have read : ofText Y some (Y.emit (pushed nodes)) = some (nodes.map Y.emit) :=
      (ofText_pushed nodes).trans List.mapM_pure
    rw [written, Option.bind_some, read] at back
    rw [toString, written, Option.getD_some, ← back]
    exact ⟨_, read, Option.some_inj.symm⟩
  | none =>
    -- the text is empty, and so is what is read
    rw [written, Option.bind_none] at back
    have read : ofText Y some [] = some [] := by
      rw [ofText, Y.load_nil, Option.bind_eq_bind, Option.bind_some, Y.size_null]
      rfl
    rw [toString, written, Option.getD_none, ← back]
    refine ⟨[], read, iff_of_false (fun empty => ?_) nofun⟩
    rw [← empty] at written
    cases written

section Told

variable {T : Type} (outcome : ℕ → Outcome) (old new : T)

/-- Nobody forgets what was told. -/
theorem length_tell (order : List ℕ) (told : ℕ → List (T × T)) (k : ℕ) :
    (told k).length ≤ ((ConfigVar.tell outcome old new order told).1 k).length := by
  induction order generalizing told with
  | nil => exact Nat.le_refl _
  | cons x order ih =>
    have here : (told k).length ≤
        (Function.update told x (told x ++ [(old, new)]) k).length := by
      by_cases same : k = x
      · cases same
        rw [Function.update_self, List.length_append]
        exact Nat.le_add_right _ _
      · rw [Function.update_of_ne same]
    rw [ConfigVar.tell]
    cases outcome x with
    | returns => exact here.trans (ih _)
    | throwsStd => exact here.trans (ih _)
    | throwsOther => exact here

variable {outcome old new}

/-- A loop that is left has told somebody. -/
theorem tell_ne {order : List ℕ} {told : ℕ → List (T × T)}
    (left : (ConfigVar.tell outcome old new order told).2 = false) :
    (ConfigVar.tell outcome old new order told).1 ≠ told := by
  cases order with
  | nil => cases left
  | cons x order =>
    intro same
    have more := length_tell outcome old new order
      (Function.update told x (told x ++ [(old, new)])) x
    have first : (Function.update told x (told x ++ [(old, new)]) x).length =
        (told x).length + 1 := by
      rw [Function.update_self, List.length_append, List.length_singleton]
    rw [ConfigVar.tell] at same
    cases returned : outcome x with
    | throwsOther =>
      rw [returned] at same
      have longer := congrArg (fun told => (told x).length) same
      dsimp only at longer
      omega
    | returns | throwsStd =>
      rw [returned] at same
      have longer := congrArg (fun told => (told x).length) same
      dsimp only at longer
      omega

end Told

/-- Setting another value changes the variable, or what its listeners were told. -/
theorem through_ne (other : vec ≠ s.mVal)
    (edge : s.through (ConfigVar.begins (.setValue vec)) input = some t) : t ≠ s := by
  intro same
  cases same
  by_cases order : input.order.Perm s.functionMaps
  · have whole := ConfigVar.setValue_eq_move order vec
    have stays := Option.some.inj (whole.symm.trans edge)
    rw [ConfigVar.setValue, if_neg (by simpa using other)] at stays
    cases ended : (ConfigVar.tell input.outcome s.mVal vec input.order s.told).2 with
    | true =>
      dsimp only at stays
      rw [ended, if_pos rfl] at stays
      exact other (congrArg ConfigVar.mVal stays)
    | false =>
      dsimp only at stays
      rw [ended, if_neg Bool.false_ne_true] at stays
      exact tell_ne ended (congrArg ConfigVar.told stays)
  · unfold ConfigVar.through ConfigVar.begins at edge
    rw [ConfigVar.move, if_neg other, if_neg order] at edge
    cases edge

/-- A reload is quiet if and only if every string of the value survives it. -/
theorem quiet_iff {c : VarCall} (edge : step Y s c = some t) : Quiet Y s c ↔ Kept Y s c := by
  cases c with
  | op o input => exact Iff.rfl
  | fromString val input => exact Iff.rfl
  | reload input =>
    obtain ⟨vec, read, same⟩ := ofText_toString (Y := Y) s
    have whole : step Y s (.reload input) =
        s.through (ConfigVar.begins (.setValue vec)) input := by
      rw [step, fromString, read]
    rw [Quiet, Kept, ← same, whole]
    constructor
    · intro quiet
      by_contra other
      exact through_ne other quiet rfl
    · intro kept
      unfold ConfigVar.through ConfigVar.begins
      rw [ConfigVar.move, if_pos kept]
      rfl

/-! ## Runs -/

/-- The strings of the value survive. -/
def Inv (Y : YamlCpp) (s : ConfigVar (List Bytes)) : Prop := ∀ x ∈ s.mVal, Survives Y x

/-- `setValue` leaves the value or stores its own. -/
theorem mVal_setValue (edge : s.through (ConfigVar.begins (.setValue vec)) input = some t) :
    t.mVal = s.mVal ∨ t.mVal = vec := by
  by_cases order : input.order.Perm s.functionMaps
  · have whole := ConfigVar.setValue_eq_move order vec
    have stored := Option.some.inj (whole.symm.trans edge)
    rw [← stored, ConfigVar.setValue]
    split
    · exact .inl rfl
    · dsimp only
      split
      · exact .inr rfl
      · exact .inl rfl
  · unfold ConfigVar.through ConfigVar.begins at edge
    rw [ConfigVar.move] at edge
    split at edge
    · cases edge
      exact .inl rfl
    · cases edge

theorem Inv.setValue (inv : Inv Y s) (survive : ∀ x ∈ vec, Survives Y x)
    (edge : s.through (ConfigVar.begins (.setValue vec)) input = some t) : Inv Y t := by
  intro x member
  rcases mVal_setValue edge with same | stored
  · exact inv x (same ▸ member)
  · exact survive x (stored ▸ member)

theorem Inv.fromString (inv : Inv Y s) {val : Bytes} (listed : Listed Y val)
    (edge : fromString Y s val input = some t) : Inv Y t := by
  unfold Containers.fromString at edge
  cases read : ofText Y some val with
  | none =>
    rw [read] at edge
    cases edge
    exact inv
  | some vec =>
    rw [read] at edge
    exact inv.setValue ((survives_ofText_iff read).mpr (.inl listed)) edge

theorem Inv.next (inv : Inv Y s) {c : VarCall} (sets : Sets Y c) (edge : step Y s c = some t) :
    Inv Y t := by
  cases c with
  | op o input =>
    cases o with
    | setValue value => exact inv.setValue sets edge
    | addlisten | dellisten key | clearFcuntionMaps =>
      cases edge
      exact inv
  | fromString val input => exact inv.fromString sets edge
  | reload input =>
    have quiet : Quiet Y s (.reload input) := (quiet_iff edge).mpr inv
    cases quiet.symm.trans edge
    exact inv

/-- In every run of calls on a variable over strings, the reloads are quiet if and only
if the value survives at each of them. This is so when the default value and the values
that are set survive, whatever texts are read in the run, maps without the numbers among
their keys apart: what was read once is written so that it is read again. -/
theorem reloads_quiet (Y : YamlCpp) (defaultValue : List Bytes) (calls : List VarCall) :
    (Runs.Along (step Y) (Quiet Y) (ConfigVar.init defaultValue) calls ↔
      Runs.Along (step Y) (Kept Y) (ConfigVar.init defaultValue) calls) ∧
      ((∀ x ∈ defaultValue, Survives Y x) →
        Runs.Along (step Y) (fun _ => Sets Y) (ConfigVar.init defaultValue) calls →
          Runs.Along (step Y) (Quiet Y) (ConfigVar.init defaultValue) calls) := by
  refine ⟨Runs.along_congr quiet_iff, fun survives sets => ?_⟩
  refine Runs.along_of_inv (I := Inv Y) (fun inv here edge => inv.next here edge) ?_ survives sets
  intro s c t inv _ edge
  refine (quiet_iff edge).mpr ?_
  cases c with
  | reload input => exact inv
  | op o input => trivial
  | fromString val input => trivial

/-- The string that the flow style prints for the letter a. -/
def quoted : Bytes := [34, 97, 34]

/-- A variable over one quoted letter, with a listener. -/
def quotedCalls : List VarCall :=
  [.op .addlisten ⟨[], fun _ => .returns, 0⟩, .reload ⟨[], fun _ => .returns, 0⟩,
    .fromString [91, 34, 97, 34, 44, 32, 126, 93] ⟨[1], fun _ => .returns, 0⟩,
    .reload ⟨[], fun _ => .returns, 0⟩]

theorem reloads_quiet_quoted :
    Runs.Along (step flow) (Quiet flow) (ConfigVar.init [quoted]) quotedCalls := by
  refine (reloads_quiet flow [quoted] quotedCalls).2 ?_ ?_
  · intro x member
    cases List.mem_singleton.mp member
    exact survives_emit (Y := flow) (.scalar [97])
  · refine fun _ _ => ⟨trivial, fun _ _ => ⟨trivial, fun _ _ => ⟨fun entries map => ?_, ?_⟩⟩⟩
    · cases map
    · exact fun _ _ => ⟨trivial, trivial⟩

/-! ## Maps of strings -/

/-- The text of a string as the value of a map. -/
def printed (Y : YamlCpp) (v : Bytes) : Bytes := Y.emit (.scalar v)

/-- A map that is written and read `n` times. -/
def reloaded (Y : YamlCpp) (maps : Std.TreeMap Bytes Bytes) : ℕ → Option (Std.TreeMap Bytes Bytes)
  | 0 => some maps
  | n + 1 => do
    let maps ← reloaded Y maps n
    let str ← TcpServerConf.encodeArgs Y maps
    TcpServerConf.decodeArgs Y str

/-- The pairs as the entries of a node. -/
def entries (pairs : List (Bytes × Bytes)) : List (Node × Node) :=
  pairs.map fun e => (.scalar e.1, .scalar e.2)

theorem get?_entries {key : Bytes} {pairs : List (Bytes × Bytes)}
    (fresh : ∀ e ∈ pairs, e.1 ≠ key) : Node.get? key (entries pairs) = none := by
  rw [Node.get?, Option.map_eq_none_iff, List.find?_eq_none]
  intro e member same
  obtain ⟨pair, inside, rfl⟩ := List.mem_map.mp member
  exact fresh pair inside (eq_of_beq same)

/-- Pairs with new keys are added behind the entries. -/
theorem foldlM_assign (before pairs : List (Bytes × Bytes))
    (apart : (before ++ pairs).Pairwise fun a b => a.1 ≠ b.1) :
    pairs.foldlM (fun node it => Y.assign node it.1 (.scalar it.2)) (.map (entries before)) =
      some (.map (entries (before ++ pairs))) := by
  induction pairs generalizing before with
  | nil =>
    rw [List.append_nil]
    rfl
  | cons it pairs ih =>
    have fresh : ∀ e ∈ before, e.1 ≠ it.1 := fun e member =>
      (List.pairwise_append.mp apart).2.2 e member it List.mem_cons_self
    have added : Node.put it.1 (.scalar it.2) (entries before) = entries (before ++ [it]) := by
      have behind : Node.put it.1 (.scalar it.2) (entries before ++ []) =
          entries before ++ Node.put it.1 (.scalar it.2) [] :=
        Node.put_append_of_none (get?_entries fresh)
      rw [List.append_nil] at behind
      rw [behind, entries, entries, List.map_append]
      rfl
    rw [List.foldlM_cons, Y.assign_map, added, Option.bind_eq_bind, Option.bind_some,
      ih (before ++ [it]) (by rwa [List.append_assoc]), List.append_assoc]
    rfl

theorem distinct_toList (maps : Std.TreeMap Bytes Bytes) :
    maps.toList.Pairwise fun a b => a.1 ≠ b.1 :=
  Std.TreeMap.distinct_keys_toList.imp fun differ same =>
    differ (Std.LawfulEqCmp.compare_eq_iff_eq.mpr same)

theorem encodeArgs_entries (maps : Std.TreeMap Bytes Bytes) :
    TcpServerConf.encodeArgs Y maps = some (Y.emit (.map (entries maps.toList))) := by
  have loop := foldlM_assign (Y := Y) [] maps.toList (distinct_toList maps)
  exact congrArg (Option.bind · fun node => some (Y.emit node)) loop

/-- What the loop of the reader makes of some entries. -/
def inserted (Y : YamlCpp) (ans : Std.TreeMap Bytes Bytes) (pairs : List (Bytes × Bytes)) :
    Std.TreeMap Bytes Bytes :=
  pairs.foldl (fun ans e => ans.insert e.1 (printed Y e.2)) ans

theorem decodeArgs_entries (pairs : List (Bytes × Bytes)) :
    TcpServerConf.decodeArgs Y (Y.emit (.map (entries pairs))) = some (inserted Y ∅ pairs) := by
  rw [TcpServerConf.decodeArgs, Y.load_emit, Option.bind_eq_bind, Option.bind_some,
    Y.children_map]
  generalize (∅ : Std.TreeMap Bytes Bytes) = ans
  induction pairs generalizing ans with
  | nil => rfl
  | cons e pairs ih => exact ih (ans.insert e.1 (printed Y e.2))

theorem getElem?_inserted (ans : Std.TreeMap Bytes Bytes) {pairs : List (Bytes × Bytes)}
    (apart : pairs.Pairwise fun a b => a.1 ≠ b.1) :
    (∀ e ∈ pairs, (inserted Y ans pairs)[e.1]? = some (printed Y e.2)) ∧
      ∀ k, (∀ e ∈ pairs, e.1 ≠ k) → (inserted Y ans pairs)[k]? = ans[k]? := by
  induction pairs generalizing ans with
  | nil => exact ⟨List.forall_mem_nil _, fun k _ => rfl⟩
  | cons it pairs ih =>
    obtain ⟨fresh, rest⟩ := List.pairwise_cons.mp apart
    obtain ⟨found, others⟩ := ih (ans.insert it.1 (printed Y it.2)) rest
    refine ⟨List.forall_mem_cons.mpr ⟨?_, found⟩, fun k absent => ?_⟩
    · refine (others it.1 fun e member same => fresh e member same.symm).trans ?_
      exact Std.TreeMap.getElem?_insert_self
    · obtain ⟨here, later⟩ := List.forall_mem_cons.mp absent
      refine (others k later).trans ?_
      rw [Std.TreeMap.getElem?_insert, if_neg]
      exact fun same => here (Std.LawfulEqCmp.compare_eq_iff_eq.mp same)

/-- One round trip prints every value. -/
theorem reload_spec (maps : Std.TreeMap Bytes Bytes) :
    ∃ maps', (TcpServerConf.encodeArgs Y maps).bind (TcpServerConf.decodeArgs Y) = some maps' ∧
      ∀ k : Bytes, maps'[k]? = maps[k]?.map (printed Y) := by
  refine ⟨inserted Y ∅ maps.toList, ?_, fun k => ?_⟩
  · rw [encodeArgs_entries, Option.bind_some, decodeArgs_entries]
  · obtain ⟨found, others⟩ := getElem?_inserted (Y := Y) ∅ (distinct_toList maps)
    cases here : maps[k]? with
    | some v => exact found (k, v) (Std.TreeMap.mem_toList_iff_getElem?_eq_some.mpr here)
    | none =>
      refine (others k fun e member same => ?_).trans Std.TreeMap.getElem?_emptyc
      cases same
      have there := Std.TreeMap.mem_toList_iff_getElem?_eq_some.mp member
      cases there.symm.trans here

/-- After `n` round trips a map of strings has the keys it had, and every value has been
printed `n` times; so it is back as it was at the end of each if and only if every value
prints as itself. -/
theorem reloaded_spec (Y : YamlCpp) (maps : Std.TreeMap Bytes Bytes) :
    (∀ n, ∃ maps', reloaded Y maps n = some maps' ∧
      ∀ k : Bytes, maps'[k]? = maps[k]?.map (printed Y)^[n]) ∧
      ((∀ n, ∃ maps', reloaded Y maps n = some maps' ∧ ∀ k : Bytes, maps'[k]? = maps[k]?) ↔
        ∀ k v : Bytes, maps[k]? = some v → printed Y v = v) := by
  have spec (n : ℕ) : ∃ maps', reloaded Y maps n = some maps' ∧
      ∀ k : Bytes, maps'[k]? = maps[k]?.map (printed Y)^[n] := by
    induction n with
    | zero => exact ⟨maps, rfl, fun k => Option.map_id.symm ▸ rfl⟩
    | succ n ih =>
      obtain ⟨before, reached, values⟩ := ih
      obtain ⟨after, next, more⟩ := reload_spec (Y := Y) before
      refine ⟨after, ?_, fun k => ?_⟩
      · rw [reloaded, reached]
        exact next
      · rw [more, values, Option.map_map, Function.iterate_succ']
  refine ⟨spec, fun back k v here => ?_, fun stays n => ?_⟩
  · obtain ⟨once, reached, same⟩ := back 1
    obtain ⟨once', reached', values⟩ := spec 1
    cases reached.symm.trans reached'
    have here' := (values k).symm.trans (same k)
    rw [here] at here'
    exact Option.some.inj here'
  · obtain ⟨maps', reached, values⟩ := spec n
    refine ⟨maps', reached, fun k => ?_⟩
    rw [values]
    cases here : maps[k]? with
    | none => rfl
    | some v => exact congrArg some (Function.iterate_fixed (stays k v here) n)

end Sylar.Containers
