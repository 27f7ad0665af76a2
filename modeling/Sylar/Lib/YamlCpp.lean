import Mathlib.Data.Nat.Notation
import Mathlib.Tactic.SplitIfs
import Sylar.Lib.Yaml

/-!
# Reading and building node trees

`YamlCpp` is what a program asks of its YAML library: parsing and printing documents,
subscripts, conversions and the two ways to build a tree, with the laws a reader of its
manual relies on. Whatever the laws leave open is left to the library.

`flow` is such a library. It prints the flow style with quoted scalars, and reads what it
prints.
-/

namespace Yaml

/-! ## Decimal numbers -/

/-- The digits of a number. -/
def digits (n : ℕ) : Text :=
  if n < 10 then [48 + UInt8.ofNat n] else digits (n / 10) ++ [48 + UInt8.ofNat (n % 10)]

/-- An `int` as a stream prints it. -/
def decimal (n : Int32) : Text :=
  match n.toInt with
  | .ofNat k => digits k
  | .negSucc k => 45 :: digits (k + 1)

def isDigit (c : UInt8) : Bool := 48 ≤ c && c ≤ 57

/-- The number that digits make. -/
def ofDigits (text : Text) : ℕ := text.foldl (fun n c => 10 * n + (c - 48).toNat) 0

theorem ofDigits_append (text : Text) (c : UInt8) :
    ofDigits (text ++ [c]) = 10 * ofDigits text + (c - 48).toNat := by
  rw [ofDigits, List.foldl_append]
  rfl

theorem digit_value {d : ℕ} (small : d < 10) : (48 + UInt8.ofNat d - 48).toNat = d := by
  have all : ∀ d < 10, (48 + UInt8.ofNat d - 48).toNat = d := by decide
  exact all d small

theorem isDigit_digit {d : ℕ} (small : d < 10) : isDigit (48 + UInt8.ofNat d) = true := by
  have all : ∀ d < 10, isDigit (48 + UInt8.ofNat d) = true := by decide
  exact all d small

/-- Digits are read back as their number. -/
theorem ofDigits_digits (n : ℕ) : ofDigits (digits n) = n := by
  induction n using digits.induct with
  | case1 n small =>
    rw [digits, if_pos small, ← List.nil_append [_], ofDigits_append, digit_value small]
    exact Nat.zero_add n
  | case2 n large ih =>
    have last : n % 10 < 10 := Nat.mod_lt n (by decide)
    rw [digits, if_neg large, ofDigits_append, ih, digit_value last]
    omega

theorem isDigit_of_mem_digits (n : ℕ) : ∀ c ∈ digits n, isDigit c = true := by
  induction n using digits.induct with
  | case1 n small =>
    rw [digits, if_pos small]
    intro c inText
    obtain rfl := List.mem_singleton.mp inText
    exact isDigit_digit small
  | case2 n large ih =>
    rw [digits, if_neg large]
    intro c inText
    rcases List.mem_append.mp inText with front | last
    · exact ih c front
    · obtain rfl := List.mem_singleton.mp last
      exact isDigit_digit (Nat.mod_lt n (by decide))

theorem digits_ne_nil (n : ℕ) : digits n ≠ [] := by
  rw [digits]
  split_ifs
  · exact List.cons_ne_nil _ _
  · exact List.append_ne_nil_of_right_ne_nil _ (List.cons_ne_nil _ _)

/-- The number that a stream reads from a text of digits, behind a sign or not. -/
def readInt : Text → Option Int32
  | [] => none
  | c :: rest =>
    if c = 45 then some (Int32.ofInt (-ofDigits rest))
    else if (c :: rest).all isDigit then some (Int32.ofInt (ofDigits (c :: rest)))
    else none

theorem readInt_decimal (n : Int32) : readInt (decimal n) = some n := by
  cases sign : n.toInt with
  | ofNat k =>
    obtain ⟨c, rest, text⟩ := List.exists_cons_of_ne_nil (digits_ne_nil k)
    have allDigits := isDigit_of_mem_digits k
    have noSign : c ≠ 45 := by
      rintro rfl
      exact absurd (allDigits 45 (text ▸ List.mem_cons_self)) (by decide)
    rw [decimal, sign]
    show readInt (digits k) = some n
    rw [text] at allDigits ⊢
    rw [readInt, if_neg noSign, if_pos (List.all_eq_true.mpr allDigits), ← text, ofDigits_digits]
    exact congrArg some ((congrArg Int32.ofInt sign).symm.trans (Int32.ofInt_toInt n))
  | negSucc k =>
    rw [decimal, sign]
    show some (Int32.ofInt (-ofDigits (digits (k + 1)))) = some n
    rw [ofDigits_digits]
    exact congrArg some ((congrArg Int32.ofInt sign).symm.trans (Int32.ofInt_toInt n))

/-! ## The library -/

namespace Node

/-- `node` is the scalar `text`. -/
def isText (text : Text) : Node → Bool
  | scalar t => t == text
  | _ => false

/-- The entries of a map when `key` is set to `value`. -/
def put (key : Text) (value : Node) : List (Node × Node) → List (Node × Node)
  | [] => [(scalar key, value)]
  | (k, old) :: rest => if k.isText key then (k, value) :: rest else (k, old) :: put key value rest

/-- The value at `key`. -/
def get? (key : Text) (entries : List (Node × Node)) : Option Node :=
  (entries.find? fun e => e.1.isText key).map Prod.snd

/-- What is found in the front of a map is found in the map. -/
theorem get?_append {key : Text} {front back : List (Node × Node)} {value : Node}
    (here : get? key front = some value) : get? key (front ++ back) = some value := by
  obtain ⟨e, found, same⟩ := Option.map_eq_some_iff.mp here
  rw [get?, List.find?_append, found, Option.some_or, Option.map_some, same]

variable {key : Text} {front back : List (Node × Node)} {value : Node}

theorem get?_append_of_none (absent : get? key front = none) :
    get? key (front ++ back) = get? key back := by
  rw [get?, Option.map_eq_none_iff] at absent
  rw [get?, List.find?_append, absent, Option.none_or]
  rfl

/-- A key that is not in the front of a map is set behind it. -/
theorem put_append_of_none (absent : get? key front = none) :
    put key value (front ++ back) = front ++ put key value back := by
  induction front with
  | nil => rfl
  | cons e front ih =>
    obtain ⟨k, old⟩ := e
    rw [get?, Option.map_eq_none_iff, List.find?_cons] at absent
    split at absent
    · cases absent
    · rename_i other
      rw [List.cons_append, put, other, ih (Option.map_eq_none_iff.mpr absent)]
      rfl

end Node

open Node

/-- What an iterator over a node points to. -/
inductive Child where
  | item (node : Node)
  | entry (key value : Node)

/-- A YAML library. `none` is a node that is not defined, or an exception. -/
structure YamlCpp where
  /-- `YAML::Load`. -/
  load : Text → Option Node
  /-- `operator<<`. -/
  emit : Node → Text
  /-- `node[key]`. -/
  sub : Node → Text → Option Node
  /-- `node[i]`. -/
  item : Node → ℕ → Option Node
  /-- `node.size()`. -/
  size : Node → ℕ
  /-- From `node.begin()` to `node.end()`. -/
  children : Node → List Child
  /-- `node.as<std::string>()`. -/
  asString : Node → Option Text
  /-- `node.as<int>()`. -/
  asInt : Node → Option Int32
  /-- `node[key] = value`: the node behind it. -/
  assign : Node → Text → Node → Option Node
  /-- `node.push_back(value)`: the node behind it. -/
  pushBack : Node → Node → Option Node
  load_emit : ∀ node, load (emit node) = some node
  load_nil : load [] = some .null
  sub_null : ∀ key, sub .null key = none
  sub_map : ∀ entries key, sub (.map entries) key = get? key entries
  item_sequence : ∀ items i, item (.sequence items) i = items[i]?
  /-- A map is indexed by its keys. -/
  item_map : ∀ entries i, (∀ e ∈ entries, ∃ text, e.1 = .scalar text ∧ ∀ c ∈ text, ¬ isDigit c) →
    item (.map entries) i = none
  size_null : size .null = 0
  size_sequence : ∀ items, size (.sequence items) = items.length
  size_map : ∀ entries, size (.map entries) = entries.length
  children_null : children .null = []
  children_sequence : ∀ items, children (.sequence items) = items.map .item
  children_map : ∀ entries, children (.map entries) = entries.map fun e => .entry e.1 e.2
  asString_scalar : ∀ text, asString (.scalar text) = some text
  asString_map : ∀ entries, asString (.map entries) = none
  asInt_decimal : ∀ n, asInt (.scalar (decimal n)) = some n
  assign_null : ∀ key value, assign .null key value = some (.map [(.scalar key, value)])
  assign_map : ∀ entries key value,
    assign (.map entries) key value = some (.map (put key value entries))
  pushBack_null : ∀ value, pushBack .null value = some (.sequence [value])
  pushBack_sequence : ∀ items value,
    pushBack (.sequence items) value = some (.sequence (items ++ [value]))

/-- `node[key].push_back(value)` where the list at `key` is the last entry of the map, or
there is none yet. -/
theorem YamlCpp.pushBack_last (Y : YamlCpp) {key : Text} (front : List (Node × Node))
    (absent : get? key front = none) (items : List Node) (value : Node) :
    (Y.pushBack ((Y.sub (.map (front ++
        if items = [] then [] else [(.scalar key, .sequence items)])) key).getD .null) value).bind
      (Y.assign (.map (front ++ if items = [] then [] else [(.scalar key, .sequence items)])) key) =
    some (.map (front ++ [(.scalar key, .sequence (items ++ [value]))])) := by
  have here : (Node.scalar key).isText key = true := beq_self_eq_true key
  rw [Y.sub_map, get?_append_of_none absent]
  by_cases empty : items = []
  · rw [if_pos empty, empty]
    show (Y.pushBack .null value).bind _ = _
    rw [Y.pushBack_null, Option.bind_some, Y.assign_map, put_append_of_none absent]
    rfl
  · rw [if_neg empty]
    have found : get? key [(.scalar key, .sequence items)] = some (.sequence items) := by
      rw [get?, List.find?_singleton, if_pos here]
      rfl
    rw [found, Option.getD_some, Y.pushBack_sequence, Option.bind_some, Y.assign_map,
      put_append_of_none absent, put, here]
    rfl

/-! ## A library in flow style -/

/-- A byte inside quotes: a quote and a backslash are escaped. -/
def escape (c : UInt8) : Text := if c = 34 ∨ c = 92 then [92, c] else [c]

mutual

/-- `~`, `"text"`, `[item, ]` and `{key: value, }`. -/
def flowText : Node → Text
  | .null => [126]
  | .scalar text => 34 :: text.flatMap escape ++ [34]
  | .sequence items => 91 :: flowItems items ++ [93]
  | .map entries => 123 :: flowEntries entries ++ [125]
termination_by structural node => node

def flowItems : List Node → Text
  | [] => []
  | node :: rest => flowText node ++ [44, 32] ++ flowItems rest
termination_by structural items => items

def flowEntries : List (Node × Node) → Text
  | [] => []
  | (key, value) :: rest =>
    flowText key ++ [58, 32] ++ (flowText value ++ [44, 32]) ++ flowEntries rest
termination_by structural entries => entries

end

/-- Where a reader is: between tokens, inside quotes with what it has read there, or
behind a backslash. -/
inductive Quote where
  | outside
  | inside (text : Text)
  | escaped (text : Text)

/-- A reader: its place, and the nodes read so far at every level, the last first. -/
structure Reader where
  quote : Quote
  levels : List (List Node)

/-- Keys and values in turn. -/
def pairUp : List Node → List (Node × Node)
  | key :: value :: rest => (key, value) :: pairUp rest
  | _ => []

/-- One byte. -/
def Reader.step (r : Reader) (c : UInt8) : Option Reader :=
  match r.quote, r.levels with
  | .inside text, top :: levels =>
    if c = 34 then some ⟨.outside, (.scalar text :: top) :: levels⟩
    else if c = 92 then some ⟨.escaped text, top :: levels⟩
    else some ⟨.inside (text ++ [c]), top :: levels⟩
  | .escaped text, levels => some ⟨.inside (text ++ [c]), levels⟩
  | .outside, top :: levels =>
    if c = 126 then some ⟨.outside, (.null :: top) :: levels⟩
    else if c = 34 then some ⟨.inside [], top :: levels⟩
    else if c = 91 ∨ c = 123 then some ⟨.outside, [] :: top :: levels⟩
    else if c = 44 ∨ c = 58 ∨ c = 32 then some r
    else
      match levels with
      | next :: levels =>
        if c = 93 then some ⟨.outside, (.sequence top.reverse :: next) :: levels⟩
        else if c = 125 then some ⟨.outside, (.map (pairUp top.reverse) :: next) :: levels⟩
        else none
      | [] => none
  | _, [] => none

/-- A whole text. -/
def Reader.run (r : Reader) : Text → Option Reader
  | [] => some r
  | c :: rest => (r.step c).bind fun r => r.run rest

/-- The document of a text. -/
def readFlow (text : Text) : Option Node :=
  match text with
  | [] => some .null
  | text =>
    match Reader.run ⟨.outside, [[]]⟩ text with
    | some ⟨.outside, [[node]]⟩ => some node
    | _ => none

section Read

variable {top : List Node} {levels : List (List Node)}

/-- What stands between two quotes is read as the text that was escaped. -/
theorem run_escaped (text before rest : Text) :
    Reader.run ⟨.inside before, top :: levels⟩ (text.flatMap escape ++ 34 :: rest) =
      Reader.run ⟨.outside, (.scalar (before ++ text) :: top) :: levels⟩ rest := by
  induction text generalizing before with
  | nil => rw [List.append_nil]; rfl
  | cons c text ih =>
    have next := ih (before ++ [c])
    rw [List.append_assoc, List.singleton_append] at next
    rw [← next, List.flatMap_cons, List.append_assoc, escape]
    split_ifs with special
    · rfl
    · obtain ⟨noQuote, noEscape⟩ := not_or.mp special
      show (Reader.step _ c).bind _ = _
      simp [Reader.step, noQuote, noEscape]

theorem pairUp_flatMap (entries : List (Node × Node)) :
    pairUp (entries.flatMap fun e => [e.1, e.2]) = entries := by
  induction entries with
  | nil => rfl
  | cons e rest ih => rw [List.flatMap_cons]; exact congrArg (e :: ·) ih

mutual

/-- A node is read as the next one of its level. -/
theorem run_flowText (top : List Node) (levels : List (List Node)) (rest : Text) : (node : Node) →
    Reader.run ⟨.outside, top :: levels⟩ (flowText node ++ rest) =
      Reader.run ⟨.outside, (node :: top) :: levels⟩ rest
  | .null => rfl
  | .scalar text => by
    rw [flowText, List.cons_append, List.cons_append, List.append_assoc, List.singleton_append]
    exact run_escaped text [] rest
  | .sequence items => by
    rw [flowText, List.cons_append, List.cons_append, List.append_assoc, List.singleton_append]
    refine (run_flowItems [] (top :: levels) (93 :: rest) items).trans ?_
    show Reader.run ⟨.outside, (.sequence (items.reverse ++ []).reverse :: top) :: levels⟩ rest = _
    rw [List.append_nil, List.reverse_reverse]
  | .map entries => by
    rw [flowText, List.cons_append, List.cons_append, List.append_assoc, List.singleton_append]
    refine (run_flowEntries [] (top :: levels) (125 :: rest) entries).trans ?_
    show Reader.run ⟨.outside, (.map (pairUp
      ((entries.flatMap fun e : Node × Node => [e.1, e.2]).reverse ++ []).reverse) :: top) ::
        levels⟩ rest = _
    rw [List.append_nil, List.reverse_reverse, pairUp_flatMap]

theorem run_flowItems (top : List Node) (levels : List (List Node)) (rest : Text) :
    (items : List Node) →
      Reader.run ⟨.outside, top :: levels⟩ (flowItems items ++ rest) =
        Reader.run ⟨.outside, (items.reverse ++ top) :: levels⟩ rest
  | [] => rfl
  | node :: items => by
    rw [flowItems, List.append_assoc, List.append_assoc, run_flowText top levels _ node]
    refine (run_flowItems (node :: top) levels rest items).trans ?_
    rw [List.reverse_cons, List.append_assoc, List.singleton_append]

theorem run_flowEntries (top : List Node) (levels : List (List Node)) (rest : Text) :
    (entries : List (Node × Node)) →
      Reader.run ⟨.outside, top :: levels⟩ (flowEntries entries ++ rest) =
        Reader.run ⟨.outside, ((entries.flatMap fun e => [e.1, e.2]).reverse ++ top) :: levels⟩ rest
  | [] => rfl
  | (key, value) :: entries => by
    simp only [flowEntries, List.append_assoc]
    rw [run_flowText top levels _ key]
    refine (run_flowText (key :: top) levels _ value).trans ?_
    refine (run_flowEntries (value :: key :: top) levels rest entries).trans ?_
    rw [List.flatMap_cons, List.reverse_append, List.append_assoc]
    rfl

end

end Read

theorem readFlow_flowText (node : Node) : readFlow (flowText node) = some node := by
  have read := run_flowText [] [] [] node
  rw [List.append_nil] at read
  cases node <;> simp only [flowText, readFlow, List.cons_append] at read ⊢ <;> rw [read] <;> rfl

/-- A key without digits is no number. -/
theorem get?_digits {entries : List (Node × Node)} {i : ℕ}
    (words : ∀ e ∈ entries, ∃ text, e.1 = .scalar text ∧ ∀ c ∈ text, ¬ isDigit c) :
    get? (digits i) entries = none := by
  rw [get?, Option.map_eq_none_iff, List.find?_eq_none]
  intro e inMap
  obtain ⟨text, key, noDigits⟩ := words e inMap
  obtain ⟨c, rest, number⟩ := List.exists_cons_of_ne_nil (digits_ne_nil i)
  have digit : isDigit c = true := isDigit_of_mem_digits i c (number ▸ List.mem_cons_self)
  rw [key]
  intro same
  have texts : text = digits i := eq_of_beq same
  exact noDigits c (texts ▸ number ▸ List.mem_cons_self) digit

/-- The library that prints the flow style. -/
def flow : YamlCpp where
  load := readFlow
  emit := flowText
  sub
    | .map entries, key => get? key entries
    | _, _ => none
  item
    | .sequence items, i => items[i]?
    | .map entries, i => get? (digits i) entries
    | _, _ => none
  size
    | .sequence items => items.length
    | .map entries => entries.length
    | _ => 0
  children
    | .sequence items => items.map .item
    | .map entries => entries.map fun e => .entry e.1 e.2
    | _ => []
  asString
    | .scalar text => some text
    | _ => none
  asInt
    | .scalar text => readInt text
    | _ => none
  assign
    | .null, key, value => some (.map [(.scalar key, value)])
    | .map entries, key, value => some (.map (put key value entries))
    | _, _, _ => none
  pushBack
    | .null, value => some (.sequence [value])
    | .sequence items, value => some (.sequence (items ++ [value]))
    | _, _ => none
  load_emit := readFlow_flowText
  load_nil := rfl
  sub_null _ := rfl
  sub_map _ _ := rfl
  item_sequence _ _ := rfl
  item_map _ _ words := get?_digits words
  size_null := rfl
  size_sequence _ := rfl
  size_map _ := rfl
  children_null := rfl
  children_sequence _ := rfl
  children_map _ := rfl
  asString_scalar _ := rfl
  asString_map _ := rfl
  asInt_decimal := readInt_decimal
  assign_null _ _ := rfl
  assign_map _ _ _ := rfl
  pushBack_null _ := rfl
  pushBack_sequence _ _ := rfl

end Yaml
