import Mathlib.Data.Nat.Notation
import Mathlib.Data.List.Basic
import Mathlib.Data.List.DropRight
import Sylar.Util.Url

/-!
# The searches of `std::string`, and `Trim`

A position is a natural number and `npos` is `none`. A length that the code computes
from `npos` wraps to one beyond the end of every string, so `substr` takes `none` for a
length that does not cut the rest.

* `find_append`, `substr_append`: searching and cutting a string given by its parts.
* `trim_eq`: `Trim` takes off what the delimiters are at both ends.
* `trims_iff`: `TrimRight` takes off one byte more.
-/

namespace Sylar

namespace Bytes

/-- `c_str()`: what the C functions see of a string. -/
def cStr (s : Bytes) : Bytes := s.takeWhile (· ≠ 0)

/-- `tolower`, in the "C" locale. -/
def tolower (c : UInt8) : UInt8 := if byte 'A' ≤ c ∧ c ≤ byte 'Z' then c + 32 else c

/-- `str.find(ch, pos)`. -/
def find (str : Bytes) (ch : UInt8) (pos : ℕ) : Option ℕ :=
  ((str.drop pos).findIdx? (· == ch)).map (pos + ·)

/-- `str.substr(pos, n)`. -/
def substr (str : Bytes) (pos : ℕ) : Option ℕ → Bytes
  | none => str.drop pos
  | some n => (str.drop pos).take n

/-- `str.find_first_not_of(delimit)`. -/
def findFirstNotOf (str delimit : Bytes) : Option ℕ := str.findIdx? fun c => !delimit.contains c

/-- `str.find_last_not_of(delimit)`: the first from the other end. -/
def findLastNotOf (str delimit : Bytes) : Option ℕ :=
  (findFirstNotOf str.reverse delimit).map (str.length - 1 - ·)

variable {str front rest delimit : Bytes} {ch : UInt8} {pos n : ℕ}

theorem zero_not_mem_cStr (s : Bytes) : 0 ∉ cStr s := fun nul =>
  of_decide_eq_true (List.mem_takeWhile_imp (p := fun c : UInt8 => decide (c ≠ 0)) nul) rfl

/-- What stands in front of the first NUL is seen, and what comes behind it. -/
theorem cStr_append {front : Bytes} (free : 0 ∉ front) (rest : Bytes) :
    cStr (front ++ rest) = front ++ cStr rest := by
  rw [cStr, List.takeWhile_append_of_pos]
  · rfl
  · intro c inFront
    exact decide_eq_true fun zero => free (zero ▸ inFront)

/-- The whole of a string without NUL is its `c_str()`. -/
theorem cStr_eq_self {s : Bytes} (free : 0 ∉ s) : cStr s = s := by
  have whole := cStr_append free []
  rw [List.append_nil] at whole
  exact whole.trans (List.append_nil s)

theorem cStr_eq_iff {s : Bytes} : cStr s = s ↔ 0 ∉ s := by
  constructor
  · intro whole
    rw [← whole]
    exact zero_not_mem_cStr s
  · exact cStr_eq_self

/-- What is found lies at or behind the position and inside the string. -/
theorem find_bounds (found : find str ch pos = some n) : pos ≤ n ∧ n < str.length := by
  obtain ⟨i, first, rfl⟩ := Option.map_eq_some_iff.mp found
  obtain ⟨below, -⟩ := List.findIdx?_eq_some_iff_getElem.mp first
  rw [List.length_drop] at below
  omega

theorem find_append (here : str.drop pos = front ++ ch :: rest) (free : ch ∉ front) :
    find str ch pos = some (pos + front.length) := by
  have skipped : front.findIdx? (· == ch) = none := by
    rw [List.findIdx?_eq_none_iff]
    intro c inFront
    exact beq_false_of_ne fun same => free (same ▸ inFront)
  rw [find, here, List.findIdx?_append, skipped, List.findIdx?_cons, if_pos (beq_self_eq_true ch),
    Option.none_or, Option.map_some, Option.map_some, Nat.zero_add]

theorem find_none (free : ch ∉ str.drop pos) : find str ch pos = none := by
  rw [find, Option.map_eq_none_iff, List.findIdx?_eq_none_iff]
  intro c inStr
  exact beq_false_of_ne fun same => free (same ▸ inStr)

theorem not_mem_of_find (none_found : find str ch pos = none) : ch ∉ str.drop pos := by
  intro inStr
  obtain ⟨front, rest, here, free⟩ := List.eq_append_cons_of_mem inStr
  rw [find_append here free] at none_found
  cases none_found

/-- What is found is the first one behind the position. -/
theorem parts_of_find (found : find str ch pos = some n) :
    ∃ front rest, str.drop pos = front ++ ch :: rest ∧ ch ∉ front ∧ n = pos + front.length := by
  have inStr : ch ∈ str.drop pos := by
    by_contra free
    rw [find_none free] at found
    cases found
  obtain ⟨front, rest, here, free⟩ := List.eq_append_cons_of_mem inStr
  exact ⟨front, rest, here, free, Option.some.inj (found.symm.trans (find_append here free))⟩

theorem getElem?_of_find (found : find str ch pos = some n) : str[n]? = some ch := by
  obtain ⟨front, rest, here, -, rfl⟩ := parts_of_find found
  rw [← List.getElem?_drop, here, List.getElem?_append_right (Nat.le_refl _), Nat.sub_self]
  rfl

theorem substr_append (here : str.drop pos = front ++ rest) :
    substr str pos (some front.length) = front := by
  rw [substr, here, List.take_left]

/-- The rest of a string behind one of its parts. -/
theorem drop_append (here : str.drop pos = front ++ rest) :
    str.drop (pos + front.length) = rest := by
  rw [← List.drop_drop, here, List.drop_left]

/-- `str` neither begins nor ends with a byte of `delimit`. -/
def NoEdge (delimit str : Bytes) : Prop :=
  (∀ c ∈ str.head?, c ∉ delimit) ∧ ∀ c ∈ str.getLast?, c ∉ delimit

theorem findFirstNotOf_none (edge : ∀ c ∈ str, c ∈ delimit) :
    findFirstNotOf str delimit = none := by
  rw [findFirstNotOf, List.findIdx?_eq_none_iff]
  intro c inStr
  rw [List.contains_iff_mem.mpr (edge c inStr), Bool.not_true]

theorem findFirstNotOf_append (edge : ∀ c ∈ front, c ∈ delimit) (stops : ch ∉ delimit) :
    findFirstNotOf (front ++ ch :: rest) delimit = some front.length := by
  have skipped := findFirstNotOf_none edge
  have stops : (!delimit.contains ch) = true := by
    rw [Bool.not_eq_true', ← Bool.not_eq_true, List.contains_iff_mem]
    exact stops
  rw [findFirstNotOf] at skipped
  rw [findFirstNotOf, List.findIdx?_append, skipped, Option.none_or, List.findIdx?_cons,
    if_pos stops, Option.map_some, Nat.zero_add]

theorem findLastNotOf_append {back : Bytes} (edge : ∀ c ∈ back, c ∈ delimit)
    (stops : ch ∉ delimit) :
    findLastNotOf (front ++ ch :: back) delimit = some front.length := by
  have reversed : (front ++ ch :: back).reverse = back.reverse ++ ch :: front.reverse := by
    rw [List.reverse_append, List.reverse_cons, List.append_assoc, List.singleton_append]
  have edge : ∀ c ∈ back.reverse, c ∈ delimit := fun c inBack => edge c (List.mem_reverse.mp inBack)
  rw [findLastNotOf, reversed, findFirstNotOf_append edge stops, Option.map_some,
    List.length_append, List.length_cons, List.length_reverse]
  congr 1
  omega

end Bytes

namespace StringUtil

open Bytes

/-- `Trim`. -/
def trim (str delimit : Bytes) : Bytes :=
  match findFirstNotOf str delimit with
  | none => []
  | some first => substr str first ((findLastNotOf str delimit).map fun last => last - first + 1)

/-- `TrimLeft`. -/
def trimLeft (str delimit : Bytes) : Bytes :=
  match findFirstNotOf str delimit with
  | none => []
  | some first => substr str first none

/-- `TrimRight`. -/
def trimRight (str delimit : Bytes) : Bytes :=
  match findLastNotOf str delimit with
  | none => []
  | some last => substr str 0 (some last)

/-- The default of `delimit`. -/
def blanks : Bytes := [' ', '\t', '\r', '\n'].map byte

/-- `Trim` takes off the delimiters at both ends, and nothing more. -/
theorem trim_eq {front str back delimit : Bytes} (before : ∀ c ∈ front, c ∈ delimit)
    (after : ∀ c ∈ back, c ∈ delimit) (edges : NoEdge delimit str) :
    trim (front ++ str ++ back) delimit = str := by
  rcases List.eq_nil_or_concat str with rfl | ⟨init, last, rfl⟩
  · have all : ∀ c ∈ front ++ [] ++ back, c ∈ delimit := by
      intro c inText
      rw [List.append_nil] at inText
      exact (List.mem_append.mp inText).elim (before c) (after c)
    rw [trim, findFirstNotOf_none all]
  · rw [List.concat_eq_append] at edges ⊢
    obtain ⟨first, rest, parts⟩ :=
      List.exists_cons_of_ne_nil
        (List.append_ne_nil_of_right_ne_nil init (List.cons_ne_nil last []))
    have stopsLast : last ∉ delimit := edges.2 last List.getLast?_concat
    have stopsFirst : first ∉ delimit := edges.1 first (by rw [parts]; rfl)
    have fromLeft : findFirstNotOf (front ++ (init ++ [last]) ++ back) delimit =
        some front.length := by
      rw [parts, List.append_assoc, List.cons_append]
      exact findFirstNotOf_append before stopsFirst
    have fromRight : findLastNotOf (front ++ (init ++ [last]) ++ back) delimit =
        some (front ++ init).length := by
      rw [← List.append_assoc, List.append_assoc _ [last], List.singleton_append]
      exact findLastNotOf_append after stopsLast
    have length : (front ++ init).length - front.length + 1 = (init ++ [last]).length := by
      rw [List.length_append, List.length_append, List.length_singleton]
      omega
    simp only [trim, fromLeft, fromRight, Option.map_some, length]
    have parts : (front ++ (init ++ [last]) ++ back).drop front.length =
        (init ++ [last]) ++ back := by
      rw [List.append_assoc, List.drop_left]
    exact substr_append parts

/-- Without the delimiters at both ends, neither end is one. -/
theorem noEdge_dropWhile (str delimit : Bytes) :
    NoEdge delimit ((str.dropWhile (· ∈ delimit)).rdropWhile (· ∈ delimit)) := by
  constructor
  · intro c first inDelimit
    obtain ⟨rest, whole⟩ := List.rdropWhile_prefix (· ∈ delimit) (l := str.dropWhile (· ∈ delimit))
    have head : (str.dropWhile (· ∈ delimit)).head? = some c := by
      rw [← whole, List.head?_append, first, Option.some_or]
    have stops := List.head?_dropWhile_not (· ∈ delimit) str
    rw [head] at stops
    exact of_decide_eq_false stops inDelimit
  · intro c last inDelimit
    have nonempty : (str.dropWhile (· ∈ delimit)).rdropWhile (· ∈ delimit) ≠ [] := by
      intro empty
      rw [empty] at last
      cases last
    rw [List.getLast?_eq_some_getLast nonempty] at last
    obtain rfl := Option.some.inj last
    exact List.rdropWhile_last_not (· ∈ delimit) _ nonempty (decide_eq_true inDelimit)

theorem mem_takeWhile_delimit (str delimit : Bytes) :
    ∀ c ∈ str.takeWhile (· ∈ delimit), c ∈ delimit := fun _ inFront =>
  of_decide_eq_true (List.mem_takeWhile_imp (p := (· ∈ delimit)) inFront)

theorem mem_rtakeWhile_delimit (str delimit : Bytes) :
    ∀ c ∈ str.rtakeWhile (· ∈ delimit), c ∈ delimit := fun _ inBack =>
  of_decide_eq_true (List.mem_rtakeWhile_imp (p := (· ∈ delimit)) inBack)

theorem dropWhile_parts (str delimit : Bytes) :
    str.takeWhile (· ∈ delimit) ++ (str.dropWhile (· ∈ delimit)).rdropWhile (· ∈ delimit) ++
      (str.dropWhile (· ∈ delimit)).rtakeWhile (· ∈ delimit) = str := by
  rw [List.append_assoc, List.rdropWhile_append_rtakeWhile, List.takeWhile_append_dropWhile]

/-- `Trim` takes off the longest run of delimiters at either end. -/
theorem trim_eq_dropWhile (str delimit : Bytes) :
    trim str delimit = (str.dropWhile (· ∈ delimit)).rdropWhile (· ∈ delimit) := by
  have trimmed := trim_eq (mem_takeWhile_delimit str delimit)
    (mem_rtakeWhile_delimit (str.dropWhile (· ∈ delimit)) delimit) (noEdge_dropWhile str delimit)
  rw [dropWhile_parts] at trimmed
  exact trimmed

/-- What `Trim` takes off are delimiters. -/
theorem trim_parts (str delimit : Bytes) : ∃ front back, str = front ++ trim str delimit ++ back ∧
    (∀ c ∈ front, c ∈ delimit) ∧ ∀ c ∈ back, c ∈ delimit := by
  rw [trim_eq_dropWhile]
  exact ⟨_, _, (dropWhile_parts str delimit).symm, mem_takeWhile_delimit _ _,
    mem_rtakeWhile_delimit _ _⟩

/-- A byte that is no delimiter stays as often as it is there. -/
theorem count_trim {delimit : Bytes} {c : UInt8} (stays : c ∉ delimit) (str : Bytes) :
    (trim str delimit).count c = str.count c := by
  obtain ⟨front, back, parts, before, after⟩ := trim_parts str delimit
  have none_before : front.count c = 0 :=
    List.count_eq_zero.mpr fun inFront => stays (before c inFront)
  have none_after : back.count c = 0 := List.count_eq_zero.mpr fun inBack => stays (after c inBack)
  conv_rhs => rw [parts, List.count_append, List.count_append, none_before, none_after]
  omega

/-! ## `TrimLeft` and `TrimRight` -/

/-- `TrimLeft` takes off the longest prefix of delimiters. -/
theorem trimLeft_eq (str delimit : Bytes) :
    trimLeft str delimit = str.dropWhile (· ∈ delimit) := by
  have parts := List.takeWhile_append_dropWhile (p := (· ∈ delimit)) (l := str)
  cases kept : str.dropWhile (· ∈ delimit) with
  | nil =>
    rw [kept, List.append_nil] at parts
    have all : ∀ c ∈ str, c ∈ delimit := by
      rw [← parts]
      exact mem_takeWhile_delimit str delimit
    rw [trimLeft, findFirstNotOf_none all]
  | cons first rest =>
    have stops := List.head?_dropWhile_not (· ∈ delimit) str
    rw [kept] at stops parts
    have found : findFirstNotOf (str.takeWhile (· ∈ delimit) ++ first :: rest) delimit = _ :=
      findFirstNotOf_append (mem_takeWhile_delimit str delimit) (of_decide_eq_false stops)
    rw [parts] at found
    have rest_kept := congrArg (List.drop (str.takeWhile (· ∈ delimit)).length) parts
    rw [List.drop_left] at rest_kept
    simp only [trimLeft, found]
    exact rest_kept.symm

/-- `TrimRight` takes off the longest suffix of delimiters, and the byte before it: the
position of the last byte that stays is passed as the length. -/
theorem trimRight_eq (str delimit : Bytes) :
    trimRight str delimit = (str.rdropWhile (· ∈ delimit)).dropLast := by
  have parts := List.rdropWhile_append_rtakeWhile (p := (· ∈ delimit)) (l := str)
  rcases List.eq_nil_or_concat (str.rdropWhile (· ∈ delimit)) with empty | ⟨init, last, kept⟩
  · rw [empty, List.nil_append] at parts
    have all : ∀ c ∈ str.reverse, c ∈ delimit := by
      intro c inStr
      rw [List.mem_reverse, ← parts] at inStr
      exact mem_rtakeWhile_delimit str delimit c inStr
    rw [empty, trimRight, findLastNotOf, findFirstNotOf_none all]
    rfl
  · have stops : last ∉ delimit := by
      have nonempty : str.rdropWhile (· ∈ delimit) ≠ [] := by simp [kept]
      have stays := List.rdropWhile_last_not (· ∈ delimit) _ nonempty
      simp only [kept, List.concat_eq_append, List.getLast_append_singleton] at stays
      exact fun inDelimit => stays (decide_eq_true inDelimit)
    rw [kept, List.concat_eq_append, List.append_assoc, List.singleton_append] at parts
    have found : findLastNotOf (init ++ last :: str.rtakeWhile (· ∈ delimit)) delimit = _ :=
      findLastNotOf_append (mem_rtakeWhile_delimit str delimit) stops
    rw [parts] at found
    simp only [trimRight, found]
    rw [kept, List.concat_eq_append, List.dropLast_concat]
    exact substr_append parts.symm

/-- The three functions are what they are named after on the strings that consist of
delimiters. -/
theorem trims_iff (str delimit : Bytes) :
    (trimLeft str delimit = str.dropWhile (· ∈ delimit) ∧
      trimRight str delimit = str.rdropWhile (· ∈ delimit) ∧
      trim str delimit = trimRight (trimLeft str delimit) delimit ∧
      trim str delimit = trimLeft (trimRight str delimit) delimit) ↔
    ∀ c ∈ str, c ∈ delimit := by
  constructor
  · rintro ⟨-, right, -, -⟩
    rw [trimRight_eq] at right
    have shorter := congrArg List.length right
    rw [List.length_dropLast] at shorter
    have empty : str.rdropWhile (· ∈ delimit) = [] := List.length_eq_zero_iff.mp (by omega)
    intro c inStr
    exact of_decide_eq_true (List.rdropWhile_eq_nil_iff.mp empty c inStr)
  · intro all
    have all : ∀ c ∈ str, decide (c ∈ delimit) = true := fun c inStr => decide_eq_true (all c inStr)
    have left : str.dropWhile (· ∈ delimit) = [] := List.dropWhile_eq_nil_iff.mpr all
    have right : str.rdropWhile (· ∈ delimit) = [] := List.rdropWhile_eq_nil_iff.mpr all
    simp only [trim_eq_dropWhile, trimLeft_eq, trimRight_eq, left, right, List.rdropWhile_nil,
      List.dropLast_nil, List.dropWhile_nil, and_self]

/-- The last letter of a word goes with the blank behind it. -/
theorem trimRight_shortens :
    ¬ (trimRight (lit "ab ") blanks = (lit "ab ").rdropWhile (· ∈ blanks)) := by
  decide +kernel

end StringUtil

end Sylar
