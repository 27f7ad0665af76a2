import Mathlib.Data.List.GetD
import Mathlib.Tactic.SplitIfs
import Sylar.Lib.Rfc4291
import Sylar.Net.Address

/-!
# IPv6 addresses as text

`IPv6Address::Create` and `IPv6Address::insert` of `address.cpp`. `insert` elides the first
run of zero groups, also where it has one group only, in one loop over the groups.

* `insertGroups_eq`: what the loop writes, by the first run of zero groups.
* `insert_reads`: the text is a form of the address, and reads back as it.
-/

namespace Sylar

open Rfc4291

/-- A stream of text, and whether `std::hex` is set. -/
structure Ostream where
  text : Bytes
  hex : Bool

namespace Ostream

/-- `os << s`. -/
def put (os : Ostream) (s : Bytes) : Ostream := { os with text := os.text ++ s }

/-- `os << n`, for a number that is not negative. -/
def putNumber (os : Ostream) (n : ℕ) : Ostream := os.put (digitText (if os.hex then 16 else 10) n)

end Ostream

namespace IPv6Address

/-- The constructor from 16 bytes. -/
def make (order : ByteOrder) (address : Vector UInt8 16) (port : UInt16) : IPv6Address where
  mAddr :=
    { sin6Family := afInet6
      sin6Port := order.byteswapOnLittleEndian port
      sin6Flowinfo := 0
      sin6Addr := address
      sin6ScopeId := 0 }

/-- `inet_pton(AF_INET6, address, ..)`: the bytes that it stores, `none` where it fails. -/
def inetPton (address : Bytes) : Option (Vector UInt8 16) := (read address).map octets

/-- `Create`. -/
def create (order : ByteOrder) (address : Bytes) (port : UInt16) : Option IPv6Address :=
  (inetPton address).map fun sin6Addr => ⟨{
    sin6Family := afInet6
    sin6Port := order.byteswapOnLittleEndian port
    sin6Flowinfo := 0
    sin6Addr := sin6Addr
    sin6ScopeId := 0 }⟩

/-- `getPort`. -/
def getPort (order : ByteOrder) (a : IPv6Address) : ℕ :=
  (order.byteswapOnLittleEndian a.mAddr.sin6Port).toNat

/-- `addr[i]` of the bytes, taken for an array of `uint16_t`. -/
def groupAt (order : ByteOrder) (a : IPv6Address) (i : ℕ) : UInt16 :=
  order.read16 (a.mAddr.sin6Addr.toList.getD (2 * i) 0) (a.mAddr.sin6Addr.toList.getD (2 * i + 1) 0)

/-- The body of the loop of `insert`, on `os` and `used_zeros`. -/
def insertGroup (order : ByteOrder) (addr : ℕ → UInt16) (s : Ostream × Bool) (i : ℕ) :
    Ostream × Bool :=
  if addr i = 0 ∧ s.2 = false then s
  else
    let s := if i ≠ 0 ∧ addr (i - 1) = 0 ∧ s.2 = false then (s.1.put (lit ":"), true) else s
    let os := if i ≠ 0 then s.1.put (lit ":") else s.1
    let os := { os with hex := true }.putNumber (order.byteswapOnLittleEndian (addr i)).toNat
    ({ os with hex := false }, s.2)

/-- `insert`. -/
def insert (order : ByteOrder) (a : IPv6Address) (os : Ostream) : Ostream :=
  let os := os.put (lit "[")
  let (os, usedZeros) := (List.range 8).foldl (insertGroup order (a.groupAt order)) (os, false)
  let os := if usedZeros = false ∧ a.groupAt order 7 = 0 then os.put (lit "::") else os
  (os.put (lit "]:")).putNumber (a.getPort order)

/-- `toString`: onto a new stream. -/
def toString (order : ByteOrder) (a : IPv6Address) : Bytes := (a.insert order ⟨[], false⟩).text

/-! ## The groups -/

/-- The value of a group. -/
def group (a : IPv6Address) (i : ℕ) : ℕ :=
  256 * (a.mAddr.sin6Addr.toList.getD (2 * i) 0).toNat
    + (a.mAddr.sin6Addr.toList.getD (2 * i + 1) 0).toNat

theorem toNat_ofNat16 {n : ℕ} (small : n < 65536) : (UInt16.ofNat n).toNat = n :=
  UInt16.toNat_ofNat_of_lt small

/-- On either machine, the loop reads and writes the groups in network order. -/
theorem byteswap_read16 (order : ByteOrder) (first second : UInt8) :
    (order.byteswapOnLittleEndian (order.read16 first second)).toNat =
      256 * first.toNat + second.toNat := by
  have := first.toNat_lt
  have := second.toNat_lt
  cases order with
  | little =>
    have high : (first.toNat + 256 * second.toNat) / 256 = second.toNat := by omega
    have stored : (UInt16.ofNat (first.toNat + 256 * second.toNat)).toNat =
        first.toNat + 256 * second.toNat := toNat_ofNat16 (by omega)
    rw [ByteOrder.byteswapOnLittleEndian, ByteOrder.read16, byteswap16, stored, high,
      UInt16.toNat_ofNat']
    omega
  | big => exact toNat_ofNat16 (by omega)

theorem group_eq (order : ByteOrder) (a : IPv6Address) (i : ℕ) :
    (order.byteswapOnLittleEndian (a.groupAt order i)).toNat = a.group i :=
  byteswap_read16 order _ _

theorem group_lt (a : IPv6Address) (i : ℕ) : a.group i < 65536 := by
  have := (a.mAddr.sin6Addr.toList.getD (2 * i) 0).toNat_lt
  have := (a.mAddr.sin6Addr.toList.getD (2 * i + 1) 0).toNat_lt
  unfold group
  omega

/-- The group is zero in memory where its value is. -/
theorem groupAt_eq_zero {order : ByteOrder} {a : IPv6Address} {i : ℕ} :
    a.groupAt order i = 0 ↔ a.group i = 0 := by
  have zero : order.byteswapOnLittleEndian 0 = 0 := by cases order <;> rfl
  constructor
  · intro empty
    rw [← group_eq order, empty, zero]
    rfl
  · intro empty
    have := (a.mAddr.sin6Addr.toList.getD (2 * i) 0).toNat_lt
    have := (a.mAddr.sin6Addr.toList.getD (2 * i + 1) 0).toNat_lt
    rw [group] at empty
    obtain ⟨high, low⟩ := Nat.add_eq_zero_iff.mp empty
    have first := UInt8.toNat_inj.mp (show (_ : UInt8).toNat = (0 : UInt8).toNat by
      exact (Nat.mul_eq_zero.mp high).resolve_left (by decide))
    have second := UInt8.toNat_inj.mp (show (_ : UInt8).toNat = (0 : UInt8).toNat from low)
    rw [groupAt, first, second]
    cases order <;> rfl

/-- The eight groups give the bytes back. -/
theorem octets_groups (a : IPv6Address) :
    octets ((List.range 8).map a.group) = a.mAddr.sin6Addr := by
  apply Vector.ext
  intro i bound
  have here : (((List.range 8).map a.group).getD (i / 2) 0) = a.group (i / 2) := by
    rw [List.getD_eq_getElem _ _ (by rw [List.length_map, List.length_range]; omega),
      List.getElem_map, List.getElem_range]
  have byteAt (j : ℕ) (same : j = i) :
      UInt8.ofNat (a.mAddr.sin6Addr.toList.getD j 0).toNat = a.mAddr.sin6Addr[i] := by
    subst same
    rw [UInt8.ofNat_toNat, List.getD_eq_getElem _ _ (by rw [Vector.length_toList]; exact bound),
      Vector.getElem_toList]
  have := (a.mAddr.sin6Addr.toList.getD (2 * (i / 2) + 1) 0).toNat_lt
  simp only [octets, Vector.getElem_ofFn, here, group]
  split_ifs with even
  · rw [Nat.mul_add_div (by decide), Nat.div_eq_of_lt this, Nat.add_zero]
    exact byteAt _ (by omega)
  · rw [← byteAt (2 * (i / 2) + 1) (by omega)]
    apply UInt8.toNat_inj.mp
    rw [UInt8.toNat_ofNat', UInt8.toNat_ofNat']
    omega

/-! ## The loop -/

section Loop

variable {order : ByteOrder} {a : IPv6Address} {t : Bytes} {i : ℕ}

/-- The text of a group. -/
def groupText (a : IPv6Address) (i : ℕ) : Bytes := digitText 16 (a.group i)

/-- The first run of zero groups writes nothing. -/
theorem insertGroup_skip {os : Ostream} (zero : a.group i = 0) :
    insertGroup order (a.groupAt order) (os, false) i = (os, false) :=
  if_pos ⟨groupAt_eq_zero.mpr zero, rfl⟩

/-- A group that has no unwritten run of zeros in front of it. -/
theorem insertGroup_plain {used : Bool}
    (plain : used = true ∨ a.group i ≠ 0 ∧ (i ≠ 0 → a.group (i - 1) ≠ 0)) :
    insertGroup order (a.groupAt order) (⟨t, false⟩, used) i =
      (⟨t ++ (if i = 0 then [] else [colon]) ++ groupText a i, false⟩, used) := by
  have written : ¬ (a.groupAt order i = 0 ∧ used = false) := by
    rw [groupAt_eq_zero]
    rintro ⟨zero, unused⟩
    rcases plain with spent | ⟨nonzero, -⟩
    · exact absurd (spent.symm.trans unused) (by decide)
    · exact nonzero zero
  have single : ¬ (i ≠ 0 ∧ a.groupAt order (i - 1) = 0 ∧ used = false) := by
    rw [groupAt_eq_zero]
    rintro ⟨behind, zero, unused⟩
    rcases plain with spent | ⟨-, nonzero⟩
    · exact absurd (spent.symm.trans unused) (by decide)
    · exact nonzero behind zero
  rw [insertGroup, if_neg written]
  simp only [if_neg single, group_eq]
  by_cases first : i = 0
  · simp [first, Ostream.putNumber, Ostream.put, groupText]
  · simp [first, Ostream.putNumber, Ostream.put, groupText, lit, byte, colon]

/-- The group behind the first run of zeros. -/
theorem insertGroup_resume (behind : i ≠ 0) (zero : a.group (i - 1) = 0) (nonzero : a.group i ≠ 0) :
    insertGroup order (a.groupAt order) (⟨t, false⟩, false) i =
      (⟨t ++ [colon, colon] ++ groupText a i, false⟩, true) := by
  have written : ¬ (a.groupAt order i = 0 ∧ (false : Bool) = false) := fun both =>
    nonzero (groupAt_eq_zero.mp both.1)
  rw [insertGroup, if_neg written]
  simp only [groupAt_eq_zero, zero, group_eq]
  simp [behind, Ostream.putNumber, Ostream.put, groupText, lit, byte, colon]

/-- Groups of zeros before any was written. -/
theorem insertGroups_skip {os : Ostream} (is : List ℕ) (zeros : ∀ i ∈ is, a.group i = 0) :
    is.foldl (insertGroup order (a.groupAt order)) (os, false) = (os, false) := by
  induction is with
  | nil => rfl
  | cons i is ih =>
    rw [List.foldl_cons, insertGroup_skip (zeros i List.mem_cons_self)]
    exact ih fun j inRest => zeros j (List.mem_cons_of_mem i inRest)

/-- Groups that come with a colon each. -/
theorem insertGroups_plain {used : Bool} (is : List ℕ)
    (plain : ∀ i ∈ is, i ≠ 0 ∧ (used = true ∨ a.group i ≠ 0 ∧ a.group (i - 1) ≠ 0)) :
    is.foldl (insertGroup order (a.groupAt order)) (⟨t, false⟩, used) =
      (⟨t ++ (is.map (groupText a)).flatMap (colon :: ·), false⟩, used) := by
  induction is generalizing t with
  | nil =>
    rw [List.map_nil, List.flatMap_nil, List.append_nil]
    rfl
  | cons i is ih =>
    obtain ⟨behind, here⟩ := plain i List.mem_cons_self
    have single : used = true ∨ a.group i ≠ 0 ∧ (i ≠ 0 → a.group (i - 1) ≠ 0) :=
      here.imp_right fun both => ⟨both.1, fun _ => both.2⟩
    rw [List.foldl_cons, insertGroup_plain single, if_neg behind,
      ih fun j inRest => plain j (List.mem_cons_of_mem i inRest), List.map_cons, List.flatMap_cons]
    simp only [List.append_assoc, List.cons_append, List.nil_append]

/-- The groups before the first zero. -/
theorem insertGroups_front (n : ℕ) (nonzero : ∀ i ∈ List.range' 0 n, a.group i ≠ 0) :
    (List.range' 0 n).foldl (insertGroup order (a.groupAt order)) (⟨t, false⟩, false) =
      (⟨t ++ join ((List.range' 0 n).map (groupText a)), false⟩, false) := by
  cases n with
  | zero =>
    have empty : t ++ join [] = t := List.append_nil t
    rw [List.range'_zero, List.map_nil, empty]
    rfl
  | succ n =>
    rw [List.range'_succ] at nonzero ⊢
    have first : a.group 0 ≠ 0 := nonzero 0 List.mem_cons_self
    have rest : ∀ i ∈ List.range' (0 + 1) n,
        i ≠ 0 ∧ (false = true ∨ a.group i ≠ 0 ∧ a.group (i - 1) ≠ 0) := by
      intro i inRest
      obtain ⟨low, high⟩ := List.mem_range'_1.mp inRest
      have before : i - 1 ∈ 0 :: List.range' (0 + 1) n := by
        rw [← List.range'_succ, List.mem_range'_1]
        omega
      exact ⟨by omega, .inr ⟨nonzero i (List.mem_cons_of_mem 0 inRest), nonzero _ before⟩⟩
    rw [List.foldl_cons, insertGroup_plain (.inr ⟨first, fun absent => absurd rfl absent⟩),
      if_pos rfl, insertGroups_plain _ rest, List.map_cons, join_cons]
    simp only [List.append_nil, List.append_assoc]

/-- The groups behind the first run of zeros. -/
theorem insertGroups_back (s n : ℕ) (behind : s ≠ 0) (zero : a.group (s - 1) = 0)
    (nonzero : a.group s ≠ 0) :
    (List.range' s (n + 1)).foldl (insertGroup order (a.groupAt order)) (⟨t, false⟩, false) =
      (⟨t ++ colon :: colon :: join ((List.range' s (n + 1)).map (groupText a)), false⟩, true) := by
  have rest : ∀ i ∈ List.range' (s + 1) n,
      i ≠ 0 ∧ (true = true ∨ a.group i ≠ 0 ∧ a.group (i - 1) ≠ 0) := by
    intro i inRest
    obtain ⟨low, high⟩ := List.mem_range'_1.mp inRest
    exact ⟨by omega, .inl rfl⟩
  rw [List.range'_succ, List.foldl_cons, insertGroup_resume behind zero nonzero,
    insertGroups_plain _ rest, List.map_cons, join_cons]
  simp only [List.append_assoc, List.cons_append, List.nil_append]

end Loop

/-- A run of places that meet `P` from `s` on, as long as it goes. -/
theorem exists_run (P : ℕ → Prop) [DecidablePred P] (s n : ℕ) :
    ∃ k m, k + m = n ∧ (∀ i ∈ List.range' s k, P i) ∧ (m ≠ 0 → ¬ P (s + k)) := by
  induction n generalizing s with
  | zero =>
    exact ⟨0, 0, rfl, fun i none => absurd none List.not_mem_nil, fun absent => absurd rfl absent⟩
  | succ n ih =>
    by_cases here : P s
    · obtain ⟨k, m, total, run, stops⟩ := ih (s + 1)
      refine ⟨k + 1, m, by omega, fun i inRun => ?_, fun more => ?_⟩
      · rw [List.range'_succ] at inRun
        rcases List.mem_cons.mp inRun with rfl | later
        · exact here
        · exact run i later
      · rw [Nat.add_comm k 1, ← Nat.add_assoc]
        exact stops more
    · exact ⟨0, n + 1, by omega, fun i none => absurd none List.not_mem_nil, fun _ => here⟩

/-- A range in three pieces. -/
theorem range_split {p k q n : ℕ} (total : p + (k + q) = n) :
    List.range n = List.range' 0 p ++ (List.range' p k ++ List.range' (p + k) q) := by
  have back : List.range' p k ++ List.range' (p + k) q = List.range' p (k + q) :=
    List.range'_append_1
  have whole : List.range' 0 p ++ List.range' (0 + p) (k + q) = List.range' 0 (p + (k + q)) :=
    List.range'_append_1
  rw [back, List.range_eq_range', ← total, ← whole, Nat.zero_add]

/-- The texts of groups read back. -/
theorem readGroups_groupText (a : IPv6Address) (is : List ℕ) :
    (is.map (groupText a)).mapM readGroup = some (is.map a.group) := by
  have small : ∀ n ∈ is.map a.group, n < 65536 := by
    intro n inGroups
    obtain ⟨i, -, rfl⟩ := List.mem_map.mp inGroups
    exact group_lt a i
  have read := readGroups_digitText small
  rw [List.map_map] at read
  exact read

/-- What stands between the brackets. -/
structure Form (a : IPv6Address) (A : Bytes) : Prop where
  reads : read A = some ((List.range 8).map a.group)
  doubles : doubles A ≤ 1
  letters : ∀ c ∈ A, c = colon ∨ (hexDigit c).isSome

theorem form_full (a : IPv6Address) : a.Form (join ((List.range 8).map (groupText a))) := by
  have written := readGroups_groupText a (List.range 8)
  obtain ⟨reads, none⟩ := read_full written (by rw [List.length_map, List.length_range])
  exact ⟨reads, by rw [none]; exact Nat.zero_le 1, letters_join written⟩

/-- `k` groups of zeros behind `p` others are elided. -/
theorem form_compressed (a : IPv6Address) {p k q : ℕ} (total : p + (k + q) = 8) (some_zero : 0 < k)
    (zeros : ∀ i ∈ List.range' p k, a.group i = 0) :
    a.Form (join ((List.range' 0 p).map (groupText a)) ++
      colon :: colon :: join ((List.range' (p + k) q).map (groupText a))) := by
  have left := readGroups_groupText a (List.range' 0 p)
  have right := readGroups_groupText a (List.range' (p + k) q)
  have lengths : ((List.range' 0 p).map a.group).length +
      ((List.range' (p + k) q).map a.group).length = p + q := by
    rw [List.length_map, List.length_map, List.length_range', List.length_range']
  obtain ⟨reads, one⟩ := read_compressed left right (by omega)
  have elided : List.replicate (8 - (p + q)) 0 = (List.range' p k).map a.group := by
    symm
    rw [List.eq_replicate_iff, List.length_map, List.length_range']
    refine ⟨by omega, fun g inGroups => ?_⟩
    obtain ⟨i, inRun, rfl⟩ := List.mem_map.mp inGroups
    exact zeros i inRun
  constructor
  · rw [reads, lengths, elided, range_split total, List.map_append, List.map_append,
      List.append_assoc]
  · exact Nat.le_of_eq one
  · intro c inText
    rw [List.mem_append, List.mem_cons, List.mem_cons] at inText
    rcases inText with inLeft | rfl | rfl | inRight
    · exact letters_join left c inLeft
    · exact .inl rfl
    · exact .inl rfl
    · exact letters_join right c inRight

/-- The loop, with the test behind it, writes a text form of the address. -/
theorem insertGroups_eq (order : ByteOrder) (a : IPv6Address) (t : Bytes) :
    ∃ A, a.Form A ∧
      (let s := (List.range 8).foldl (insertGroup order (a.groupAt order)) (⟨t, false⟩, false)
      if s.2 = false ∧ a.groupAt order 7 = 0 then s.1.put (lit "::") else s.1) =
        ⟨t ++ A, false⟩ := by
  have double : lit "::" = [colon, colon] := rfl
  obtain ⟨p, rest, total, front, stops⟩ := exists_run (fun i => a.group i ≠ 0) 0 8
  by_cases none : rest = 0
  · obtain rfl : p = 8 := by omega
    have last : ¬ (false = false ∧ a.groupAt order 7 = 0) := fun both =>
      front 7 (by decide) (groupAt_eq_zero.mp both.2)
    refine ⟨_, a.form_full, ?_⟩
    rw [List.range_eq_range', insertGroups_front 8 front]
    exact if_neg last
  · have zero : a.group p = 0 := by
      rw [← Nat.zero_add p]
      exact not_not.mp (stops none)
    obtain ⟨k, q, total', zeros, stops'⟩ := exists_run (fun i => a.group i = 0) p rest
    have some_zero : 0 < k := by
      rcases Nat.eq_zero_or_pos k with rfl | positive
      · exact absurd zero (stops' (by omega))
      · exact positive
    refine ⟨_, a.form_compressed (q := q) (by omega) some_zero zeros, ?_⟩
    rw [range_split (p := p) (k := k) (q := q) (by omega), List.foldl_append,
      insertGroups_front p front, List.foldl_append, insertGroups_skip _ zeros]
    cases q with
    | zero =>
      have last : a.groupAt order 7 = 0 := by
        rw [groupAt_eq_zero]
        apply zeros
        rw [List.mem_range'_1]
        omega
      refine (if_pos ⟨rfl, last⟩).trans ?_
      rw [double, Ostream.put]
      simp [join]
    | succ q =>
      have before : a.group (p + k - 1) = 0 := by
        apply zeros
        rw [List.mem_range'_1]
        omega
      rw [insertGroups_back (p + k) q (by omega) before (stops' (Nat.succ_ne_zero q))]
      refine (if_neg fun both => by cases both.1).trans ?_
      rw [List.append_assoc]

/-! ## The text -/

theorem insert_eq (order : ByteOrder) (a : IPv6Address) (t : Bytes) :
    ∃ A, a.Form A ∧ a.insert order ⟨t, false⟩ =
      ⟨t ++ lit "[" ++ A ++ lit "]:" ++ digitText 10 (a.getPort order), false⟩ := by
  obtain ⟨A, form, groups⟩ := insertGroups_eq order a (t ++ lit "[")
  refine ⟨A, form, ?_⟩
  exact congrArg (fun os => (os.put (lit "]:")).putNumber (a.getPort order)) groups

/-- The bracket ends the address, and the colon behind it is none of its own. -/
theorem text_injective {A B : Bytes} {m n : ℕ} (left : ∀ c ∈ A, c = colon ∨ (hexDigit c).isSome)
    (right : ∀ c ∈ B, c = colon ∨ (hexDigit c).isSome)
    (same : A ++ (lit "]:" ++ digitText 10 m) = B ++ (lit "]:" ++ digitText 10 n)) :
    A = B ∧ m = n := by
  have inside (A : Bytes) (letters : ∀ c ∈ A, c = colon ∨ (hexDigit c).isSome) (rest : Bytes) :
      (A ++ (lit "]:" ++ rest)).takeWhile (· ≠ byte ']') = A := by
    have free : ∀ c ∈ A, decide (c ≠ byte ']') = true := by
      intro c inText
      refine decide_eq_true ?_
      rintro rfl
      exact absurd (letters _ inText) (by decide)
    rw [List.takeWhile_append_of_pos free]
    exact List.append_nil A
  have addresses : A = B := by
    have front := congrArg (List.takeWhile (· ≠ byte ']')) same
    rwa [inside A left, inside B right] at front
  rw [addresses] at same
  have ports := List.append_cancel_left (List.append_cancel_left same)
  exact ⟨addresses, digitText_injective (by decide) (by decide) ports⟩

/-- Swapping the bytes twice changes nothing. -/
theorem byteswapOnLittleEndian_twice (order : ByteOrder) (port : UInt16) :
    order.byteswapOnLittleEndian (order.byteswapOnLittleEndian port) = port := by
  cases order with
  | little =>
    have := port.toNat_lt
    have stored : (byteswap16 port).toNat = 256 * (port.toNat % 256) + port.toNat / 256 := by
      rw [byteswap16, UInt16.toNat_ofNat']
      omega
    apply UInt16.toNat_inj.mp
    show (UInt16.ofNat (256 * (byteswap16 port).toNat + (byteswap16 port).toNat / 256)).toNat = _
    have high : (256 * (port.toNat % 256) + port.toNat / 256) / 256 = port.toNat % 256 := by omega
    rw [stored, high, UInt16.toNat_ofNat']
    omega
  | big => rfl

theorem getPort_make (order : ByteOrder) (address : Vector UInt8 16) (port : UInt16) :
    (make order address port).getPort order = port.toNat := by
  rw [getPort, make, byteswapOnLittleEndian_twice]

/-- The text of an address tells its bytes and its port. -/
theorem toString_injective {order : ByteOrder} {a b : IPv6Address}
    (same : a.toString order = b.toString order) :
    a.mAddr.sin6Addr = b.mAddr.sin6Addr ∧ a.getPort order = b.getPort order := by
  obtain ⟨A, formA, textA⟩ := insert_eq order a []
  obtain ⟨B, formB, textB⟩ := insert_eq order b []
  rw [toString, toString, textA, textB] at same
  simp only [List.append_assoc, List.nil_append] at same
  obtain ⟨texts, ports⟩ := text_injective formA.letters formB.letters (List.append_cancel_left same)
  have groups := formA.reads
  rw [texts, formB.reads] at groups
  have bytes := congrArg octets (Option.some.inj groups)
  rw [octets_groups, octets_groups] at bytes
  exact ⟨bytes.symm, ports⟩

/-- `insert` writes a text form of the 16 bytes in brackets and the port behind it, `Create`
reads the form back, and no other bytes or port are written alike. -/
theorem insert_reads (order : ByteOrder) (address : Vector UInt8 16) (port : UInt16) :
    (∀ t, ∃ A, (make order address port).insert order ⟨t, false⟩ =
        ⟨t ++ lit "[" ++ A ++ lit "]:" ++ digitText 10 port.toNat, false⟩ ∧
      doubles A ≤ 1 ∧ (read A).map octets = some address ∧
      create order A port = some (make order address port)) ∧
    ∀ address' port', (make order address' port').toString order =
        (make order address port).toString order ↔ address' = address ∧ port' = port := by
  constructor
  · intro t
    obtain ⟨A, form, text⟩ := insert_eq order (make order address port) t
    rw [getPort_make] at text
    have bytes : (read A).map octets = some address := by
      rw [form.reads, Option.map_some, octets_groups]
      rfl
    refine ⟨A, text, form.doubles, bytes, ?_⟩
    rw [create, inetPton, bytes]
    rfl
  · intro address' port'
    constructor
    · intro same
      obtain ⟨bytes, ports⟩ := toString_injective same
      rw [getPort_make, getPort_make] at ports
      exact ⟨bytes, UInt16.toNat_inj.mp ports⟩
    · rintro ⟨rfl, rfl⟩
      rfl

end IPv6Address

end Sylar
