import Mathlib.Algebra.Group.Nat.Defs
import Mathlib.Data.Int.Notation
import Sylar.Util.Url

/-!
# Socket addresses

`Address` of `address.hpp` and `address.cpp`: a `sockaddr_in` or a `sockaddr_in6`, its bytes
in memory, and the comparisons, which are made on these bytes. The byte order is that of the
machine.

* `less_iff`: `operator<` is the lexicographic order of the bytes.
* `less_trichotomy`: it is a strict total order, and `operator==` goes with it.
-/

namespace Sylar

/-! ## Numbers in memory -/

/-- `SYLAR_BYTE_ORDER`. -/
inductive ByteOrder where
  | little
  | big

/-- `byteswap`, on two bytes. -/
def byteswap16 (v : UInt16) : UInt16 := UInt16.ofNat (256 * v.toNat + v.toNat / 256)

namespace ByteOrder

/-- `byteswapOnLittleEndian`, on two bytes. -/
def byteswapOnLittleEndian : ByteOrder → UInt16 → UInt16
  | little, v => byteswap16 v
  | big, v => v

/-- The bytes of `n` in memory, `count` of them. -/
def image (count n : ℕ) : ByteOrder → Bytes
  | little => (List.range count).map fun i => UInt8.ofNat (n / 256 ^ i)
  | big => ((List.range count).map fun i => UInt8.ofNat (n / 256 ^ i)).reverse

/-- The two bytes of memory read as a `uint16_t`. -/
def read16 (first second : UInt8) : ByteOrder → UInt16
  | little => UInt16.ofNat (first.toNat + 256 * second.toNat)
  | big => UInt16.ofNat (256 * first.toNat + second.toNat)

theorem length_image (count n : ℕ) (order : ByteOrder) : (order.image count n).length = count := by
  cases order with
  | little => rw [image, List.length_map, List.length_range]
  | big => rw [image, List.length_reverse, List.length_map, List.length_range]

end ByteOrder

/-- `memcmp` on two pieces of memory that hold at least `n` bytes. -/
def memcmp : Bytes → Bytes → ℕ → ℤ
  | a :: as, b :: bs, n + 1 => if a = b then memcmp as bs n else (a.toNat : ℤ) - b.toNat
  | _, _, _ => 0

/-! ## The addresses -/

/-- `sockaddr_in`. -/
structure SockaddrIn where
  sinFamily : UInt16
  sinPort : UInt16
  sinAddr : UInt32
  sinZero : Vector UInt8 8

/-- `sockaddr_in6`. -/
structure SockaddrIn6 where
  sin6Family : UInt16
  sin6Port : UInt16
  sin6Flowinfo : UInt32
  sin6Addr : Vector UInt8 16
  sin6ScopeId : UInt32

/-- `IPv4Address`. -/
structure IPv4Address where
  mAddr : SockaddrIn

/-- `IPv6Address`. -/
structure IPv6Address where
  mAddr : SockaddrIn6

/-- `Address`, and its two classes. -/
inductive Address where
  | ipv4 (address : IPv4Address)
  | ipv6 (address : IPv6Address)

/-- `AF_INET` and `AF_INET6`. -/
def afInet : UInt16 := 2

def afInet6 : UInt16 := 10

namespace Address

/-- `getFamily`. -/
def getFamily : Address → UInt16
  | ipv4 address => address.mAddr.sinFamily
  | ipv6 address => address.mAddr.sin6Family

/-- `getAddrLen`: the `sizeof`. -/
def getAddrLen : Address → ℕ
  | ipv4 _ => 16
  | ipv6 _ => 28

/-- `getAddr`: what lies in memory there. -/
def getAddr (order : ByteOrder) : Address → Bytes
  | ipv4 address =>
    order.image 2 address.mAddr.sinFamily.toNat ++ order.image 2 address.mAddr.sinPort.toNat
      ++ order.image 4 address.mAddr.sinAddr.toNat ++ address.mAddr.sinZero.toList
  | ipv6 address =>
    order.image 2 address.mAddr.sin6Family.toNat ++ order.image 2 address.mAddr.sin6Port.toNat
      ++ order.image 4 address.mAddr.sin6Flowinfo.toNat ++ address.mAddr.sin6Addr.toList
      ++ order.image 4 address.mAddr.sin6ScopeId.toNat

/-- `operator<`. -/
def less (order : ByteOrder) (lhs rhs : Address) : Bool :=
  let minlen := min lhs.getAddrLen rhs.getAddrLen
  let result := memcmp (lhs.getAddr order) (rhs.getAddr order) minlen
  if result < 0 then true
  else if 0 < result then false
  else if lhs.getAddrLen < rhs.getAddrLen then true
  else false

/-- `operator==`. -/
def equal (order : ByteOrder) (lhs rhs : Address) : Bool :=
  lhs.getAddrLen == rhs.getAddrLen
    && memcmp (lhs.getAddr order) (rhs.getAddr order) lhs.getAddrLen == 0

/-- `operator!=`. -/
def notEqual (order : ByteOrder) (lhs rhs : Address) : Bool := !lhs.equal order rhs

variable {order : ByteOrder} {a b c : Address}

theorem length_getAddr (a : Address) : (a.getAddr order).length = a.getAddrLen := by
  cases a with
  | ipv4 address =>
    simp only [getAddr, List.length_append, ByteOrder.length_image, Vector.length_toList,
      getAddrLen]
  | ipv6 address =>
    simp only [getAddr, List.length_append, ByteOrder.length_image, Vector.length_toList,
      getAddrLen]

end Address

/-! ## The order of the bytes -/

theorem compare_byte {a b : UInt8} (differ : a ≠ b) :
    compare a b = compare ((a.toNat : ℤ) - b.toNat) 0 := by
  have apart : a.toNat ≠ b.toNat := fun same => differ (UInt8.toNat_inj.mp same)
  rcases Nat.lt_or_gt_of_ne apart with below | above
  · rw [Std.compare_eq_lt.mpr (UInt8.lt_iff_toNat_lt.mpr below), eq_comm, Std.compare_eq_lt]
    omega
  · rw [Std.compare_eq_gt.mpr (UInt8.lt_iff_toNat_lt.mpr above), eq_comm, Std.compare_eq_gt]
    omega

/-- Up to the shorter length, `memcmp` decides as the lexicographic order does, and the lengths
decide where it finds no difference. -/
theorem compare_bytes (as bs : Bytes) :
    compare as bs = (compare (memcmp as bs (min as.length bs.length)) 0).then
      (compare as.length bs.length) := by
  induction as generalizing bs with
  | nil =>
    cases bs with
    | nil => rfl
    | cons b bs => rfl
  | cons a as ih =>
    cases bs with
    | nil => rfl
    | cons b bs =>
      rw [List.compare_cons_cons, List.length_cons, List.length_cons, Nat.succ_min_succ, memcmp]
      split_ifs with same
      · have lengths : compare (as.length + 1) (bs.length + 1) = compare as.length bs.length := by
          simp only [Nat.compare_eq_ite_lt, Nat.add_lt_add_iff_right]
        have self : compare b b = .eq := Std.ReflCmp.compare_self
        rw [same, self, ih bs, lengths]
        rfl
      · rw [compare_byte same]
        cases decided : compare ((a.toNat : ℤ) - b.toNat) 0 with
        | lt => rfl
        | gt => rfl
        | eq =>
          have zero : (a.toNat : ℤ) - b.toNat = 0 := Int.compare_eq_eq.mp decided
          exact absurd (UInt8.toNat_inj.mp (by omega)) same

namespace Address

variable {order : ByteOrder} {a b c : Address}

theorem compare_getAddr (a b : Address) : compare (a.getAddr order) (b.getAddr order) =
    (compare (memcmp (a.getAddr order) (b.getAddr order) (min a.getAddrLen b.getAddrLen)) 0).then
      (compare a.getAddrLen b.getAddrLen) := by
  rw [compare_bytes, length_getAddr, length_getAddr]

/-- `operator<` is the lexicographic order of the bytes. -/
theorem less_iff : a.less order b = true ↔ compare (a.getAddr order) (b.getAddr order) = .lt := by
  rw [compare_getAddr]
  simp only [less]
  rcases Int.lt_trichotomy
    (memcmp (a.getAddr order) (b.getAddr order) (min a.getAddrLen b.getAddrLen)) 0 with
    below | zero | above
  · rw [if_pos below, Int.compare_eq_lt.mpr below]
    exact iff_of_true rfl rfl
  · rw [zero, if_neg (Int.lt_irrefl 0), if_neg (Int.lt_irrefl 0)]
    show _ ↔ compare a.getAddrLen b.getAddrLen = .lt
    rw [Nat.compare_eq_lt, Bool.if_false_right, Bool.and_true, decide_eq_true_iff]
  · rw [if_neg (Int.lt_asymm above), if_pos above, Int.compare_eq_gt.mpr above]
    exact iff_of_false nofun nofun

/-- `operator==` is equality of the bytes. -/
theorem equal_iff : a.equal order b = true ↔ compare (a.getAddr order) (b.getAddr order) = .eq := by
  rw [compare_getAddr, equal, Bool.and_eq_true, beq_iff_eq, beq_iff_eq]
  constructor
  · rintro ⟨lengths, same⟩
    rw [← lengths, Nat.min_self, same, Nat.compare_eq_eq.mpr rfl]
    rfl
  · intro same
    rw [Ordering.then_eq_eq, Int.compare_eq_eq, Nat.compare_eq_eq] at same
    obtain ⟨nothing, lengths⟩ := same
    rw [← lengths, Nat.min_self] at nothing
    exact ⟨lengths, nothing⟩

/-- `operator<` is a strict total order, `operator==` its equality, and `operator!=` the
negation of that. -/
theorem less_trichotomy (order : ByteOrder) (a b c : Address) :
    ((a.less order b = true ∧ b.less order a = false ∧ a.equal order b = false) ∨
      (a.less order b = false ∧ b.less order a = true ∧ a.equal order b = false) ∨
      (a.less order b = false ∧ b.less order a = false ∧ a.equal order b = true)) ∧
    (a.less order b = true → b.less order c = true → a.less order c = true) ∧
    (a.notEqual order b = true ↔ ¬ a.equal order b = true) := by
  refine ⟨?_, ?_, ?_⟩
  · have swapped : compare (b.getAddr order) (a.getAddr order) =
        (compare (a.getAddr order) (b.getAddr order)).swap := Std.OrientedCmp.eq_swap
    simp only [← Bool.not_eq_true, less_iff, equal_iff, swapped]
    cases compare (a.getAddr order) (b.getAddr order) with
    | lt => decide
    | eq => decide
    | gt => decide
  · rw [less_iff, less_iff, less_iff]
    exact Std.TransCmp.lt_trans
  · rw [notEqual, Bool.not_eq_true', Bool.not_eq_true]

/-- Port 80 of 127.0.0.1, port 81 of it, and an IPv6 address, in this order. -/
theorem less_trichotomy_mixed :
    let zeros : Vector UInt8 8 := Vector.replicate 8 0
    let first := ipv4 ⟨⟨afInet, byteswap16 80, 0x0100007f, zeros⟩⟩
    let second := ipv4 ⟨⟨afInet, byteswap16 81, 0x0100007f, zeros⟩⟩
    let third := ipv6 ⟨⟨afInet6, byteswap16 80, 0, Vector.replicate 16 0, 0⟩⟩
    first.less .little second = true ∧ second.less .little third = true ∧
      first.less .little third = true := by
  intro zeros first second third
  have below : first.less .little second = true := by decide +kernel
  have above : second.less .little third = true := by decide +kernel
  exact ⟨below, above, (less_trichotomy .little first second third).2.1 below above⟩

end Address

end Sylar
