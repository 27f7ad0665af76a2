import Sylar.Net.Ipv6

/-!
# IPv4 addresses as text, and addresses of both kinds

`IPv4Address::Create` and `IPv4Address::insert` of `address.cpp`, over the byte order of the
machine, and `Address::toString` of either class.

* `IPv4Address.quad_reads`: the dotted quad reads back as the address it was written for.
* `Address.Made` are the addresses that the constructors, `Create` and `setPort` give.
* `Address.toString_eq_iff`: among them, `operator==` compares what `toString` writes.
-/

namespace Sylar

open Rfc4291

/-! ## Four bytes -/

/-- `byteswap`, on four bytes. -/
def byteswap32 (v : UInt32) : UInt32 :=
  UInt32.ofNat (16777216 * (v.toNat % 256) + 65536 * (v.toNat / 256 % 256) +
    256 * (v.toNat / 65536 % 256) + v.toNat / 16777216)

theorem toNat_byteswap32 (v : UInt32) : (byteswap32 v).toNat =
    16777216 * (v.toNat % 256) + 65536 * (v.toNat / 256 % 256) +
      256 * (v.toNat / 65536 % 256) + v.toNat / 16777216 := by
  have := v.toNat_lt
  exact UInt32.toNat_ofNat_of_lt (by show _ < 4294967296; omega)

/-- The bytes of a number that is made of four. -/
theorem four_bytes {a b c d n : ℕ} (second : b < 256) (third : c < 256) (last : d < 256)
    (made : n = 16777216 * a + 65536 * b + 256 * c + d) :
    n % 256 = d ∧ n / 256 % 256 = c ∧ n / 65536 % 256 = b ∧ n / 16777216 = a :=
  ⟨by omega, by omega, by omega, by omega⟩

/-- Every number is made of its bytes. -/
theorem bytes_four (n : ℕ) :
    16777216 * (n / 16777216) + 65536 * (n / 65536 % 256) + 256 * (n / 256 % 256) + n % 256 =
      n := by
  have second : n / 65536 = n / 256 / 256 := (Nat.div_div_eq_div_mul n 256 256).symm
  have third : n / 16777216 = n / 256 / 256 / 256 := by
    rw [← second]
    exact (Nat.div_div_eq_div_mul n 65536 256).symm
  rw [third, second]
  omega

theorem byteswap32_twice (v : UInt32) : byteswap32 (byteswap32 v) = v := by
  have small (n : ℕ) : n % 256 < 256 := Nat.mod_lt n (by decide)
  have high : v.toNat / 16777216 < 256 := Nat.div_lt_of_lt_mul v.toNat_lt
  obtain ⟨d, c, b, a⟩ := four_bytes (small _) (small _) high (toNat_byteswap32 v)
  apply UInt32.toNat_inj.mp
  rw [toNat_byteswap32 (byteswap32 v), d, c, b, a, bytes_four]

/-- `byteswapOnLittleEndian`, on four bytes. -/
def ByteOrder.byteswapOnLittleEndian32 : ByteOrder → UInt32 → UInt32
  | little, v => byteswap32 v
  | big, v => v

theorem byteswapOnLittleEndian32_twice (order : ByteOrder) (v : UInt32) :
    order.byteswapOnLittleEndian32 (order.byteswapOnLittleEndian32 v) = v := by
  cases order with
  | little => exact byteswap32_twice v
  | big => rfl

namespace IPv4Address

/-- The constructor from a number. -/
def make (order : ByteOrder) (address : UInt32) (port : UInt16) : IPv4Address where
  mAddr :=
    { sinFamily := afInet
      sinPort := order.byteswapOnLittleEndian port
      sinAddr := order.byteswapOnLittleEndian32 address
      sinZero := Vector.replicate 8 0 }

/-- `inet_pton(AF_INET, address, ..)`: the number whose bytes it stores, the first octet
first; `none` where it fails. -/
def inetPton (order : ByteOrder) (address : Bytes) : Option UInt32 :=
  match readQuad address with
  | some [high, low] => some (order.byteswapOnLittleEndian32 (UInt32.ofNat (65536 * high + low)))
  | _ => none

/-- `Create`. -/
def create (order : ByteOrder) (address : Bytes) (port : UInt16) : Option IPv4Address :=
  let rt := make order 0 0
  let rt := { rt with mAddr.sinPort := order.byteswapOnLittleEndian port }
  (inetPton order address).map fun sinAddr => { rt with mAddr.sinAddr := sinAddr }

/-- `getPort`. -/
def getPort (order : ByteOrder) (a : IPv4Address) : ℕ :=
  (order.byteswapOnLittleEndian a.mAddr.sinPort).toNat

/-- `setPort`. -/
def setPort (order : ByteOrder) (a : IPv4Address) (v : UInt16) : IPv4Address :=
  { a with mAddr.sinPort := order.byteswapOnLittleEndian v }

/-- `insert`. -/
def insert (order : ByteOrder) (a : IPv4Address) (os : Ostream) : Ostream :=
  let addr := order.byteswapOnLittleEndian32 a.mAddr.sinAddr
  let os := (os.putNumber ((addr >>> 24) &&& 0xff).toNat).put (lit ".")
  let os := (os.putNumber ((addr >>> 16) &&& 0xff).toNat).put (lit ".")
  let os := (os.putNumber ((addr >>> 8) &&& 0xff).toNat).put (lit ".")
  let os := os.putNumber (addr &&& 0xff).toNat
  (os.put (lit ":")).putNumber (a.getPort order)

/-- `toString`: onto a new stream. -/
def toString (order : ByteOrder) (a : IPv4Address) : Bytes := (a.insert order ⟨[], false⟩).text

/-! ## The quad -/

/-- The octets of a number, the highest first. -/
def quad (v : UInt32) : List ℕ :=
  [v.toNat / 16777216, v.toNat / 65536 % 256, v.toNat / 256 % 256, v.toNat % 256]

theorem quad_lt (v : UInt32) : ∀ n ∈ quad v, n < 256 := by
  have := v.toNat_lt
  simp only [quad, List.forall_mem_cons]
  refine ⟨by omega, by omega, by omega, by omega, List.forall_mem_nil _⟩

/-- A number as a dotted quad. -/
def quadText (v : UInt32) : Bytes := List.intercalate [dot] ((quad v).map (digitText 10))

theorem toNat_and_255 (v : UInt32) : (v &&& 0xff).toNat = v.toNat % 256 := by
  rw [UInt32.toNat_and]
  exact Nat.and_two_pow_sub_one_eq_mod v.toNat 8

theorem shifted (v : UInt32) (n : UInt32) (small : n.toNat < 32) :
    (v >>> n).toNat = v.toNat / 2 ^ n.toNat := by
  rw [UInt32.toNat_shiftRight, Nat.mod_eq_of_lt small, Nat.shiftRight_eq_div_pow]

theorem insert_eq (order : ByteOrder) (a : IPv4Address) (t : Bytes) :
    a.insert order ⟨t, false⟩ =
      ⟨t ++ quadText (order.byteswapOnLittleEndian32 a.mAddr.sinAddr) ++ lit ":" ++
        digitText 10 (a.getPort order), false⟩ := by
  set v := order.byteswapOnLittleEndian32 a.mAddr.sinAddr with vDef
  have := v.toNat_lt
  have first : ((v >>> 24) &&& 0xff).toNat = v.toNat / 16777216 := by
    rw [toNat_and_255, shifted v 24 (by decide)]
    show v.toNat / 16777216 % 256 = _
    omega
  have second : ((v >>> 16) &&& 0xff).toNat = v.toNat / 65536 % 256 := by
    rw [toNat_and_255, shifted v 16 (by decide)]
    rfl
  have third : ((v >>> 8) &&& 0xff).toNat = v.toNat / 256 % 256 := by
    rw [toNat_and_255, shifted v 8 (by decide)]
    rfl
  have period : lit "." = [dot] := rfl
  simp only [insert, ← vDef, first, second, third, toNat_and_255, Ostream.putNumber, Ostream.put,
    period, quadText, quad, List.map_cons, List.map_nil, List.intercalate_cons_cons,
    List.intercalate_singleton, Bool.false_eq_true, if_false, List.append_assoc]

/-! ## Reading it back -/

theorem readOctet_digitText : ∀ n < 256, readOctet (digitText 10 n) = some n := by decide +kernel

theorem readOctets_digitText {octets : List ℕ} (small : ∀ n ∈ octets, n < 256) :
    (octets.map (digitText 10)).mapM readOctet = some octets := by
  induction octets with
  | nil => rfl
  | cons n octets ih =>
    rw [List.map_cons, List.mapM_cons, readOctet_digitText n (small n List.mem_cons_self),
      ih fun m member => small m (List.mem_cons_of_mem n member)]
    rfl

theorem hexDigit_of_digitText (n : ℕ) : ∀ c ∈ digitText 10 n, (hexDigit c).isSome :=
  digit_of_readDigits (readDigits_digitText (by decide) (by decide) n)

theorem readQuad_quadText (v : UInt32) :
    readQuad (quadText v) = some [256 * (v.toNat / 16777216) + v.toNat / 65536 % 256,
      256 * (v.toNat / 256 % 256) + v.toNat % 256] := by
  have free : ∀ t ∈ (quad v).map (digitText 10), dot ∉ t := by
    intro t member inText
    obtain ⟨n, -, rfl⟩ := List.mem_map.mp member
    exact absurd (hexDigit_of_digitText n dot inText) (by decide)
  have pieces : (quadText v).splitOn dot = (quad v).map (digitText 10) :=
    List.splitOn_intercalate dot free (List.cons_ne_nil _ _)
  rw [readQuad, pieces, readOctets_digitText (quad_lt v)]
  rfl

theorem inetPton_quadText (order : ByteOrder) (v : UInt32) :
    inetPton order (quadText v) = some (order.byteswapOnLittleEndian32 v) := by
  have whole : 65536 * (256 * (v.toNat / 16777216) + v.toNat / 65536 % 256) +
      (256 * (v.toNat / 256 % 256) + v.toNat % 256) = v.toNat := by
    have made := bytes_four v.toNat
    omega
  rw [inetPton, readQuad_quadText]
  dsimp only
  rw [whole, UInt32.ofNat_toNat]

theorem quadText_injective {v w : UInt32} (same : quadText v = quadText w) : v = w := by
  have read := inetPton_quadText .big v
  rw [same, inetPton_quadText .big w] at read
  exact (Option.some.inj read).symm

/-- Digits and dots stand in a quad, and nothing else. -/
theorem not_mem_quadText {c : UInt8} (letter : hexDigit c = none) (other : c ≠ dot) (v : UInt32) :
    c ∉ quadText v := by
  have digits (n : ℕ) : c ∉ digitText 10 n := by
    intro inText
    have digit := hexDigit_of_digitText n c inText
    rw [letter] at digit
    cases digit
  have period : c ∉ [dot] := fun inText => other (List.mem_singleton.mp inText)
  simp only [quadText, quad, List.map_cons, List.map_nil, List.intercalate_cons_cons,
    List.intercalate_singleton, List.mem_append, digits, period, or_self, not_false_eq_true]

/-- The colon ends the address. -/
theorem text_injective {v w : UInt32} {m n : ℕ}
    (same : quadText v ++ (lit ":" ++ digitText 10 m) = quadText w ++ (lit ":" ++ digitText 10 n)) :
    v = w ∧ m = n := by
  have inside (v : UInt32) (rest : Bytes) :
      (quadText v ++ (lit ":" ++ rest)).takeWhile (· ≠ colon) = quadText v := by
    have free : ∀ c ∈ quadText v, decide (c ≠ colon) = true := by
      intro c inText
      refine decide_eq_true fun eq => ?_
      exact not_mem_quadText (by decide) (by decide) v (eq ▸ inText)
    rw [List.takeWhile_append_of_pos free]
    exact List.append_nil (quadText v)
  have quads : quadText v = quadText w := by
    have front := congrArg (List.takeWhile (· ≠ colon)) same
    rwa [inside, inside] at front
  rw [quads] at same
  have ports := List.append_cancel_left (List.append_cancel_left same)
  exact ⟨quadText_injective quads, digitText_injective (by decide) (by decide) ports⟩

theorem getPort_make (order : ByteOrder) (address : UInt32) (port : UInt16) :
    (make order address port).getPort order = port.toNat := by
  rw [getPort, make, IPv6Address.byteswapOnLittleEndian_twice]

theorem insert_make (order : ByteOrder) (address : UInt32) (port : UInt16) (t : Bytes) :
    (make order address port).insert order ⟨t, false⟩ =
      ⟨t ++ quadText address ++ lit ":" ++ digitText 10 port.toNat, false⟩ := by
  rw [insert_eq, getPort_make, make, byteswapOnLittleEndian32_twice]

/-- `insert` writes a dotted quad and the port behind it, `Create` reads the quad back,
and no other number or port is written alike. -/
theorem quad_reads (order : ByteOrder) (address : UInt32) (port : UInt16) :
    (∀ t, (make order address port).insert order ⟨t, false⟩ =
        ⟨t ++ quadText address ++ lit ":" ++ digitText 10 port.toNat, false⟩) ∧
      create order (quadText address) port = some (make order address port) ∧
      ∀ address' port', (make order address' port').toString order =
          (make order address port).toString order ↔ address' = address ∧ port' = port := by
  refine ⟨insert_make order address port, ?_, fun address' port' => ?_⟩
  · rw [create, inetPton_quadText]
    rfl
  · constructor
    · intro same
      rw [toString, toString, insert_make, insert_make] at same
      simp only [List.append_assoc, List.nil_append] at same
      obtain ⟨addresses, ports⟩ := text_injective same
      exact ⟨addresses, UInt16.toNat_inj.mp ports⟩
    · intro both
      rw [both.1, both.2]

end IPv4Address

namespace IPv6Address

/-- The constructor without arguments. -/
def any : IPv6Address where
  mAddr :=
    { sin6Family := afInet6
      sin6Port := 0
      sin6Flowinfo := 0
      sin6Addr := Vector.replicate 16 0
      sin6ScopeId := 0 }

/-- `setPort`. -/
def setPort (order : ByteOrder) (a : IPv6Address) (v : UInt16) : IPv6Address :=
  { a with mAddr.sin6Port := order.byteswapOnLittleEndian v }

theorem insert_make (order : ByteOrder) (address : Vector UInt8 16) (port : UInt16) :
    ∃ A, (make order address port).toString order =
      lit "[" ++ (A ++ (lit "]:" ++ digitText 10 port.toNat)) := by
  obtain ⟨A, written, -⟩ := (insert_reads order address port).1 []
  refine ⟨A, ?_⟩
  rw [toString, written]
  simp only [List.append_assoc, List.nil_append]

end IPv6Address

/-! ## Addresses of both kinds -/

namespace Address

/-- `insert`. -/
def insert (order : ByteOrder) : Address → Ostream → Ostream
  | ipv4 address, os => address.insert order os
  | ipv6 address, os => address.insert order os

/-- `toString`. -/
def toString (order : ByteOrder) (a : Address) : Bytes := (a.insert order ⟨[], false⟩).text

/-- `setPort`. -/
def setPort (order : ByteOrder) : Address → UInt16 → Address
  | ipv4 address, v => ipv4 (address.setPort order v)
  | ipv6 address, v => ipv6 (address.setPort order v)

/-- The addresses that a program makes: by the constructors, from a text, and by setting
the port of one. -/
inductive Made (order : ByteOrder) : Address → Prop where
  | ipv4 (address : UInt32) (port : UInt16) : Made order (.ipv4 (.make order address port))
  | ipv4Create {text : Bytes} {port : UInt16} {a : IPv4Address}
    (created : IPv4Address.create order text port = some a) : Made order (.ipv4 a)
  | ipv6 (address : Vector UInt8 16) (port : UInt16) : Made order (.ipv6 (.make order address port))
  | ipv6Any : Made order (.ipv6 .any)
  | ipv6Create {text : Bytes} {port : UInt16} {a : IPv6Address}
    (created : IPv6Address.create order text port = some a) : Made order (.ipv6 a)
  | setPort {a : Address} (made : Made order a) (v : UInt16) : Made order (a.setPort order v)

variable {order : ByteOrder} {a b : Address}

/-- They are those of the two constructors. -/
theorem Made.eq_make (made : Made order a) :
    (∃ address port, a = .ipv4 (.make order address port)) ∨
      ∃ address port, a = .ipv6 (.make order address port) := by
  induction made with
  | ipv4 address port => exact .inl ⟨address, port, rfl⟩
  | ipv6 address port => exact .inr ⟨address, port, rfl⟩
  | @ipv4Create text port a created =>
    obtain ⟨sinAddr, -, rfl⟩ := Option.map_eq_some_iff.mp created
    refine .inl ⟨order.byteswapOnLittleEndian32 sinAddr, port, ?_⟩
    rw [IPv4Address.make, IPv4Address.make, byteswapOnLittleEndian32_twice]
  | ipv6Any =>
    refine .inr ⟨Vector.replicate 16 0, 0, ?_⟩
    cases order <;> rfl
  | @ipv6Create text port a created =>
    obtain ⟨sin6Addr, -, rfl⟩ := Option.map_eq_some_iff.mp created
    exact .inr ⟨sin6Addr, port, rfl⟩
  | setPort made v ih =>
    rcases ih with ⟨address, port, rfl⟩ | ⟨address, port, rfl⟩
    · exact .inl ⟨address, v, rfl⟩
    · exact .inr ⟨address, v, rfl⟩

/-- The texts of the two kinds differ. -/
theorem toString_ne (address : UInt32) (port : UInt16) (address' : Vector UInt8 16)
    (port' : UInt16) : toString order (.ipv4 (.make order address port)) ≠
      toString order (.ipv6 (.make order address' port')) := by
  intro same
  obtain ⟨A, written⟩ := IPv6Address.insert_make order address' port'
  have bracket : byte '[' ∈ toString order (.ipv6 (.make order address' port')) := by
    show byte '[' ∈ IPv6Address.toString order _
    rw [written]
    exact List.mem_cons_self
  rw [← same] at bracket
  have quad : toString order (.ipv4 (.make order address port)) =
      [] ++ IPv4Address.quadText address ++ lit ":" ++ digitText 10 port.toNat :=
    congrArg Ostream.text (IPv4Address.insert_make order address port [])
  rw [quad, List.nil_append, List.mem_append, List.mem_append] at bracket
  rcases bracket with (inQuad | inColon) | inPort
  · exact IPv4Address.not_mem_quadText (by decide) (by decide) address inQuad
  · exact absurd inColon (by decide)
  · exact absurd (IPv4Address.hexDigit_of_digitText port.toNat _ inPort) (by decide)

/-- Addresses that are made are written alike only if they are the same. -/
theorem Made.eq_of_toString (made : Made order a) (made' : Made order b)
    (same : a.toString order = b.toString order) : a = b := by
  rcases made.eq_make with ⟨address, port, rfl⟩ | ⟨address, port, rfl⟩
  · rcases made'.eq_make with ⟨address', port', rfl⟩ | ⟨address', port', rfl⟩
    · obtain ⟨rfl, rfl⟩ := ((IPv4Address.quad_reads order address' port').2.2 address port).mp same
      rfl
    · exact absurd same (toString_ne address port address' port')
  · rcases made'.eq_make with ⟨address', port', rfl⟩ | ⟨address', port', rfl⟩
    · exact absurd same.symm (toString_ne address' port' address port)
    · obtain ⟨rfl, rfl⟩ := ((IPv6Address.insert_reads order address' port').2 address port).mp same
      rfl

/-! ## Their bytes -/

theorem image_little_injective {count m n : ℕ} (small : m < 256 ^ count) (small' : n < 256 ^ count)
    (same : ByteOrder.image count m .little = ByteOrder.image count n .little) : m = n := by
  induction count generalizing m n with
  | zero =>
    rw [Nat.pow_zero] at small small'
    omega
  | succ count ih =>
    have bytes (n : ℕ) : ByteOrder.image (count + 1) n .little =
        UInt8.ofNat n :: ByteOrder.image count (n / 256) .little := by
      rw [ByteOrder.image, ByteOrder.image, List.range_succ_eq_map, List.map_cons, List.map_map,
        Nat.pow_zero, Nat.div_one]
      refine congrArg _ (List.map_congr_left fun i _ => ?_)
      rw [Function.comp_apply, Nat.succ_eq_add_one, Nat.pow_succ', Nat.div_div_eq_div_mul]
    rw [bytes, bytes] at same
    obtain ⟨first, rest⟩ := List.cons.inj same
    have low := congrArg UInt8.toNat first
    rw [UInt8.toNat_ofNat', UInt8.toNat_ofNat'] at low
    rw [Nat.pow_succ'] at small small'
    have high := ih (Nat.div_lt_of_lt_mul small) (Nat.div_lt_of_lt_mul small') rest
    omega

/-- A number is known by its bytes in memory. -/
theorem image_injective {count m n : ℕ} (small : m < 256 ^ count) (small' : n < 256 ^ count)
    (same : order.image count m = order.image count n) : m = n := by
  cases order with
  | little => exact image_little_injective small small' same
  | big => exact image_little_injective small small' (List.reverse_injective same)

theorem image_append_inj {count m n : ℕ} {as bs : Bytes} (small : m < 256 ^ count)
    (small' : n < 256 ^ count) (same : order.image count m ++ as = order.image count n ++ bs) :
    m = n ∧ as = bs := by
  have lengths : (order.image count m).length = (order.image count n).length := by
    rw [ByteOrder.length_image, ByteOrder.length_image]
  obtain ⟨number, rest⟩ := List.append_inj same lengths
  exact ⟨image_injective small small' number, rest⟩

/-- Addresses that are made are equal in memory only if they are the same. -/
theorem Made.eq_of_equal (made : Made order a) (made' : Made order b)
    (same : a.equal order b = true) : a = b := by
  have memory : a.getAddr order = b.getAddr order :=
    Std.LawfulEqCmp.eq_of_compare (equal_iff.mp same)
  have lengths := congrArg List.length memory
  rw [length_getAddr, length_getAddr] at lengths
  rcases made.eq_make with ⟨address, port, rfl⟩ | ⟨address, port, rfl⟩
  · rcases made'.eq_make with ⟨address', port', rfl⟩ | ⟨address', port', rfl⟩
    · simp only [getAddr, List.append_assoc] at memory
      have behind := (image_append_inj (UInt16.toNat_lt _) (UInt16.toNat_lt _) memory).2
      obtain ⟨ports, behind⟩ := image_append_inj (UInt16.toNat_lt _) (UInt16.toNat_lt _) behind
      obtain ⟨numbers, -⟩ := image_append_inj (UInt32.toNat_lt _) (UInt32.toNat_lt _) behind
      have ports' := UInt16.toNat_inj.mp ports
      have numbers' := UInt32.toNat_inj.mp numbers
      dsimp only [IPv4Address.make] at ports' numbers'
      rw [IPv4Address.make, IPv4Address.make, ports', numbers']
    · cases lengths
  · rcases made'.eq_make with ⟨address', port', rfl⟩ | ⟨address', port', rfl⟩
    · cases lengths
    · simp only [getAddr, List.append_assoc] at memory
      have behind := (image_append_inj (UInt16.toNat_lt _) (UInt16.toNat_lt _) memory).2
      obtain ⟨ports, behind⟩ := image_append_inj (UInt16.toNat_lt _) (UInt16.toNat_lt _) behind
      have behind := (image_append_inj (UInt32.toNat_lt _) (UInt32.toNat_lt _) behind).2
      have bytes := List.append_inj_left' behind (by
        rw [ByteOrder.length_image, ByteOrder.length_image])
      have ports' := UInt16.toNat_inj.mp ports
      have bytes' := Vector.toList_inj.mp bytes
      dsimp only [IPv6Address.make] at ports' bytes'
      rw [IPv6Address.make, IPv6Address.make, ports', bytes']

/-- Among the addresses that a program makes, those that `operator==` takes for equal are
those that `toString` writes alike, and they are the same. -/
theorem toString_eq_iff (made : Made order a) (made' : Made order b) :
    (a.toString order = b.toString order ↔ a.equal order b = true) ∧
      (a.equal order b = true ↔ a = b) := by
  have reflexive (a : Address) : a.equal order a = true := by
    rw [equal_iff]
    exact Std.ReflCmp.compare_self
  refine ⟨⟨fun same => ?_, fun same => ?_⟩, made.eq_of_equal made', fun same => same ▸ reflexive a⟩
  · rw [made.eq_of_toString made' same]
    exact reflexive b
  · rw [made.eq_of_equal made' same]

/-- The loopback address, with its port set later and at once. -/
theorem toString_eq_iff_loopback :
    let later := (ipv4 (.make .little 0x7f000001 0)).setPort .little 80
    let once := ipv4 (.make .little 0x7f000001 80)
    (later.toString .little = once.toString .little ↔ later.equal .little once = true) ∧
      (later.equal .little once = true ↔ later = once) :=
  toString_eq_iff (.setPort (.ipv4 0x7f000001 0) 80) (.ipv4 0x7f000001 80)

end Address

end Sylar
