import Mathlib.Data.Nat.Notation
import Mathlib.Data.Int.Notation
import Mathlib.Algebra.BigOperators.Group.List.Basic
import Mathlib.Algebra.Ring.Nat
import Mathlib.Tactic.SplitIfs

/-!
# Several buffers through TLS

`SSLSocket::send` and `SSLSocket::recv` on an array of `iovec`s, of `socket.cpp`. Each buffer
is a call of `SSL_write` or `SSL_read`, whose result is added up until one fails or falls short
of its buffer. Which bytes were moved is told by their places: the number of the buffer, and
the offset in it.

* `moved_transferLoop`, `answer_transferLoop`: what the loop moves and answers, by the calls
  that it makes.
* `reported_iff`: when all that was moved is accounted for.
-/

namespace Sylar

/-- A buffer, and what `SSL_write` or `SSL_read` returns for it. -/
structure SslCall where
  iovLen : ℕ
  tmp : Int32

/-- What the caller gets, and the places of the bytes that were moved. -/
structure Transfer where
  answer : Int32
  moved : List (ℕ × ℕ)

namespace SSLSocket

/-- The first `n` bytes of buffer `i`. -/
def places (i n : ℕ) : List (ℕ × ℕ) := (List.range n).map fun offset => (i, offset)

/-- The loop over the buffers from number `i` on. The length is converted to `int`, as the
parameter of the calls is. -/
def transferLoop (i : ℕ) (total : Int32) : List SslCall → Transfer
  | [] => ⟨total, []⟩
  | call :: rest =>
    if call.tmp ≤ 0 then ⟨call.tmp, []⟩
    else if call.tmp ≠ Int32.ofNat call.iovLen then
      ⟨total + call.tmp, places i call.tmp.toNatClampNeg⟩
    else
      let later := transferLoop (i + 1) (total + call.tmp) rest
      { later with moved := places i call.tmp.toNatClampNeg ++ later.moved }

/-- `send(iovec)`. `mSsl` says whether there is an `m_ssl`. -/
def send (mSsl : Bool) (buffers : List SslCall) : Transfer :=
  if mSsl = false then ⟨-1, []⟩ else transferLoop 0 0 buffers

/-- `recv(iovec)`. -/
def recv (mSsl : Bool) (buffers : List SslCall) : Transfer :=
  if mSsl = false then ⟨-1, []⟩ else transferLoop 0 0 buffers

/-! ## What has to hold, and when it does -/

/-- The places of all buffers from number `i` on, one behind the other. -/
def allPlaces (i : ℕ) : List SslCall → List (ℕ × ℕ)
  | [] => []
  | call :: rest => places i call.iovLen ++ allPlaces (i + 1) rest

/-- All bytes that were moved are reported, they are the first ones, and an error is answered
only where there are none. -/
structure Reported (buffers : List SslCall) (t : Transfer) : Prop where
  exact_total : t.moved ≠ [] → t.answer.toInt = t.moved.length
  front : t.moved <+: allPlaces 0 buffers
  nothing : t.answer ≤ 0 → t.moved = []

/-- The loop goes on behind the call. -/
def GoesOn (call : SslCall) : Prop := 0 < call.tmp ∧ call.tmp = Int32.ofNat call.iovLen

instance (call : SslCall) : Decidable (GoesOn call) := inferInstanceAs (Decidable (_ ∧ _))

/-- The calls up to the first that ends the loop. -/
def made : List SslCall → List SslCall
  | [] => []
  | call :: rest => call :: if GoesOn call then made rest else []

/-- No call behind another one fails, no buffer in front of another call is left in part, and
the bytes can be counted in an `int`. -/
structure Accounted (buffers : List SslCall) : Prop where
  no_failure : ∀ call ∈ (made buffers).tail, 0 < call.tmp
  whole : ∀ call ∈ (made buffers).dropLast, call.tmp.toInt = call.iovLen
  countable : ((made buffers).map fun call => call.tmp.toNatClampNeg).sum < 2 ^ 31

variable {i : ℕ} {total : Int32} {call : SslCall} {rest buffers : List SslCall}

theorem made_goesOn (goes : GoesOn call) : made (call :: rest) = call :: made rest := by
  rw [made, if_pos goes]

theorem made_stops (stops : ¬ GoesOn call) : made (call :: rest) = [call] := by
  rw [made, if_neg stops]

theorem not_le_zero {a : Int32} : ¬ a ≤ 0 ↔ 0 < a := by
  rw [Int32.le_iff_toInt_le, Int32.lt_iff_toInt_lt, Int.not_le]

theorem toInt_of_pos {a : Int32} (positive : 0 < a) : a.toInt = a.toNatClampNeg := by
  rw [Int32.lt_iff_toInt_lt] at positive
  exact (Int.toNat_of_nonneg (Int.le_of_lt positive)).symm

theorem toNatClampNeg_pos {a : Int32} : 0 < a.toNatClampNeg ↔ 0 < a := by
  rw [Int32.lt_iff_toInt_lt]
  exact Int.lt_toNat

/-- The places that the calls of a list move. -/
def movedPlaces (i : ℕ) : List SslCall → List (ℕ × ℕ)
  | [] => []
  | call :: rest => places i call.tmp.toNatClampNeg ++ movedPlaces (i + 1) rest

theorem length_places (i n : ℕ) : (places i n).length = n := by
  rw [places, List.length_map, List.length_range]

theorem length_movedPlaces (i : ℕ) (calls : List SslCall) : (movedPlaces i calls).length =
    (calls.map fun call => call.tmp.toNatClampNeg).sum := by
  induction calls generalizing i with
  | nil => rfl
  | cons call calls ih =>
    rw [movedPlaces, List.length_append, length_places, ih, List.map_cons, List.sum_cons]

/-- What the loop moves. -/
theorem moved_transferLoop (i : ℕ) (total : Int32) (buffers : List SslCall) :
    (transferLoop i total buffers).moved = movedPlaces i (made buffers) := by
  induction buffers generalizing i total with
  | nil => rfl
  | cons call rest ih =>
    rw [transferLoop]
    split_ifs with failed short
    · have none : call.tmp.toNatClampNeg = 0 :=
        Nat.eq_zero_of_not_pos fun some => not_le_zero.mpr (toNatClampNeg_pos.mp some) failed
      rw [made_stops fun goes => not_le_zero.mpr goes.1 failed, movedPlaces, none]
      rfl
    · rw [made_stops fun goes => short goes.2, movedPlaces, movedPlaces, List.append_nil]
    · have goes : GoesOn call := ⟨not_le_zero.mp failed, not_not.mp short⟩
      rw [made_goesOn goes, movedPlaces, ← ih]

theorem ofNat_toNatClampNeg {a : Int32} (positive : 0 < a) : Int32.ofNat a.toNatClampNeg = a := by
  rw [← Int32.toInt_inj, Int32.toInt_ofNat_of_lt (Int32.toNatClampNeg_lt a), toInt_of_pos positive]

/-- What it answers when no call fails. -/
theorem answer_transferLoop (i : ℕ) (total : Int32) (buffers : List SslCall)
    (moving : ∀ call ∈ made buffers, 0 < call.tmp) :
    (transferLoop i total buffers).answer =
      total + Int32.ofNat ((made buffers).map fun call => call.tmp.toNatClampNeg).sum := by
  induction buffers generalizing i total with
  | nil => exact (Int32.add_zero total).symm
  | cons call rest ih =>
    have here : 0 < call.tmp := moving call List.mem_cons_self
    rw [transferLoop, if_neg (not_le_zero.mpr here)]
    split_ifs with short
    · rw [made_stops fun goes => short goes.2, List.map_singleton, List.sum_singleton,
        ofNat_toNatClampNeg here]
    · have goes : GoesOn call := ⟨here, not_not.mp short⟩
      rw [made_goesOn goes] at moving ⊢
      have later := ih (i + 1) (total + call.tmp) fun c inRest =>
        moving c (List.mem_cons_of_mem call inRest)
      rw [List.map_cons, List.sum_cons, Int32.ofNat_add, ofNat_toNatClampNeg here,
        ← Int32.add_assoc]
      exact later

/-- What it answers when one does. -/
theorem answer_transferLoop_failed (i : ℕ) (total : Int32) (buffers : List SslCall)
    (failed : ∃ call ∈ made buffers, call.tmp ≤ 0) : (transferLoop i total buffers).answer ≤ 0 := by
  induction buffers generalizing i total with
  | nil =>
    obtain ⟨call, none, -⟩ := failed
    exact absurd none List.not_mem_nil
  | cons call rest ih =>
    rw [transferLoop]
    split_ifs with here short
    · exact here
    · obtain ⟨other, one, below⟩ := failed
      rw [made_stops fun goes => short goes.2, List.mem_singleton] at one
      exact absurd (one ▸ below) here
    · have goes : GoesOn call := ⟨not_le_zero.mp here, not_not.mp short⟩
      obtain ⟨other, one, below⟩ := failed
      rw [made_goesOn goes] at one
      rcases List.mem_cons.mp one with rfl | later
      · exact absurd below here
      · exact ih (i + 1) _ ⟨other, later, below⟩

/-- The places of a buffer behind the first `n`. -/
theorem places_split {i n m : ℕ} (short : n < m) :
    ∃ more, places i m = places i n ++ (i, n) :: more := by
  refine ⟨(List.range' (n + 1) (m - n - 1)).map fun offset => (i, offset), ?_⟩
  have cut : List.range m = List.range n ++ n :: List.range' (n + 1) (m - n - 1) := by
    have back : List.range' n (m - n) = n :: List.range' (n + 1) (m - n - 1) := by
      rw [← List.range'_succ]
      congr 1
      omega
    have whole : List.range' 0 n ++ List.range' (0 + n) (m - n) = List.range' 0 (n + (m - n)) :=
      List.range'_append_1
    have total : n + (m - n) = m := by omega
    rw [Nat.zero_add, back, total] at whole
    rw [List.range_eq_range', List.range_eq_range', whole]
  rw [places, cut, List.map_append]
  rfl

theorem places_prefix {i n m : ℕ} (short : n ≤ m) (more : List (ℕ × ℕ)) :
    places i n <+: places i m ++ more := by
  rcases Nat.lt_or_eq_of_le short with less | rfl
  · obtain ⟨rest, split⟩ := places_split (i := i) less
    rw [split, List.append_assoc]
    exact List.prefix_append _ _
  · exact List.prefix_append _ _

theorem toNatClampNeg_le (bounded : 0 < call.tmp → call.tmp.toInt ≤ call.iovLen) :
    call.tmp.toNatClampNeg ≤ call.iovLen := by
  rcases Nat.eq_zero_or_pos call.tmp.toNatClampNeg with none | some
  · rw [none]
    exact Nat.zero_le _
  · have positive := toNatClampNeg_pos.mp some
    have below := bounded positive
    rw [toInt_of_pos positive] at below
    exact Int.ofNat_le.mp below

/-- Behind a buffer that is left in part, the next byte is not the next one. -/
theorem not_prefix_of_short {i n m : ℕ} (short : n < m) {next : SslCall} (moves : 0 < next.tmp)
    (later : List SslCall) (all : List (ℕ × ℕ)) :
    ¬ places i n ++ movedPlaces (i + 1) (next :: later) <+: places i m ++ all := by
  obtain ⟨more, split⟩ := places_split (i := i) short
  obtain ⟨k, count⟩ := Nat.exists_eq_succ_of_ne_zero (Nat.ne_of_gt (toNatClampNeg_pos.mpr moves))
  rw [split, List.append_assoc, List.prefix_append_right_inj, movedPlaces, count, places,
    List.range_succ_eq_map]
  intro front
  have place := (List.cons_prefix_cons.mp front).1
  exact absurd (congrArg Prod.fst place) (Nat.succ_ne_self i)

/-- The bytes that are moved are the first ones exactly when no buffer in front of another
call is left in part. -/
theorem movedPlaces_prefix_iff (i : ℕ) (buffers : List SslCall)
    (bounded : ∀ call ∈ buffers, 0 < call.tmp → call.tmp.toInt ≤ call.iovLen)
    (moving : ∀ call ∈ (made buffers).tail, 0 < call.tmp) :
    movedPlaces i (made buffers) <+: allPlaces i buffers ↔
      ∀ call ∈ (made buffers).dropLast, call.tmp.toInt = call.iovLen := by
  induction buffers generalizing i with
  | nil => exact iff_of_true List.nil_prefix fun call none => absurd none List.not_mem_nil
  | cons call rest ih =>
    have within := toNatClampNeg_le (bounded call List.mem_cons_self)
    have alone : movedPlaces i [call] <+: allPlaces i (call :: rest) := by
      rw [movedPlaces, movedPlaces, List.append_nil, allPlaces]
      exact places_prefix within _
    by_cases goes : GoesOn call
    · rw [made_goesOn goes] at moving ⊢
      cases rest with
      | nil => exact iff_of_true alone fun call none => absurd none List.not_mem_nil
      | cons next later =>
        have others := ih (i + 1) (fun c inRest => bounded c (List.mem_cons_of_mem call inRest))
          fun c inTail => moving c (List.mem_of_mem_tail inTail)
        obtain ⟨tail, behind⟩ : ∃ tail, made (next :: later) = next :: tail := ⟨_, rfl⟩
        rw [behind] at moving others ⊢
        rw [List.dropLast_cons_of_ne_nil (List.cons_ne_nil next tail), List.forall_mem_cons,
          ← others, movedPlaces, allPlaces]
        rcases Nat.lt_or_eq_of_le within with short | full
        · refine iff_of_false (not_prefix_of_short short (moving next List.mem_cons_self) tail _) ?_
          rintro ⟨whole, -⟩
          rw [toInt_of_pos goes.1] at whole
          exact Nat.ne_of_lt short (Int.ofNat_inj.mp whole)
        · rw [full, List.prefix_append_right_inj, toInt_of_pos goes.1, full]
          exact (and_iff_right rfl).symm
    · rw [made_stops goes]
      exact iff_of_true alone fun call none => absurd none List.not_mem_nil

/-- Where something was moved, the first call did not fail either. -/
theorem moving_of_moved (no_failure : ∀ call ∈ (made buffers).tail, 0 < call.tmp)
    (some_moved : movedPlaces i (made buffers) ≠ []) : ∀ call ∈ made buffers, 0 < call.tmp := by
  cases buffers with
  | nil => exact absurd rfl some_moved
  | cons call rest =>
    by_cases goes : GoesOn call
    · rw [made_goesOn goes] at no_failure ⊢
      rw [List.forall_mem_cons]
      exact ⟨goes.1, no_failure⟩
    · rw [made_stops goes] at some_moved ⊢
      have count : call.tmp.toNatClampNeg ≠ 0 := by
        intro none
        rw [movedPlaces, none] at some_moved
        exact some_moved rfl
      rw [List.forall_mem_singleton]
      exact toNatClampNeg_pos.mp (Nat.pos_of_ne_zero count)

/-- A call that fails behind another one hides what was moved before it. -/
theorem no_failure_of_reported (reported : Reported buffers (transferLoop 0 0 buffers)) :
    ∀ call ∈ (made buffers).tail, 0 < call.tmp := by
  intro last inTail
  by_contra failed
  have hidden : movedPlaces 0 (made buffers) = [] := by
    rw [← moved_transferLoop 0 0]
    exact reported.nothing (answer_transferLoop_failed 0 0 buffers
      ⟨last, List.mem_of_mem_tail inTail, not_not.mp (mt not_le_zero.mp failed)⟩)
  cases buffers with
  | nil => exact absurd inTail List.not_mem_nil
  | cons call rest =>
    by_cases goes : GoesOn call
    · rw [made_goesOn goes, movedPlaces] at hidden
      have none := congrArg List.length (List.append_eq_nil_iff.mp hidden).1
      rw [length_places] at none
      exact Nat.ne_of_gt (toNatClampNeg_pos.mpr goes.1) none
    · rw [made_stops goes] at inTail
      exact absurd inTail List.not_mem_nil

/-- All that was moved is accounted for exactly when no call behind another one fails, no
buffer in front of another call is left in part, and the sum fits an `int`. -/
theorem transferLoop_reported_iff (buffers : List SslCall)
    (bounded : ∀ call ∈ buffers, 0 < call.tmp → call.tmp.toInt ≤ call.iovLen) :
    Reported buffers (transferLoop 0 0 buffers) ↔ Accounted buffers := by
  have length : (transferLoop 0 0 buffers).moved.length =
      ((made buffers).map fun call => call.tmp.toNatClampNeg).sum := by
    rw [moved_transferLoop, length_movedPlaces]
  constructor
  · intro reported
    have moving := no_failure_of_reported reported
    refine ⟨moving, ?_, ?_⟩
    · rw [← movedPlaces_prefix_iff 0 buffers bounded moving, ← moved_transferLoop 0 0]
      exact reported.front
    · rw [← length]
      by_cases none : (transferLoop 0 0 buffers).moved = []
      · rw [none]
        decide
      · have below := (transferLoop 0 0 buffers).answer.toInt_lt
        rw [reported.exact_total none] at below
        omega
  · intro accounted
    have total : (transferLoop 0 0 buffers).moved ≠ [] →
        (transferLoop 0 0 buffers).answer.toInt = (transferLoop 0 0 buffers).moved.length := by
      intro some_moved
      rw [moved_transferLoop] at some_moved
      rw [answer_transferLoop 0 0 buffers (moving_of_moved accounted.no_failure some_moved),
        Int32.zero_add, Int32.toInt_ofNat_of_lt accounted.countable, length]
    refine ⟨total, ?_, ?_⟩
    · rw [moved_transferLoop]
      exact (movedPlaces_prefix_iff 0 buffers bounded accounted.no_failure).mpr accounted.whole
    · intro failed
      by_contra some_moved
      have positive := List.length_pos_of_ne_nil some_moved
      have zero : (0 : Int32).toInt = 0 := rfl
      rw [Int32.le_iff_toInt_le, total some_moved, zero] at failed
      omega

/-- `send` and `recv` report what they move exactly when they have no `m_ssl`, or no call
behind another one fails, no buffer in front of another call is left in part, and the sum fits
an `int`. -/
theorem reported_iff (mSsl : Bool) (buffers : List SslCall)
    (bounded : ∀ call ∈ buffers, 0 < call.tmp → call.tmp.toInt ≤ call.iovLen) :
    (Reported buffers (send mSsl buffers) ↔ (mSsl = true → Accounted buffers)) ∧
      (Reported buffers (recv mSsl buffers) ↔ (mSsl = true → Accounted buffers)) := by
  have both : Reported buffers (if mSsl = false then ⟨-1, []⟩ else transferLoop 0 0 buffers) ↔
      (mSsl = true → Accounted buffers) := by
    cases mSsl with
    | false =>
      refine iff_of_true ⟨fun some_moved => absurd rfl some_moved, List.nil_prefix, fun _ => rfl⟩ ?_
      exact fun tls => by cases tls
    | true =>
      rw [if_neg (by decide), transferLoop_reported_iff buffers bounded]
      exact ⟨fun accounted _ => accounted, fun accounted => accounted rfl⟩
  exact ⟨both, both⟩

/-- A whole buffer, and a part of the next one. -/
theorem reported_part :
    Reported [⟨5, 5⟩, ⟨7, 3⟩, ⟨4, -1⟩] (send true [⟨5, 5⟩, ⟨7, 3⟩, ⟨4, -1⟩]) := by
  refine (reported_iff true [⟨5, 5⟩, ⟨7, 3⟩, ⟨4, -1⟩] (by decide)).1.mpr fun _ => ?_
  exact ⟨by decide, by decide, by decide⟩

/-- A whole buffer, and an error behind it. -/
theorem unreported : ¬ Reported [⟨5, 5⟩, ⟨7, -1⟩] (send true [⟨5, 5⟩, ⟨7, -1⟩]) := by
  intro reported
  exact absurd (reported.nothing (by decide)) (by decide)

end SSLSocket

end Sylar
