import Sylar.Http.Message

/-!
# The keys of the maps

`CaseInsensitiveLess` of `http.cpp`, which orders the headers, parameters and cookies, and
what `getHeader` answers after calls of `setHeader` and `delHeader`.

* `keys_ordered`: the order, its classes, and the header that is found.
-/

namespace Sylar

open Bytes

/-- `CaseInsensitiveLess::operator()`. -/
def caseInsensitiveLess (lhs rhs : Bytes) : Bool := strcasecmp lhs rhs == .lt

/-- A name up to ASCII case. -/
def caseless (name : Bytes) : Bytes := name.map tolower

/-- Neither key is in front of the other. -/
def Equivalent (lhs rhs : Bytes) : Prop :=
  caseInsensitiveLess lhs rhs = false ∧ caseInsensitiveLess rhs lhs = false

/-! ## The order -/

theorem caseInsensitiveLess_iff {lhs rhs : Bytes} :
    caseInsensitiveLess lhs rhs = true ↔ strcasecmp lhs rhs = .lt :=
  beq_iff_eq

theorem caseInsensitiveLess_irrefl (key : Bytes) : caseInsensitiveLess key key = false := by
  have same : strcasecmp key key = .eq := Std.ReflCmp.compare_self
  rw [caseInsensitiveLess, same]
  rfl

theorem caseInsensitiveLess_trans {a b c : Bytes} (left : caseInsensitiveLess a b = true)
    (right : caseInsensitiveLess b c = true) : caseInsensitiveLess a c = true := by
  rw [caseInsensitiveLess_iff] at left right ⊢
  exact Std.TransCmp.lt_trans left right

/-- The keys that a map does not tell apart. -/
theorem equivalent_iff {lhs rhs : Bytes} : Equivalent lhs rhs ↔ strcasecmp lhs rhs = .eq := by
  have swapped : strcasecmp rhs lhs = (strcasecmp lhs rhs).swap := Std.OrientedCmp.eq_swap
  unfold Equivalent caseInsensitiveLess
  rw [swapped]
  cases strcasecmp lhs rhs with
  | lt => decide
  | eq => decide
  | gt => decide

theorem Equivalent.trans {a b c : Bytes} (left : Equivalent a b) (right : Equivalent b c) :
    Equivalent a c := by
  rw [equivalent_iff] at left right ⊢
  exact Std.TransCmp.eq_trans left right

theorem tolower_ne_zero (c : UInt8) : decide (tolower c ≠ 0) = decide (c ≠ 0) :=
  StringUtil.forall_byte (P := fun c => decide (tolower c ≠ 0) = decide (c ≠ 0))
    (by decide +kernel) c

/-- Names that are equal up to case have `c_str()`s that are. -/
theorem strcasecmp_of_caseless {a b : Bytes} (same : caseless a = caseless b) :
    strcasecmp a b = .eq := by
  have kept : (fun c => decide (c ≠ 0)) ∘ tolower = fun c : UInt8 => decide (c ≠ 0) :=
    funext tolower_ne_zero
  have cut (s : Bytes) : (cStr s).map tolower = cStr (caseless s) := by
    rw [caseless, cStr, cStr, List.takeWhile_map, kept]
  rw [strcasecmp_eq_eq, cut, cut, same]

theorem strcasecmp_eq_iff {a b : Bytes} (freeA : 0 ∉ a) (freeB : 0 ∉ b) :
    strcasecmp a b = .eq ↔ caseless a = caseless b := by
  rw [strcasecmp_eq_eq, cStr_eq_self freeA, cStr_eq_self freeB]
  rfl

/-! ## What `getHeader` finds -/

/-- The calls that change one header. -/
inductive HeaderCall where
  | setHeader (key val : Bytes)
  | delHeader (key : Bytes)

namespace HeaderCall

/-- The call of a request. -/
def call : HeaderCall → Request.Call
  | setHeader key val => .setHeader key val
  | delHeader key => .delHeader key

/-- The spelling that the call is made with. -/
def key : HeaderCall → Bytes
  | setHeader key _ => key
  | delHeader key => key

/-- What the call leaves the header with. -/
def value : HeaderCall → Option Bytes
  | setHeader _ val => some val
  | delHeader _ => none

end HeaderCall

/-- The value of the last `setHeader` under a spelling of `k`, unless a `delHeader` under one
comes behind it. -/
def lastSet (k : Bytes) (calls : List HeaderCall) : Option Bytes :=
  (calls.filter fun c => caseless c.key = caseless k).getLast?.bind HeaderCall.value

theorem lastSet_concat (k : Bytes) (calls : List HeaderCall) (c : HeaderCall) :
    lastSet k (calls ++ [c]) =
      if caseless c.key = caseless k then c.value else lastSet k calls := by
  unfold lastSet
  split_ifs with about
  · rw [List.filter_append, List.filter_singleton, decide_eq_true about]
    simp
  · rw [List.filter_append, List.filter_singleton, decide_eq_false about]
    simp

/-- One call, and one header. -/
theorem getElem?_perform (r : Request) (c : HeaderCall) (k : Bytes) :
    (r.perform c.call).mHeaders[k]? =
      if strcasecmp c.key k = .eq then c.value else r.mHeaders[k]? := by
  cases c with
  | setHeader key val => exact MapType.getElem?_assign r.mHeaders key val k
  | delHeader key => exact Std.TreeMap.getElem?_erase

/-- The header that a sequence of calls leaves behind. -/
theorem getElem?_run (version : UInt8) (close : Bool) (calls : List HeaderCall) {k : Bytes}
    (free : 0 ∉ k) (keys : ∀ c ∈ calls, 0 ∉ c.key) :
    ((Request.make version close).run (calls.map HeaderCall.call)).mHeaders[k]? =
      lastSet k calls := by
  induction calls using List.reverseRecOn with
  | nil => exact Std.TreeMap.getElem?_emptyc
  | append_singleton calls c ih =>
    have own : 0 ∉ c.key := keys c (List.mem_append_right _ List.mem_cons_self)
    have before := ih fun d inCalls => keys d (List.mem_append_left _ inCalls)
    rw [lastSet_concat, ← before, List.map_append, Request.run, List.foldl_append]
    simp only [List.map_cons, List.map_nil, List.foldl_cons, List.foldl_nil, getElem?_perform,
      strcasecmp_eq_iff own free]
    rfl

/-- `CaseInsensitiveLess` is a strict weak order on all strings. Its classes are the spellings
of a key, where no NUL cuts a string off, and `getHeader` finds what was last set under any of
them. -/
theorem keys_ordered :
    ((∀ a, caseInsensitiveLess a a = false) ∧
      (∀ a b c, caseInsensitiveLess a b = true → caseInsensitiveLess b c = true →
        caseInsensitiveLess a c = true) ∧
      ∀ a b c, Equivalent a b → Equivalent b c → Equivalent a c) ∧
    (∀ a b : Bytes, 0 ∉ a → 0 ∉ b → (Equivalent a b ↔ caseless a = caseless b)) ∧
    ∀ (version : UInt8) (close : Bool) (calls : List HeaderCall) (k deflt : Bytes),
      (∀ c ∈ calls, 0 ∉ c.key) → 0 ∉ k →
      ((Request.make version close).run (calls.map HeaderCall.call)).getHeader k deflt =
        (lastSet k calls).getD deflt := by
  refine ⟨⟨caseInsensitiveLess_irrefl, ?_, ?_⟩, ?_, ?_⟩
  · intro a b c
    exact caseInsensitiveLess_trans
  · intro a b c
    exact Equivalent.trans
  · intro a b freeA freeB
    rw [equivalent_iff, strcasecmp_eq_iff freeA freeB]
  · intro version close calls k deflt keys free
    rw [HttpRequest.getHeader, getElem?_run version close calls free keys]

/-- A header under two spellings, with another one taken out in between. -/
theorem keys_ordered_host :
    ((Request.make 0x11 true).run [.setHeader (lit "Host") (lit "a"), .delHeader (lit "cookie"),
      .setHeader (lit "HOST") (lit "b")]).getHeader (lit "host") [] = lit "b" := by
  have found := keys_ordered.2.2 0x11 true
    [.setHeader (lit "Host") (lit "a"), .delHeader (lit "cookie"),
      .setHeader (lit "HOST") (lit "b")]
    (lit "host") [] (by decide +kernel) (by decide +kernel)
  exact found.trans (by decide +kernel)

end Sylar
