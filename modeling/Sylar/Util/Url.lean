import Mathlib.Data.Nat.Notation
import Mathlib.Data.List.Basic

/-!
# `UrlEncode` and `UrlDecode`

`StringUtil::UrlEncode` and `UrlDecode` of `util.cpp`, on strings of bytes. Both leave
`ss` null up to the first byte that they change, then copy what stands before it
and append from there on; `copied` is the text so far in either phase.

* `urlEncode_eq`, `urlDecode_eq`: what the loops compute, byte by byte.
* `urlDecode_eq_decoded`: `UrlDecode` is the plain left-to-right decoding.
* `urlDecode_urlEncode`: decoding undoes encoding.
-/

namespace Sylar

/-- `std::string`. -/
abbrev Bytes := List UInt8

def byte (c : Char) : UInt8 := UInt8.ofNat c.toNat

/-- A literal. -/
def lit (s : String) : Bytes := s.toList.map byte

namespace StringUtil

/-- `uri_chars`. -/
def uriChars : List UInt8 := [
  0, 0, 0, 0, 0, 0, 0, 0, 0, 0, 0, 0, 0, 0, 0, 0,
  0, 0, 0, 0, 0, 0, 0, 0, 0, 0, 0, 0, 0, 0, 0, 0,
  0, 0, 0, 0, 0, 0, 0, 0, 0, 0, 0, 0, 0, 1, 1, 0,
  1, 1, 1, 1, 1, 1, 1, 1, 1, 1, 0, 0, 0, 1, 0, 0,
  0, 1, 1, 1, 1, 1, 1, 1, 1, 1, 1, 1, 1, 1, 1, 1,
  1, 1, 1, 1, 1, 1, 1, 1, 1, 1, 1, 0, 0, 0, 0, 1,
  0, 1, 1, 1, 1, 1, 1, 1, 1, 1, 1, 1, 1, 1, 1, 1,
  1, 1, 1, 1, 1, 1, 1, 1, 1, 1, 1, 0, 0, 0, 1, 0,
  0, 0, 0, 0, 0, 0, 0, 0, 0, 0, 0, 0, 0, 0, 0, 0,
  0, 0, 0, 0, 0, 0, 0, 0, 0, 0, 0, 0, 0, 0, 0, 0,
  0, 0, 0, 0, 0, 0, 0, 0, 0, 0, 0, 0, 0, 0, 0, 0,
  0, 0, 0, 0, 0, 0, 0, 0, 0, 0, 0, 0, 0, 0, 0, 0,
  0, 0, 0, 0, 0, 0, 0, 0, 0, 0, 0, 0, 0, 0, 0, 0,
  0, 0, 0, 0, 0, 0, 0, 0, 0, 0, 0, 0, 0, 0, 0, 0,
  0, 0, 0, 0, 0, 0, 0, 0, 0, 0, 0, 0, 0, 0, 0, 0,
  0, 0, 0, 0, 0, 0, 0, 0, 0, 0, 0, 0, 0, 0, 0, 0]

/-- `xdigit_chars`. -/
def xdigitChars : List UInt8 := [
  0, 0, 0, 0, 0, 0, 0, 0, 0, 0, 0, 0, 0, 0, 0, 0,
  0, 0, 0, 0, 0, 0, 0, 0, 0, 0, 0, 0, 0, 0, 0, 0,
  0, 0, 0, 0, 0, 0, 0, 0, 0, 0, 0, 0, 0, 0, 0, 0,
  0, 1, 2, 3, 4, 5, 6, 7, 8, 9, 0, 0, 0, 0, 0, 0,
  0, 10, 11, 12, 13, 14, 15, 0, 0, 0, 0, 0, 0, 0, 0, 0,
  0, 0, 0, 0, 0, 0, 0, 0, 0, 0, 0, 0, 0, 0, 0, 0,
  0, 10, 11, 12, 13, 14, 15, 0, 0, 0, 0, 0, 0, 0, 0, 0,
  0, 0, 0, 0, 0, 0, 0, 0, 0, 0, 0, 0, 0, 0, 0, 0,
  0, 0, 0, 0, 0, 0, 0, 0, 0, 0, 0, 0, 0, 0, 0, 0,
  0, 0, 0, 0, 0, 0, 0, 0, 0, 0, 0, 0, 0, 0, 0, 0,
  0, 0, 0, 0, 0, 0, 0, 0, 0, 0, 0, 0, 0, 0, 0, 0,
  0, 0, 0, 0, 0, 0, 0, 0, 0, 0, 0, 0, 0, 0, 0, 0,
  0, 0, 0, 0, 0, 0, 0, 0, 0, 0, 0, 0, 0, 0, 0, 0,
  0, 0, 0, 0, 0, 0, 0, 0, 0, 0, 0, 0, 0, 0, 0, 0,
  0, 0, 0, 0, 0, 0, 0, 0, 0, 0, 0, 0, 0, 0, 0, 0,
  0, 0, 0, 0, 0, 0, 0, 0, 0, 0, 0, 0, 0, 0, 0, 0]

/-- `CHAR_IS_UNRESERVED`. The index is the unsigned value of the byte. -/
def charIsUnreserved (c : UInt8) : Bool := uriChars.getD c.toNat 0 != 0

/-- `hexdigits`. -/
def hexdigits : Bytes :=
  ['0', '1', '2', '3', '4', '5', '6', '7', '8', '9', 'A', 'B', 'C', 'D', 'E', 'F'].map byte

def hexdigit (n : UInt8) : UInt8 := hexdigits.getD n.toNat 0

/-- `isxdigit`, in the "C" locale. -/
def isxdigit (c : UInt8) : Bool :=
  (byte '0' ≤ c && c ≤ byte '9') || (byte 'A' ≤ c && c ≤ byte 'F') ||
    (byte 'a' ≤ c && c ≤ byte 'f')

/-- The byte of an escape. The source indexes with a signed `char`, here always one for
which `isxdigit` holds. -/
def xdigits (high low : UInt8) : UInt8 :=
  xdigitChars.getD high.toNat 0 <<< 4 ||| xdigitChars.getD low.toNat 0

/-- The text so far: `ss`, or the first `c` bytes of `str` while `ss` is null. -/
def copied (str : Bytes) (c : ℕ) (ss : Option Bytes) : Bytes := ss.getD (str.take c)

/-- The loop of `UrlEncode` from position `c` on. -/
def urlEncodeLoop (str : Bytes) (spaceAsPlus : Bool) : ℕ → Option Bytes → Bytes → Option Bytes
  | _, ss, [] => ss
  | c, ss, b :: rest =>
    if charIsUnreserved b = false then
      if b = byte ' ' ∧ spaceAsPlus = true then
        urlEncodeLoop str spaceAsPlus (c + 1) (some (copied str c ss ++ [byte '+'])) rest
      else
        urlEncodeLoop str spaceAsPlus (c + 1)
          (some (copied str c ss ++ [byte '%', hexdigit (b >>> 4), hexdigit (b &&& 0xf)])) rest
    else urlEncodeLoop str spaceAsPlus (c + 1) (ss.map (· ++ [b])) rest

def urlEncode (str : Bytes) (spaceAsPlus : Bool) : Bytes :=
  (urlEncodeLoop str spaceAsPlus 0 none str).getD str

/-- The loop of `UrlDecode` from position `c` on. A `%` is an escape only with two
hexadecimal digits behind it. -/
def urlDecodeLoop (str : Bytes) (spaceAsPlus : Bool) : ℕ → Option Bytes → Bytes → Option Bytes
  | _, ss, [] => ss
  | c, ss, b :: rest =>
    if b = byte '+' ∧ spaceAsPlus = true then
      urlDecodeLoop str spaceAsPlus (c + 1) (some (copied str c ss ++ [byte ' '])) rest
    else
      match rest with
      | high :: low :: rest' =>
        if b = byte '%' ∧ isxdigit high = true ∧ isxdigit low = true then
          urlDecodeLoop str spaceAsPlus (c + 3) (some (copied str c ss ++ [xdigits high low])) rest'
        else urlDecodeLoop str spaceAsPlus (c + 1) (ss.map (· ++ [b])) (high :: low :: rest')
      | rest => urlDecodeLoop str spaceAsPlus (c + 1) (ss.map (· ++ [b])) rest

def urlDecode (str : Bytes) (spaceAsPlus : Bool) : Bytes :=
  (urlDecodeLoop str spaceAsPlus 0 none str).getD str

/-! ## The loops -/

section Loops

variable {str rest : Bytes} {ss : Option Bytes} {c : ℕ} {b : UInt8}

theorem drop_succ (here : str.drop c = b :: rest) : str.drop (c + 1) = rest := by
  rw [← List.tail_drop, here, List.tail_cons]

/-- A byte that is not changed is appended to the copy, or stays where it is. -/
theorem copied_keep (here : str.drop c = b :: rest) :
    copied str (c + 1) (ss.map (· ++ [b])) = copied str c ss ++ [b] := by
  cases ss with
  | some text => rfl
  | none =>
    have at_c : str[c]? = some b := by
      rw [← List.head?_drop, here, List.head?_cons]
    show str.take (c + 1) = str.take c ++ [b]
    rw [List.take_add_one, at_c, Option.toList_some]

/-- At the end of the string, what is copied is the result. -/
theorem copied_end (past : str.drop c = []) : copied str c ss = ss.getD str := by
  have all := List.take_append_drop c str
  rw [past, List.append_nil] at all
  rw [copied, all]

end Loops

/-- What `UrlEncode` makes of one byte. -/
def encodeByte (spaceAsPlus : Bool) (b : UInt8) : Bytes :=
  if charIsUnreserved b = false then
    if b = byte ' ' ∧ spaceAsPlus = true then [byte '+']
    else [byte '%', hexdigit (b >>> 4), hexdigit (b &&& 0xf)]
  else [b]

/-- What `UrlDecode` makes of a string. -/
def decodeBytes (spaceAsPlus : Bool) : Bytes → Bytes
  | [] => []
  | b :: rest =>
    if b = byte '+' ∧ spaceAsPlus = true then byte ' ' :: decodeBytes spaceAsPlus rest
    else
      match rest with
      | high :: low :: rest' =>
        if b = byte '%' ∧ isxdigit high = true ∧ isxdigit low = true then
          xdigits high low :: decodeBytes spaceAsPlus rest'
        else b :: decodeBytes spaceAsPlus (high :: low :: rest')
      | rest => b :: decodeBytes spaceAsPlus rest

variable {spaceAsPlus : Bool}

theorem decodeBytes_plus {rest : Bytes} {b : UInt8} (plus : b = byte '+' ∧ spaceAsPlus = true) :
    decodeBytes spaceAsPlus (b :: rest) = byte ' ' :: decodeBytes spaceAsPlus rest := by
  conv_lhs => unfold decodeBytes
  exact if_pos plus

theorem decodeBytes_escape {rest : Bytes} {b high low : UInt8}
    (other : ¬ (b = byte '+' ∧ spaceAsPlus = true))
    (escape : b = byte '%' ∧ isxdigit high = true ∧ isxdigit low = true) :
    decodeBytes spaceAsPlus (b :: high :: low :: rest) =
      xdigits high low :: decodeBytes spaceAsPlus rest := by
  conv_lhs => unfold decodeBytes
  exact (if_neg other).trans (if_pos escape)

theorem decodeBytes_keep {rest : Bytes} {b : UInt8} (other : ¬ (b = byte '+' ∧ spaceAsPlus = true))
    (plain : ∀ high low rest', rest = high :: low :: rest' →
      ¬ (b = byte '%' ∧ isxdigit high = true ∧ isxdigit low = true)) :
    decodeBytes spaceAsPlus (b :: rest) = b :: decodeBytes spaceAsPlus rest := by
  conv_lhs => unfold decodeBytes
  refine (if_neg other).trans ?_
  match rest with
  | [] => rfl
  | [_] => rfl
  | high :: low :: rest' => exact if_neg (plain high low rest' rfl)

theorem urlEncodeLoop_eq (str : Bytes) (c : ℕ) (ss : Option Bytes) (rest : Bytes)
    (here : str.drop c = rest) :
    (urlEncodeLoop str spaceAsPlus c ss rest).getD str =
      copied str c ss ++ rest.flatMap (encodeByte spaceAsPlus) := by
  induction rest generalizing c ss with
  | nil =>
    rw [urlEncodeLoop, List.flatMap_nil, List.append_nil]
    exact (copied_end here).symm
  | cons b rest ih =>
    have next := drop_succ here
    rw [urlEncodeLoop, List.flatMap_cons, encodeByte, ← List.append_assoc]
    split_ifs with reserved space
    · rw [ih _ _ next]
      rfl
    · rw [ih _ _ next]
      rfl
    · rw [ih _ _ next, copied_keep here]

/-- `UrlEncode` encodes byte by byte. -/
theorem urlEncode_eq (str : Bytes) :
    urlEncode str spaceAsPlus = str.flatMap (encodeByte spaceAsPlus) :=
  urlEncodeLoop_eq str 0 none str rfl

theorem urlDecodeLoop_eq (str : Bytes) (c : ℕ) (ss : Option Bytes) (rest : Bytes)
    (here : str.drop c = rest) :
    (urlDecodeLoop str spaceAsPlus c ss rest).getD str =
      copied str c ss ++ decodeBytes spaceAsPlus rest := by
  fun_induction urlDecodeLoop str spaceAsPlus c ss rest with
  | case1 c ss =>
    rw [decodeBytes, List.append_nil]
    exact (copied_end here).symm
  | case2 c ss b rest plus ih =>
    rw [ih (drop_succ here), decodeBytes_plus plus, copied, Option.getD_some, List.append_assoc,
      List.singleton_append]
  | case3 c ss b other high low rest' escape ih =>
    have next : str.drop (c + 3) = rest' := drop_succ (drop_succ (drop_succ here))
    rw [ih next, decodeBytes_escape other escape, copied, Option.getD_some, List.append_assoc,
      List.singleton_append]
  | case4 c ss b other high low rest' plain ih =>
    rw [ih (drop_succ here), copied_keep here, decodeBytes_keep other, List.append_assoc,
      List.singleton_append]
    intro high' low' rest'' same
    cases same
    exact plain
  | case5 c ss b other rest short ih =>
    rw [ih (drop_succ here), copied_keep here, decodeBytes_keep other, List.append_assoc,
      List.singleton_append]
    exact fun high low rest' same => (short high low rest' same).elim

/-- `UrlDecode` on the whole string. -/
theorem urlDecode_eq (str : Bytes) : urlDecode str spaceAsPlus = decodeBytes spaceAsPlus str :=
  urlDecodeLoop_eq str 0 none str rfl

/-- What holds of the bytes below 256 holds of every byte. -/
theorem forall_byte {P : UInt8 → Prop} (all : ∀ n < 256, P (UInt8.ofNat n)) (b : UInt8) : P b := by
  have holds := all b.toNat b.toNat_lt
  rwa [UInt8.ofNat_toNat] at holds

/-! ## The plain decoding -/

/-- The value of a hexadecimal digit. -/
def hexValue (c : UInt8) : Option UInt8 :=
  if byte '0' ≤ c ∧ c ≤ byte '9' then some (c - byte '0')
  else if byte 'A' ≤ c ∧ c ≤ byte 'F' then some (c - byte 'A' + 10)
  else if byte 'a' ≤ c ∧ c ≤ byte 'f' then some (c - byte 'a' + 10)
  else none

/-- The byte of the escape that a text begins with. -/
def escaped : Bytes → Option UInt8
  | c :: high :: low :: _ =>
    if c = byte '%' then
      (hexValue high).bind fun h => (hexValue low).map fun l => 16 * h + l
    else none
  | _ => none

/-- Decoding from left to right: an escape is the byte that it names, a `+` is a space if
`spaceAsPlus` says so, and everything else is itself. -/
def decoded (spaceAsPlus : Bool) (text : Bytes) : Bytes :=
  match text with
  | [] => []
  | c :: rest =>
    match escaped (c :: rest) with
    | some b => b :: decoded spaceAsPlus (rest.drop 2)
    | none =>
      (if c = byte '+' ∧ spaceAsPlus = true then byte ' ' else c) :: decoded spaceAsPlus rest
termination_by text.length
decreasing_by
  · rw [List.length_drop, List.length_cons]
    omega
  · rw [List.length_cons]
    omega

/-- `isxdigit` accepts the bytes that are a digit, and `xdigit_chars` has their values. -/
theorem hexValue_eq (c : UInt8) :
    hexValue c = if isxdigit c = true then some (xdigitChars.getD c.toNat 0) else none :=
  forall_byte (P := fun c =>
    hexValue c = if isxdigit c = true then some (xdigitChars.getD c.toNat 0) else none)
    (by decide +kernel) c

/-- The value of a digit fits in the lower half of a byte. -/
theorem xdigitChars_lt (c : UInt8) : (xdigitChars.getD c.toNat 0).toNat < 16 := by
  have all : ∀ n ∈ xdigitChars, n.toNat < 16 := by decide +kernel
  rw [List.getD_eq_getElem?_getD]
  cases entry : xdigitChars[c.toNat]? with
  | none => decide
  | some n => exact all n (List.mem_of_getElem? entry)

/-- Shifting and joining puts the digits together as a number does. -/
theorem xdigits_eq (high low : UInt8) :
    xdigits high low = 16 * xdigitChars.getD high.toNat 0 + xdigitChars.getD low.toNat 0 := by
  have all : ∀ h < 16, ∀ l < 16,
      UInt8.ofNat h <<< 4 ||| UInt8.ofNat l = 16 * UInt8.ofNat h + UInt8.ofNat l := by
    decide +kernel
  have joined := all _ (xdigitChars_lt high) _ (xdigitChars_lt low)
  rwa [UInt8.ofNat_toNat, UInt8.ofNat_toNat] at joined

/-- Two digits behind a `%` are an escape, and nothing else is. -/
theorem escaped_eq (c high low : UInt8) (rest : Bytes) :
    escaped (c :: high :: low :: rest) =
      if c = byte '%' ∧ isxdigit high = true ∧ isxdigit low = true then some (xdigits high low)
      else none := by
  rw [escaped, hexValue_eq, hexValue_eq, xdigits_eq]
  by_cases percent : c = byte '%' <;> cases isxdigit high <;> cases isxdigit low <;> simp [percent]

theorem decoded_escape {c b : UInt8} {rest : Bytes} (escape : escaped (c :: rest) = some b) :
    decoded spaceAsPlus (c :: rest) = b :: decoded spaceAsPlus (rest.drop 2) := by
  rw [decoded, escape]

theorem decoded_plain {c : UInt8} {rest : Bytes} (plain : escaped (c :: rest) = none) :
    decoded spaceAsPlus (c :: rest) =
      (if c = byte '+' ∧ spaceAsPlus = true then byte ' ' else c) :: decoded spaceAsPlus rest := by
  rw [decoded, plain]

theorem decodeBytes_eq_decoded (text : Bytes) :
    decodeBytes spaceAsPlus text = decoded spaceAsPlus text := by
  fun_induction decodeBytes spaceAsPlus text with
  | case1 => rw [decoded]
  | case2 b rest plus ih =>
    -- a `+` begins no escape
    have plain : escaped (b :: rest) = none := by
      have other : byte '+' ≠ byte '%' := by decide
      rw [plus.1]
      match rest with
      | [] => rfl
      | [_] => rfl
      | high :: low :: rest' => rw [escaped, if_neg other]
    rw [decoded_plain plain, if_pos plus, ih]
  | case3 b other high low rest' escape ih =>
    have found : escaped (b :: high :: low :: rest') = some (xdigits high low) := by
      rw [escaped_eq, if_pos escape]
    rw [decoded_escape found, ih]
    rfl
  | case4 b other high low rest' noEscape ih =>
    have plain : escaped (b :: high :: low :: rest') = none := by
      rw [escaped_eq, if_neg noEscape]
    rw [decoded_plain plain, if_neg other, ih]
  | case5 b other rest short ih =>
    -- the string ends behind the `%`
    have plain : escaped (b :: rest) = none := by
      match rest with
      | [] => rfl
      | [_] => rfl
      | high :: low :: rest' => exact (short high low rest' rfl).elim
    rw [decoded_plain plain, if_neg other, ih]

/-- `UrlDecode` is the left-to-right decoding, for both values of its flag. -/
theorem urlDecode_eq_decoded (s : Bytes) (spaceAsPlus : Bool) :
    urlDecode s spaceAsPlus = decoded spaceAsPlus s := by
  rw [urlDecode_eq, decodeBytes_eq_decoded]

/-! ## The round trip -/

/-- The bytes that stand for themselves are no `+` and no `%`. -/
theorem unreserved_ne {b : UInt8} (unreserved : charIsUnreserved b = true) :
    b ≠ byte '+' ∧ b ≠ byte '%' := by
  constructor
  · rintro rfl
    exact absurd unreserved (by decide)
  · rintro rfl
    exact absurd unreserved (by decide)

/-- The digit of a nibble is hexadecimal and has its value. -/
theorem xdigitChars_hexdigit {n : UInt8} (nibble : n.toNat < 16) :
    isxdigit (hexdigit n) = true ∧ xdigitChars.getD (hexdigit n).toNat 0 = n := by
  have all : ∀ k < 16, isxdigit (hexdigit (.ofNat k)) = true ∧
      xdigitChars.getD (hexdigit (.ofNat k)).toNat 0 = .ofNat k := by
    decide +kernel
  have holds := all n.toNat nibble
  rwa [UInt8.ofNat_toNat] at holds

/-- A byte is put together from its nibbles. -/
theorem nibbles (b : UInt8) :
    (b >>> 4).toNat < 16 ∧ (b &&& 0xf).toNat < 16 ∧ (b >>> 4) <<< 4 ||| (b &&& 0xf) = b :=
  forall_byte (P := fun b => (b >>> 4).toNat < 16 ∧ (b &&& 0xf).toNat < 16 ∧
    (b >>> 4) <<< 4 ||| (b &&& 0xf) = b) (by decide +kernel) b

/-- The two digits of a byte are hexadecimal and read back as the byte. -/
theorem xdigits_hexdigit (b : UInt8) : isxdigit (hexdigit (b >>> 4)) = true ∧
    isxdigit (hexdigit (b &&& 0xf)) = true ∧
      xdigits (hexdigit (b >>> 4)) (hexdigit (b &&& 0xf)) = b := by
  obtain ⟨high, low, whole⟩ := nibbles b
  obtain ⟨highDigit, highValue⟩ := xdigitChars_hexdigit high
  obtain ⟨lowDigit, lowValue⟩ := xdigitChars_hexdigit low
  refine ⟨highDigit, lowDigit, ?_⟩
  rw [xdigits, highValue, lowValue, whole]

/-- A byte is written as itself, as a `+` or with `%` and hexadecimal digits. -/
theorem mem_encodeByte {b c : UInt8} (inText : c ∈ encodeByte spaceAsPlus b) :
    (c = b ∧ charIsUnreserved c = true) ∨ isxdigit c = true ∨ c = byte '+' ∨ c = byte '%' := by
  unfold encodeByte at inText
  split_ifs at inText with reserved space
  · exact .inr (.inr (.inl (List.mem_singleton.mp inText)))
  · obtain ⟨high, low, -⟩ := xdigits_hexdigit b
    simp only [List.mem_cons, List.not_mem_nil, or_false] at inText
    rcases inText with rfl | rfl | rfl
    · exact .inr (.inr (.inr rfl))
    · exact .inr (.inl high)
    · exact .inr (.inl low)
  · obtain rfl := List.mem_singleton.mp inText
    exact .inl ⟨rfl, Bool.not_eq_false _ ▸ reserved⟩

/-- What is made of one byte is read back as the byte: with the same flag, and with
`space_as_plus` set where it was not, as a `+` is always escaped. -/
theorem decodeBytes_encodeByte {plus : Bool} (flags : spaceAsPlus = true → plus = true)
    (b : UInt8) (rest : Bytes) :
    decodeBytes plus (encodeByte spaceAsPlus b ++ rest) = b :: decodeBytes plus rest := by
  unfold encodeByte
  split_ifs with reserved space
  · rw [List.singleton_append, decodeBytes_plus ⟨rfl, flags space.2⟩, space.1]
  · obtain ⟨high, low, value⟩ := xdigits_hexdigit b
    have other : ¬ (byte '%' = byte '+' ∧ plus = true) := fun both => absurd both.1 (by decide)
    rw [List.cons_append, List.cons_append, List.cons_append, List.nil_append,
      decodeBytes_escape other ⟨rfl, high, low⟩, value]
  · obtain ⟨notPlus, notEscape⟩ := unreserved_ne (Bool.not_eq_false _ ▸ reserved)
    rw [List.singleton_append, decodeBytes_keep fun both => notPlus both.1]
    exact fun _ _ _ _ both => notEscape both.1

theorem decodeBytes_flatMap {plus : Bool} (flags : spaceAsPlus = true → plus = true) (s : Bytes) :
    decodeBytes plus (s.flatMap (encodeByte spaceAsPlus)) = s := by
  induction s with
  | nil => rfl
  | cons b s ih => rw [List.flatMap_cons, decodeBytes_encodeByte flags, ih]

theorem urlDecode_encoded {plus : Bool} (flags : spaceAsPlus = true → plus = true) (s : Bytes) :
    urlDecode (urlEncode s spaceAsPlus) plus = s := by
  rw [urlEncode_eq, urlDecode_eq]
  exact decodeBytes_flatMap flags s

/-- Decoding undoes encoding, with the same flag or with a decoder that takes `+` for a
space where the encoder has not made one. -/
theorem urlDecode_urlEncode (s : Bytes) :
    (∀ b, urlDecode (urlEncode s b) b = s) ∧ urlDecode (urlEncode s false) true = s := by
  constructor
  · intro b
    exact urlDecode_encoded id s
  · exact urlDecode_encoded (fun _ => rfl) s

end StringUtil

end Sylar
