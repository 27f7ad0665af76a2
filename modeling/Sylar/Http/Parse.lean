import Mathlib.Data.List.Find
import Mathlib.Data.List.TakeWhile
import Sylar.Http.Model
import Sylar.Lib.Pairs

/-!
# What the parameter texts are read as

`PARSE_PARAM` inserts the pairs that a text is made of: `parseParam_eq` is the loop,
`getElem?_insertPairs` what the map holds when pairs are inserted in order.
`holdsFirst_joined` puts them together with `UrlDecode` undoing `UrlEncode`.
-/

namespace Sylar

open Bytes StringUtil

/-! ## The loop -/

/-- The separators of parameters and of cookies end no key. -/
theorem ampersand_ne_equals : byte '&' ≠ byte '=' := by decide

theorem semicolon_ne_equals : byte ';' ≠ byte '=' := by decide

section Loop

variable {str : Bytes} {m : MapType} {flag : UInt8} {trim : Bytes → Bytes} {pos : ℕ}

theorem parseParam_stop (stop : find str (byte '=') pos = none) :
    parseParam str m flag trim pos = m := by
  rw [parseParam]
  split
  next => rfl
  next key found => simp [stop] at found

/-- The text of one pair. -/
def segment (s : Bytes × Bytes) : Bytes := s.1 ++ byte '=' :: s.2

/-- The pair that is read from a segment. -/
def readSegment (trim : Bytes → Bytes) (s : Bytes × Bytes) : Bytes × Bytes :=
  (trim s.1, urlDecode s.2 true)

/-- What the loop does to the map. -/
def insertPairs (m : MapType) (pairs : List (Bytes × Bytes)) : MapType :=
  pairs.foldl (fun m p => m.insertIfNew p.1 p.2) m

/-- The loop inserts the pairs of the text. -/
theorem parseParam_eq (sep : flag ≠ byte '=') :
    parseParam str m flag trim pos =
      insertPairs m ((Pairs.pairsOf (byte '=') flag (str.drop pos)).map (readSegment trim)) := by
  fun_induction parseParam str m flag trim pos with
  | case1 m pos stop =>
    rw [Pairs.pairsOf_free (not_mem_of_find stop)]
    rfl
  | case2 m pos key equals last =>
    obtain ⟨k, v, here, free, rfl⟩ := parts_of_find equals
    have atKey := drop_append here
    have value : flag ∉ v := fun inValue =>
      not_mem_of_find last (atKey ▸ List.mem_cons_of_mem _ inValue)
    have atValue : str.drop (pos + k.length + 1) = v := by
      rw [← List.drop_drop, atKey, List.drop_one, List.tail_cons]
    rw [Nat.add_sub_cancel_left, substr_append here, substr, atValue, here,
      Pairs.pairsOf_last free value]
    rfl
  | case3 m pos key equals next ends ih =>
    obtain ⟨k, text, here, free, rfl⟩ := parts_of_find equals
    have atKey := drop_append here
    obtain ⟨front, rest, parts, noFlag, rfl⟩ := parts_of_find ends
    -- the `=` is no `flag`, so what stands before the `flag` begins with it
    obtain ⟨v, rfl, rfl⟩ : ∃ v, front = byte '=' :: v ∧ text = v ++ flag :: rest := by
      rw [atKey] at parts
      cases front with
      | nil => exact absurd (List.cons.inj parts).1.symm sep
      | cons c v =>
        obtain ⟨rfl, text⟩ := List.cons.inj parts
        exact ⟨v, rfl, text⟩
    have value : flag ∉ v := fun inValue => noFlag (List.mem_cons_of_mem _ inValue)
    have atValue : str.drop (pos + k.length + 1) = v ++ flag :: rest := by
      rw [← List.drop_drop, atKey, List.drop_one, List.tail_cons]
    have atNext : str.drop (pos + k.length + (byte '=' :: v).length + 1) = rest := by
      rw [← List.drop_drop, drop_append parts, List.drop_one, List.tail_cons]
    have width : pos + k.length + (byte '=' :: v).length - (pos + k.length) - 1 = v.length := by
      rw [List.length_cons]
      omega
    rw [ih, atNext, Nat.add_sub_cancel_left, substr_append here, width, substr_append atValue, here,
      Pairs.pairsOf_cons free value]
    rfl

/-- The pairs of segments that are separated by `flag`. -/
theorem pairsOf_segments (segs : List (Bytes × Bytes))
    (clean : ∀ s ∈ segs, byte '=' ∉ s.1 ∧ flag ∉ s.2) :
    Pairs.pairsOf (byte '=') flag ([flag].intercalate (segs.map segment)) = segs := by
  induction segs with
  | nil => rfl
  | cons s segs ih =>
    obtain ⟨noEquals, noFlag⟩ := clean s List.mem_cons_self
    cases segs with
    | nil =>
      have text : [flag].intercalate ([s].map segment) = s.1 ++ byte '=' :: s.2 := by simp [segment]
      rw [text, Pairs.pairsOf_last noEquals noFlag]
    | cons t more =>
      have text : [flag].intercalate ((s :: t :: more).map segment) =
          s.1 ++ byte '=' :: (s.2 ++ flag :: [flag].intercalate ((t :: more).map segment)) := by
        simp [segment]
      rw [text, Pairs.pairsOf_cons noEquals noFlag,
        ih fun s inMore => clean s (List.mem_cons_of_mem _ inMore)]

end Loop

/-! ## The map -/

/-- The entry of a list of pairs that a lookup of `key` is for. -/
def firstOf (pairs : List (Bytes × Bytes)) (key : Bytes) : Option Bytes :=
  (pairs.find? fun p => strcasecmp p.1 key = .eq).map Prod.snd

theorem getElem?_insertPairs (pairs : List (Bytes × Bytes)) (m : MapType) (key : Bytes) :
    (insertPairs m pairs)[key]? = m[key]?.or (firstOf pairs key) := by
  induction pairs generalizing m with
  | nil => exact Option.or_none.symm
  | cons p pairs ih =>
    have first : (insertPairs m (p :: pairs))[key]? =
        (m.insertIfNew p.1 p.2)[key]?.or (firstOf pairs key) := ih (m.insertIfNew p.1 p.2)
    rw [first, MapType.getElem?_insertIfNew, Option.or_assoc]
    by_cases same : strcasecmp p.1 key = .eq
    · simp [firstOf, same]
    · simp [firstOf, same]

/-- What the text adds to a map lies below what the map holds. -/
theorem getElem?_parseParam {flag : UInt8} (sep : flag ≠ byte '=') (str : Bytes) (m : MapType)
    (trim : Bytes → Bytes) (key : Bytes) :
    (parseParam str m flag trim 0)[key]? = m[key]?.or (parseParam str ∅ flag trim 0)[key]? := by
  rw [parseParam_eq sep, parseParam_eq sep, getElem?_insertPairs, getElem?_insertPairs,
    Std.TreeMap.getElem?_emptyc, Option.none_or]

/-! ## Texts written from pairs -/

/-- The segment for a pair, its value encoded. -/
def encodePair (p : Bytes × Bytes) : Bytes × Bytes := (p.1, urlEncode p.2 true)

/-- `key=UrlEncode(value)` for each pair, joined by `sep`. -/
def joinPairs (sep : Bytes) (pairs : List (Bytes × Bytes)) : Bytes :=
  sep.intercalate ((pairs.map encodePair).map segment)

/-- The separators and the blank do not occur in an encoded text. -/
theorem separators_not_mem_urlEncode (v : Bytes) (plus : Bool) :
    ∀ c ∈ [byte '&', byte ';', byte ' '], c ∉ urlEncode v plus := by
  have reserved : ∀ c ∈ [byte '&', byte ';', byte ' '], ¬ (charIsUnreserved c = true ∨
      isxdigit c = true ∨ c = byte '+' ∨ c = byte '%') := by decide +kernel
  intro c separator inText
  rw [urlEncode_eq] at inText
  obtain ⟨b, -, inByte⟩ := List.mem_flatMap.mp inText
  exact reserved c separator ((mem_encodeByte inByte).imp_left And.right)

theorem ampersand_not_mem_urlEncode (v : Bytes) (plus : Bool) : byte '&' ∉ urlEncode v plus :=
  separators_not_mem_urlEncode v plus _ (by simp)

theorem semicolon_not_mem_urlEncode (v : Bytes) (plus : Bool) : byte ';' ∉ urlEncode v plus :=
  separators_not_mem_urlEncode v plus _ (by simp)

/-- A blank behind each separator is the first byte of the next segment. -/
theorem intercalate_blank (flag blank : UInt8) (x : Bytes) (xs : List Bytes) :
    [flag, blank].intercalate (x :: xs) = [flag].intercalate (x :: xs.map (blank :: ·)) := by
  induction xs generalizing x with
  | nil => rfl
  | cons y ys ih =>
    rw [List.intercalate_cons_cons, ih y, List.map_cons, List.intercalate_cons_cons]
    cases ys <;> simp

/-- `m` holds, for each class of keys equal up to ASCII case, the value of its first
pair, and nothing else. A lookup goes by the `c_str()` of its key. -/
def HoldsFirst (pairs : List (Bytes × Bytes)) (m : MapType) : Prop :=
  ∀ key, m[key]? =
    (pairs.find? fun p => p.1.map tolower = (cStr key).map tolower).map Prod.snd

theorem holdsFirst_segments {flag : UInt8} {trim : Bytes → Bytes}
    {segs pairs : List (Bytes × Bytes)}
    (sep : flag ≠ byte '=') (clean : ∀ s ∈ segs, byte '=' ∉ s.1 ∧ flag ∉ s.2)
    (read : segs.map (readSegment trim) = pairs) (noNul : ∀ p ∈ pairs, 0 ∉ p.1) :
    HoldsFirst pairs (parseParam ([flag].intercalate (segs.map segment)) ∅ flag trim 0) := by
  intro key
  rw [parseParam_eq sep, List.drop_zero, pairsOf_segments segs clean, read, getElem?_insertPairs,
    Std.TreeMap.getElem?_emptyc, Option.none_or, firstOf]
  congr 1
  apply List.find?_congr
  intro p inPairs
  rw [decide_eq_decide, strcasecmp_eq_eq, cStr_eq_self (noNul p inPairs)]

namespace HttpRequest

/-- A request of which nothing has been parsed and no parameter or cookie set. -/
structure Fresh (r : HttpRequest) : Prop where
  unparsed : r.mParserParamFlag = 0
  noParams : r.mParams = ∅
  noCookies : r.mCookies = ∅

theorem fresh_init : init.Fresh := ⟨rfl, rfl, rfl⟩

variable {r : HttpRequest} {pairs : List (Bytes × Bytes)}

/-- The parameters that are read from a query. -/
theorem mParams_setQuery (fresh : r.Fresh) (text : Bytes) :
    (r.setQuery text).initQueryParam.mParams = parseParam text ∅ (byte '&') id 0 := by
  simp [initQueryParam, setQuery, fresh.unparsed, fresh.noParams]

/-- The parameters of a query that is written from pairs. -/
theorem holdsFirst_query (fresh : r.Fresh) (keys : ∀ p ∈ pairs, byte '=' ∉ p.1 ∧ 0 ∉ p.1) :
    HoldsFirst pairs (r.setQuery (joinPairs [byte '&'] pairs)).initQueryParam.mParams := by
  rw [mParams_setQuery fresh]
  apply holdsFirst_segments (by decide)
  · intro s inSegs
    obtain ⟨p, inPairs, rfl⟩ := List.mem_map.mp inSegs
    exact ⟨(keys p inPairs).1, ampersand_not_mem_urlEncode p.2 true⟩
  · rw [List.map_map]
    have same (p : Bytes × Bytes) : (readSegment id ∘ encodePair) p = p :=
      Prod.ext rfl (urlDecode_encoded id p.2)
    exact (List.map_congr_left fun p _ => same p).trans (List.map_id pairs)
  · exact fun p inPairs => (keys p inPairs).2

/-- A blank in front of a segment is trimmed with its key. -/
theorem trim_blank {key : Bytes} (edges : NoEdge blanks key) :
    trim (byte ' ' :: key) blanks = key := by
  have trimmed : trim ([byte ' '] ++ key ++ []) blanks = key :=
    trim_eq (by decide +kernel) (by simp) edges
  rwa [List.append_nil] at trimmed

theorem trim_key {key : Bytes} (edges : NoEdge blanks key) : trim key blanks = key := by
  have trimmed : trim ([] ++ key ++ []) blanks = key := trim_eq (by simp) (by simp) edges
  rwa [List.append_nil] at trimmed

/-- The cookies that are read from a `cookie` header. -/
theorem mCookies_setHeader (fresh : r.Fresh) (text : Bytes) :
    (r.setHeader cookieName text).initCookies.mCookies =
      parseParam text ∅ (byte ';') (trim · blanks) 0 := by
  have header : (r.setHeader cookieName text).getHeader cookieName [] = text := by
    simp [getHeader, setHeader, MapType.getElem?_assign, strcasecmp_eq_eq]
  have unparsed : (r.setHeader cookieName text).mParserParamFlag = 0 := fresh.unparsed
  have noCookies : (r.setHeader cookieName text).mCookies = ∅ := fresh.noCookies
  rw [initCookies, header, unparsed, noCookies, if_neg (by decide)]
  split_ifs with empty
  · exact (parseParam_stop (find_none (by simp [empty]))).symm
  · rfl

/-- The cookies of a header that is written from pairs. -/
theorem holdsFirst_cookie (fresh : r.Fresh)
    (keys : ∀ p ∈ pairs, byte '=' ∉ p.1 ∧ 0 ∉ p.1 ∧ NoEdge blanks p.1) :
    HoldsFirst pairs
      (r.setHeader cookieName (joinPairs [byte ';', byte ' '] pairs)).initCookies.mCookies := by
  rw [mCookies_setHeader fresh]
  cases pairs with
  | nil =>
    have empty : HoldsFirst [] (parseParam ([byte ';'].intercalate (([] : List (Bytes × Bytes)).map
        segment)) ∅ (byte ';') (trim · blanks) 0) :=
      holdsFirst_segments (by decide) (by simp) rfl (by simp)
    exact empty
  | cons p more =>
    -- every segment but the first begins with the blank of its separator
    let blanked (p : Bytes × Bytes) : Bytes × Bytes := (byte ' ' :: p.1, urlEncode p.2 true)
    have text : joinPairs [byte ';', byte ' '] (p :: more) =
        [byte ';'].intercalate ((encodePair p :: more.map blanked).map segment) := by
      rw [joinPairs, List.map_cons, List.map_cons, intercalate_blank, List.map_cons, List.map_map,
        List.map_map, List.map_map]
      rfl
    rw [text]
    apply holdsFirst_segments (by decide)
    · intro s inSegs
      rcases List.mem_cons.mp inSegs with rfl | inTail
      · exact ⟨(keys p List.mem_cons_self).1, semicolon_not_mem_urlEncode p.2 true⟩
      · obtain ⟨q, inMore, rfl⟩ := List.mem_map.mp inTail
        have noEquals := (keys q (List.mem_cons_of_mem p inMore)).1
        exact ⟨by simpa [blanked] using ⟨by decide, noEquals⟩,
          semicolon_not_mem_urlEncode q.2 true⟩
    · have first : readSegment (trim · blanks) (encodePair p) = p :=
        Prod.ext (trim_key (keys p List.mem_cons_self).2.2) (urlDecode_encoded id p.2)
      have later : ∀ q ∈ more, (readSegment (trim · blanks) ∘ blanked) q = id q := fun q inMore =>
        Prod.ext (trim_blank (keys q (List.mem_cons_of_mem p inMore)).2.2)
          (urlDecode_encoded id q.2)
      rw [List.map_cons, first, List.map_map, List.map_congr_left later, List.map_id]
    · exact fun q inPairs => (keys q inPairs).2.1

/-- Parsing undoes writing, up to the values of later pairs whose keys are equal up to
case. A separator inside a key does no harm, as the loop looks for it behind the `=`. -/
theorem holdsFirst_joined (r : HttpRequest) (fresh : r.Fresh) (pairs : List (Bytes × Bytes)) :
    ((∀ p ∈ pairs, byte '=' ∉ p.1 ∧ 0 ∉ p.1) →
      HoldsFirst pairs (r.setQuery (joinPairs [byte '&'] pairs)).initQueryParam.mParams) ∧
    ((∀ p ∈ pairs, byte '=' ∉ p.1 ∧ 0 ∉ p.1 ∧ NoEdge blanks p.1) →
      HoldsFirst pairs
        (r.setHeader cookieName (joinPairs [byte ';', byte ' '] pairs)).initCookies.mCookies) :=
  ⟨holdsFirst_query fresh, holdsFirst_cookie fresh⟩

/-- Two keys of one class, the second value with both separators in it. -/
theorem holdsFirst_joined_two :
    let pairs := [([byte 'a'], [byte '1']), ([byte 'A'], [byte '&', byte ';'])]
    HoldsFirst pairs (init.setQuery (joinPairs [byte '&'] pairs)).initQueryParam.mParams ∧
      HoldsFirst pairs (init.setHeader cookieName
        (joinPairs [byte ';', byte ' '] pairs)).initCookies.mCookies := by
  obtain ⟨query, cookie⟩ := holdsFirst_joined init fresh_init
    [([byte 'a'], [byte '1']), ([byte 'A'], [byte '&', byte ';'])]
  exact ⟨query (by decide), cookie (by simp [NoEdge]; decide)⟩

end HttpRequest

end Sylar
