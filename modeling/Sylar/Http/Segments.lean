import Sylar.Http.Parse

/-!
# Segments of a parameter text

What `PARSE_PARAM` makes of two texts with a separator between them. It looks for the `=`
of a segment without regard to the separator, so a segment without one becomes a part of
the next key.

* `independent_iff`: when the two texts are parsed as if each stood alone.
* `unambiguous_iff`: when an encoded key is told from the value behind it, given that
  `UrlEncode` leaves a `=` alone.
-/

namespace Sylar

open Bytes StringUtil

/-- A key as the maps compare it. -/
def folded (key : Bytes) : Bytes := (cStr key).map tolower

namespace MapType

/-- The entry of a key, with the spelling of the key that is stored. -/
def entryOf (m : MapType) (key : Bytes) : Option (Bytes × Bytes) :=
  (m.getKey? key).bind fun k => m[key]?.map fun v => (k, v)

theorem entryOf_insertIfNew (m : MapType) (k v key : Bytes) :
    entryOf (m.insertIfNew k v) key =
      (m.entryOf key).or (if folded k = folded key then some (k, v) else none) := by
  have compares : strcasecmp k key = .eq ↔ folded k = folded key := strcasecmp_eq_eq
  unfold entryOf
  simp only [getElem?_insertIfNew, Std.TreeMap.getKey?_insertIfNew, compares]
  by_cases same : folded k = folded key
  · have present : k ∈ m ↔ key ∈ m := Std.TreeMap.mem_congr (compares.mpr same)
    by_cases there : key ∈ m
    · obtain ⟨spelling, isKey⟩ := Option.isSome_iff_exists.mp
        (Std.TreeMap.isSome_getKey?_iff_mem.mpr there)
      obtain ⟨held, isVal⟩ := Option.isSome_iff_exists.mp
        (Std.TreeMap.mem_iff_isSome_getElem?.mp there)
      rw [if_neg fun both => both.2 (present.mpr there), isKey, isVal]
      rfl
    · have noVal : m[key]? = none := Std.TreeMap.getElem?_eq_none there
      rw [if_pos ⟨same, fun here => there (present.mp here)⟩, if_pos same, if_pos same, noVal,
        Std.TreeMap.getKey?_eq_none there]
      rfl
  · rw [if_neg fun both => same both.1, if_neg same, if_neg same, Option.or_none, Option.or_none]

end MapType

/-- What is inserted lies below what the map holds, and the first pair of a key counts. -/
theorem entryOf_insertPairs (pairs : List (Bytes × Bytes)) (m : MapType) (key : Bytes) :
    (insertPairs m pairs).entryOf key =
      (m.entryOf key).or (Pairs.firstOf folded pairs (folded key)) := by
  induction pairs generalizing m with
  | nil => exact Option.or_none.symm
  | cons p pairs ih =>
    have first : (insertPairs m (p :: pairs)).entryOf key =
        (MapType.entryOf (m.insertIfNew p.1 p.2) key).or
          (Pairs.firstOf folded pairs (folded key)) :=
      ih (m.insertIfNew p.1 p.2)
    rw [first, MapType.entryOf_insertIfNew, Option.or_assoc]
    by_cases same : folded p.1 = folded key
    · rw [if_pos same, ← same, Pairs.firstOf_cons_self, Option.some_or]
    · rw [if_neg same, Pairs.firstOf_cons_ne same, Option.none_or]

/-! ## Two texts -/

section Texts

variable {flag : UInt8} {trim : Bytes → Bytes} {first second : Bytes}

/-- The pairs of a text, as they go into the map. -/
def pairsRead (flag : UInt8) (trim : Bytes → Bytes) (text : Bytes) : List (Bytes × Bytes) :=
  (Pairs.pairsOf (byte '=') flag text).map (readSegment trim)

theorem entryOf_parseParam (sep : flag ≠ byte '=') (text key : Bytes) :
    (parseParam text ∅ flag trim 0).entryOf key =
      Pairs.firstOf folded (pairsRead flag trim text) (folded key) := by
  have nothing : (∅ : MapType).entryOf key = none := rfl
  rw [parseParam_eq sep, entryOf_insertPairs, nothing, Option.none_or, List.drop_zero, pairsRead]

/-- The map of the joined texts is that of the first one, and what it lacks is taken from
that of the second. -/
def Independent (parse : Bytes → MapType) (flag : UInt8) (first second : Bytes) : Prop :=
  ∀ key, (parse (first ++ flag :: second)).entryOf key =
    ((parse first).entryOf key).or ((parse second).entryOf key)

/-- The last segment of the first text has a `=`; or the second text has none; or its first
pair makes no difference, neither under its own name nor with the rest of the first text in
front of it. -/
def Apart (flag : UInt8) (trim : Bytes → Bytes) (first second : Bytes) : Prop :=
  byte '=' ∈ Pairs.lastSegment flag first ∨ byte '=' ∉ second ∨
  ∃ k v rest, Pairs.pairsOf (byte '=') flag second = (k, v) :: rest ∧
    ∀ name ∈ [k, (Pairs.scan (byte '=') flag first).key ++ [flag] ++ k],
      Pairs.Settled folded (pairsRead flag trim first) (rest.map (readSegment trim))
        (trim name) (urlDecode v true)

theorem independent_parseParam_iff (sep : flag ≠ byte '=')
    (renamed : ∀ front k, trim (front ++ [flag] ++ k) ≠ trim k) :
    Independent (parseParam · ∅ flag trim 0) flag first second ↔ Apart flag trim first second := by
  have same : Independent (parseParam · ∅ flag trim 0) flag first second ↔ ∀ key,
      Pairs.firstOf folded (pairsRead flag trim (first ++ flag :: second)) (folded key) =
        Pairs.firstOf folded (pairsRead flag trim first ++ pairsRead flag trim second)
          (folded key) := by
    simp only [Independent, entryOf_parseParam sep, Pairs.firstOf_append]
  rw [same, Apart, ← Pairs.val_isSome_iff sep]
  cases state : (Pairs.scan (byte '=') flag first).val with
  | some v =>
    have joined : pairsRead flag trim (first ++ flag :: second) =
        pairsRead flag trim first ++ pairsRead flag trim second := by
      rw [pairsRead, Pairs.pairsOf_append (by rw [state]; rfl), List.map_append]
      rfl
    exact iff_of_true (fun key => by rw [joined]) (.inl rfl)
  | none =>
    have joined : pairsRead flag trim (first ++ flag :: second) = pairsRead flag trim first ++
        (Pairs.rename ((Pairs.scan (byte '=') flag first).key ++ [flag])
          (Pairs.pairsOf (byte '=') flag second)).map (readSegment trim) := by
      rw [pairsRead, Pairs.pairsOf_append_open sep state, List.map_append]
      rfl
    rw [joined, pairsRead, pairsRead]
    cases pairs : Pairs.pairsOf (byte '=') flag second with
    | nil =>
      exact iff_of_true (fun _ => rfl) (.inr (.inl (Pairs.pairsOf_eq_nil_iff.mp pairs)))
    | cons p rest =>
      obtain ⟨k, v⟩ := p
      have equals : byte '=' ∈ second := by
        by_contra free
        rw [Pairs.pairsOf_free free] at pairs
        cases pairs
      refine Pairs.firstOf_rename_iff.trans ?_
      constructor
      · rintro (glued | ⟨own, other⟩)
        · exact absurd glued (renamed _ k)
        · refine .inr (.inr ⟨k, v, rest, rfl, ?_⟩)
          simp only [List.forall_mem_cons]
          exact ⟨own, other, by simp⟩
      · rintro (inValue | free | ⟨k', v', rest', parts, settled⟩)
        · cases inValue
        · exact absurd equals free
        · cases parts
          exact .inr ⟨settled _ (by simp), settled _ (by simp)⟩

end Texts

namespace HttpRequest

/-- The separator stays in the key: glued to another text, a key is not the same. -/
theorem trim_glued {delimit : Bytes} {flag : UInt8} (stays : flag ∉ delimit) (front k : Bytes) :
    trim (front ++ [flag] ++ k) delimit ≠ trim k delimit := by
  intro same
  have counts := congrArg (List.count flag) same
  rw [count_trim stays, count_trim stays, List.count_append, List.count_append,
    List.count_singleton_self] at counts
  omega

/-- The parameters of a query. -/
def paramsOf (r : HttpRequest) (text : Bytes) : MapType := (r.setQuery text).initQueryParam.mParams

/-- The cookies of a `cookie` header. -/
def cookiesOf (r : HttpRequest) (text : Bytes) : MapType :=
  (r.setHeader cookieName text).initCookies.mCookies

theorem paramsOf_eq {r : HttpRequest} (fresh : r.Fresh) :
    r.paramsOf = (parseParam · ∅ (byte '&') id 0) :=
  funext (mParams_setQuery fresh)

theorem cookiesOf_eq {r : HttpRequest} (fresh : r.Fresh) :
    r.cookiesOf = (parseParam · ∅ (byte ';') (trim · blanks) 0) :=
  funext (mCookies_setHeader fresh)

/-- Two queries, or two cookie texts, are parsed as if each stood alone exactly when they are
apart. -/
theorem independent_iff (r : HttpRequest) (fresh : r.Fresh) (first second : Bytes) :
    (Independent r.paramsOf (byte '&') first second ↔ Apart (byte '&') id first second) ∧
    (Independent r.cookiesOf (byte ';') first second ↔
      Apart (byte ';') (trim · blanks) first second) := by
  rw [paramsOf_eq fresh, cookiesOf_eq fresh]
  constructor
  · apply independent_parseParam_iff ampersand_ne_equals
    intro front k same
    have lengths := congrArg List.length same
    rw [id, id, List.length_append, List.length_append, List.length_singleton] at lengths
    omega
  · exact independent_parseParam_iff semicolon_ne_equals (trim_glued (by decide +kernel))

/-- A query that ends in a value. -/
theorem independent_value : Independent init.paramsOf (byte '&') [byte 'a', byte '=']
    [byte 'b', byte '=', byte 'c'] :=
  (independent_iff init fresh_init _ _).1.mpr (.inl (by decide))

/-- The query `a&b=c`: the parameter of the second segment is called `a&b`. -/
theorem segment_glued :
    ¬ Independent init.paramsOf (byte '&') [byte 'a'] [byte 'b', byte '=', byte 'c'] := by
  rw [paramsOf_eq fresh_init]
  intro independent
  have entry := independent [byte 'b']
  simp only [entryOf_parseParam ampersand_ne_equals] at entry
  revert entry
  decide +kernel

end HttpRequest

/-! ## Encoded pairs -/

/-- An encoded pair is read as it was written: its first `=` is the separator, no other
separator and no blank is in it, and the loop takes the two encodings apart, at the end of
a text and in front of another segment. -/
structure Unambiguous (plus : Bool) (k v : Bytes) : Prop where
  separator : find (urlEncode k plus ++ byte '=' :: urlEncode v plus) (byte '=') 0 =
    some (urlEncode k plus).length
  clean : ∀ c ∈ [byte '&', byte ';', byte ' '], c ∉ urlEncode k plus ∧ c ∉ urlEncode v plus
  last : ∀ flag ∈ [byte '&', byte ';'], ∀ m trim,
    parseParam (urlEncode k plus ++ byte '=' :: urlEncode v plus) m flag trim 0 =
      m.insertIfNew (trim (urlEncode k plus)) (urlDecode (urlEncode v plus) true)
  next : ∀ flag ∈ [byte '&', byte ';'], ∀ m trim rest,
    parseParam (urlEncode k plus ++ byte '=' :: (urlEncode v plus ++ flag :: rest)) m flag trim 0 =
      parseParam rest (m.insertIfNew (trim (urlEncode k plus)) (urlDecode (urlEncode v plus) true))
        flag trim 0

/-- `UrlEncode` writes a `=` for a `=`, and for nothing else. -/
theorem equals_mem_urlEncode_iff {s : Bytes} (plus : Bool) :
    byte '=' ∈ urlEncode s plus ↔ byte '=' ∈ s := by
  have itself : byte '=' ∈ encodeByte plus (byte '=') := by
    rw [encodeByte, if_neg (by decide)]
    exact List.mem_singleton_self _
  have noEscape : ¬ (isxdigit (byte '=') = true ∨ byte '=' = byte '+' ∨ byte '=' = byte '%') := by
    decide
  rw [urlEncode_eq, List.mem_flatMap]
  constructor
  · rintro ⟨b, inText, inByte⟩
    rcases mem_encodeByte inByte with ⟨rfl, -⟩ | escape
    · exact inText
    · exact absurd escape noEscape
  · intro inText
    exact ⟨byte '=', inText, itself⟩

/-- The first `=` is the one in the middle when the front has none. -/
theorem find_equals_iff {front rest : Bytes} :
    find (front ++ byte '=' :: rest) (byte '=') 0 = some front.length ↔ byte '=' ∉ front := by
  constructor
  · intro found
    obtain ⟨before, after, parts, free, length⟩ := parts_of_find found
    rw [Nat.zero_add] at length
    obtain ⟨rfl, -⟩ := List.append_inj parts length
    exact free
  · intro free
    have here : (front ++ byte '=' :: rest).drop 0 = front ++ byte '=' :: rest := rfl
    rw [find_append here free, Nat.zero_add]

/-- An encoded pair is unambiguous exactly when its key has no `=`. -/
theorem unambiguous_iff (plus : Bool) (k v : Bytes) : Unambiguous plus k v ↔ byte '=' ∉ k := by
  rw [← equals_mem_urlEncode_iff plus]
  constructor
  · intro whole
    exact find_equals_iff.mp whole.separator
  · intro free
    have clean := separators_not_mem_urlEncode v plus
    have sep : ∀ flag ∈ [byte '&', byte ';'], flag ≠ byte '=' ∧ flag ∉ urlEncode v plus := by
      simp only [List.forall_mem_cons]
      exact ⟨⟨ampersand_ne_equals, clean _ (by simp)⟩, ⟨semicolon_ne_equals, clean _ (by simp)⟩,
        by simp⟩
    refine ⟨find_equals_iff.mpr free,
      fun c inList => ⟨separators_not_mem_urlEncode k plus c inList, clean c inList⟩, ?_, ?_⟩
    · intro flag isFlag m trim
      obtain ⟨distinct, value⟩ := sep flag isFlag
      rw [parseParam_eq distinct, List.drop_zero, Pairs.pairsOf_last free value]
      rfl
    · intro flag isFlag m trim rest
      obtain ⟨distinct, value⟩ := sep flag isFlag
      rw [parseParam_eq distinct, parseParam_eq distinct, List.drop_zero, List.drop_zero,
        Pairs.pairsOf_cons free value]
      rfl

/-- The key `=`. -/
theorem equals_ambiguous : ¬ Unambiguous true [byte '='] [] := by
  intro whole
  have found := whole.separator
  revert found
  decide +kernel

end Sylar
