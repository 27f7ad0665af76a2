import Mathlib.Data.Nat.Notation
import Mathlib.Data.List.Basic

/-!
# Text forms of IPv6 addresses

The three text forms of RFC 4291, section 2.2: eight groups of hexadecimal digits; the same
with one run of zero groups written `::`; either of them with the last two groups written
as four decimal octets. `read` gives the groups of a text.

* `read_full`, `read_compressed`: the first two forms read back as the groups they are
  made of.
* `doubles`: how often `::` stands in a text.
-/

namespace Rfc4291

abbrev Text := List UInt8

def colon : UInt8 := 58

def dot : UInt8 := 46

/-! ## Reading -/

/-- The value of a hexadecimal digit, in either case. -/
def hexDigit (c : UInt8) : Option ℕ :=
  if 48 ≤ c ∧ c ≤ 57 then some (c.toNat - 48)
  else if 97 ≤ c ∧ c ≤ 102 then some (c.toNat - 87)
  else if 65 ≤ c ∧ c ≤ 70 then some (c.toNat - 55)
  else none

/-- The value of a decimal digit. -/
def decDigit (c : UInt8) : Option ℕ := if 48 ≤ c ∧ c ≤ 57 then some (c.toNat - 48) else none

/-- The number that digits continue `n` to. -/
def readDigits (base : ℕ) (digit : UInt8 → Option ℕ) (n : ℕ) : Text → Option ℕ
  | [] => some n
  | c :: rest => (digit c).bind fun d => readDigits base digit (base * n + d) rest

/-- A group: one to four hexadecimal digits. -/
def readGroup (text : Text) : Option ℕ :=
  if text = [] ∨ 4 < text.length then none else readDigits 16 hexDigit 0 text

/-- An octet: a decimal number below 256, without leading zeros. -/
def readOctet (text : Text) : Option ℕ :=
  if text = [] ∨ 3 < text.length ∨ (text.head? = some 48 ∧ 1 < text.length) then none
  else (readDigits 10 decDigit 0 text).filter (· < 256)

/-- Four octets, as two groups. -/
def readQuad (text : Text) : Option (List ℕ) :=
  match (text.splitOn dot).mapM readOctet with
  | some [a, b, c, d] => some [256 * a + b, 256 * c + d]
  | _ => none

/-- The groups on one side of `::`. The last two may be octets where the text ends. -/
def readSide (ends : Bool) (text : Text) : Option (List ℕ) :=
  if text = [] then some []
  else
    let pieces := text.splitOn colon
    match pieces.mapM readGroup with
    | some groups => some groups
    | none =>
      if ends = true then do
        let front ← pieces.dropLast.mapM readGroup
        let quad ← readQuad (pieces.getLastD [])
        some (front ++ quad)
      else none

/-- What stands on the two sides of the first `::`. -/
def splitDouble : Text → Option (Text × Text)
  | a :: b :: rest =>
    if a = colon ∧ b = colon then some ([], rest)
    else (splitDouble (b :: rest)).map fun sides => (a :: sides.1, sides.2)
  | _ => none

/-- The eight groups of a text; the `::` stands for at least one. -/
def read (text : Text) : Option (List ℕ) :=
  match splitDouble text with
  | none => (readSide true text).filter fun groups => groups.length = 8
  | some (left, right) => do
    let before ← readSide false left
    let after ← readSide true right
    if before.length + after.length < 8 then
      some (before ++ List.replicate (8 - (before.length + after.length)) 0 ++ after)
    else none

/-- The octets of eight groups, in network order. -/
def octets (groups : List ℕ) : Vector UInt8 16 :=
  Vector.ofFn fun i =>
    if i.val % 2 = 0 then UInt8.ofNat (groups.getD (i.val / 2) 0 / 256)
    else UInt8.ofNat (groups.getD (i.val / 2) 0)

/-- How often `::` stands in a text, also where two of them overlap. -/
def doubles : Text → ℕ
  | a :: b :: rest => (if a = colon ∧ b = colon then 1 else 0) + doubles (b :: rest)
  | _ => 0

/-! ## Groups -/

/-- A number in digits. -/
def digitText (base n : ℕ) : Text := (Nat.toDigits base n).map fun c => UInt8.ofNat c.toNat

theorem readDigits_append {base n : ℕ} {digit : UInt8 → Option ℕ} (front back : Text) :
    readDigits base digit n (front ++ back) =
      (readDigits base digit n front).bind fun m => readDigits base digit m back := by
  induction front generalizing n with
  | nil => rfl
  | cons c front ih =>
    rw [List.cons_append, readDigits, readDigits]
    cases digit c with
    | none => rfl
    | some d => exact ih

/-- Every letter of a number is a digit. -/
theorem digit_of_readDigits {base n m : ℕ} {digit : UInt8 → Option ℕ} {text : Text}
    (number : readDigits base digit n text = some m) : ∀ c ∈ text, (digit c).isSome := by
  induction text generalizing n with
  | nil => exact fun c inText => absurd inText List.not_mem_nil
  | cons first rest ih =>
    obtain ⟨d, first_digit, later⟩ := Option.bind_eq_some_iff.mp number
    intro c inText
    rcases List.mem_cons.mp inText with rfl | inRest
    · rw [first_digit]
      rfl
    · exact ih later c inRest

theorem hexDigit_digitChar : ∀ d < 16, hexDigit (UInt8.ofNat (Nat.digitChar d).toNat) = some d := by
  decide

/-- What is written in a base up to 16 reads back in it. -/
theorem readDigits_digitText {base : ℕ} (two : 1 < base) (sixteen : base ≤ 16) (n : ℕ) :
    readDigits base hexDigit 0 (digitText base n) = some n := by
  induction n using Nat.strongRecOn with
  | ind n ih =>
    rcases Nat.lt_or_ge n base with small | large
    · rw [digitText, Nat.toDigits_of_lt_base small, List.map_singleton, readDigits,
        hexDigit_digitChar n (by omega), Option.bind_some, readDigits, Nat.mul_zero, Nat.zero_add]
    · have digits : digitText base n =
          digitText base (n / base) ++ [UInt8.ofNat (Nat.digitChar (n % base)).toNat] := by
        rw [digitText, Nat.toDigits_of_base_le two large, List.map_append]
        rfl
      have last : n % base < base := Nat.mod_lt n (by omega)
      rw [digits, readDigits_append, ih (n / base) (Nat.div_lt_self (by omega) two),
        Option.bind_some, readDigits, hexDigit_digitChar _ (by omega), Option.bind_some, readDigits,
        Nat.div_add_mod]

theorem digitText_injective {base : ℕ} (two : 1 < base) (sixteen : base ≤ 16) {m n : ℕ}
    (same : digitText base m = digitText base n) : m = n := by
  have read := readDigits_digitText two sixteen m
  rw [same, readDigits_digitText two sixteen n] at read
  exact (Option.some.inj read).symm

/-- A number of 16 bits is written as a group. -/
theorem readGroup_digitText {n : ℕ} (small : n < 65536) : readGroup (digitText 16 n) = some n := by
  have nonempty : digitText 16 n ≠ [] := List.map_eq_nil_iff.not.mpr Nat.toDigits_ne_nil
  have short : (digitText 16 n).length ≤ 4 := by
    rw [digitText, List.length_map]
    exact (Nat.length_toDigits_le_iff (by decide) (by decide)).mpr small
  rw [readGroup, if_neg (by simp [nonempty, short]),
    readDigits_digitText (by decide) (by decide)]

theorem readGroups_digitText {groups : List ℕ} (small : ∀ n ∈ groups, n < 65536) :
    (groups.map (digitText 16)).mapM readGroup = some groups := by
  induction groups with
  | nil => rfl
  | cons n groups ih =>
    rw [List.map_cons, List.mapM_cons, readGroup_digitText (small n List.mem_cons_self),
      ih fun m inGroups => small m (List.mem_cons_of_mem n inGroups)]
    rfl

/-- A text that has no colon and is not empty. -/
def Plain (text : Text) : Prop := text ≠ [] ∧ colon ∉ text

theorem digits_of_readGroup {text : Text} {n : ℕ} (group : readGroup text = some n) :
    text ≠ [] ∧ ∀ c ∈ text, (hexDigit c).isSome := by
  rw [readGroup] at group
  split_ifs at group with length
  exact ⟨fun empty => length (.inl empty), digit_of_readDigits group⟩

theorem plain_of_readGroup {text : Text} {n : ℕ} (group : readGroup text = some n) :
    Plain text := by
  obtain ⟨nonempty, digits⟩ := digits_of_readGroup group
  exact ⟨nonempty, fun inText => absurd (digits colon inText) (by decide)⟩

/-- Each of several texts that read as groups is a group. -/
theorem group_of_readGroups {texts : List Text} {groups : List ℕ}
    (read : texts.mapM readGroup = some groups) : ∀ t ∈ texts, ∃ n, readGroup t = some n := by
  induction texts generalizing groups with
  | nil => exact fun t inTexts => absurd inTexts List.not_mem_nil
  | cons first rest ih =>
    rw [List.mapM_cons] at read
    obtain ⟨n, own, later⟩ := Option.bind_eq_some_iff.mp read
    obtain ⟨more, others, -⟩ := Option.bind_eq_some_iff.mp later
    intro t inTexts
    rcases List.mem_cons.mp inTexts with rfl | inRest
    · exact ⟨n, own⟩
    · exact ih others t inRest

theorem plain_of_readGroups {texts : List Text} {groups : List ℕ}
    (read : texts.mapM readGroup = some groups) : ∀ t ∈ texts, Plain t := by
  intro t inTexts
  obtain ⟨n, group⟩ := group_of_readGroups read t inTexts
  exact plain_of_readGroup group

/-! ## Groups between colons -/

/-- Groups with a colon between each two. -/
def join (texts : List Text) : Text := List.intercalate [colon] texts

theorem join_cons_cons (h k : Text) (texts : List Text) :
    join (h :: k :: texts) = h ++ colon :: join (k :: texts) := by
  rw [join, List.intercalate_cons_cons, List.append_assoc, List.singleton_append, join]

theorem head?_join {h : Text} (plain : Plain h) (texts : List Text) (t : Text) :
    (join (h :: texts) ++ t).head? ≠ some colon := by
  obtain ⟨c, rest, rfl⟩ := List.exists_cons_of_ne_nil plain.1
  have apart : c ≠ colon := fun same => plain.2 (same ▸ List.mem_cons_self)
  cases texts with
  | nil =>
    rw [join, List.intercalate_singleton]
    exact fun same => apart (Option.some.inj same)
  | cons k texts =>
    rw [join_cons_cons]
    exact fun same => apart (Option.some.inj same)

/-- Every group but the first comes with a colon. -/
theorem join_cons (h : Text) (texts : List Text) :
    join (h :: texts) = h ++ texts.flatMap (colon :: ·) := by
  induction texts generalizing h with
  | nil =>
    rw [join, List.intercalate_singleton]
    exact (List.append_nil h).symm
  | cons k texts ih =>
    rw [join_cons_cons, ih k, List.flatMap_cons]
    rfl

/-- Joined groups consist of colons and hexadecimal digits. -/
theorem letters_join {texts : List Text} {groups : List ℕ}
    (written : texts.mapM readGroup = some groups) :
    ∀ c ∈ join texts, c = colon ∨ (hexDigit c).isSome := by
  have letters : ∀ h ∈ texts, ∀ c ∈ h, (hexDigit c).isSome := by
    intro h inTexts
    obtain ⟨g, group⟩ := group_of_readGroups written h inTexts
    exact (digits_of_readGroup group).2
  cases texts with
  | nil => exact fun c inText => absurd inText List.not_mem_nil
  | cons h texts =>
    intro c inText
    rw [join_cons, List.mem_append, List.mem_flatMap] at inText
    rcases inText with inFirst | ⟨k, inTexts, inPiece⟩
    · exact .inr (letters h List.mem_cons_self c inFirst)
    · rcases List.mem_cons.mp inPiece with rfl | inGroup
      · exact .inl rfl
      · exact .inr (letters k (List.mem_cons_of_mem h inTexts) c inGroup)

/-- No `::` begins with `a` in front of `t`. -/
def Apart (a : UInt8) (t : Text) : Prop := ¬ (a = colon ∧ t.head? = some colon)

theorem splitDouble_cons {a : UInt8} {t : Text} (apart : Apart a t) :
    splitDouble (a :: t) = (splitDouble t).map fun sides => (a :: sides.1, sides.2) := by
  cases t with
  | nil => rfl
  | cons b rest =>
    have single : ¬ (a = colon ∧ b = colon) := fun both => apart ⟨both.1, congrArg some both.2⟩
    rw [splitDouble, if_neg single]

theorem doubles_cons {a : UInt8} {t : Text} (apart : Apart a t) :
    doubles (a :: t) = doubles t := by
  cases t with
  | nil => rfl
  | cons b rest =>
    have single : ¬ (a = colon ∧ b = colon) := fun both => apart ⟨both.1, congrArg some both.2⟩
    rw [doubles, if_neg single, Nat.zero_add]

theorem splitDouble_append {h : Text} (free : colon ∉ h) (t : Text) :
    splitDouble (h ++ t) = (splitDouble t).map fun sides => (h ++ sides.1, sides.2) := by
  induction h with
  | nil => exact Option.map_id'.symm
  | cons a h ih =>
    have later : colon ∉ h := fun inRest => free (List.mem_cons_of_mem a inRest)
    have apart : Apart a (h ++ t) := fun both => free (both.1 ▸ List.mem_cons_self)
    rw [List.cons_append, splitDouble_cons apart, ih later, Option.map_map]
    rfl

theorem doubles_append {h : Text} (free : colon ∉ h) (t : Text) : doubles (h ++ t) = doubles t := by
  induction h with
  | nil => rfl
  | cons a h ih =>
    have later : colon ∉ h := fun inRest => free (List.mem_cons_of_mem a inRest)
    have apart : Apart a (h ++ t) := fun both => free (both.1 ▸ List.mem_cons_self)
    rw [List.cons_append, doubles_cons apart, ih later]

/-- A `::` behind joined groups is the first one. -/
theorem splitDouble_join {texts : List Text} (plain : ∀ h ∈ texts, Plain h) (t : Text) :
    splitDouble (join texts ++ t) =
      (splitDouble t).map fun sides => (join texts ++ sides.1, sides.2) := by
  induction texts with
  | nil => exact Option.map_id'.symm
  | cons h texts ih =>
    have own := plain h List.mem_cons_self
    cases texts with
    | nil =>
      rw [join, List.intercalate_singleton]
      exact splitDouble_append own.2 t
    | cons k texts =>
      have others : ∀ h ∈ k :: texts, Plain h := fun h inTexts =>
        plain h (List.mem_cons_of_mem _ inTexts)
      have apart : Apart colon (join (k :: texts) ++ t) := fun both =>
        head?_join (others k List.mem_cons_self) texts t both.2
      rw [join_cons_cons, List.append_assoc, splitDouble_append own.2, List.cons_append,
        splitDouble_cons apart, ih others, Option.map_map, Option.map_map]
      simp only [Function.comp_def, List.append_assoc, List.cons_append]

theorem doubles_join {texts : List Text} (plain : ∀ h ∈ texts, Plain h) (t : Text) :
    doubles (join texts ++ t) = doubles t := by
  induction texts with
  | nil => rfl
  | cons h texts ih =>
    have own := plain h List.mem_cons_self
    cases texts with
    | nil =>
      rw [join, List.intercalate_singleton]
      exact doubles_append own.2 t
    | cons k texts =>
      have others : ∀ h ∈ k :: texts, Plain h := fun h inTexts =>
        plain h (List.mem_cons_of_mem _ inTexts)
      have apart : Apart colon (join (k :: texts) ++ t) := fun both =>
        head?_join (others k List.mem_cons_self) texts t both.2
      rw [join_cons_cons, List.append_assoc, doubles_append own.2, List.cons_append,
        doubles_cons apart, ih others]

/-- Joined groups read back. -/
theorem readSide_join {texts : List Text} {groups : List ℕ} (ends : Bool)
    (read : texts.mapM readGroup = some groups) : readSide ends (join texts) = some groups := by
  have plain := plain_of_readGroups read
  cases texts with
  | nil =>
    cases read
    rfl
  | cons h texts =>
    have nonempty : join (h :: texts) ≠ [] := by
      intro empty
      have own := (plain h List.mem_cons_self).1
      cases texts with
      | nil =>
        rw [join, List.intercalate_singleton] at empty
        exact own empty
      | cons k texts =>
        rw [join_cons_cons] at empty
        exact own (List.append_eq_nil_iff.mp empty).1
    have pieces : (join (h :: texts)).splitOn colon = h :: texts :=
      List.splitOn_intercalate colon (fun t inTexts => (plain t inTexts).2)
        (List.cons_ne_nil h texts)
    rw [readSide, if_neg nonempty]
    simp only [pieces, read]

/-! ## The first two forms -/

/-- Eight groups. -/
theorem read_full {texts : List Text} {groups : List ℕ}
    (written : texts.mapM readGroup = some groups)
    (all : groups.length = 8) : read (join texts) = some groups ∧ doubles (join texts) = 0 := by
  have plain := plain_of_readGroups written
  constructor
  · have single := splitDouble_join plain []
    rw [List.append_nil] at single
    have single : splitDouble (join texts) = none := single
    rw [read, single]
    simp only [readSide_join true written, Option.filter_some, decide_eq_true all, if_true]
  · have none := doubles_join plain []
    rw [List.append_nil] at none
    exact none

/-- A run of zero groups written as `::`. -/
theorem read_compressed {left right : List Text} {before after : List ℕ}
    (writtenLeft : left.mapM readGroup = some before)
    (writtenRight : right.mapM readGroup = some after) (short : before.length + after.length < 8) :
    read (join left ++ colon :: colon :: join right) =
        some (before ++ List.replicate (8 - (before.length + after.length)) 0 ++ after) ∧
      doubles (join left ++ colon :: colon :: join right) = 1 := by
  have plainLeft := plain_of_readGroups writtenLeft
  have plainRight := plain_of_readGroups writtenRight
  constructor
  · have sides := splitDouble_join plainLeft (colon :: colon :: join right)
    have here : splitDouble (colon :: colon :: join right) = some ([], join right) :=
      if_pos ⟨rfl, rfl⟩
    rw [here, Option.map_some, List.append_nil] at sides
    rw [read, sides]
    simp only [readSide_join false writtenLeft, readSide_join true writtenRight,
      Option.bind_eq_bind, Option.bind_some, if_pos short]
  · have rest : doubles (colon :: join right) = 0 := by
      cases right with
      | nil => rfl
      | cons h right =>
        have apart : Apart colon (join (h :: right)) := fun both => by
          have head := head?_join (plainRight h List.mem_cons_self) right []
          rw [List.append_nil] at head
          exact head both.2
        have none := doubles_join plainRight []
        rw [List.append_nil] at none
        rw [doubles_cons apart, none]
        rfl
    rw [doubles_join plainLeft, doubles, if_pos ⟨rfl, rfl⟩, rest]

end Rfc4291
