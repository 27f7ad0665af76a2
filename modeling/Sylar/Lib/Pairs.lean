import Mathlib.Data.List.Basic
import Mathlib.Data.List.DropRight

/-!
# Texts of pairs

A reader of texts such as `a=1&b=2`, over any alphabet: up to the first `eq` it collects
a key, then up to the first `flag` a value, and so on. The reader is a fold, so that what
it makes of two texts with a `flag` between them depends on where the first one leaves it.

* `pairsOf_append`: it leaves the reader in a value, and the texts are read apart.
* `pairsOf_append_open`: it leaves the reader in a key, which goes on in the second text.
* `val_isSome_iff`: the reader is in a value when the last segment has an `eq`.
* `firstOf_rename_iff`: when the name of one pair makes no difference to which pair is the
  first of its class.
-/

namespace Pairs

variable {α : Type*} [DecidableEq α] {eq flag : α}

/-- The pairs so far, the key that is being read, and its value once it is reached. -/
structure Scan (α : Type*) where
  pairs : List (List α × List α)
  key : List α
  val : Option (List α)

/-- One letter. -/
def Scan.next (eq flag : α) (s : Scan α) (c : α) : Scan α :=
  match s.val with
  | none => if c = eq then { s with val := some [] } else { s with key := s.key ++ [c] }
  | some v =>
    if c = flag then ⟨s.pairs ++ [(s.key, v)], [], none⟩ else { s with val := some (v ++ [c]) }

/-- At the end of the text a value is complete, and a key is dropped. -/
def Scan.finish (s : Scan α) : List (List α × List α) :=
  s.pairs ++ (s.val.map fun v => (s.key, v)).toList

def Scan.start : Scan α := ⟨[], [], none⟩

/-- Where a text leaves the reader. -/
def scan (eq flag : α) (text : List α) : Scan α := text.foldl (Scan.next eq flag) .start

/-- The pairs of a text. -/
def pairsOf (eq flag : α) (text : List α) : List (List α × List α) := (scan eq flag text).finish

/-- What stands behind the last `flag`. -/
def lastSegment (flag : α) (text : List α) : List α := text.rtakeWhile (· ≠ flag)

/-! ## Reading -/

/-- Pairs that were read before stay in front. -/
theorem foldl_next_pairs (eq flag : α) (ps : List (List α × List α)) (s : Scan α) (text : List α) :
    text.foldl (Scan.next eq flag) { s with pairs := ps ++ s.pairs } =
      { text.foldl (Scan.next eq flag) s with
        pairs := ps ++ (text.foldl (Scan.next eq flag) s).pairs } := by
  induction text generalizing s with
  | nil => rfl
  | cons c text ih =>
    have one : Scan.next eq flag { s with pairs := ps ++ s.pairs } c =
        { Scan.next eq flag s c with pairs := ps ++ (Scan.next eq flag s c).pairs } := by
      unfold Scan.next
      cases s.val with
      | none =>
        dsimp only
        split <;> rfl
      | some v =>
        dsimp only
        split
        · rw [List.append_assoc]
        · rfl
    rw [List.foldl_cons, one, ih]
    rfl

/-- A text without `eq` goes into the key. -/
theorem foldl_next_key {text : List α} (free : eq ∉ text) (ps : List (List α × List α))
    (key : List α) :
    text.foldl (Scan.next eq flag) ⟨ps, key, none⟩ = ⟨ps, key ++ text, none⟩ := by
  induction text generalizing key with
  | nil => rw [List.append_nil, List.foldl_nil]
  | cons c text ih =>
    rw [List.mem_cons, not_or] at free
    have one : Scan.next eq flag ⟨ps, key, none⟩ c = ⟨ps, key ++ [c], none⟩ :=
      if_neg (Ne.symm free.1)
    rw [List.foldl_cons, one, ih free.2, List.append_assoc, List.singleton_append]

/-- A text without `flag` goes into the value. -/
theorem foldl_next_val {text : List α} (free : flag ∉ text) (ps : List (List α × List α))
    (key v : List α) :
    text.foldl (Scan.next eq flag) ⟨ps, key, some v⟩ = ⟨ps, key, some (v ++ text)⟩ := by
  induction text generalizing v with
  | nil => rw [List.append_nil, List.foldl_nil]
  | cons c text ih =>
    rw [List.mem_cons, not_or] at free
    have one : Scan.next eq flag ⟨ps, key, some v⟩ c = ⟨ps, key, some (v ++ [c])⟩ :=
      if_neg (Ne.symm free.1)
    rw [List.foldl_cons, one, ih free.2, List.append_assoc, List.singleton_append]

/-- Behind a complete pair the reader starts again. -/
theorem finish_foldl_next (ps : List (List α × List α)) (text : List α) :
    (text.foldl (Scan.next eq flag) ⟨ps, [], none⟩).finish = ps ++ pairsOf eq flag text := by
  have before := foldl_next_pairs eq flag ps .start text
  have same : ({ Scan.start with pairs := ps ++ Scan.start.pairs } : Scan α) = ⟨ps, [], none⟩ := by
    rw [Scan.start, List.append_nil]
  rw [same] at before
  rw [before, Scan.finish, List.append_assoc]
  rfl

/-- In a value, the key and the pairs before it make no difference to the rest. -/
theorem finish_foldl_next_val (eq flag : α) (v text : List α) : ∃ v' rest, ∀ ps key,
    (text.foldl (Scan.next eq flag) ⟨ps, key, some v⟩).finish = ps ++ (key, v') :: rest := by
  by_cases ends : flag ∈ text
  · obtain ⟨front, back, rfl, free⟩ := List.eq_append_cons_of_mem ends
    refine ⟨v ++ front, pairsOf eq flag back, fun ps key => ?_⟩
    have one : Scan.next eq flag ⟨ps, key, some (v ++ front)⟩ flag =
        ⟨ps ++ [(key, v ++ front)], [], none⟩ := if_pos rfl
    rw [List.foldl_append, foldl_next_val free, List.foldl_cons, one, finish_foldl_next,
      List.append_assoc, List.singleton_append]
  · refine ⟨v ++ text, [], fun ps key => ?_⟩
    rw [foldl_next_val ends]
    rfl

/-- An `eq` ends the key. -/
theorem foldl_next_eq {k : List α} (free : eq ∉ k) (ps : List (List α × List α))
    (key rest : List α) :
    (k ++ eq :: rest).foldl (Scan.next eq flag) ⟨ps, key, none⟩ =
      rest.foldl (Scan.next eq flag) ⟨ps, key ++ k, some []⟩ := by
  have one : Scan.next eq flag ⟨ps, key ++ k, none⟩ eq = ⟨ps, key ++ k, some []⟩ := if_pos rfl
  rw [List.foldl_append, foldl_next_key free, List.foldl_cons, one]

theorem pairsOf_free {text : List α} (free : eq ∉ text) : pairsOf eq flag text = [] := by
  rw [pairsOf, scan, Scan.start, foldl_next_key free]
  rfl

/-- One pair up to the end. -/
theorem pairsOf_last {k v : List α} (key : eq ∉ k) (value : flag ∉ v) :
    pairsOf eq flag (k ++ eq :: v) = [(k, v)] := by
  rw [pairsOf, scan, Scan.start, foldl_next_eq key, foldl_next_val value]
  rfl

/-- One pair, and the text behind it. -/
theorem pairsOf_cons {k v : List α} (key : eq ∉ k) (value : flag ∉ v) (rest : List α) :
    pairsOf eq flag (k ++ eq :: (v ++ flag :: rest)) = (k, v) :: pairsOf eq flag rest := by
  have one : Scan.next eq flag ⟨[], k, some v⟩ flag = ⟨[(k, v)], [], none⟩ := if_pos rfl
  rw [pairsOf, scan, Scan.start, foldl_next_eq key, List.nil_append, List.foldl_append,
    foldl_next_val value, List.foldl_cons, List.nil_append, one, finish_foldl_next]
  rfl

/-! ## Two texts -/

variable {first second : List α}

/-- The first text ends in a value: the texts are read apart. -/
theorem pairsOf_append (value : (scan eq flag first).val.isSome = true) :
    pairsOf eq flag (first ++ flag :: second) =
      pairsOf eq flag first ++ pairsOf eq flag second := by
  obtain ⟨v, here⟩ := Option.isSome_iff_exists.mp value
  have one : Scan.next eq flag (scan eq flag first) flag = ⟨pairsOf eq flag first, [], none⟩ := by
    rw [Scan.next, here, pairsOf, Scan.finish, here]
    exact if_pos rfl
  have read : scan eq flag (first ++ flag :: second) =
      second.foldl (Scan.next eq flag) ⟨pairsOf eq flag first, [], none⟩ := by
    rw [scan, List.foldl_append, List.foldl_cons, ← one]
    rfl
  conv_lhs => rw [pairsOf, read]
  exact finish_foldl_next _ second

/-- The first pair has another text in front of its key. -/
def rename (front : List α) : List (List α × List α) → List (List α × List α)
  | [] => []
  | (k, v) :: rest => (front ++ k, v) :: rest

/-- The first text ends in a key, which goes on in the second text. -/
theorem pairsOf_append_open (distinct : flag ≠ eq) (key : (scan eq flag first).val = none) :
    pairsOf eq flag (first ++ flag :: second) = pairsOf eq flag first ++
      rename ((scan eq flag first).key ++ [flag]) (pairsOf eq flag second) := by
  have dropped : pairsOf eq flag first = (scan eq flag first).pairs := by
    rw [pairsOf, Scan.finish, key]
    exact List.append_nil _
  have one : Scan.next eq flag (scan eq flag first) flag =
      ⟨pairsOf eq flag first, (scan eq flag first).key ++ [flag], none⟩ := by
    rw [Scan.next, key, dropped]
    exact (if_neg distinct).trans (by rw [← key])
  have read : scan eq flag (first ++ flag :: second) = second.foldl (Scan.next eq flag)
      ⟨pairsOf eq flag first, (scan eq flag first).key ++ [flag], none⟩ := by
    rw [scan, List.foldl_append, List.foldl_cons, ← one]
    rfl
  conv_lhs => rw [pairsOf, read]
  by_cases found : eq ∈ second
  · obtain ⟨k, text, rfl, free⟩ := List.eq_append_cons_of_mem found
    obtain ⟨v, rest, finishes⟩ := finish_foldl_next_val eq flag [] text
    have alone : pairsOf eq flag (k ++ eq :: text) = (k, v) :: rest := by
      rw [pairsOf, scan, Scan.start, foldl_next_eq free, finishes]
      rfl
    rw [foldl_next_eq free, finishes, alone, rename]
  · rw [foldl_next_key found, pairsOf_free found, rename, List.append_nil, Scan.finish]
    exact List.append_nil _

theorem pairsOf_eq_nil_iff : pairsOf eq flag second = [] ↔ eq ∉ second := by
  constructor
  · intro nothing found
    obtain ⟨k, text, rfl, free⟩ := List.eq_append_cons_of_mem found
    obtain ⟨v, rest, finishes⟩ := finish_foldl_next_val eq flag [] text
    rw [pairsOf, scan, Scan.start, foldl_next_eq free, finishes] at nothing
    cases nothing
  · exact pairsOf_free

/-- The reader is in a value exactly when the last segment has an `eq`. -/
theorem val_isSome_iff (distinct : flag ≠ eq) (text : List α) :
    (scan eq flag text).val.isSome = true ↔ eq ∈ lastSegment flag text := by
  induction text using List.reverseRecOn with
  | nil => simp [scan, Scan.start, lastSegment]
  | append_singleton text c ih =>
    have one : scan eq flag (text ++ [c]) = Scan.next eq flag (scan eq flag text) c := by
      rw [scan, List.foldl_append]
      rfl
    rw [one, lastSegment, List.rtakeWhile_concat]
    rw [lastSegment] at ih
    unfold Scan.next
    by_cases stop : c = flag
    · subst stop
      cases here : (scan eq c text).val with
      | none => simp [distinct]
      | some v => simp
    · by_cases equals : c = eq
      · subst equals
        cases here : (scan c flag text).val with
        | none => simp [stop]
        | some v => simp [stop]
      · cases here : (scan eq flag text).val with
        | none => simpa [stop, equals, Ne.symm equals, here] using ih
        | some v => simpa [stop, Ne.symm equals, here] using ih

/-! ## The first pair of a class -/

section Classes

variable {K V C : Type*} [DecidableEq C] (cls : K → C)

/-- The first pair whose key is of a class. -/
def firstOf (pairs : List (K × V)) (x : C) : Option (K × V) := pairs.find? fun p => cls p.1 = x

/-- Between `before` and `after`, a pair makes no difference to which one is the first of
its class: there is one in `before`, or it comes again in `after`. -/
def Settled (before after : List (K × V)) (k : K) (v : V) : Prop :=
  (firstOf cls before (cls k)).isSome = true ∨ firstOf cls after (cls k) = some (k, v)

variable {cls} {before after : List (K × V)} {k k' : K} {v : V} {x : C}

theorem firstOf_append : firstOf cls (before ++ after) x =
    (firstOf cls before x).or (firstOf cls after x) := List.find?_append

theorem firstOf_cons_self : firstOf cls ((k, v) :: after) (cls k) = some (k, v) :=
  List.find?_cons_of_pos (decide_eq_true rfl)

theorem firstOf_cons_ne (other : cls k ≠ x) :
    firstOf cls ((k, v) :: after) x = firstOf cls after x :=
  List.find?_cons_of_neg (by simpa using other)

/-- The pair can be left out. -/
theorem Settled.drop (settled : Settled cls before after k v) :
    (firstOf cls before x).or (firstOf cls ((k, v) :: after) x) =
      (firstOf cls before x).or (firstOf cls after x) := by
  by_cases own : cls k = x
  · subst own
    rcases settled with there | again
    · obtain ⟨p, found⟩ := Option.isSome_iff_exists.mp there
      rw [found, Option.some_or, Option.some_or]
    · rw [firstOf_cons_self, again]
  · rw [firstOf_cons_ne own]

/-- A pair under another name makes a difference to a class unless it can be left out under
both names. -/
theorem firstOf_rename_iff :
    (∀ key, firstOf cls (before ++ (k', v) :: after) (cls key) =
        firstOf cls (before ++ (k, v) :: after) (cls key)) ↔
      k' = k ∨ Settled cls before after k v ∧ Settled cls before after k' v := by
  constructor
  · intro same
    by_cases renamed : k' = k
    · exact .inl renamed
    have settled {a b : K} (distinct : a ≠ b)
        (here : firstOf cls (before ++ (b, v) :: after) (cls a) =
          firstOf cls (before ++ (a, v) :: after) (cls a)) : Settled cls before after a v := by
      rw [firstOf_append, firstOf_append, firstOf_cons_self] at here
      cases there : firstOf cls before (cls a) with
      | some p => exact .inl (by rw [there]; rfl)
      | none =>
        rw [there, Option.none_or, Option.none_or] at here
        by_cases classes : cls b = cls a
        · rw [← classes, firstOf_cons_self, Option.some.injEq, Prod.mk.injEq] at here
          exact absurd here.1.symm distinct
        · rw [firstOf_cons_ne classes] at here
          exact .inr here
    exact .inr ⟨settled (Ne.symm renamed) (same k), settled renamed (same k').symm⟩
  · rintro (rfl | ⟨settled, settled'⟩) key
    · rfl
    · rw [firstOf_append, firstOf_append, settled.drop, settled'.drop]

end Classes

end Pairs
