import Sylar.Log.Formatter

/-!
# The loop over a pattern

`parsePattern` looks for the end of a `%d{` from the beginning of the pattern. It goes on
behind what it finds there, so that it comes back to where it has been when the first `}`
stands before the brace, and to the beginning when there is none.

* `parsePattern_iff`: when the loop ends.
-/

namespace Sylar

open Bytes

/-! ## Reading a pattern -/

/-- The beginning of a text, by the cases of the loop. -/
inductive Front : Bytes → Prop where
  | done : Front []
  | char (c : UInt8) (rest : Bytes) (plain : c ≠ byte '%') : Front (c :: rest)
  | percent : Front [byte '%']
  | opening (rest : Bytes) : Front (byte '%' :: byte 'd' :: byte '{' :: rest)
  | escape (d : UInt8) (rest : Bytes) (closed : ¬ (d = byte 'd' ∧ rest.head? = some (byte '{'))) :
    Front (byte '%' :: d :: rest)

theorem front (text : Bytes) : Front text := by
  rcases text with _ | ⟨c, rest⟩
  · exact .done
  by_cases plain : c = byte '%'
  · subst plain
    rcases rest with _ | ⟨d, rest⟩
    · exact .percent
    · by_cases brace : d = byte 'd' ∧ rest.head? = some (byte '{')
      · obtain ⟨rfl, first⟩ := brace
        rcases rest with _ | ⟨e, rest⟩
        · cases first
        · obtain rfl := Option.some.inj first
          exact .opening rest
      · exact .escape d rest brace
  · exact .char c rest plain

/-- Induction over a text, by its beginning. -/
theorem Front.induction {motive : Bytes → Prop}
    (next : ∀ text, Front text → (∀ rest, rest.length < text.length → motive rest) → motive text)
    (text : Bytes) : motive text := by
  induction size : text.length using Nat.strongRecOn generalizing text with
  | ind n ih =>
    apply next text (front text)
    intro rest shorter
    exact ih rest.length (size ▸ shorter) rest rfl

/-- Where the first `%d{` stands that reading from left to right comes to, in a text that
begins at `i`. -/
def firstOpen : Bytes → ℕ → Option ℕ
  | [], _ => none
  | [_], _ => none
  | c :: d :: rest, i =>
    if c = byte '%' then
      if d = byte 'd' ∧ rest.head? = some (byte '{') then some i else firstOpen rest (i + 2)
    else firstOpen (d :: rest) (i + 1)

/-- Reading comes to no `%d{`; or the first one stands before the first `}` of the pattern,
and behind that one there is none. -/
def SingleDate (p : Bytes) : Prop :=
  ∀ j ∈ firstOpen p 0, ∃ pos ∈ find p (byte '}') 0,
    j < pos ∧ firstOpen (p.drop (pos + 1)) (pos + 1) = none

instance (p : Bytes) : Decidable (SingleDate p) :=
  inferInstanceAs (Decidable (∀ j ∈ firstOpen p 0, ∃ pos ∈ find p (byte '}') 0,
    j < pos ∧ firstOpen (p.drop (pos + 1)) (pos + 1) = none))

section Read

variable {c d : UInt8} {rest : Bytes} {i : ℕ}

theorem firstOpen_char (plain : c ≠ byte '%') :
    firstOpen (c :: rest) i = firstOpen rest (i + 1) := by
  cases rest with
  | nil => rfl
  | cons d rest => rw [firstOpen, if_neg plain]

theorem firstOpen_opening :
    firstOpen (byte '%' :: byte 'd' :: byte '{' :: rest) i = some i := by
  rw [firstOpen, if_pos rfl, if_pos ⟨rfl, rfl⟩]

theorem firstOpen_escape (closed : ¬ (d = byte 'd' ∧ rest.head? = some (byte '{'))) :
    firstOpen (byte '%' :: d :: rest) i = firstOpen rest (i + 2) := by
  rw [firstOpen, if_pos rfl, if_neg closed]

end Read

/-! ## One iteration -/

section Iteration

variable {p : Bytes} {s : Parse} {c d : UInt8} {rest : Bytes}

theorem iterate_done (here : p.drop s.i = []) : iterate p s = none := by
  have first : p[s.i]? = none := by rw [← List.head?_drop, here, List.head?_nil]
  rw [iterate, first]

theorem iterate_char (here : p.drop s.i = c :: rest) (plain : c ≠ byte '%') :
    iterate p s = some { s with logmsg := s.logmsg ++ [([c], none)], i := s.i + 1 } := by
  have first : p[s.i]? = some c := by rw [← List.head?_drop, here, List.head?_cons]
  simp only [iterate, first]
  exact if_pos plain

theorem iterate_percent (here : p.drop s.i = [byte '%']) :
    iterate p s = some { s with logmsg := s.logmsg ++ [([byte '%'], none)], i := s.i + 1 } := by
  have first : p[s.i]? = some (byte '%') := by rw [← List.head?_drop, here, List.head?_cons]
  have second : p[s.i + 1]? = none := by rw [← List.getElem?_drop, here]; rfl
  simp only [iterate, first, second]
  exact if_neg (not_not_intro rfl)

theorem iterate_opening (here : p.drop s.i = byte '%' :: byte 'd' :: byte '{' :: rest) :
    iterate p s = some {
      logmsg := s.logmsg ++ [([byte '%', byte 'd'], some .DateTime)]
      timeformater := substr p (s.i + 3) (braceLength (find p (byte '}') 0) s.i)
      i := behindBrace (find p (byte '}') 0) } := by
  have first : p[s.i]? = some (byte '%') := by rw [← List.head?_drop, here, List.head?_cons]
  have second : p[s.i + 1]? = some (byte 'd') := by rw [← List.getElem?_drop, here]; rfl
  have third : p[s.i + 2]? = some (byte '{') := by rw [← List.getElem?_drop, here]; rfl
  simp only [iterate, first, second, third]
  exact (if_neg (not_not_intro rfl)).trans (if_pos (by decide))

theorem iterate_escape (here : p.drop s.i = byte '%' :: d :: rest)
    (closed : ¬ (d = byte 'd' ∧ rest.head? = some (byte '{'))) :
    iterate p s = some { s with
      logmsg := s.logmsg ++ [([byte '%', d], getItemfunction d)]
      i := s.i + 2 } := by
  have first : p[s.i]? = some (byte '%') := by rw [← List.head?_drop, here, List.head?_cons]
  have second : p[s.i + 1]? = some d := by rw [← List.getElem?_drop, here]; rfl
  have third : p[s.i + 2]? = rest.head? := by
    rw [← List.getElem?_drop, here, List.head?_eq_getElem?]
    rfl
  simp only [iterate, first, second, third]
  exact (if_neg (not_not_intro rfl)).trans (if_neg closed)

end Iteration

/-! ## The index -/

/-- The index after one iteration: it does not depend on the members. -/
def nextIndex (p : Bytes) (i : ℕ) : Option ℕ := (iterate p ⟨i, [], []⟩).map Parse.i

/-- A `%d{` stands at an index. -/
def Opens (p : Bytes) (i : ℕ) : Prop :=
  ∃ rest, p.drop i = byte '%' :: byte 'd' :: byte '{' :: rest

section Index

variable {p rest : Bytes} {c d : UInt8} {i i' j pos : ℕ}

theorem nextIndex_done (here : p.drop i = []) : nextIndex p i = none := by
  rw [nextIndex, iterate_done (s := ⟨i, [], []⟩) here, Option.map_none]

theorem nextIndex_char (here : p.drop i = c :: rest) (plain : c ≠ byte '%') :
    nextIndex p i = some (i + 1) := by
  rw [nextIndex, iterate_char (s := ⟨i, [], []⟩) here plain, Option.map_some]

theorem nextIndex_percent (here : p.drop i = [byte '%']) : nextIndex p i = some (i + 1) := by
  rw [nextIndex, iterate_percent (s := ⟨i, [], []⟩) here, Option.map_some]

theorem nextIndex_opening (here : p.drop i = byte '%' :: byte 'd' :: byte '{' :: rest) :
    nextIndex p i = some (behindBrace (find p (byte '}') 0)) := by
  rw [nextIndex, iterate_opening (s := ⟨i, [], []⟩) here, Option.map_some]

theorem nextIndex_escape (here : p.drop i = byte '%' :: d :: rest)
    (closed : ¬ (d = byte 'd' ∧ rest.head? = some (byte '{'))) :
    nextIndex p i = some (i + 2) := by
  rw [nextIndex, iterate_escape (s := ⟨i, [], []⟩) here closed, Option.map_some]

theorem nextIndex_eq (p : Bytes) (s : Parse) : (iterate p s).map Parse.i = nextIndex p s.i := by
  generalize here : p.drop s.i = text
  cases front text with
  | done => rw [iterate_done here, nextIndex_done here, Option.map_none]
  | char c rest plain => rw [iterate_char here plain, nextIndex_char here plain, Option.map_some]
  | percent => rw [iterate_percent here, nextIndex_percent here, Option.map_some]
  | opening rest => rw [iterate_opening here, nextIndex_opening here, Option.map_some]
  | escape d rest closed =>
    rw [iterate_escape here closed, nextIndex_escape here closed, Option.map_some]

theorem firstOpen_of_opens (opens : Opens p i) : firstOpen (p.drop i) i = some i := by
  obtain ⟨rest, here⟩ := opens
  rw [here, firstOpen_opening]

/-- What an iteration does to the index: at a `%d{` it goes behind the first `}` of the
pattern, elsewhere forward, to where reading goes on, and not past a `}` that it has not
come to. -/
theorem nextIndex_cases (step : nextIndex p i = some i') :
    i < p.length ∧ (Opens p i ∧ i' = behindBrace (find p (byte '}') 0) ∨
      i < i' ∧ firstOpen (p.drop i') i' = firstOpen (p.drop i) i ∧
        ∀ pos, i ≤ pos → p[pos]? = some (byte '}') → i' ≤ pos + 1) := by
  have behind (n : ℕ) : p.drop (i + n) = (p.drop i).drop n := by rw [List.drop_drop]
  have inside : i < p.length := by
    by_contra past
    rw [nextIndex_done (List.drop_of_length_le (Nat.le_of_not_lt past))] at step
    cases step
  refine ⟨inside, ?_⟩
  generalize here : p.drop i = text at behind
  cases front text with
  | done =>
    rw [nextIndex_done here] at step
    cases step
  | char c rest plain =>
    rw [nextIndex_char here plain, Option.some.injEq] at step
    subst step
    refine .inr ⟨Nat.lt_succ_self i, ?_, fun pos ahead _ => Nat.succ_le_succ ahead⟩
    rw [firstOpen_char plain, behind 1, List.drop_one, List.tail_cons]
  | percent =>
    rw [nextIndex_percent here, Option.some.injEq] at step
    subst step
    refine .inr ⟨Nat.lt_succ_self i, ?_, fun pos ahead _ => Nat.succ_le_succ ahead⟩
    rw [behind 1]
    rfl
  | opening rest =>
    rw [nextIndex_opening here, Option.some.injEq] at step
    exact .inl ⟨⟨rest, here⟩, step.symm⟩
  | escape d rest closed =>
    rw [nextIndex_escape here closed, Option.some.injEq] at step
    subst step
    refine .inr ⟨by omega, ?_, fun pos ahead brace => ?_⟩
    · rw [firstOpen_escape closed, behind 2]
      rfl
    · -- the `%` itself is no `}`
      have first : p[i]? = some (byte '%') := by rw [← List.head?_drop, here, List.head?_cons]
      have other : pos ≠ i := by
        rintro rfl
        rw [first] at brace
        exact absurd (Option.some.inj brace) (by decide)
      omega

/-- The loop is left at the end of the pattern. -/
theorem drop_of_nextIndex (stop : nextIndex p i = none) : p.drop i = [] := by
  generalize here : p.drop i = text
  cases front text with
  | done => rfl
  | char c rest plain =>
    rw [nextIndex_char here plain] at stop
    cases stop
  | percent =>
    rw [nextIndex_percent here] at stop
    cases stop
  | opening rest =>
    rw [nextIndex_opening here] at stop
    cases stop
  | escape d rest closed =>
    rw [nextIndex_escape here closed] at stop
    cases stop

/-- Reading goes the way of the loop, as far as the first `%d{`. -/
theorem reaches_firstOpen (first : firstOpen (p.drop i) i = some j) :
    Loop.Reaches (nextIndex p) i j ∧ Opens p j ∧ i ≤ j := by
  induction left : p.length - i using Nat.strongRecOn generalizing i with
  | ind n ih =>
    cases step : nextIndex p i with
    | none =>
      rw [drop_of_nextIndex step] at first
      cases first
    | some i' =>
      obtain ⟨inside, ⟨opens, -⟩ | ⟨forward, same, -⟩⟩ := nextIndex_cases step
      · rw [firstOpen_of_opens opens] at first
        obtain rfl := Option.some.inj first
        exact ⟨.refl, opens, Nat.le_refl _⟩
      · obtain ⟨reach, opens, behind⟩ := ih (p.length - i') (by omega) (same.trans first) rfl
        exact ⟨.head step reach, opens, by omega⟩

/-- On its way past the first `}` of the pattern the loop comes to the index behind it. -/
theorem reaches_behind (found : find p (byte '}') 0 = some pos)
    (reach : Loop.Reaches (nextIndex p) 0 j) :
    j ≤ pos ∨ Loop.Reaches (nextIndex p) (pos + 1) j := by
  have brace := getElem?_of_find found
  induction reach with
  | refl => exact .inl (Nat.zero_le pos)
  | @tail k k' _ step ih =>
    rcases ih with before | behind
    · obtain ⟨-, ⟨-, rfl⟩ | ⟨-, -, notPast⟩⟩ := nextIndex_cases step
      · rw [found]
        exact .inr .refl
      · rcases Nat.le_or_eq_of_le_succ (notPast pos before brace) with still | rfl
        · exact .inl still
        · exact .inr .refl
    · exact .inr (behind.tail step)

/-- Otherwise the loop comes to a `%d{` behind the first `}`, or where there is no `}`. -/
theorem reaches_bad (several : ¬ SingleDate p) :
    ∃ j, Loop.Reaches (nextIndex p) 0 j ∧ Opens p j ∧ behindBrace (find p (byte '}') 0) ≤ j := by
  simp only [SingleDate, not_forall, not_exists, not_and] at several
  obtain ⟨j, first, several⟩ := several
  obtain ⟨reach, opens, -⟩ := reaches_firstOpen (i := 0) first
  cases found : find p (byte '}') 0 with
  | none => exact ⟨j, reach, opens, Nat.zero_le j⟩
  | some pos =>
    by_cases before : j < pos
    · obtain ⟨k, second⟩ := Option.ne_none_iff_exists'.mp (several pos found before)
      obtain ⟨onward, opens', behind⟩ := reaches_firstOpen second
      obtain ⟨rest, here⟩ := opens
      have step := nextIndex_opening here
      rw [found] at step
      exact ⟨k, (reach.tail step).trans onward, opens', behind⟩
    · -- the brace is not the `%` of the escape
      have other : j ≠ pos := by
        rintro rfl
        obtain ⟨rest, here⟩ := opens
        have percent : p[j]? = some (byte '%') := by
          rw [← List.head?_drop, here, List.head?_cons]
        rw [getElem?_of_find found] at percent
        exact absurd (Option.some.inj percent) (by decide)
      exact ⟨j, reach, opens, Nat.lt_of_le_of_ne (Nat.le_of_not_lt before) other.symm⟩

/-- From there it comes back. -/
theorem returns_of_bad (reach : Loop.Reaches (nextIndex p) 0 j) (opens : Opens p j)
    (back : behindBrace (find p (byte '}') 0) ≤ j) :
    Relation.TransGen (Loop.Step (nextIndex p)) j j := by
  obtain ⟨rest, here⟩ := opens
  have step := nextIndex_opening here
  cases found : find p (byte '}') 0 with
  | none =>
    rw [found] at step
    exact .head' step reach
  | some pos =>
    rw [found] at step back
    refine .head' step ((reaches_behind found reach).resolve_left ?_)
    exact Nat.not_le_of_lt back

/-- The condition, for the rest of the pattern. -/
def SingleFrom (p : Bytes) (i : ℕ) : Prop :=
  ∀ j ∈ firstOpen (p.drop i) i, ∃ pos ∈ find p (byte '}') 0,
    j < pos ∧ firstOpen (p.drop (pos + 1)) (pos + 1) = none

/-- An iteration goes forward, and keeps the condition. -/
theorem SingleFrom.next (single : SingleFrom p i) (step : nextIndex p i = some i') :
    i < i' ∧ i < p.length ∧ SingleFrom p i' := by
  obtain ⟨inside, ⟨opens, rfl⟩ | ⟨forward, same, -⟩⟩ := nextIndex_cases step
  · obtain ⟨pos, found, before, last⟩ := single i (firstOpen_of_opens opens)
    rw [Option.mem_def.mp found]
    refine ⟨Nat.lt_succ_of_lt before, inside, fun j second => ?_⟩
    rw [Option.mem_def, show behindBrace (some pos) = pos + 1 from rfl, last] at second
    cases second
  · refine ⟨forward, inside, fun j first => single j ?_⟩
    rwa [same] at first

end Index

/-! ## Termination -/

namespace Formatter

/-- The loop over a pattern ends. -/
def Terminates (p : Bytes) : Prop := Loop.Halts (iterate p) .start

/-- Every iteration makes the index larger. -/
def Increases (p : Bytes) : Prop :=
  ∀ s t, Loop.Reaches (iterate p) .start s → Loop.Step (iterate p) s t → s.i < t.i

variable {p : Bytes}

/-- The index moves as it does without the members. -/
theorem nextIndex_of_step {s t : Parse} (step : Loop.Step (iterate p) s t) :
    nextIndex p s.i = some t.i := by
  rw [← nextIndex_eq, step, Option.map_some]

theorem singleFrom_of_reaches (single : SingleDate p) {s : Parse}
    (reach : Loop.Reaches (iterate p) .start s) : SingleFrom p s.i := by
  have start : SingleFrom p Parse.start.i := single
  refine Loop.Reaches.inv (I := fun s => SingleFrom p s.i) ?_ start reach
  intro s t holds step
  exact (holds.next (nextIndex_of_step step)).2.2

theorem terminates_iff : Terminates p ↔ SingleDate p := by
  constructor
  · intro halts
    by_contra several
    obtain ⟨j, reach, opens, back⟩ := reaches_bad several
    have index : Loop.Halts (nextIndex p) Parse.start.i := Loop.Halts.project (nextIndex_eq p) halts
    exact Loop.not_halts_of_return reach (returns_of_bad reach opens back) index
  · intro single
    have start : SingleFrom p Parse.start.i := single
    refine Loop.halts_of_measure (I := fun s => SingleFrom p s.i) (fun s => p.length - s.i) ?_ start
    intro s t holds step
    obtain ⟨forward, inside, kept⟩ := holds.next (nextIndex_of_step step)
    exact ⟨kept, by omega⟩

theorem increases_iff : Increases p ↔ SingleDate p := by
  constructor
  · intro increases
    by_contra several
    obtain ⟨j, reach, opens, back⟩ := reaches_bad several
    obtain ⟨s, reached, rfl⟩ := Loop.Reaches.unproject (s := Parse.start) (nextIndex_eq p) reach
    obtain ⟨rest, here⟩ := opens
    have larger := increases s _ reached (iterate_opening here)
    exact absurd larger (Nat.not_lt_of_le back)
  · intro single s t reach step
    exact ((singleFrom_of_reaches single reach).next (nextIndex_of_step step)).1

/-- The loop ends, and the index grows with every iteration, exactly for the patterns with a
single date. -/
theorem parsePattern_iff (p : Bytes) :
    (Terminates p ↔ SingleDate p) ∧ (Increases p ↔ SingleDate p) :=
  ⟨terminates_iff, increases_iff⟩

/-- A `%d{` that is never closed. -/
theorem unclosed_loops : ¬ (Terminates (lit "%d\x7b") ∧ Increases (lit "%d\x7b")) := by
  rintro ⟨terminates, -⟩
  have single := terminates_iff.mp terminates
  revert single
  decide +kernel

end Formatter

end Sylar
