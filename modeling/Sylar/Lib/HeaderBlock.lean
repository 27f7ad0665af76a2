import Mathlib.Data.List.Basic
import Mathlib.Data.List.Perm.Basic

/-!
# Header blocks

Messages as internet protocols write them: lines `name: value`, an empty line, and the
body. The signs may be any four letters, as long as no name or value can be taken for the
end of one.

* `text_injective`: a text has one reading at most.
* `valuesOf`: the values of the fields whose names are of a class, such as the names that
  are equal up to case. Neither a permutation of the fields nor another class matters.
-/

namespace HeaderBlock

variable {α : Type*}

/-- The signs between the parts. -/
structure Signs (α : Type*) where
  colon : α
  space : α
  cr : α
  lf : α
  colon_ne_cr : colon ≠ cr

variable (s : Signs α)

/-- A field as a line. -/
def Signs.line (f : List α × List α) : List α :=
  f.1 ++ s.colon :: s.space :: (f.2 ++ [s.cr, s.lf])

/-- The fields, the empty line and the body. -/
def Signs.text (fields : List (List α × List α)) (body : List α) : List α :=
  fields.flatMap s.line ++ s.cr :: s.lf :: body

/-- No sign that ends the name is in the name, and none that ends the line in either. -/
structure Signs.Clean (f : List α × List α) : Prop where
  colon_name : s.colon ∉ f.1
  cr_name : s.cr ∉ f.1
  cr_value : s.cr ∉ f.2

variable {s} {fields fields' : List (List α × List α)} {body body' : List α}

theorem text_append : s.text (fields ++ fields') body =
    fields.flatMap s.line ++ s.text fields' body := by
  rw [Signs.text, List.flatMap_append, List.append_assoc]
  rfl

/-! ## Reading -/

/-- The empty line is not the line of a field. -/
theorem line_ne_end {f : List α × List α} (clean : s.Clean f) (rest : List α) :
    s.line f ++ rest ≠ s.cr :: s.lf :: body := by
  intro same
  rw [Signs.line, List.append_assoc, List.cons_append] at same
  rcases f with ⟨_ | ⟨c, name⟩, value⟩
  · rw [List.nil_append, List.cons.injEq] at same
    exact s.colon_ne_cr same.1
  · rw [List.cons_append, List.cons.injEq] at same
    exact clean.cr_name (List.mem_cons.mpr (.inl same.1.symm))

/-- What stands in front of the first sign of its kind is determined. -/
theorem append_sign_inj {front front' rest rest' : List α} {c : α} (free : c ∉ front)
    (free' : c ∉ front') (same : front ++ c :: rest = front' ++ c :: rest') :
    front = front' ∧ rest = rest' := by
  induction front generalizing front' with
  | nil =>
    cases front' with
    | nil => exact ⟨rfl, (List.cons.inj same).2⟩
    | cons d front' => exact absurd (List.mem_cons.mpr (.inl (List.cons.inj same).1)) free'
  | cons d front ih =>
    rw [List.mem_cons, not_or] at free
    cases front' with
    | nil => exact absurd (List.cons.inj same).1.symm free.1
    | cons e front' =>
      rw [List.mem_cons, not_or] at free'
      obtain ⟨rfl, tails⟩ := List.cons.inj same
      obtain ⟨rfl, rests⟩ := ih free.2 free'.2 tails
      exact ⟨rfl, rests⟩

/-- The line of a field says where the field ends. -/
theorem line_inj {f g : List α × List α} {rest rest' : List α} (clean : s.Clean f)
    (clean' : s.Clean g) (same : s.line f ++ rest = s.line g ++ rest') : f = g ∧ rest = rest' := by
  have parts (f : List α × List α) (rest : List α) : s.line f ++ rest =
      f.1 ++ s.colon :: s.space :: (f.2 ++ s.cr :: s.lf :: rest) := by
    simp [Signs.line]
  rw [parts, parts] at same
  obtain ⟨names, values⟩ := append_sign_inj clean.colon_name clean'.colon_name same
  obtain ⟨values, rests⟩ :=
    append_sign_inj clean.cr_value clean'.cr_value (List.cons.inj values).2
  exact ⟨Prod.ext names values, (List.cons.inj rests).2⟩

/-- A text has one reading at most. -/
theorem text_injective (clean : ∀ f ∈ fields, s.Clean f) (clean' : ∀ f ∈ fields', s.Clean f)
    (same : s.text fields body = s.text fields' body') : fields = fields' ∧ body = body' := by
  have ends (body : List α) : s.text [] body = s.cr :: s.lf :: body := rfl
  have begins (f : List α × List α) (fields : List (List α × List α)) (body : List α) :
      s.text (f :: fields) body = s.line f ++ s.text fields body := by
    rw [Signs.text, List.flatMap_cons, List.append_assoc]
    rfl
  induction fields generalizing fields' with
  | nil =>
    cases fields' with
    | nil => exact ⟨rfl, (List.cons.inj (List.cons.inj same).2).2⟩
    | cons g fields' =>
      rw [ends, begins] at same
      exact absurd same.symm (line_ne_end (clean' g List.mem_cons_self) _)
  | cons f fields ih =>
    cases fields' with
    | nil =>
      rw [ends, begins] at same
      exact absurd same (line_ne_end (clean f List.mem_cons_self) _)
    | cons g fields' =>
      rw [begins, begins] at same
      obtain ⟨rfl, rests⟩ :=
        line_inj (clean f List.mem_cons_self) (clean' g List.mem_cons_self) same
      obtain ⟨rfl, bodies⟩ := ih (fun h inTail => clean h (List.mem_cons_of_mem _ inTail))
        (fun h inTail => clean' h (List.mem_cons_of_mem _ inTail)) rests
      exact ⟨rfl, bodies⟩

/-! ## The fields of a name -/

section Names

variable {K V C : Type*} [DecidableEq C] (cls : K → C)

/-- The values of the fields whose name is of a class. -/
def valuesOf (fields : List (K × V)) (x : C) : List V :=
  (fields.filter fun f => cls f.1 = x).map Prod.snd

variable {cls} {fields fields' : List (K × V)} {x : C} {k : K} {v : V}

theorem valuesOf_append :
    valuesOf cls (fields ++ fields') x = valuesOf cls fields x ++ valuesOf cls fields' x := by
  rw [valuesOf, List.filter_append, List.map_append]
  rfl

theorem valuesOf_perm (perm : fields.Perm fields') :
    (valuesOf cls fields x).Perm (valuesOf cls fields' x) :=
  (perm.filter _).map _

theorem valuesOf_singleton : valuesOf cls [(k, v)] x = if cls k = x then [v] else [] := by
  by_cases own : cls k = x
  · simp [valuesOf, own]
  · simp [valuesOf, own]

theorem valuesOf_eq_nil_iff : valuesOf cls fields x = [] ↔ ∀ f ∈ fields, cls f.1 ≠ x := by
  simp [valuesOf]

/-- Of fields with names of different classes, one at most is of a class. -/
theorem length_valuesOf_le (distinct : fields.Pairwise fun f g => cls f.1 ≠ cls g.1) :
    (valuesOf cls fields x).length ≤ 1 := by
  induction fields with
  | nil => exact Nat.zero_le _
  | cons f fields ih =>
    obtain ⟨first, others⟩ := List.pairwise_cons.mp distinct
    have split : valuesOf cls ([f] ++ fields) x = valuesOf cls [f] x ++ valuesOf cls fields x :=
      valuesOf_append
    rw [← List.singleton_append, split, valuesOf_singleton]
    by_cases own : cls f.1 = x
    · have rest : valuesOf cls fields x = [] :=
        valuesOf_eq_nil_iff.mpr fun g inFields same => first g inFields (own.trans same.symm)
      rw [if_pos own, rest]
      exact Nat.le_refl 1
    · rw [if_neg own]
      exact ih others

end Names

end HeaderBlock
