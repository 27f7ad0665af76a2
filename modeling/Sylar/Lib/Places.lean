import Mathlib.Data.List.Basic
import Mathlib.Data.List.Perm.Basic

/-!
# What the entries of a list hold

Each entry `x` of a list holds the things `f x`, such as the messages in the hands of
a process. All together the list holds `l.flatMap f`, up to the order. An entry that is
written, or taken out, changes what it holds itself.
-/

namespace Places

variable {α β : Type*} {l : List α} {i : ℕ} {x : α}

theorem filterMap_singleton (f : α → Option β) (x : α) : [x].filterMap f = (f x).toList := by
  cases here : f x with
  | none => exact List.filterMap_cons_none here
  | some b => exact List.filterMap_cons_some here

/-- What the other entries hold stays, whatever is written at one place. -/
theorem flatMap_set (there : l[i]? = some x) (f : α → List β) :
    ∃ rest, (l.flatMap f).Perm (f x ++ rest) ∧
      (∀ y, ((l.set i y).flatMap f).Perm (f y ++ rest)) ∧ (l.eraseIdx i).flatMap f = rest := by
  obtain ⟨bound, rfl⟩ := List.getElem?_eq_some_iff.mp there
  refine ⟨(l.eraseIdx i).flatMap f, ?_, fun y => ?_, rfl⟩
  · have perm := (List.getElem_cons_eraseIdx_perm bound).symm.flatMap_right f
    rwa [List.flatMap_cons] at perm
  · have perm := (List.set_perm_cons_eraseIdx bound y).flatMap_right f
    rwa [List.flatMap_cons] at perm

/-- The same for entries that hold one thing or nothing. -/
theorem filterMap_set (there : l[i]? = some x) (f : α → Option β) :
    ∃ rest, (l.filterMap f).Perm ((f x).toList ++ rest) ∧
      (∀ y, ((l.set i y).filterMap f).Perm ((f y).toList ++ rest)) ∧
      (l.eraseIdx i).filterMap f = rest := by
  obtain ⟨rest, before, after, erased⟩ := flatMap_set there fun x => (f x).toList
  simp only [← List.filterMap_eq_flatMap_toList] at before after erased
  exact ⟨rest, before, after, erased⟩

end Places
