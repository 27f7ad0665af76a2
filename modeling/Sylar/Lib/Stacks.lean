import Mathlib.Logic.Basic

/-!
# Stacks of instructions

A thread that executes a stack of instructions, in a local state such as the locks
it holds. `exec` says what the first instruction does: to the shared state, to the
local state, and which instructions it stands for, which go in front of the rest; or
that an exception leaves the thread.

* `Typed pre post`: the local states along a stack. `pre` is what an instruction
  asks of the local state that it meets, and `post` the one that it leaves.
* `Steady`: a typed stack that leaves the local state it begins with.
* `Typed.expand`: when every instruction stands for instructions that meet its own
  `post`, execution keeps a stack typed.
-/

namespace Stacks

variable {S H I A : Type*}

/-- A thread: its local state and what it has still to do. -/
structure Frame (H I : Type*) where
  held : H
  todo : List I

/-- The local state after a stack. -/
def after (post : H → I → H) (h : H) (xs : List I) : H := xs.foldl post h

/-- Every instruction of the stack meets what it asks for. -/
def Typed (pre : S → H → I → Prop) (post : H → I → H) (s : S) : H → List I → Prop
  | _, [] => True
  | h, x :: xs => pre s h x ∧ Typed pre post s (post h x) xs

/-- One instruction of the thread; a thread that has nothing to do is over. -/
def move (exec : S → H → I → A → Option (S × H × Option (List I))) (s : S) (l : Frame H I)
    (a : A) : Option (S × Option (Frame H I)) :=
  match l.todo with
  | [] => some (s, none)
  | x :: rest => (exec s l.held x a).map fun r => (r.1, r.2.2.map fun xs => ⟨r.2.1, xs ++ rest⟩)

variable {pre : S → H → I → Prop} {post : H → I → H} {s t : S} {h h' : H} {x : I}
  {xs ys rest : List I} {exec : S → H → I → A → Option (S × H × Option (List I))} {a : A}

theorem typed_append : Typed pre post s h (xs ++ ys) ↔
    Typed pre post s h xs ∧ Typed pre post s (after post h xs) ys := by
  induction xs generalizing h with
  | nil => exact ⟨fun typed => ⟨trivial, typed⟩, And.right⟩
  | cons x xs ih =>
    rw [List.cons_append, Typed, Typed, ih, and_assoc]
    exact Iff.rfl

theorem Typed.mono (typed : Typed pre post s h xs) (mono : ∀ h x, pre s h x → pre t h x) :
    Typed pre post t h xs := by
  induction xs generalizing h with
  | nil => trivial
  | cons x xs ih => exact ⟨mono h x typed.1, ih typed.2⟩

theorem after_append : after post h (xs ++ ys) = after post (after post h xs) ys :=
  List.foldl_append

/-- A stack that leaves the local state as it finds it. -/
def Steady (pre : S → H → I → Prop) (post : H → I → H) (s : S) (h : H) (xs : List I) : Prop :=
  Typed pre post s h xs ∧ after post h xs = h

theorem steady_nil : Steady pre post s h [] := ⟨trivial, rfl⟩

/-- In front of a stack it changes nothing. -/
theorem Steady.typed_append (steady : Steady pre post s h xs) :
    Typed pre post s h (xs ++ ys) ↔ Typed pre post s h ys := by
  rw [Stacks.typed_append, steady.2, and_iff_right steady.1]

theorem Steady.after_append (steady : Steady pre post s h xs) :
    after post h (xs ++ ys) = after post h ys := by
  rw [Stacks.after_append, steady.2]

theorem Steady.append (first : Steady pre post s h xs) (second : Steady pre post s h ys) :
    Steady pre post s h (xs ++ ys) :=
  ⟨first.typed_append.mpr second.1, first.after_append.trans second.2⟩

theorem Steady.flatMap {B : Type*} {f : B → List I} (each : ∀ b, Steady pre post s h (f b))
    (bs : List B) : Steady pre post s h (bs.flatMap f) := by
  induction bs with
  | nil => exact steady_nil
  | cons b bs ih => exact (each b).append ih

/-- What a thread does in one move. -/
theorem move_cons {l : Frame H I} {o : Option (Frame H I)} (here : l.todo = x :: rest)
    (edge : move exec s l a = some (t, o)) :
    ∃ h' r, exec s l.held x a = some (t, h', r) ∧ o = r.map fun xs => ⟨h', xs ++ rest⟩ := by
  rw [move, here] at edge
  obtain ⟨⟨t', h', r⟩, done, same⟩ := Option.map_eq_some_iff.mp edge
  obtain ⟨rfl, rfl⟩ := Prod.mk.inj same
  exact ⟨h', r, done, rfl⟩

/-- Execution keeps a stack typed. -/
theorem Typed.expand (typed : Typed pre post s h (x :: rest)) (mono : ∀ h x, pre s h x → pre t h x)
    (expands : Typed pre post t h' xs) (meets : after post h' xs = post h x) :
    Typed pre post t h' (xs ++ rest) := by
  refine typed_append.mpr ⟨expands, ?_⟩
  rw [meets]
  exact typed.2.mono mono

end Stacks
