import Mathlib.Logic.Basic

/-!
# Runs of a partial step function

A system is a step function `step : σ → α → Option σ`: the label says which
atomic section runs and with which inputs, `none` that the section is not
enabled. A run is a list of labels.

* `exec` is the state a run leads to; `exec_inv` the invariant rule.
* `Always P` says that `P` holds in every state a run visits, `Along C` that
  each label taken meets the condition `C` in the state before it.
* `always_of_along` proves `Always` from a condition that keeps an invariant,
  and `always_iff_along` shows the condition to be exact when each single step
  keeps the property if and only if the label meets it.
* `logged` is the step with the history of the run, for conditions on what
  happened before.
-/

namespace Runs

variable {σ α : Type*}

/-- The state a run leads to, `none` when one of its labels is not enabled. -/
def exec (step : σ → α → Option σ) : σ → List α → Option σ
  | s, [] => some s
  | s, a :: as => (step s a).bind fun t => exec step t as

/-- `P` holds in every state the run visits. -/
def Always (step : σ → α → Option σ) (P : σ → Prop) : σ → List α → Prop
  | s, [] => P s
  | s, a :: as => P s ∧ ∀ t, step s a = some t → Always step P t as

/-- Each label the run takes meets `C` in the state before it. -/
def Along (step : σ → α → Option σ) (C : σ → α → Prop) : σ → List α → Prop
  | _, [] => True
  | s, a :: as => ∀ t, step s a = some t → C s a ∧ Along step C t as

variable {step : σ → α → Option σ} {s t : σ} {a : α} {as bs : List α}

/-- A run of known steps, one label at a time. -/
theorem always_cons {P : σ → Prop} (here : P s) (edge : step s a = some t)
    (later : Always step P t as) : Always step P s (a :: as) := by
  refine ⟨here, fun u next => ?_⟩
  obtain rfl := Option.some.inj (edge.symm.trans next)
  exact later

theorem along_cons {C : σ → α → Prop} (here : C s a) (edge : step s a = some t)
    (later : Along step C t as) : Along step C s (a :: as) := by
  intro u next
  obtain rfl := Option.some.inj (edge.symm.trans next)
  exact ⟨here, later⟩

theorem exec_cons_eq_some :
    exec step s (a :: as) = some t ↔ ∃ u, step s a = some u ∧ exec step u as = some t := by
  simp only [exec, Option.bind_eq_some_iff]

theorem exec_append :
    exec step s (as ++ bs) = (exec step s as).bind fun t => exec step t bs := by
  induction as generalizing s with
  | nil => rfl
  | cons a as ih =>
    show ((step s a).bind fun t => exec step t (as ++ bs)) = _
    simp only [ih, exec, Option.bind_assoc]

/-- The invariant rule: what every step keeps, every run keeps. -/
theorem exec_inv {I : σ → Prop} (keep : ∀ {s a t}, I s → step s a = some t → I t)
    (start : I s) (run : exec step s as = some t) : I t := by
  induction as generalizing s with
  | nil =>
    cases run
    exact start
  | cons a as ih =>
    obtain ⟨u, edge, rest⟩ := exec_cons_eq_some.mp run
    exact ih (keep start edge) rest

/-- `Always` is about the states that the prefixes of the run lead to. -/
theorem always_iff {P : σ → Prop} :
    Always step P s as ↔ ∀ l r t, as = l ++ r → exec step s l = some t → P t := by
  induction as generalizing s with
  | nil =>
    constructor
    · intro holds l r t split run
      obtain ⟨rfl, -⟩ := List.append_eq_nil_iff.mp split.symm
      cases run
      exact holds
    · intro holds
      exact holds [] [] s rfl rfl
  | cons a as ih =>
    constructor
    · rintro ⟨here, later⟩ l r t split run
      cases l with
      | nil =>
        cases run
        exact here
      | cons b l =>
        obtain ⟨rfl, rest⟩ := List.cons.inj split
        obtain ⟨u, edge, run⟩ := exec_cons_eq_some.mp run
        exact ih.mp (later u edge) l r t rest run
    · intro holds
      refine ⟨holds [] (a :: as) s rfl rfl, fun u edge => ih.mpr ?_⟩
      intro l r t split run
      exact holds (a :: l) r t (by rw [split, List.cons_append])
        (exec_cons_eq_some.mpr ⟨u, edge, run⟩)

theorem Always.mono {P Q : σ → Prop} (weaken : ∀ s, P s → Q s)
    (holds : Always step P s as) : Always step Q s as :=
  always_iff.mpr fun l r t split run => weaken t (always_iff.mp holds l r t split run)

theorem Always.first {P : σ → Prop} (holds : Always step P s as) : P s := by
  cases as with
  | nil => exact holds
  | cons a as => exact holds.1

/-- The state a whole run leads to is one of those it visits. -/
theorem Always.last {P : σ → Prop} (holds : Always step P s as)
    (run : exec step s as = some t) : P t :=
  always_iff.mp holds as [] t (List.append_nil as).symm run

/-- What each step passes back holds in every state of a run that it holds at the
end of. -/
theorem always_of_last {P : σ → Prop} (back : ∀ {s a t}, step s a = some t → P t → P s)
    (run : exec step s as = some t) (last : P t) : Always step P s as := by
  induction as generalizing s with
  | nil =>
    cases run
    exact last
  | cons a as ih =>
    obtain ⟨u, edge, rest⟩ := exec_cons_eq_some.mp run
    have later := ih rest
    exact always_cons (back edge later.first) edge later

/-- A condition on the labels that keeps `I` step by step keeps it in every
state of a run whose labels all meet the condition. -/
theorem always_of_along {I : σ → Prop} {C : σ → α → Prop}
    (keep : ∀ {s a t}, I s → C s a → step s a = some t → I t)
    (start : I s) (along : Along step C s as) : Always step I s as := by
  induction as generalizing s with
  | nil => exact start
  | cons a as ih =>
    refine ⟨start, fun t edge => ?_⟩
    obtain ⟨here, later⟩ := along t edge
    exact ih (keep start here edge) later

/-- A condition on the labels, with what holds in the states before them. -/
theorem Along.and_always {P : σ → Prop} {C : σ → α → Prop} (along : Along step C s as)
    (holds : Always step P s as) : Along step (fun s a => P s ∧ C s a) s as := by
  induction as generalizing s with
  | nil => trivial
  | cons a as ih =>
    intro t edge
    obtain ⟨here, later⟩ := along t edge
    exact ⟨⟨holds.1, here⟩, ih later (holds.2 t edge)⟩

/-- Two conditions that hold along a run hold together. -/
theorem Along.and {C D : σ → α → Prop} (left : Along step C s as) (right : Along step D s as) :
    Along step (fun s a => C s a ∧ D s a) s as := by
  induction as generalizing s with
  | nil => trivial
  | cons a as ih =>
    intro t edge
    exact ⟨⟨(left t edge).1, (right t edge).1⟩, ih (left t edge).2 (right t edge).2⟩

/-- What two good states say about the label between them holds along a run
whose states are all good. -/
theorem along_of_always {I P : σ → Prop} {C : σ → α → Prop}
    (keep : ∀ {s a t}, I s → step s a = some t → I t)
    (between : ∀ {s a t}, I s → P s → step s a = some t → P t → C s a)
    (inv : I s) (holds : Always step P s as) : Along step C s as := by
  induction as generalizing s with
  | nil => trivial
  | cons a as ih =>
    intro t edge
    have later := holds.2 t edge
    exact ⟨between inv holds.1 edge later.first, ih (keep inv edge) later⟩

/-- Conditions that agree on every label taken from a good state agree along
every run from one. -/
theorem along_congr_inv {I : σ → Prop} {C D : σ → α → Prop}
    (keep : ∀ {s a t}, I s → step s a = some t → I t)
    (same : ∀ {s a t}, I s → step s a = some t → (C s a ↔ D s a))
    (inv : I s) : Along step C s as ↔ Along step D s as := by
  induction as generalizing s with
  | nil => exact Iff.rfl
  | cons a as ih =>
    constructor
    · intro along t edge
      obtain ⟨here, later⟩ := along t edge
      exact ⟨(same inv edge).mp here, (ih (keep inv edge)).mp later⟩
    · intro along t edge
      obtain ⟨here, later⟩ := along t edge
      exact ⟨(same inv edge).mpr here, (ih (keep inv edge)).mpr later⟩

/-- Conditions that agree on every label taken agree along every run. -/
theorem along_congr {C D : σ → α → Prop} (same : ∀ {s a t}, step s a = some t → (C s a ↔ D s a)) :
    Along step C s as ↔ Along step D s as :=
  along_congr_inv (I := fun _ => True) (fun _ _ => trivial) (fun _ edge => same edge) trivial

/-- What a good state and a label that meets `C` give holds along a run whose
labels all meet `C`. -/
theorem along_of_inv {I : σ → Prop} {C D : σ → α → Prop}
    (keep : ∀ {s a t}, I s → C s a → step s a = some t → I t)
    (give : ∀ {s a t}, I s → C s a → step s a = some t → D s a)
    (start : I s) (along : Along step C s as) : Along step D s as := by
  induction as generalizing s with
  | nil => trivial
  | cons a as ih =>
    intro t edge
    obtain ⟨here, later⟩ := along t edge
    exact ⟨give start here edge, ih (keep start here edge) later⟩

/-- An exact condition: when every step from a good state reaches a good state
if and only if its label meets `C`, the runs that stay good are those whose
labels all meet `C`. -/
theorem always_iff_along {I P : σ → Prop} {C : σ → α → Prop}
    (keep : ∀ {s a t}, I s → step s a = some t → I t)
    (step_iff : ∀ {s a t}, I s → P s → step s a = some t → (P t ↔ C s a))
    (inv : I s) (start : P s) : Always step P s as ↔ Along step C s as := by
  constructor
  · apply along_of_always keep _ inv
    intro s a t inv good edge after
    exact (step_iff inv good edge).mp after
  · intro along
    have both : Always step (fun s => I s ∧ P s) s as := by
      refine always_of_along ?_ ⟨inv, start⟩ along
      intro s a t good here edge
      exact ⟨keep good.1 edge, (step_iff good.1 good.2 edge).mpr here⟩
    exact both.mono fun s good => good.2

/-- An exact condition for a property of the states together with one of the labels. -/
theorem always_and_along_iff {P : σ → Prop} {Q C : σ → α → Prop}
    (step_iff : ∀ {s a t}, P s → step s a = some t → (P t ∧ Q s a ↔ C s a)) (start : P s) :
    Always step P s as ∧ Along step Q s as ↔ Along step C s as := by
  induction as generalizing s with
  | nil => exact iff_of_true ⟨start, trivial⟩ trivial
  | cons a as ih =>
    constructor
    · rintro ⟨holds, along⟩ t edge
      obtain ⟨here, later⟩ := along t edge
      have good := (holds.2 t edge).first
      exact ⟨(step_iff start edge).mp ⟨good, here⟩, (ih good).mp ⟨holds.2 t edge, later⟩⟩
    · intro along
      have both (t : σ) (edge : step s a = some t) :
          Q s a ∧ Always step P t as ∧ Along step Q t as := by
        obtain ⟨here, later⟩ := along t edge
        obtain ⟨good, label⟩ := (step_iff start edge).mpr here
        exact ⟨label, (ih good).mpr later⟩
      refine ⟨⟨start, fun t edge => (both t edge).2.1⟩, fun t edge => ?_⟩
      obtain ⟨here, -, later⟩ := both t edge
      exact ⟨here, later⟩

/-! ## Histories -/

/-- A step that keeps the history: the labels taken, each with the state before it, the
latest first. -/
def logged (step : σ → α → Option σ) (p : σ × List (σ × α)) (a : α) : Option (σ × List (σ × α)) :=
  (step p.1 a).map fun t => (t, (p.1, a) :: p.2)

theorem logged_eq_some {p q : σ × List (σ × α)} :
    logged step p a = some q ↔ ∃ t, step p.1 a = some t ∧ q = (t, (p.1, a) :: p.2) := by
  unfold logged
  rw [Option.map_eq_some_iff]
  exact exists_congr fun t => and_congr_right fun _ => eq_comm

/-- A condition that does not look at the history. -/
theorem along_logged {C : σ → α → Prop} (log : List (σ × α)) :
    Along (logged step) (fun p => C p.1) (s, log) as ↔ Along step C s as := by
  induction as generalizing s log with
  | nil => exact Iff.rfl
  | cons a as ih =>
    constructor
    · intro along t edge
      obtain ⟨here, later⟩ := along _ (logged_eq_some.mpr ⟨t, edge, rfl⟩)
      exact ⟨here, (ih _).mp later⟩
    · intro along q next
      obtain ⟨t, edge, rfl⟩ := logged_eq_some.mp next
      obtain ⟨here, later⟩ := along t edge
      exact ⟨here, (ih _).mpr later⟩

end Runs
