import Sylar.Lib.Spaced
import Sylar.Timer.Pending

/-!
# How often a recurring timer fires

`GetExpiredCb` puts a recurring timer back at a fresh clock reading plus its gap, and
`refresh` moves it to a reading plus its gap. Neither looks at the deadline it had, so
a late call shifts all later ones, and no call catches up on what was missed.

* `Aimed` says that a timer is not due before some time; `Aimed.edits` carries it
  through edits that only defer it, `Aimed.raise` through edits that aim it anew.
* `Watch` runs a manager beside the readings at which it collected one timer, newest
  first, and `Watch.Steady` is the condition on the clock and on the calls.
* `Watch.spaced_of_exec` is the statement about whole runs.
-/

namespace Sylar

variable {F C W : Type}

/-- An edit assigns to `t` no deadline before `floor`, and leaves its gap alone. -/
def Edit.Defers (t gap floor : ℕ) : Edit F → Prop
  | .assign u f => u = t → ∀ v : Timer F, v.mGap.toNat = gap →
    (f v).mGap = v.mGap ∧ (f v).mRecurring = v.mRecurring ∧ floor ≤ (f v).mNext.toNat
  | _ => True

namespace TimerManager

variable {s u : TimerManager F} {es : List (Edit F)} {t gap floor : ℕ}

/-- The timer `t` exists, is recurring with the gap `gap`, and is not due before `floor`. -/
structure Aimed (t gap floor : ℕ) (s : TimerManager F) : Prop where
  known : t < s.created
  recurring : (s.timers t).mRecurring = true
  own : (s.timers t).mGap.toNat = gap
  late : floor ≤ (s.timers t).mNext.toNat

theorem Aimed.congr (aimed : Aimed t gap floor s) (known : t < u.created)
    (same : u.timers t = s.timers t) : Aimed t gap floor u := by
  refine ⟨known, ?_, ?_, ?_⟩
  · exact same ▸ aimed.recurring
  · exact same ▸ aimed.own
  · exact same ▸ aimed.late

theorem Aimed.assign (aimed : Aimed t gap 0 s) {f : Timer F → Timer F}
    (defers : Edit.Defers t gap floor (.assign t f)) :
    Aimed t gap floor (s.edit (.assign t f)) := by
  obtain ⟨own, recurring, late⟩ := defers rfl (s.timers t) aimed.own
  have now := timers_assign_self s f t
  refine ⟨aimed.known, ?_, ?_, ?_⟩
  · rw [now, recurring, aimed.recurring]
  · rw [now, own, aimed.own]
  · rwa [now]

theorem Aimed.anytime (aimed : Aimed t gap floor s) : Aimed t gap 0 s :=
  ⟨aimed.known, aimed.recurring, aimed.own, Nat.zero_le _⟩

theorem Aimed.edit (aimed : Aimed t gap floor s) {e : Edit F} (defers : e.Defers t gap floor) :
    Aimed t gap floor (s.edit e) := by
  cases e with
  | create v =>
    have apart : t ≠ s.created := Nat.ne_of_lt aimed.known
    exact aimed.congr (Nat.lt_succ_of_lt aimed.known) (timers_create_ne apart)
  | erase x | insert x => exact aimed.congr aimed.known rfl
  | assign x f =>
    by_cases same : x = t
    · cases same
      exact aimed.anytime.assign defers
    · exact aimed.congr aimed.known (timers_assign_ne fun eq => same eq.symm)

theorem Aimed.edits (aimed : Aimed t gap floor s) (defers : ∀ e ∈ es, e.Defers t gap floor) :
    Aimed t gap floor (s.edits es) := by
  induction es generalizing s with
  | nil => exact aimed
  | cons e es ih =>
    have here := defers e List.mem_cons_self
    exact ih (aimed.edit here) fun e' member => defers e' (List.mem_cons_of_mem e member)

/-- Once a deadline is assigned to the timer, it is one of those the edits assign. -/
theorem Aimed.raise (aimed : Aimed t gap 0 s) (defers : ∀ e ∈ es, e.Defers t gap floor)
    {f : Timer F → Timer F} (assigned : Edit.assign t f ∈ es) :
    Aimed t gap floor (s.edits es) := by
  induction es generalizing s with
  | nil => cases assigned
  | cons e es ih =>
    have here := defers e List.mem_cons_self
    have later : ∀ e' ∈ es, e'.Defers t gap floor :=
      fun e' member => defers e' (List.mem_cons_of_mem e member)
    rcases List.mem_cons.mp assigned with rfl | rest
    · exact (aimed.assign here).edits later
    · refine ih (aimed.edit ?_) later rest
      cases e with
      | assign x g =>
        intro same v own
        obtain ⟨kept, recurring, -⟩ := here same v own
        exact ⟨kept, recurring, Nat.zero_le _⟩
      | create v => trivial
      | erase x => trivial
      | insert x => trivial

/-! ## The loop of `GetExpiredCb` -/

variable {clock : ℕ → UInt64} {k : ℕ} {temp : List ℕ}

theorem toNat_add_of_fits {now gap : UInt64} (fits : now.toNat + gap.toNat < 2 ^ 64) :
    (now + gap).toNat = now.toNat + gap.toNat := by
  rw [UInt64.toNat_add]
  exact Nat.mod_eq_of_lt fits

/-- With readings after `now`, the loop aims a recurring timer a gap past `now`. -/
theorem defers_rearm (recurring : (s.timers t).mRecurring = true) {now : ℕ}
    (later : ∀ j, now ≤ (clock j).toNat ∧ (clock j).toNat + gap < 2 ^ 64) :
    ∀ e ∈ s.rearm clock k temp, e.Defers t gap (now + gap) := by
  induction temp generalizing k with
  | nil => exact List.forall_mem_nil _
  | cons item temp ih =>
    unfold rearm
    split
    · refine List.forall_mem_cons.mpr ⟨?_, List.forall_mem_cons.mpr ⟨trivial, ih⟩⟩
      intro _ v own
      obtain ⟨after, fits⟩ := later k
      refine ⟨rfl, rfl, ?_⟩
      dsimp only
      rw [toNat_add_of_fits (own.symm ▸ fits), own]
      omega
    · next oneShot =>
      refine List.forall_mem_cons.mpr ⟨fun same => ?_, ih⟩
      cases same
      exact absurd recurring oneShot

theorem assign_mem_rearm (clock : ℕ → UInt64) (k : ℕ)
    (recurring : (s.timers t).mRecurring = true) (member : t ∈ temp) :
    ∃ f, Edit.assign t f ∈ s.rearm clock k temp := by
  induction temp generalizing k with
  | nil => cases member
  | cons item temp ih =>
    unfold rearm
    rcases List.mem_cons.mp member with rfl | rest
    · rw [if_pos recurring]
      exact ⟨_, List.mem_cons_self⟩
    · split
      · obtain ⟨f, inside⟩ := ih (k + 1) rest
        exact ⟨f, List.mem_cons_of_mem _ (List.mem_cons_of_mem _ inside)⟩
      · obtain ⟨f, inside⟩ := ih k rest
        exact ⟨f, List.mem_cons_of_mem _ inside⟩

theorem defers_erase : ∀ e ∈ temp.map (Edit.erase (F := F)), e.Defers t gap floor := by
  intro e member
  obtain ⟨x, -, rfl⟩ := List.mem_map.mp member
  trivial

/-- A timer that is collected is aimed a gap past the reading of the call. -/
theorem Aimed.collected (aimed : Aimed t gap floor s) {now : UInt64}
    (out : t ∈ s.expired now)
    (later : ∀ j, now.toNat ≤ (clock j).toNat ∧ (clock j).toNat + gap < 2 ^ 64) :
    Aimed t gap (now.toNat + gap) (s.edits (s.getExpiredCb now clock).1) := by
  obtain ⟨f, assigned⟩ := assign_mem_rearm clock 0 aimed.recurring out
  refine aimed.anytime.raise (fun e member => ?_) (List.mem_append_right _ assigned)
  rcases List.mem_append.mp member with erased | back
  · exact defers_erase e erased
  · exact defers_rearm aimed.recurring later e back

theorem defers_of_ne {x : ℕ} (other : x ≠ t) (f : Timer F → Timer F) :
    Edit.Defers t gap floor (.assign x f) := fun same => absurd same other

/-- A timer that is not collected is not touched. -/
theorem defers_getExpiredCb {now : UInt64} (stays : t ∉ s.expired now) :
    ∀ e ∈ (s.getExpiredCb now clock).1, e.Defers t gap floor := by
  intro e member
  rcases List.mem_append.mp member with erased | back
  · exact defers_erase e erased
  · revert e
    suffices untouched : ∀ k temp, t ∉ temp → ∀ e ∈ s.rearm clock k temp, e.Defers t gap floor by
      exact fun e _ back => untouched 0 _ stays e back
    intro k temp out
    induction temp generalizing k with
    | nil => exact List.forall_mem_nil _
    | cons item temp ih =>
      have apart := not_or.mp (List.mem_cons.not.mp out)
      have other : item ≠ t := fun same => apart.1 same.symm
      unfold rearm
      split
      · exact List.forall_mem_cons.mpr ⟨defers_of_ne other _,
          List.forall_mem_cons.mpr ⟨trivial, ih (k + 1) apart.2⟩⟩
      · exact List.forall_mem_cons.mpr ⟨defers_of_ne other _, ih k apart.2⟩

end TimerManager

/-! ## Watching one timer -/

/-- A manager, and the readings at which it collected the timer, newest first. -/
structure Watch (C W : Type) where
  mgr : TimerManager (TimerFn C W)
  hits : List ℕ

namespace Watch

open TimerManager

/-- What a call adds to the readings. -/
def collects (t : ℕ) (m : TimerManager (TimerFn C W)) : TimerCall C W → List ℕ
  | .getExpiredCb now _ => if t ∈ m.expired now then [now.toNat] else []
  | _ => []

def step (t : ℕ) (w : Watch C W) (c : TimerCall C W) : Option (Watch C W) :=
  (w.mgr.step c).map fun mgr => ⟨mgr, collects t w.mgr c ++ w.hits⟩

/-- A reading of the clock that is not before `start`, and from which the gap can be
added without a wrap. -/
def Reads (gap start : ℕ) (now : UInt64) : Prop := start ≤ now.toNat ∧ now.toNat + gap < 2 ^ 64

/-- The clock does not run backwards where the timer is concerned, and the timer keeps
its gap: nobody resets it, and no other timer is mistaken for it. -/
def Steady (t gap : ℕ) (w : Watch C W) : TimerCall C W → Prop
  | .getExpiredCb now clock => t ∈ w.mgr.expired now → ∀ k, Reads gap now.toNat (clock k)
  | .refresh u now =>
    w.mgr.find u = some t → u = t ∧ ∀ last ∈ w.hits.head?, Reads gap last now
  | .resetGap u _ _ _ => w.mgr.find u ≠ some t
  | .reset u => u ≠ t
  | .addTimer .. | .addCondtionTimer .. | .addTimerPtr _ | .cancel _ => True

/-- The end of the gap after the last reading. -/
def floor (gap : ℕ) : List ℕ → ℕ
  | [] => 0
  | last :: _ => last + gap

/-- The timer was collected a gap apart, and is not due before the next gap is over. -/
structure Inv (t gap : ℕ) (w : Watch C W) : Prop where
  aimed : Aimed t gap (floor gap w.hits) w.mgr
  spaced : Spaced gap w.hits

variable {t gap : ℕ} {w w' : Watch C W} {c : TimerCall C W}

theorem step_cases (edge : w.step t c = some w') :
    w' = ⟨w.mgr.edits (c.body w.mgr), collects t w.mgr c ++ w.hits⟩ := by
  obtain ⟨mgr, inner, rfl⟩ := Option.map_eq_some_iff.mp edge
  obtain ⟨-, rfl⟩ := step_eq_some.mp inner
  rfl

theorem defers_move {x : ℕ} {f : Timer (TimerFn C W) → Timer (TimerFn C W)} {m : ℕ}
    (assigns : Edit.Defers t gap m (.assign x f)) :
    ∀ e ∈ [Edit.erase x, .assign x f, .insert x], e.Defers t gap m :=
  List.forall_mem_cons.mpr ⟨trivial, List.forall_mem_cons.mpr
    ⟨assigns, List.forall_mem_cons.mpr ⟨trivial, List.forall_mem_nil _⟩⟩⟩

theorem defers_cancel (x m : ℕ) : ∀ e ∈ (Timer.cancel w.mgr x).1, e.Defers t gap m := by
  unfold Timer.cancel
  split
  · exact List.forall_mem_nil _
  · exact List.forall_mem_cons.mpr ⟨trivial, List.forall_mem_nil _⟩

/-- `refresh` of the timer itself moves it a gap past the reading. -/
theorem defers_refresh (inv : Inv t gap w) {u : ℕ} {now : UInt64}
    (steady : Steady t gap w (.refresh u now)) :
    ∀ e ∈ Timer.refresh w.mgr u now, e.Defers t gap (floor gap w.hits) := by
  unfold Timer.refresh
  split
  · exact List.forall_mem_nil _
  · next temp found =>
    refine defers_move ?_
    intro same v own
    cases same
    obtain ⟨rfl, reads⟩ := steady found
    refine ⟨rfl, rfl, ?_⟩
    cases past : w.hits with
    | nil => exact Nat.zero_le _
    | cons last rest =>
      obtain ⟨after, fits⟩ := reads last (by rw [past]; rfl)
      dsimp only [floor]
      rw [toNat_add_of_fits (inv.aimed.own.symm ▸ fits), inv.aimed.own]
      omega

theorem defers_resetGap {u : ℕ} {gap' now : UInt64} {fromNow : Bool} {m : ℕ}
    (steady : Steady t gap w (.resetGap u gap' fromNow now)) :
    ∀ e ∈ Timer.resetGap w.mgr u gap' fromNow now, e.Defers t gap m := by
  unfold Timer.resetGap
  split
  · exact List.forall_mem_nil _
  · next temp found =>
    refine defers_move (defers_of_ne ?_ _)
    intro same
    cases same
    exact steady found

theorem defers_body (inv : Inv t gap w) (steady : Steady t gap w c)
    (stays : collects t w.mgr c = []) :
    ∀ e ∈ c.body w.mgr, e.Defers t gap (floor gap w.hits) := by
  have added : ∀ v : Timer (TimerFn C W), ∀ e ∈ [Edit.create v, .insert w.mgr.created],
      e.Defers t gap (floor gap w.hits) :=
    fun v => List.forall_mem_cons.mpr
      ⟨trivial, List.forall_mem_cons.mpr ⟨trivial, List.forall_mem_nil _⟩⟩
  cases c with
  | addTimer ms cb recurring now => exact added _
  | addCondtionTimer ms cb weakCond recurring now => exact added _
  | addTimerPtr u => exact List.forall_mem_cons.mpr ⟨trivial, List.forall_mem_nil _⟩
  | cancel u => exact defers_cancel u _
  | refresh u now => exact defers_refresh inv steady
  | reset u =>
    intro e member
    rcases List.mem_append.mp member with cancelled | cleared
    · exact defers_cancel u _ e cancelled
    · cases List.mem_singleton.mp cleared
      exact defers_of_ne steady _
  | resetGap u gap' fromNow now => exact defers_resetGap steady
  | getExpiredCb now clock =>
    refine defers_getExpiredCb fun out => ?_
    rw [collects, if_pos out] at stays
    cases stays

theorem Inv.step (inv : Inv t gap w) (steady : Steady t gap w c) (edge : w.step t c = some w') :
    Inv t gap w' := by
  cases step_cases edge
  by_cases stays : collects t w.mgr c = []
  · rw [stays]
    exact ⟨inv.aimed.edits (defers_body inv steady stays), inv.spaced⟩
  · cases c with
    | getExpiredCb now clock =>
      rw [collects] at stays ⊢
      split at stays
      · next out =>
        rw [if_pos out]
        refine ⟨inv.aimed.collected out (steady out), inv.spaced.cons fun last member => ?_⟩
        -- the timer was due, and it is not due before the gap is over
        have due := UInt64.le_iff_toNat_le.mp (le_of_expired out)
        have late := inv.aimed.late
        cases past : w.hits with
        | nil =>
          rw [past] at member
          cases member
        | cons last' rest =>
          rw [past] at member late
          cases member
          exact late.trans due
      · exact absurd rfl stays
    | _ => exact absurd rfl stays

/-- From any state of a manager, a recurring timer is collected at readings that are at
least its gap apart, as long as the clock is steady where the timer is concerned and
nobody gives it another gap; so a window of the clock sees it at most once for each gap
that fits into it, and once more. -/
theorem spaced_of_exec {m : TimerManager (TimerFn C W)} {calls : List (TimerCall C W)}
    (known : t < m.created) (recurring : (m.timers t).mRecurring = true)
    (steady : Runs.Along (step t) (Steady t (m.timers t).mGap.toNat) ⟨m, []⟩ calls)
    (run : Runs.exec (step t) ⟨m, []⟩ calls = some w) :
    Spaced (m.timers t).mGap.toNat w.hits ∧
      ∀ start stop, (w.hits.filter fun x => start ≤ x ∧ x ≤ stop).length *
        (m.timers t).mGap.toNat ≤ stop - start + (m.timers t).mGap.toNat := by
  have start : Inv t (m.timers t).mGap.toNat (⟨m, []⟩ : Watch C W) :=
    ⟨⟨known, recurring, rfl, Nat.zero_le _⟩, Spaced.nil⟩
  have always := Runs.always_of_along (fun inv here edge => inv.step here edge) start steady
  have spaced := (always.last run).spaced
  exact ⟨spaced, spaced.window⟩

/-- A timer with a gap of 10 ms, set at 100. -/
def everyTen : TimerManager (TimerFn Unit Unit) :=
  (Runs.exec TimerManager.step empty [.addTimer 10 (some ()) true 100]).getD empty

/-- Two collections, with another timer and a `refresh` between them. -/
def collectedTwice : List (TimerCall Unit Unit) :=
  [.getExpiredCb 115 fun _ => 116, .addTimer 3 none false 120, .refresh 0 121,
    .getExpiredCb 124 fun _ => 124, .getExpiredCb 140 fun _ => 141]

theorem spaced_of_exec_twice :
    (everyTen.timers 0).mGap.toNat = 10 ∧ Spaced 10 [140, 115] ∧
      ([140, 115].filter fun x => 110 ≤ x ∧ x ≤ 120).length * 10 ≤ 120 - 110 + 10 := by
  have run : Runs.exec (step 0) ⟨everyTen, []⟩ collectedTwice = some
      ((Runs.exec (step 0) ⟨everyTen, []⟩ collectedTwice).getD ⟨everyTen, []⟩) := rfl
  have steady : Runs.Along (step 0) (Steady 0 10) ⟨everyTen, []⟩ collectedTwice := by
    have reads : ∀ start now : UInt64, start ≤ now → now < 1000 → Reads 10 start.toNat now := by
      intro start now after bound
      have small := UInt64.lt_iff_toNat_lt.mp bound
      exact ⟨UInt64.le_iff_toNat_le.mp after, Nat.add_lt_of_lt_sub (small.trans (by decide))⟩
    refine Runs.along_cons (fun _ _ => reads 115 116 (by decide) (by decide)) rfl ?_
    refine Runs.along_cons trivial rfl ?_
    refine Runs.along_cons (fun _ => ⟨rfl, fun last member => ?_⟩) rfl ?_
    · cases member
      exact reads 115 121 (by decide) (by decide)
    refine Runs.along_cons (fun _ _ => reads 124 124 (by decide) (by decide)) rfl ?_
    exact Runs.along_cons (fun _ _ => reads 140 141 (by decide) (by decide)) rfl trivial
  have both := spaced_of_exec (t := 0) (m := everyTen) (by decide) rfl steady run
  exact ⟨rfl, both.1, both.2 110 120⟩

end Watch

end Sylar
