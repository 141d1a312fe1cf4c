import Mathlib.Logic.Basic
import Mathlib.Order.WellFounded

/-! # Runs of a transition system

A run is a list of events that the step function accepts one after another, each in a state
where `ok` admits it. What every admitted step keeps, every run keeps.
-/

namespace Library

variable {σ ε : Type} {step : σ → ε → Option σ} {ok : σ → ε → Prop}

inductive Run (step : σ → ε → Option σ) (ok : σ → ε → Prop) : σ → List ε → σ → Prop
  | start (s : σ) : Run step ok s [] s
  | next {s m s' : σ} {events : List ε} {event : ε} (hRun : Run step ok s events m)
      (hOk : ok m event) (hStep : step m event = some s') : Run step ok s (events ++ [event]) s'

namespace Run

/-- An invariant of the admitted steps holds in every state reached. -/
theorem invariant {P : σ → Prop} {s s' : σ} {events : List ε} (h : Run step ok s events s')
    (hStart : P s)
    (hKeep : ∀ m event m', P m → ok m event → step m event = some m' → P m') : P s' := by
  induction h with
  | start => exact hStart
  | next _ hOk hStep ih => exact hKeep _ _ _ ih hOk hStep

theorem related {R : σ → σ → Prop} {P : σ → Prop} {s s' : σ} {events : List ε}
    (h : Run step ok s events s') (hStart : P s)
    (hKeep : ∀ m event m', P m → ok m event → step m event = some m' → P m')
    (hRefl : ∀ m, R m m) (hTrans : ∀ a b c, R a b → R b c → R a c)
    (hStep : ∀ m event m', P m → ok m event → step m event = some m' → R m m') : R s s' := by
  induction h with
  | start => exact hRefl _
  | next hRun hOk hNext ih =>
    exact hTrans _ _ _ ih (hStep _ _ _ (hRun.invariant hStart hKeep) hOk hNext)

theorem append {s m s' : σ} {events more : List ε} (h : Run step ok s events m) (hMore : Run step ok m more s') :
    Run step ok s (events ++ more) s' := by
  induction hMore with
  | start => rwa [List.append_nil]
  | next _ hOk hStep ih =>
    rw [← List.append_assoc]
    exact ih.next hOk hStep

/-- A measure that every counted event lowers, as long as it can be lowered. -/
theorem spends {P : σ → Prop} {counts : ε → Bool} (measure : σ → Nat) {s s' : σ} {events : List ε}
    (h : Run step ok s events s') (hStart : P s)
    (hKeep : ∀ m event m', P m → ok m event → step m event = some m' → P m')
    (hSpend : ∀ m event m', P m → ok m event → step m event = some m' →
      measure m' ≤ measure m - if counts event then 1 else 0) :
    measure s' ≤ measure s - events.countP counts := by
  induction h with
  | start => exact Nat.le_refl _
  | next hRun hOk hStep ih =>
    have hLast := hSpend _ _ _ (hRun.invariant hStart hKeep) hOk hStep
    rw [List.countP_append, List.countP_singleton]
    omega

/-- What does not hold at the start and holds in the end is brought about by an event. -/
theorem exists_turn {P : σ → Prop} {s s' : σ} {events : List ε} (h : Run step ok s events s')
    (hStart : ¬ P s) (hEnd : P s') :
    ∃ before event after m m', events = before ++ event :: after ∧ Run step ok s before m ∧
      step m event = some m' ∧ ¬ P m ∧ P m' := by
  induction h with
  | start => exact absurd hEnd hStart
  | @next m s' events event hRun hOk hStep ih =>
    by_cases hBefore : P m
    · obtain ⟨before, first, after, n, n', rfl, hFirst, hTurn, hNot, hIs⟩ := ih hBefore
      refine ⟨before, first, after ++ [event], n, n', ?_, hFirst, hTurn, hNot, hIs⟩
      rw [List.append_assoc, List.cons_append]
    · exact ⟨events, event, [], m, s', rfl, hRun, hStep, hBefore, hEnd⟩

theorem of_foldlM {s s' : σ} {events : List ε} (h : events.foldlM step s = some s') :
    Run step (fun _ _ => True) s events s' := by
  suffices hFrom : ∀ (done events : List ε) (start m : σ),
      Run step (fun _ _ => True) start done m → events.foldlM step m = some s' →
      Run step (fun _ _ => True) start (done ++ events) s' by
    simpa using hFrom [] events s s (.start s) h
  intro done events start
  induction events generalizing done with
  | nil =>
    intro m hRun hFold
    obtain rfl := Option.some.inj hFold
    simpa using hRun
  | cons event events ih =>
    intro m hRun hFold
    obtain ⟨m', hStep, hRest⟩ := Option.bind_eq_some_iff.mp hFold
    simpa using ih (done ++ [event]) m' (hRun.next trivial hStep) hRest

theorem foldlM_eq {s s' : σ} {events : List ε} (h : Run step ok s events s') :
    events.foldlM step s = some s' := by
  induction h with
  | start => rfl
  | next _ _ hStep ih =>
    rw [List.foldlM_append, ih, Option.bind_eq_bind, Option.bind_some, List.foldlM_cons, hStep]
    rfl

/-- The last step of a run. -/
theorem last {s m s' : σ} {events : List ε} {event : ε} (h : Run step ok s (events ++ [event]) s')
    (hBefore : events.foldlM step s = some m) : Run step ok s events m ∧ ok m event := by
  generalize hAll : events ++ [event] = all at h
  cases h with
  | start => exact absurd hAll (List.append_ne_nil_of_right_ne_nil _ (List.cons_ne_nil _ _))
  | next hRun hOk _ =>
    obtain ⟨rfl, hEvent⟩ := List.append_inj' hAll rfl
    obtain rfl := List.head_eq_of_cons_eq hEvent
    obtain rfl := Option.some.inj (hRun.foldlM_eq.symm.trans hBefore)
    exact ⟨hRun, hOk⟩

/-- What every admitted step keeps and every other step breaks tells which runs are admitted. -/
theorem admitted_iff {P : σ → Prop} {ok' : σ → ε → Prop} {s s' : σ} {events : List ε}
    (h : Run step ok s events s') (hStart : P s)
    (hKeep : ∀ m event m', step m event = some m' → (P m' ↔ P m ∧ ok' m event)) :
    P s' ↔ Run step ok' s events s' := by
  induction h with
  | start => exact iff_of_true hStart (.start _)
  | @next m s' events event hRun _ hStep ih =>
    rw [hKeep m event s' hStep, ih]
    constructor
    · rintro ⟨hAdmitted, hOk⟩
      exact hAdmitted.next hOk hStep
    · intro hAdmitted
      exact hAdmitted.last hRun.foldlM_eq

/-- An invariant that makes `ok'` admit what `ok` admits. -/
theorem strengthen {P : σ → Prop} {ok' : σ → ε → Prop} {s s' : σ} {events : List ε} (h : Run step ok s events s')
    (hStart : P s) (hKeep : ∀ m event m', P m → ok m event → step m event = some m' → P m')
    (hAdmit : ∀ m event m', P m → ok m event → step m event = some m' → ok' m event) : Run step ok' s events s' := by
  induction h with
  | start => exact .start _
  | next hRun hOk hStep ih =>
    have hBefore := hRun.invariant hStart hKeep
    exact ih.next (hAdmit _ _ _ hBefore hOk hStep) hStep

/-- A run of events that `ok'` admits in any state. -/
theorem admitted {ok' : σ → ε → Prop} {s s' : σ} {events : List ε} (h : Run step ok s events s')
    (hAll : ∀ event ∈ events, ∀ m, ok' m event) : Run step ok' s events s' := by
  induction h with
  | start => exact .start _
  | next hRun _ hStep ih =>
    obtain ⟨hBefore, hLast⟩ := List.forall_mem_append.mp hAll
    exact (ih hBefore).next (hLast _ (List.mem_singleton_self _) _) hStep

end Run

end Library

/-! ## Schedules that never end

At each time one event takes place, or none. A measure that no event raises is lowered finitely
often.
-/

namespace Library

variable {σ ε : Type} {step : σ → ε → Option σ} {s : σ}

structure Schedule (step : σ → ε → Option σ) (s : σ) where
  state : Nat → σ
  event : Nat → Option ε
  starts : state 0 = s
  rests : ∀ t, event t = none → state (t + 1) = state t
  moves : ∀ t e, event t = some e → step (state t) e = some (state (t + 1))

namespace Schedule

theorem exists_run (schedule : Schedule step s) (t : Nat) :
    ∃ events, Run step (fun _ _ => True) s events (schedule.state t) := by
  induction t with
  | zero =>
    rw [schedule.starts]
    exact ⟨[], .start s⟩
  | succ t ih =>
    obtain ⟨events, hRun⟩ := ih
    cases hEvent : schedule.event t with
    | none =>
      rw [schedule.rests t hEvent]
      exact ⟨events, hRun⟩
    | some event => exact ⟨events ++ [event], hRun.next trivial (schedule.moves t event hEvent)⟩

/-- What every event from some time on keeps, holds from then on. -/
theorem keeps (schedule : Schedule step s) {P : σ → Prop} {t : Nat}
    (hKeep : ∀ u e, t ≤ u → schedule.event u = some e → P (schedule.state u) → P (schedule.state (u + 1)))
    (hAt : P (schedule.state t)) : ∀ u, t ≤ u → P (schedule.state u) := by
  intro u hLater
  induction u, hLater using Nat.le_induction with
  | base => exact hAt
  | succ u hLater ih =>
    cases hEvent : schedule.event u with
    | none => rwa [schedule.rests u hEvent]
    | some event => exact hKeep u event hLater hEvent ih

/-- From some time on no event lowers the measure. -/
theorem settles (schedule : Schedule step s) (measure : σ → Nat)
    (hKeep : ∀ t e, schedule.event t = some e → measure (schedule.state (t + 1)) ≤ measure (schedule.state t)) :
    ∃ t, ∀ u, t ≤ u → measure (schedule.state (u + 1)) = measure (schedule.state u) := by
  let least := Function.argmin fun t => measure (schedule.state t)
  have hLeast (u : Nat) : measure (schedule.state least) ≤ measure (schedule.state u) :=
    Function.argmin_le (fun t => measure (schedule.state t)) u
  refine ⟨least, fun u hLater => ?_⟩
  have hFalls : ∀ u, least ≤ u → measure (schedule.state u) ≤ measure (schedule.state least) := by
    refine schedule.keeps (P := fun m => measure m ≤ measure (schedule.state least)) ?_ (Nat.le_refl _)
    intro v event _ hEvent hLow
    exact (hKeep v event hEvent).trans hLow
  have hNow := hLeast u
  have hNext := hLeast (u + 1)
  have hLow := hFalls u hLater
  have hLower := hFalls (u + 1) (Nat.le_succ_of_le hLater)
  omega

end Schedule

end Library
