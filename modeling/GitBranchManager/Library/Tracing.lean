import Mathlib.Data.List.Basic

/-! # Commands that may fail

A runner carries out a command in a state and answers. Whether it fails is up to the state.
Tracing keeps what failed, recording keeps every call with its answer, for statements about a
whole row of commands.
-/

namespace Library

variable {σ κ ε α : Type}

abbrev Runner (σ κ ε α : Type) := σ → κ → Except ε α × σ

structure Traced (σ κ : Type) where
  state : σ
  failed : List κ := []

def tracing (run : Runner σ κ ε α) : Runner (Traced σ κ) κ ε α := fun t command =>
  match run t.state command with
  | (.error e, state) => (.error e, { state, failed := t.failed ++ [command] })
  | (.ok answer, state) => (.ok answer, { t with state })

variable {run : Runner σ κ ε α} {t t' : Traced σ κ} {command : κ}

/-- A preorder on states that every admitted command follows. -/
structure Follows (run : Runner σ κ ε α) (ok : κ → Prop) (R : σ → σ → Prop) : Prop where
  refl : ∀ s, R s s
  trans : ∀ {s m s'}, R s m → R m s' → R s s'
  command : ∀ s command, ok command → R s (run s command).2

theorem Follows.of_eq {ok : κ → Prop} {R : σ → σ → Prop} (h : Follows run ok R) {s s' : σ}
    {result : Except ε α} (hRun : run s command = (result, s')) (hOk : ok command) : R s s' := by
  have hCommand := h.command s command hOk
  rwa [hRun] at hCommand

theorem state_tracing (run : Runner σ κ ε α) (t : Traced σ κ) (command : κ) :
    (tracing run t command).2.state = (run t.state command).2 := by
  rw [tracing]
  split
  · rename_i hRun
    rw [hRun]
  · rename_i hRun
    rw [hRun]

theorem failed_tracing (run : Runner σ κ ε α) (t : Traced σ κ) (command : κ) :
    t.failed ⊆ (tracing run t command).2.failed := by
  rw [tracing]
  split
  · exact List.subset_append_left _ _
  · exact List.Subset.refl _

theorem mem_failed_of_error {e : ε} (h : tracing run t command = (.error e, t')) : command ∈ t'.failed := by
  rw [tracing] at h
  split at h
  · obtain rfl := (Prod.mk.inj h).2
    exact List.mem_append_right _ (List.mem_singleton_self _)
  · cases (Prod.mk.inj h).1

theorem run_of_tracing {answer : α} (h : tracing run t command = (.ok answer, t')) :
    run t.state command = (.ok answer, t'.state) := by
  rw [tracing] at h
  split at h
  · cases (Prod.mk.inj h).1
  · rename_i hRun
    obtain ⟨hAnswer, rfl⟩ := Prod.mk.inj h
    rw [hRun, hAnswer]

abbrev Call (κ ε α : Type) := κ × Except ε α

structure Recorded (σ κ ε α : Type) where
  state : σ
  calls : List (Call κ ε α) := []

def recording (run : Runner σ κ ε α) : Runner (Recorded σ κ ε α) κ ε α := fun r command =>
  let (answer, state) := run r.state command
  (answer, { state, calls := r.calls ++ [(command, answer)] })

/-- Each call was admitted by the calls before it. -/
def Justified (ok : List (Call κ ε α) → κ → Prop) (calls : List (Call κ ε α)) : Prop :=
  ∀ before call after, calls = before ++ call :: after → ok before call.1

theorem Justified.nil {ok : List (Call κ ε α) → κ → Prop} : Justified ok [] := by
  intro before call after hCalls
  exact absurd hCalls.symm (by simp)

theorem Justified.append {ok : List (Call κ ε α) → κ → Prop} {calls more : List (Call κ ε α)}
    (h : Justified ok calls)
    (hMore : ∀ before call after, more = before ++ call :: after → ok (calls ++ before) call.1) :
    Justified ok (calls ++ more) := by
  intro before call after hCalls
  rcases List.append_eq_append_iff.mp hCalls with ⟨between, rfl, hRest⟩ | ⟨between, rfl, hRest⟩
  · exact hMore between call after hRest
  · cases between with
    | nil =>
      have hFirst := hMore [] call after hRest.symm
      rwa [List.append_nil, List.append_nil] at hFirst
    | cons first rest =>
      obtain ⟨rfl, -⟩ := List.cons.inj hRest
      exact h before call rest rfl

theorem Justified.concat {ok : List (Call κ ε α) → κ → Prop} {calls : List (Call κ ε α)} {call : Call κ ε α}
    (h : Justified ok calls) (hOk : ok calls call.1) : Justified ok (calls ++ [call]) := by
  refine h.append fun before last after hLast => ?_
  rcases List.singleton_eq_append_iff.mp hLast with ⟨rfl, hIs⟩ | ⟨-, hNil⟩
  · obtain rfl := (List.cons.inj hIs).1
    rwa [List.append_nil]
  · cases hNil

/-- More calls, all of them admitted. -/
def Calls (ok : κ → Prop) (r r' : Recorded σ κ ε α) : Prop :=
  ∃ more, r'.calls = r.calls ++ more ∧ ∀ call ∈ more, ok call.1

theorem calls_recording (run : Runner σ κ ε α) (r : Recorded σ κ ε α) (command : κ) :
    (recording run r command).2.calls = r.calls ++ [(command, (recording run r command).1)] := rfl

theorem follows_recording (run : Runner σ κ ε α) (ok : κ → Prop) : Follows (recording run) ok (Calls ok) where
  refl r := ⟨[], (List.append_nil _).symm, fun _ hCall => absurd hCall List.not_mem_nil⟩
  trans := by
    rintro r m r' ⟨first, hFirst, hFirstOk⟩ ⟨second, hSecond, hSecondOk⟩
    refine ⟨first ++ second, ?_, ?_⟩
    · rw [hSecond, hFirst, List.append_assoc]
    · intro call hCall
      exact (List.mem_append.mp hCall).elim (hFirstOk call) (hSecondOk call)
  command r command hOk := by
    refine ⟨_, calls_recording run r command, ?_⟩
    intro call hCall
    rw [List.mem_singleton.mp hCall]
    exact hOk

end Library

/-! ## Logs whose records have a reason

A log holds its newest record first. Each record is explained by the records before it.
-/

namespace Library

variable {α : Type} {ok : List α → α → Prop}

def Explained (ok : List α → α → Prop) : List α → Prop
  | [] => True
  | record :: earlier => ok earlier record ∧ Explained ok earlier

namespace Explained

theorem cons {record : α} {log : List α} (h : Explained ok log) (hOk : ok log record) :
    Explained ok (record :: log) := ⟨hOk, h⟩

/-- Records that whatever comes in between leaves explained. -/
theorem append {log more : List α} (h : Explained ok log)
    (hMore : ∀ between, ∀ record ∈ more, ok (between ++ log) record) : Explained ok (more ++ log) := by
  induction more with
  | nil => exact h
  | cons record more ih =>
    refine ⟨hMore more record List.mem_cons_self, ih fun between other hMem => ?_⟩
    exact hMore between other (List.mem_cons_of_mem _ hMem)

theorem at_record {later earlier : List α} {record : α} (h : Explained ok (later ++ record :: earlier)) :
    ok earlier record := by
  induction later with
  | nil => exact h.1
  | cons first later ih => exact ih h.2

end Explained

end Library
