import GitBranchManager.Library.InsertionMap
import GitBranchManager.Log.OperationLog

/-! # Clones in the background

Clones run beside every session, any number at once. The git rows of a clone stand in the log that started it, and when
it succeeds they move to the log of the new repository.
-/

namespace GitBranchManager

namespace CloneJobs

open Library OperationLog

inductive ClonePhase
  | receiving
  | resolving
  deriving DecidableEq, Repr

def ClonePhase.gitName : ClonePhase → String
  | receiving => "receiving objects"
  | resolving => "resolving deltas"

def writeGroups : List Char → List Char
  | a :: b :: c :: rest => ',' :: a :: b :: c :: writeGroups rest
  | _ => []

def formatCount (n : ℤ) : String :=
  let digits := (toString n).toList
  if digits.length ≤ 3 then toString n
  else
    let first := if digits.length % 3 = 0 then 3 else digits.length % 3
    String.ofList (digits.take first ++ writeGroups (digits.drop first))

structure CloneProgress where
  phase : ClonePhase
  current : ℤ
  total : ℤ
  deriving DecidableEq, Repr

def CloneProgress.label (p : CloneProgress) : String :=
  p.phase.gitName ++ " " ++ formatCount p.current ++ " / " ++ formatCount p.total

structure GitError where
  codeName : String
  message : String
  deriving DecidableEq, Repr

structure CloneFinished where
  ok : Bool
  error : Option GitError := none
  removedPath : Option String := none
  removalError : Option String := none
  destPath : Option String := none
  deriving DecidableEq, Repr

inductive OperationLogLevel
  | info
  | warning
  | error
  deriving DecidableEq, Repr

structure AppLogEntry where
  whenEpochMs : ℤ
  level : OperationLogLevel
  message : String
  deriving DecidableEq, Repr

namespace AppLogEvents

def errorOccurred (error : GitError) (atEpochMs : ℤ) : AppLogEntry :=
  { whenEpochMs := atEpochMs, level := .error, message := error.codeName ++ ": " ++ error.message }

def cloneDestinationRemoved (path : String) (atEpochMs : ℤ) : AppLogEntry :=
  { whenEpochMs := atEpochMs, level := .warning, message := "Removed " ++ path }

def cloneDestinationNotRemoved (path reason : String) (atEpochMs : ℤ) : AppLogEntry :=
  { whenEpochMs := atEpochMs, level := .error, message := "Could not remove " ++ path ++ ": " ++ reason }

end AppLogEvents

/-- What a record has beside its id; `other` stands for what a clone leaves as it is. -/
structure Invocation (φ : Type) where
  other : φ
  progress : String := ""
  deriving DecidableEq, Repr

abbrev Entry (φ : Type) := GbmLogEntry (Invocation φ) AppLogEntry

def withProgress {φ : Type} (record : OperationRecord (Invocation φ)) (progress : String) :
    OperationRecord (Invocation φ) :=
  { record with fields := { record.fields with progress } }

structure CloneJob where
  id : ℕ
  url : String
  destPath : String
  progress : Option CloneProgress := none
  credentialPrompt : Option String := none
  deriving DecidableEq, Repr

/-- `rows` has the newest form of each record. -/
structure Running (φ ω : Type) where
  origin : ω
  rows : List (Entry φ) := []

inductive CloneJobStart
  | started
  | refused (error : GitError)
  deriving DecidableEq, Repr

inductive CloneEvent (φ : Type)
  | operationLogRecord (record : OperationRecord (Invocation φ))
  | credentialRequested (prompt : Option String)
  | cloneProgress (progress : CloneProgress)
  | cloneFinished (finished : CloneFinished)

inductive NativeCall
  | start (url destPath : String) (recurseSubmodules : Bool) (depth : ℕ)
  | cancel
  | provideCredential (secret : String)
  | cancelCredential
  | close
  deriving DecidableEq, Repr

/-- `state` are the jobs that are shown, `logs` the logs of all windows, and `calls` what was called for each job. -/
structure CloneJobController (φ ω : Type) where
  state : List CloneJob := []
  running : InsertionMap ℕ (Running φ ω) := .empty
  nextId : ℕ := 1
  opened : List String := []
  mounted : Bool := true
  logs : ω → List (Entry φ) := fun _ => []
  calls : List (ℕ × NativeCall) := []

inductive Input (φ ω : Type)
  | start (url destPath : String) (recurseSubmodules shallow : Bool) (origin : ω) (answer : CloneJobStart) (now : ℤ)
  | cancel (id : ℕ)
  | provideCredential (id : ℕ) (secret : String)
  | cancelCredential (id : ℕ)
  | event (id : ℕ) (event : CloneEvent φ) (now : ℤ)
  | logged (log : ω) (entry : Entry φ)
  | dispose

def rowIds {φ : Type} (rows : List (Entry φ)) : Finset ℤ := (rows.filterMap GbmLogEntry.id?).toFinset

/-- The record as it is logged: a row that runs carries the progress so far. -/
def shown {φ : Type} (progress : Option CloneProgress) (record : OperationRecord (Invocation φ)) :
    OperationRecord (Invocation φ) :=
  match progress with
  | some progress => if record.running then withProgress record progress.label else record
  | none => record

/-- The row that a progress is laid over. -/
def laidOver {φ : Type} (rows : List (Entry φ)) (progress : CloneProgress) : Option (OperationRecord (Invocation φ)) :=
  match rows.getLast? with
  | some (.operationRecord last) => if last.running then some (withProgress last progress.label) else none
  | _ => none

def kMaxRows : ℕ := 2 ^ 30

namespace CloneJobController

variable {φ ω : Type} [DecidableEq ω]

def call (s : CloneJobController φ ω) (id : ℕ) (call : NativeCall) : CloneJobController φ ω :=
  match s.running.get? id with
  | some _ => { s with calls := s.calls ++ [(id, call)] }
  | none => s

def job? (s : CloneJobController φ ω) (id : ℕ) : Option CloneJob := s.state.find? fun j => j.id == id

/-- What the rest of the program sees of a job. -/
def shown? (s : CloneJobController φ ω) (id : ℕ) : Option (String × Option CloneProgress) :=
  (s.job? id).map fun j => (j.destPath, j.progress)

def update (s : CloneJobController φ ω) (id : ℕ) (change : CloneJob → CloneJob) : CloneJobController φ ω :=
  { s with state := s.state.map fun j => if j.id = id then change j else j }

variable (cap : ω → ℕ) (repositoryLog : String → ω)

def record (s : CloneJobController φ ω) (log : ω) (entry : Entry φ) : CloneJobController φ ω :=
  { s with logs := Function.update s.logs log (appendLogEntry (s.logs log) entry (cap log)) }

def retract (s : CloneJobController φ ω) (log : ω) (ids : Finset ℤ) : CloneJobController φ ω :=
  { s with logs := Function.update s.logs log (retractLogEntries (s.logs log) ids) }

def recordRow (s : CloneJobController φ ω) (id : ℕ) (run : Running φ ω) (row : OperationRecord (Invocation φ)) :
    CloneJobController φ ω :=
  let rows := appendLogEntry run.rows (.operationRecord row) kMaxRows
  record cap { s with running := s.running.put id { run with rows } } run.origin (.operationRecord row)

def start (s : CloneJobController φ ω) (url destPath : String) (recurseSubmodules shallow : Bool) (origin : ω)
    (answer : CloneJobStart) (now : ℤ) : Option (CloneJobController φ ω) :=
  let id := s.nextId
  match answer with
  | .refused error =>
    some (record cap { s with nextId := id + 1 } origin (.appLogEntry (AppLogEvents.errorOccurred error now)))
  | .started =>
    if s.mounted then
      some
        { s with
          nextId := id + 1
          calls := s.calls ++ [(id, .start url destPath recurseSubmodules (if shallow then 1 else 0))]
          running := s.running.put id { origin }
          state := s.state ++ [{ id, url, destPath }] }
    else none

def closeRun (s : CloneJobController φ ω) (id : ℕ) : CloneJobController φ ω :=
  { s with
    calls := s.calls ++ [(id, .close)]
    running := s.running.remove id
    state := s.state.filter fun j => decide (j.id ≠ id) }

def finish (s : CloneJobController φ ω) (id : ℕ) (run : Running φ ω) (finished : CloneFinished) (now : ℤ) :
    CloneJobController φ ω :=
  let ended := s.closeRun id
  match s.job? id with
  | none => ended
  | some job =>
    let ids := rowIds run.rows
    if finished.ok then
      let dest := finished.destPath.getD job.destPath
      let moved := run.rows.foldl (fun s row => s.record cap (repositoryLog dest) row) (ended.retract run.origin ids)
      { moved with opened := moved.opened ++ [dest] }
    else
      let lines :=
        (finished.removedPath.map fun path => AppLogEvents.cloneDestinationRemoved path now).toList ++
        (finished.removalError.map fun reason =>
          AppLogEvents.cloneDestinationNotRemoved job.destPath reason now).toList ++
        ((finished.error.filter fun error => decide (ids = ∅) && error.codeName ≠ "Cancelled").map fun error =>
          AppLogEvents.errorOccurred error now).toList
      lines.foldl (fun s line => s.record cap run.origin (.appLogEntry line)) ended

def onEvent (s : CloneJobController φ ω) (id : ℕ) (event : CloneEvent φ) (now : ℤ) : CloneJobController φ ω :=
  match s.running.get? id with
  | none => s
  | some run =>
    if !s.mounted then s
    else
      match event with
      | .operationLogRecord row => s.recordRow cap id run (shown ((s.job? id).bind CloneJob.progress) row)
      | .credentialRequested prompt => s.update id fun j => { j with credentialPrompt := some (prompt.getD "") }
      | .cloneProgress progress =>
        let progressed := s.update id fun j => { j with progress := some progress }
        match laidOver run.rows progress with
        | some row => progressed.recordRow cap id run row
        | none => progressed
      | .cloneFinished finished => s.finish cap repositoryLog id run finished now

def dispose (s : CloneJobController φ ω) : CloneJobController φ ω :=
  { s with
    calls := s.calls ++ s.running.entries.map fun entry => (entry.1, .close)
    running := .empty
    mounted := false }

/-- `none` where the state of a controller that is disposed would be read. -/
def step (s : CloneJobController φ ω) : Input φ ω → Option (CloneJobController φ ω)
  | .start url destPath recurseSubmodules shallow origin answer now =>
    s.start cap url destPath recurseSubmodules shallow origin answer now
  | .cancel id => some (s.call id .cancel)
  | .provideCredential id secret =>
    let answered := s.call id (.provideCredential secret)
    if s.mounted then some (answered.update id fun j => { j with credentialPrompt := none }) else none
  | .cancelCredential id =>
    let answered := s.call id .cancelCredential
    if s.mounted then some (answered.update id fun j => { j with credentialPrompt := none }) else none
  | .event id event now => some (s.onEvent cap repositoryLog id event now)
  | .logged log entry => some (s.record cap log entry)
  | .dispose => some s.dispose

def run (inputs : List (Input φ ω)) : Option (CloneJobController φ ω) := inputs.foldlM (step cap repositoryLog) {}

end CloneJobController

namespace CloneJobController

variable {φ ω : Type}

theorem shown?_update (s : CloneJobController φ ω) (id id' : ℕ) {change : CloneJob → CloneJob}
    (hKey : ∀ j, (change j).id = j.id) :
    (s.update id change).shown? id' =
      if id' = id then ((s.job? id').map change).map fun j => (j.destPath, j.progress) else s.shown? id' := by
  have hSame : ((fun j => j.id == id') ∘ fun j => if j.id = id then change j else j) =
      fun j : CloneJob => j.id == id' := by
    funext j
    rw [Function.comp_apply]
    split
    · rw [hKey]
    · rfl
  rw [shown?, job?, update, List.find?_map, hSame, shown?, job?]
  cases hFound : s.state.find? fun j => j.id == id' with
  | none => split <;> rfl
  | some j =>
    have hId : j.id = id' := by simpa using List.find?_some hFound
    rw [Option.map_some, Option.map_some, hId]
    split <;> rfl

theorem shown?_closeRun (s : CloneJobController φ ω) (id id' : ℕ) :
    (s.closeRun id).shown? id' = if id' = id then none else s.shown? id' := by
  rw [shown?, job?, closeRun, List.find?_filter, shown?, job?]
  split
  next hSame =>
    rw [Option.map_eq_none_iff, List.find?_eq_none]
    intro j _
    simp [hSame]
  next hOther =>
    congr 2
    funext j
    by_cases hKey : j.id = id'
    · simp [hKey, hOther]
    · simp [hKey]

variable [DecidableEq ω] {cap : ω → ℕ}

theorem foldl_record (s : CloneJobController φ ω) (log : ω) (rows : List (Entry φ)) :
    rows.foldl (fun s row => s.record cap log row) s =
      { s with
        logs := Function.update s.logs log
          (rows.foldl (fun all row => appendLogEntry all row (cap log)) (s.logs log)) } := by
  induction rows generalizing s with
  | nil => rw [List.foldl_nil, List.foldl_nil, Function.update_eq_self]
  | cons row rows ih =>
    rw [List.foldl_cons, ih, List.foldl_cons]
    simp only [record, Function.update_self, Function.update_idem]

end CloneJobController

/-! ## What is called for a clone -/

def NativeCall.isRequest : NativeCall → Bool
  | .cancel | .provideCredential _ | .cancelCredential => true
  | _ => false

namespace CloneJobController

variable {φ ω : Type}

def callsOf (s : CloneJobController φ ω) (id : ℕ) : List NativeCall :=
  (s.calls.filter fun call => call.1 == id).map Prod.snd

theorem callsOf_append (s : CloneJobController φ ω) (id id' : ℕ) (native : NativeCall) :
    ((s.calls ++ [(id, native)]).filter fun call => call.1 == id').map Prod.snd =
      if id' = id then s.callsOf id' ++ [native] else s.callsOf id' := by
  rw [List.filter_append, List.map_append, callsOf]
  split
  next hSame =>
    rw [hSame, List.filter_singleton, beq_self_eq_true]
    rfl
  next hOther =>
    rw [List.filter_singleton, beq_eq_false_iff_ne.mpr (Ne.symm hOther)]
    exact List.append_nil _

end CloneJobController

/-- A job is started, then asked for this and that while it runs, and closed at the end. -/
def Traced (running : Bool) (calls : List NativeCall) : Prop :=
  ∃ url destPath recurseSubmodules depth requests, calls =
    .start url destPath recurseSubmodules depth :: requests ++ (if running then [] else [.close]) ∧
      ∀ call ∈ requests, call.isRequest = true

theorem Traced.request {calls : List NativeCall} (h : Traced true calls) {native : NativeCall}
    (hRequest : native.isRequest = true) : Traced true (calls ++ [native]) := by
  obtain ⟨url, destPath, recurseSubmodules, depth, requests, rfl, hRequests⟩ := h
  refine ⟨url, destPath, recurseSubmodules, depth, requests ++ [native], ?_, ?_⟩
  · rw [if_pos rfl, List.append_nil, List.append_nil]
    rfl
  · intro call hMem
    obtain hOld | hNew := List.mem_append.mp hMem
    · exact hRequests call hOld
    · rwa [List.mem_singleton.mp hNew]

theorem Traced.close {calls : List NativeCall} (h : Traced true calls) : Traced false (calls ++ [.close]) := by
  obtain ⟨url, destPath, recurseSubmodules, depth, requests, rfl, hRequests⟩ := h
  refine ⟨url, destPath, recurseSubmodules, depth, requests, ?_, hRequests⟩
  rw [if_pos rfl, List.append_nil, if_neg Bool.false_ne_true]

/-- Each id is that of no job, or of one that runs or was closed. -/
structure Handled {φ ω : Type} (s : CloneJobController φ ω) : Prop where
  fresh : ∀ id, s.nextId ≤ id → s.callsOf id = [] ∧ s.running.get? id = none
  traced : ∀ id, s.callsOf id = [] ∧ s.running.get? id = none ∨ Traced (s.running.get? id).isSome (s.callsOf id)

namespace Handled

variable {φ ω : Type} {s s' : CloneJobController φ ω}

theorem congr (h : Handled s) (hNextId : s.nextId ≤ s'.nextId) (hCalls : s'.calls = s.calls)
    (hRunning : s'.running = s.running) : Handled s' := by
  have hCallsOf (id : ℕ) : s'.callsOf id = s.callsOf id := by
    rw [CloneJobController.callsOf, hCalls, CloneJobController.callsOf]
  refine ⟨fun id hFresh => ?_, fun id => ?_⟩
  · rw [hCallsOf, hRunning]
    exact h.fresh id (hNextId.trans hFresh)
  · rw [hCallsOf, hRunning]
    exact h.traced id

theorem running (h : Handled s) {id : ℕ} {run : Running φ ω} (hRun : s.running.get? id = some run) :
    Traced true (s.callsOf id) ∧ id < s.nextId := by
  constructor
  · obtain ⟨-, hOut⟩ | hTraced := h.traced id
    · rw [hRun] at hOut
      cases hOut
    · rwa [hRun] at hTraced
  · by_contra hFresh
    have hOut := (h.fresh id (Nat.le_of_not_lt hFresh)).2
    rw [hRun] at hOut
    cases hOut

/-- One job is called. -/
theorem called (h : Handled s) {id : ℕ} {native : NativeCall} (hCalls : s'.calls = s.calls ++ [(id, native)])
    (hNextId : s.nextId ≤ s'.nextId) (hLess : id < s'.nextId)
    (hOthers : ∀ id', id' ≠ id → s'.running.get? id' = s.running.get? id')
    (hTraced : Traced (s'.running.get? id).isSome (s.callsOf id ++ [native])) : Handled s' := by
  have hCallsOf (id' : ℕ) : s'.callsOf id' = if id' = id then s.callsOf id' ++ [native] else s.callsOf id' := by
    rw [CloneJobController.callsOf, hCalls, s.callsOf_append]
  refine ⟨fun id' hFresh => ?_, fun id' => ?_⟩
  · have hOther : id' ≠ id := (hLess.trans_le hFresh).ne'
    rw [hCallsOf, if_neg hOther, hOthers id' hOther]
    exact h.fresh id' (hNextId.trans hFresh)
  · rw [hCallsOf]
    split
    next hSame =>
      subst hSame
      exact .inr hTraced
    next hOther =>
      rw [hOthers id' hOther]
      exact h.traced id'

theorem call (h : Handled s) (id : ℕ) {native : NativeCall} (hRequest : native.isRequest = true) :
    Handled (s.call id native) := by
  rw [CloneJobController.call]
  split
  next run hRun =>
    obtain ⟨hTraced, hLess⟩ := h.running hRun
    refine h.called rfl le_rfl hLess (fun _ _ => rfl) ?_
    dsimp only
    rw [hRun]
    exact hTraced.request hRequest
  next => exact h

theorem started (h : Handled s) (url destPath : String) (recurseSubmodules : Bool) (depth : ℕ) (origin : ω) :
    Handled
      { s with
        nextId := s.nextId + 1
        calls := s.calls ++ [(s.nextId, .start url destPath recurseSubmodules depth)]
        running := s.running.put s.nextId { origin }
        state := s.state ++ [{ id := s.nextId, url, destPath }] } := by
  refine h.called rfl (Nat.le_succ _) (Nat.lt_succ_self _) (fun id hOther => ?_) ?_
  · dsimp only
    rw [InsertionMap.get?_put, if_neg hOther]
  · dsimp only
    rw [InsertionMap.get?_put, if_pos rfl, (h.fresh s.nextId le_rfl).1]
    exact ⟨url, destPath, recurseSubmodules, depth, [], rfl, nofun⟩

theorem closeRun (h : Handled s) {id : ℕ} {run : Running φ ω} (hRun : s.running.get? id = some run) :
    Handled (s.closeRun id) := by
  obtain ⟨hTraced, hLess⟩ := h.running hRun
  refine h.called rfl le_rfl hLess (fun id' hOther => ?_) ?_
  · rw [CloneJobController.closeRun, InsertionMap.get?_remove, if_neg hOther]
  · rw [CloneJobController.closeRun, InsertionMap.get?_remove, if_pos rfl]
    exact hTraced.close

theorem dispose (h : Handled s) : Handled s.dispose := by
  have hCallsOf (id : ℕ) :
      s.dispose.callsOf id =
        s.callsOf id ++ if id ∈ s.running.entries.map Prod.fst then [NativeCall.close] else [] := by
    have hClosed :
        (List.filter (fun call => call.1 == id) (s.running.entries.map fun entry => (entry.1, NativeCall.close))).map
          Prod.snd =
          ((s.running.entries.map Prod.fst).filter fun id' => id' == id).map fun _ => NativeCall.close := by
      rw [List.filter_map, List.filter_map, List.map_map, List.map_map]
      rfl
    rw [CloneJobController.callsOf, CloneJobController.dispose, List.filter_append, List.map_append, hClosed,
      List.filter_beq, s.running.nodup.count]
    split <;> rfl
  refine ⟨fun id hFresh => ?_, fun id => ?_⟩
  · obtain ⟨hNone, hOut⟩ := h.fresh id hFresh
    rw [hCallsOf, hNone, if_neg (InsertionMap.get?_eq_none.mp hOut)]
    exact ⟨rfl, rfl⟩
  · rw [hCallsOf]
    cases hRun : s.running.get? id with
    | some run =>
      have hMem : id ∈ s.running.entries.map Prod.fst :=
        List.mem_map.mpr ⟨_, InsertionMap.get?_eq_some.mp hRun, rfl⟩
      rw [if_pos hMem]
      exact .inr (h.running hRun).1.close
    | none =>
      rw [if_neg (InsertionMap.get?_eq_none.mp hRun), List.append_nil]
      obtain ⟨hNone, -⟩ | hTraced := h.traced id
      · exact .inl ⟨hNone, rfl⟩
      · rw [hRun] at hTraced
        exact .inr hTraced

variable [DecidableEq ω] {cap : ω → ℕ} {repositoryLog : String → ω}

theorem recordRow (h : Handled s) {id : ℕ} {run : Running φ ω} (hRun : s.running.get? id = some run)
    (row : OperationRecord (Invocation φ)) : Handled (s.recordRow cap id run row) := by
  have hSome (id' : ℕ) (run' : Running φ ω) :
      ((s.running.put id run').get? id').isSome = (s.running.get? id').isSome := by
    rw [InsertionMap.get?_put]
    split
    next hSame => rw [hSame, hRun, Option.isSome_some, Option.isSome_some]
    next => rfl
  refine ⟨fun id' hFresh => ?_, fun id' => ?_⟩
  · obtain ⟨hNone, hOut⟩ := h.fresh id' hFresh
    refine ⟨hNone, Option.not_isSome_iff_eq_none.mp fun hIn => ?_⟩
    rw [CloneJobController.recordRow, CloneJobController.record, hSome, hOut] at hIn
    cases hIn
  · obtain ⟨hNone, hOut⟩ | hTraced := h.traced id'
    · refine .inl ⟨hNone, Option.not_isSome_iff_eq_none.mp fun hIn => ?_⟩
      rw [CloneJobController.recordRow, CloneJobController.record, hSome, hOut] at hIn
      cases hIn
    · right
      rw [CloneJobController.recordRow, CloneJobController.record, hSome]
      exact hTraced

theorem finish (h : Handled s) {id : ℕ} {run : Running φ ω} (hRun : s.running.get? id = some run)
    (finished : CloneFinished) (now : ℤ) : Handled (s.finish cap repositoryLog id run finished now) := by
  have hClosed := h.closeRun hRun
  rw [CloneJobController.finish]
  split
  next => exact hClosed
  next job _ =>
    dsimp only
    split
    · rw [CloneJobController.foldl_record]
      exact hClosed.congr le_rfl rfl rfl
    · have hLines := @List.foldl_map _ _ _ (GbmLogEntry.appLogEntry : AppLogEntry → Entry φ)
        fun s row => CloneJobController.record cap s run.origin row
      rw [← hLines, CloneJobController.foldl_record]
      exact hClosed.congr le_rfl rfl rfl

theorem onEvent (h : Handled s) (id : ℕ) (event : CloneEvent φ) (now : ℤ) :
    Handled (s.onEvent cap repositoryLog id event now) := by
  rw [CloneJobController.onEvent]
  split
  next => exact h
  next run hRun =>
    split
    next => exact h
    next =>
      cases event with
      | operationLogRecord row => exact h.recordRow hRun _
      | credentialRequested prompt => exact h.congr le_rfl rfl rfl
      | cloneProgress progress =>
        have hUpdated : Handled (s.update id fun j => { j with progress := some progress }) := h.congr le_rfl rfl rfl
        dsimp only
        split
        next row _ => exact hUpdated.recordRow hRun row
        next => exact hUpdated
      | cloneFinished finished => exact h.finish hRun finished now

theorem step (h : Handled s) {input : Input φ ω} (hStep : s.step cap repositoryLog input = some s') : Handled s' := by
  cases input with
  | start url destPath recurseSubmodules shallow origin answer now =>
    cases answer with
    | refused error =>
      obtain rfl := Option.some.inj hStep
      exact h.congr (Nat.le_succ _) rfl rfl
    | started =>
      obtain ⟨-, hSame⟩ := Option.ite_none_right_eq_some.mp hStep
      obtain rfl := Option.some.inj hSame
      exact h.started url destPath recurseSubmodules _ origin
  | cancel id =>
    obtain rfl := Option.some.inj hStep
    exact h.call id rfl
  | provideCredential id secret =>
    obtain ⟨-, hSame⟩ := Option.ite_none_right_eq_some.mp hStep
    obtain rfl := Option.some.inj hSame
    have hCall : Handled (s.call id (.provideCredential secret)) := h.call id rfl
    exact hCall.congr le_rfl rfl rfl
  | cancelCredential id =>
    obtain ⟨-, hSame⟩ := Option.ite_none_right_eq_some.mp hStep
    obtain rfl := Option.some.inj hSame
    have hCall : Handled (s.call id .cancelCredential) := h.call id rfl
    exact hCall.congr le_rfl rfl rfl
  | event id event now =>
    obtain rfl := Option.some.inj hStep
    exact h.onEvent id event now
  | logged log entry =>
    obtain rfl := Option.some.inj hStep
    exact h.congr le_rfl rfl rfl
  | dispose =>
    obtain rfl := Option.some.inj hStep
    exact h.dispose

theorem run (h : Handled s) {inputs : List (Input φ ω)}
    (hRun : inputs.foldlM (CloneJobController.step cap repositoryLog) s = some s') : Handled s' := by
  induction inputs generalizing s with
  | nil =>
    obtain rfl := Option.some.inj hRun
    exact h
  | cons input inputs ih =>
    rw [List.foldlM_cons] at hRun
    obtain ⟨next, hStep, hRest⟩ := Option.bind_eq_some_iff.mp hRun
    exact ih (h.step hStep) hRest

end Handled

/-- The handle of a clone is closed when the clone ends or the controller goes, once, and not called from then on. -/
theorem traced_run {φ ω : Type} [DecidableEq ω] {cap : ω → ℕ} {repositoryLog : String → ω} {inputs : List (Input φ ω)}
    {s : CloneJobController φ ω} (hRun : CloneJobController.run cap repositoryLog inputs = some s) (id : ℕ) :
    s.callsOf id = [] ∧ s.running.get? id = none ∨ Traced (s.running.get? id).isSome (s.callsOf id) := by
  have hNothing : Handled ({} : CloneJobController φ ω) := ⟨fun _ _ => ⟨rfl, rfl⟩, fun _ => .inl ⟨rfl, rfl⟩⟩
  exact (hNothing.run hRun).traced id

/-- Two clones from one window: the first succeeds, and the second is cancelled. -/
def twoClones : List (Input Unit Bool) :=
  [.start "https://h/a" "/src/a" false false false .started 1,
    .start "https://h/b" "/src/b" true true false .started 2,
    .event 1 (.operationLogRecord { id := 7, running := true, fields := { other := () } }) 3,
    .event 2 (.operationLogRecord { id := 8, running := true, fields := { other := () } }) 4,
    .event 1 (.cloneProgress { phase := .receiving, current := 1, total := 2 }) 5,
    .event 1 (.operationLogRecord { id := 7, running := false, fields := { other := () } }) 6,
    .cancel 2,
    .event 1 (.cloneFinished { ok := true }) 7,
    .event 2 (.operationLogRecord { id := 8, running := false, fields := { other := () } }) 8,
    .event 2 (.cloneFinished { ok := false, removedPath := some "/src/b" }) 9]

theorem traced_run_twoClones :
    ∃ s, CloneJobController.run (fun _ => 9) (fun _ => true) (twoClones ++ [.dispose]) = some s ∧
      (s.callsOf 2 = [] ∧ s.running.get? 2 = none ∨ Traced (s.running.get? 2).isSome (s.callsOf 2)) :=
  ⟨_, rfl, @traced_run _ _ _ (fun _ => 9) (fun _ => true) (twoClones ++ [.dispose]) _ rfl 2⟩

end CloneJobs

end GitBranchManager
