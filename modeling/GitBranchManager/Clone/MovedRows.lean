import GitBranchManager.Clone.CloneJobs

/-! # The rows of a clone

Each clone is told apart in a ledger, which says what its rows are and in which log they belong. The controller keeps to
the ledger whatever the other clones do.
-/

namespace GitBranchManager

namespace CloneJobs

open Library OperationLog

/-! ## Each clone apart -/

/-- `log` is the one that has its rows. -/
structure Job (φ ω : Type) where
  log : ω
  destPath : String
  progress : Option CloneProgress := none
  rows : List (Entry φ) := []
  running : Bool := true

namespace Job

variable {φ ω : Type}

def step (repositoryLog : String → ω) (job : Job φ ω) : CloneEvent φ → Job φ ω
  | .operationLogRecord row =>
    { job with rows := insertEntry (.operationRecord (shown job.progress row)) job.rows }
  | .credentialRequested _ => job
  | .cloneProgress progress =>
    { job with
      progress := some progress
      rows :=
        match laidOver job.rows progress with
        | some row => insertEntry (.operationRecord row) job.rows
        | none => job.rows }
  | .cloneFinished finished =>
    { job with
      running := false
      log := if finished.ok then repositoryLog (finished.destPath.getD job.destPath) else job.log }

def run? (job : Job φ ω) : Option (Running φ ω) :=
  if job.running then some { origin := job.log, rows := job.rows } else none

end Job

/-- What is shown of a job that runs. -/
def Job.shown? {φ ω : Type} (job : Job φ ω) : Option (String × Option CloneProgress) :=
  if job.running then some (job.destPath, job.progress) else none

structure Ledger (φ ω : Type) where
  nextId : ℕ := 1
  jobs : ℕ → Option (Job φ ω) := fun _ => none

namespace Ledger

variable {φ ω : Type}

def set (l : Ledger φ ω) (id : ℕ) (job : Job φ ω) : Ledger φ ω :=
  { l with jobs := Function.update l.jobs id (some job) }

@[simp] theorem jobs_set_self (l : Ledger φ ω) (id : ℕ) (job : Job φ ω) : (l.set id job).jobs id = some job :=
  Function.update_self _ _ _

theorem jobs_set_of_ne {id id' : ℕ} (h : id' ≠ id) (l : Ledger φ ω) (job : Job φ ω) :
    (l.set id job).jobs id' = l.jobs id' :=
  Function.update_of_ne h _ _

theorem forall_set {p : ℕ → Job φ ω → Prop} {l : Ledger φ ω} {id : ℕ} {job : Job φ ω} (hNew : p id job)
    (hOld : ∀ id job, l.jobs id = some job → p id job) :
    ∀ id' job', (l.set id job).jobs id' = some job' → p id' job' := by
  intro id' job' hFound
  obtain rfl | hOther := eq_or_ne id' id
  · rw [jobs_set_self] at hFound
    obtain rfl := Option.some.inj hFound
    exact hNew
  · rw [jobs_set_of_ne hOther] at hFound
    exact hOld id' job' hFound

theorem set_set (l : Ledger φ ω) (id : ℕ) (job job' : Job φ ω) : (l.set id job).set id job' = l.set id job' := by
  rw [set, set, Function.update_idem, set]

theorem set_eq_self {l : Ledger φ ω} {id : ℕ} {job : Job φ ω} (h : l.jobs id = some job) : l.set id job = l := by
  rw [set, ← h, Function.update_eq_self]

variable (repositoryLog : String → ω)

def step (l : Ledger φ ω) : Input φ ω → Ledger φ ω
  | .start _ destPath _ _ origin .started _ =>
    { l.set l.nextId { log := origin, destPath } with nextId := l.nextId + 1 }
  | .start _ _ _ _ _ (.refused _) _ => { l with nextId := l.nextId + 1 }
  | .event id event _ =>
    match l.jobs id with
    | some job => if job.running then l.set id (job.step repositoryLog event) else l
    | none => l
  | .dispose => { l with jobs := fun id => (l.jobs id).map fun job => { job with running := false } }
  | _ => l

def of (inputs : List (Input φ ω)) : Ledger φ ω := inputs.foldl (step repositoryLog) {}

end Ledger

/-- The ids of records are given out process-wide: `owner` says which clone ran a command. -/
def Input.Owned {φ ω : Type} (owner : ℤ → Option ℕ) : Input φ ω → Prop
  | .event id (.operationLogRecord row) _ => row.id ≠ 0 ∧ owner row.id = some id
  | .logged _ entry => ∀ i, entry.id? = some i → owner i = none
  | _ => True

def ownedBy {φ : Type} (owner : ℤ → Option ℕ) (id : ℕ) (row : Entry φ) : Bool := row.id?.bind owner == some id

/-! ## The rows of a clone are in one log -/

section Owners

variable {φ : Type} {owner : ℤ → Option ℕ} {id : ℕ} {entry row : Entry φ}

theorem ownedBy_iff : ownedBy owner id row = true ↔ ∃ i, row.id? = some i ∧ owner i = some id := by
  rw [ownedBy, beq_iff_eq, Option.bind_eq_some_iff]

theorem ownedBy_congr (h : row.id? = entry.id?) (owner : ℤ → Option ℕ) (id : ℕ) :
    ownedBy owner id row = ownedBy owner id entry := by
  rw [ownedBy, h, ownedBy]

theorem ownedBy_unique {id' : ℕ} (h : ownedBy owner id row = true) (h' : ownedBy owner id' row = true) : id = id' := by
  obtain ⟨i, hId, hOwner⟩ := ownedBy_iff.mp h
  obtain ⟨i', hId', hOwner'⟩ := ownedBy_iff.mp h'
  obtain rfl := Option.some.inj (hId.symm.trans hId')
  exact Option.some.inj (hOwner.symm.trans hOwner')

theorem id?_of_replaces {ρ ε : Type} {entry row : GbmLogEntry ρ ε} (h : entry.Replaces row) : row.id? = entry.id? := by
  obtain ⟨-, id, hRow, hEntry⟩ := h
  exact hRow.trans hEntry.symm

theorem mem_rowIds {rows : List (Entry φ)} {i : ℤ} : i ∈ rowIds rows ↔ ∃ row ∈ rows, row.id? = some i := by
  rw [rowIds, List.mem_toFinset, List.mem_filterMap]

end Owners

/-- A row that a clone owns is in the log that the ledger has its rows in, and one of its rows has the same id. -/
def Homed {φ ω : Type} (owner : ℤ → Option ℕ) (logs : ω → List (Entry φ)) (jobs : ℕ → Option (Job φ ω)) : Prop :=
  ∀ id log, ∀ row ∈ logs log, ownedBy owner id row = true →
    ∃ job, jobs id = some job ∧ log = job.log ∧ ∃ form ∈ job.rows, form.id? = row.id?

/-- The log of a clone has its rows in their order, with nothing of it besides. -/
def Exact {φ ω : Type} (owner : ℤ → Option ℕ) (logs : ω → List (Entry φ)) (jobs : ℕ → Option (Job φ ω)) : Prop :=
  ∀ id job, jobs id = some job → (logs job.log).filter (ownedBy owner id) = job.rows

def CloneJobController.Room {φ ω : Type} (cap : ω → ℕ) (s : CloneJobController φ ω) : Prop :=
  ∀ log, (s.logs log).length < cap log

/-- The controller has what the ledger has, after `n` inputs; `room` says that no log was cut. -/
structure Follows {φ ω : Type} [DecidableEq ω] (owner : ℤ → Option ℕ) (room : Prop) (n : ℕ)
    (s : CloneJobController φ ω) (l : Ledger φ ω) : Prop where
  nextId : s.nextId = l.nextId
  fresh : ∀ id, l.nextId ≤ id → l.jobs id = none
  running : ∀ id, s.running.get? id = (l.jobs id).bind Job.run?
  state : s.mounted = true → ∀ id, s.shown? id = (l.jobs id).bind Job.shown?
  mounted : s.mounted = false → s.running = .empty
  rows : ∀ id job, l.jobs id = some job → ∀ row ∈ job.rows, ownedBy owner id row = true
  newest : ∀ id job, l.jobs id = some job → Newest job.rows
  length : ∀ id job, l.jobs id = some job → job.rows.length ≤ n
  homed : Homed owner s.logs l.jobs
  exact : room → Exact owner s.logs l.jobs

section Homes

variable {φ ω : Type} [DecidableEq ω] {owner : ℤ → Option ℕ} {logs : ω → List (Entry φ)} {jobs : ℕ → Option (Job φ ω)}

/-- What no clone owns changes nothing. -/
theorem Homed.foreign (h : Homed owner logs jobs) {log : ω} {all : List (Entry φ)}
    (hAll : ∀ row ∈ all, row ∈ logs log ∨ ∀ id, ownedBy owner id row = false) :
    Homed owner (Function.update logs log all) jobs := by
  intro id log' row hMem hOwned
  obtain rfl | hOther := eq_or_ne log' log
  · rw [Function.update_self] at hMem
    obtain hOld | hForeign := hAll row hMem
    · exact h id log' row hOld hOwned
    · rw [hForeign id] at hOwned
      cases hOwned
  · rw [Function.update_of_ne hOther] at hMem
    exact h id log' row hMem hOwned

/-- A clone that keeps its log keeps its rows. -/
theorem Homed.change {φ ω : Type} {owner : ℤ → Option ℕ} {logs : ω → List (Entry φ)} {jobs : ℕ → Option (Job φ ω)}
    (h : Homed owner logs jobs) {id : ℕ} {job job' : Job φ ω} (hJob : jobs id = some job)
    (hLog : job'.log = job.log) (hRows : ∀ row ∈ job.rows, ∃ form ∈ job'.rows, form.id? = row.id?) :
    Homed owner logs (Function.update jobs id (some job')) := by
  intro id' log row hMem hOwned
  obtain ⟨job'', hJob'', rfl, form, hForm, hId⟩ := h id' log row hMem hOwned
  obtain rfl | hOther := eq_or_ne id' id
  · obtain rfl := Option.some.inj (hJob.symm.trans hJob'')
    obtain ⟨form', hForm', hId'⟩ := hRows form hForm
    exact ⟨job', Function.update_self _ _ _, hLog.symm, form', hForm', hId'.trans hId⟩
  · exact ⟨job'', by rw [Function.update_of_ne hOther, hJob''], rfl, form, hForm, hId⟩

theorem Homed.insert (h : Homed owner logs jobs) {id : ℕ} {job : Job φ ω} (hJob : jobs id = some job)
    {entry : Entry φ} (hEntry : ∀ id', ownedBy owner id' entry = true → id' = id) (cap : ℕ) :
    Homed owner (Function.update logs job.log (appendLogEntry (logs job.log) entry cap))
      (Function.update jobs id (some { job with rows := insertEntry entry job.rows })) := by
  have hOld : Homed owner logs (Function.update jobs id (some { job with rows := insertEntry entry job.rows })) :=
    h.change hJob rfl fun row hMem => exists_mem_insertEntry hMem
  intro id' log row hMem hOwned
  obtain rfl | hOther := eq_or_ne log job.log
  · rw [Function.update_self] at hMem
    obtain rfl | hMem := mem_appendLogEntry hMem
    · obtain rfl := hEntry id' hOwned
      exact ⟨_, Function.update_self _ _ _, rfl, row, mem_insertEntry_self row job.rows, rfl⟩
    · exact hOld id' _ row hMem hOwned
  · rw [Function.update_of_ne hOther] at hMem
    exact hOld id' log row hMem hOwned

/-- What is left when the rows of a clone are taken back. -/
theorem Homed.retract (h : Homed owner logs jobs) {id : ℕ} {job : Job φ ω} (hJob : jobs id = some job) (log : ω)
    {row : Entry φ}
    (hMem : row ∈ Function.update logs job.log (retractLogEntries (logs job.log) (rowIds job.rows)) log) :
    row ∈ logs log ∧ ownedBy owner id row = false := by
  have hOld : row ∈ logs log ∧ (log = job.log → ¬ row.Names (rowIds job.rows)) := by
    obtain rfl | hOther := eq_or_ne log job.log
    · rw [Function.update_self, mem_retractLogEntries] at hMem
      exact ⟨hMem.1, fun _ => hMem.2⟩
    · rw [Function.update_of_ne hOther] at hMem
      exact ⟨hMem, fun hSame => absurd hSame hOther⟩
  refine ⟨hOld.1, Bool.eq_false_iff.mpr fun hOwned => ?_⟩
  obtain ⟨job', hJob', rfl, form, hForm, hId⟩ := h id log row hOld.1 hOwned
  obtain rfl := Option.some.inj (hJob.symm.trans hJob')
  obtain ⟨i, hRow, -⟩ := ownedBy_iff.mp hOwned
  exact hOld.2 rfl ⟨i, mem_rowIds.mpr ⟨form, hForm, hId.trans hRow⟩, hRow⟩

/-- The rows of a clone that moves are taken back from the one log and appended to the other. -/
theorem Homed.move (h : Homed owner logs jobs) {id : ℕ} {job : Job φ ω} (hJob : jobs id = some job)
    (hRows : ∀ row ∈ job.rows, ownedBy owner id row = true) (target : ω) {all : List (Entry φ)}
    (hAll : ∀ row ∈ all, row ∈ job.rows ∨
      row ∈ Function.update logs job.log (retractLogEntries (logs job.log) (rowIds job.rows)) target) :
    Homed owner
      (Function.update (Function.update logs job.log (retractLogEntries (logs job.log) (rowIds job.rows))) target all)
      (Function.update jobs id (some { job with log := target, running := false })) := by
  have hOthers : ∀ log, ∀ row ∈ Function.update logs job.log (retractLogEntries (logs job.log) (rowIds job.rows)) log,
      ∀ id', ownedBy owner id' row = true → ∃ job',
        Function.update jobs id (some { job with log := target, running := false }) id' = some job' ∧ log = job'.log ∧
          ∃ form ∈ job'.rows, form.id? = row.id? := by
    intro log row hMem id' hOwned
    obtain ⟨hOld, hForeign⟩ := h.retract hJob log hMem
    have hOther : id' ≠ id := by
      rintro rfl
      rw [hForeign] at hOwned
      cases hOwned
    rw [Function.update_of_ne hOther]
    exact h id' log row hOld hOwned
  intro id' log row hMem hOwned
  obtain rfl | hOther := eq_or_ne log target
  · rw [Function.update_self] at hMem
    obtain hRow | hMem := hAll row hMem
    · obtain rfl := ownedBy_unique (hRows row hRow) hOwned
      exact ⟨_, Function.update_self _ _ _, rfl, row, hRow, rfl⟩
    · exact hOthers log row hMem id' hOwned
  · rw [Function.update_of_ne hOther] at hMem
    exact hOthers log row hMem id' hOwned

theorem Exact.foreign (h : Exact owner logs jobs) {log : ω} {entries : List (Entry φ)} {cap : ℕ}
    (hForeign : ∀ entry ∈ entries, ∀ id, ownedBy owner id entry = false)
    (hRoom : (entries.foldl (fun all row => appendLogEntry all row cap) (logs log)).length < cap) :
    Exact owner (Function.update logs log (entries.foldl (fun all row => appendLogEntry all row cap) (logs log)))
      jobs := by
  intro id job hJob
  obtain hSame | hOther := eq_or_ne job.log log
  · have hNone : entries.filter (ownedBy owner id) = [] := by
      rw [List.filter_eq_nil_iff]
      intro entry hMem hOwned
      rw [hForeign entry hMem id] at hOwned
      cases hOwned
    rw [hSame, Function.update_self, (foldl_appendLogEntry hRoom).2,
      filter_foldl_insertEntry fun hReplaces => ownedBy_congr (id?_of_replaces hReplaces) owner id, hNone, ← hSame]
    exact h id job hJob
  · rw [Function.update_of_ne hOther]
    exact h id job hJob

theorem Exact.change {φ ω : Type} {owner : ℤ → Option ℕ} {logs : ω → List (Entry φ)} {jobs : ℕ → Option (Job φ ω)}
    (h : Exact owner logs jobs) {id : ℕ} {job job' : Job φ ω} (hJob : jobs id = some job) (hLog : job'.log = job.log)
    (hRows : job'.rows = job.rows) : Exact owner logs (Function.update jobs id (some job')) := by
  intro id' job'' hFound
  obtain rfl | hOther := eq_or_ne id' id
  · rw [Function.update_self] at hFound
    obtain rfl := Option.some.inj hFound
    rw [hLog, hRows]
    exact h id' job hJob
  · rw [Function.update_of_ne hOther] at hFound
    exact h id' job'' hFound

theorem Exact.insert (h : Exact owner logs jobs) {id : ℕ} {job : Job φ ω} (hJob : jobs id = some job)
    {entry : Entry φ} (hEntry : ∀ id', ownedBy owner id' entry = decide (id' = id)) {cap : ℕ}
    (hRoom : (appendLogEntry (logs job.log) entry cap).length < cap) :
    Exact owner (Function.update logs job.log (appendLogEntry (logs job.log) entry cap))
      (Function.update jobs id (some { job with rows := insertEntry entry job.rows })) := by
  intro id' job' hFound
  have hFilter : (insertEntry entry (logs job.log)).filter (ownedBy owner id') =
      if id' = id then insertEntry entry ((logs job.log).filter (ownedBy owner id'))
      else (logs job.log).filter (ownedBy owner id') := by
    rw [filter_insertEntry fun row hReplaces => ownedBy_congr (id?_of_replaces hReplaces) owner id', hEntry id']
    simp only [decide_eq_true_eq]
  rw [appendLogEntry_eq (lt_of_length_appendLogEntry hRoom)]
  obtain rfl | hOther := eq_or_ne id' id
  · rw [Function.update_self] at hFound
    obtain rfl := Option.some.inj hFound
    rw [Function.update_self, hFilter, if_pos rfl, h id' job hJob]
  · rw [Function.update_of_ne hOther] at hFound
    obtain hSame | hLog := eq_or_ne job'.log job.log
    · rw [hSame, Function.update_self, hFilter, if_neg hOther, ← hSame]
      exact h id' job' hFound
    · rw [Function.update_of_ne hLog]
      exact h id' job' hFound

/-- The rows of the clone come after what the other log has, and the other clones keep theirs. -/
theorem Exact.move (h : Exact owner logs jobs) (hHomed : Homed owner logs jobs) {id : ℕ} {job : Job φ ω}
    (hJob : jobs id = some job) (hRows : ∀ row ∈ job.rows, ownedBy owner id row = true) (hNewest : Newest job.rows)
    (target : ω) {cap : ℕ} {kept : ω → List (Entry φ)}
    (hKept : kept = Function.update logs job.log (retractLogEntries (logs job.log) (rowIds job.rows)))
    (hRoom : (job.rows.foldl (fun all row => appendLogEntry all row cap) (kept target)).length < cap) :
    Exact owner
      (Function.update kept target (job.rows.foldl (fun all row => appendLogEntry all row cap) (kept target)))
      (Function.update jobs id (some { job with log := target, running := false })) := by
  have hFold (id' : ℕ) := filter_foldl_insertEntry
    (fun hReplaces => ownedBy_congr (id?_of_replaces hReplaces) owner id') job.rows (kept target)
  rw [(foldl_appendLogEntry hRoom).2]
  intro id' job' hFound
  obtain rfl | hOther := eq_or_ne id' id
  · rw [Function.update_self] at hFound
    obtain rfl := Option.some.inj hFound
    have hNone : (kept target).filter (ownedBy owner id') = [] := by
      rw [List.filter_eq_nil_iff]
      intro row hMem hOwned
      rw [hKept] at hMem
      rw [(hHomed.retract hJob target hMem).2] at hOwned
      cases hOwned
    rw [Function.update_self, hFold, hNone, List.filter_eq_self.mpr hRows]
    exact foldl_insertEntry hNewest
  · have hRetracted : (kept job'.log).filter (ownedBy owner id') = job'.rows := by
      rw [Function.update_of_ne hOther] at hFound
      rw [hKept, ← h id' job' hFound]
      obtain hSame | hLog := eq_or_ne job'.log job.log
      · rw [hSame, Function.update_self, retractLogEntries, List.filter_filter]
        apply List.filter_congr
        intro row _
        cases hOwned : ownedBy owner id' row with
        | false => rfl
        | true =>
          rw [Bool.true_and, Bool.not_eq_true', Bool.eq_false_iff]
          intro hNamed
          obtain ⟨i, hIn, hId⟩ := isRetracted_iff.mp hNamed
          obtain ⟨form, hForm, hFormId⟩ := mem_rowIds.mp hIn
          rw [ownedBy_congr (hId.trans hFormId.symm)] at hOwned
          exact hOther (ownedBy_unique hOwned (hRows form hForm))
      · rw [Function.update_of_ne hLog]
    have hNone : job.rows.filter (ownedBy owner id') = [] := by
      rw [List.filter_eq_nil_iff]
      exact fun row hMem hOwned => hOther (ownedBy_unique hOwned (hRows row hMem))
    obtain hSame | hLog := eq_or_ne job'.log target
    · rw [hSame, Function.update_self, hFold, hNone, ← hSame]
      exact hRetracted
    · rw [Function.update_of_ne hLog]
      exact hRetracted

end Homes

namespace Follows

variable {φ ω : Type} [DecidableEq ω] {cap : ω → ℕ} {repositoryLog : String → ω} {owner : ℤ → Option ℕ} {room : Prop}
  {n id : ℕ} {s : CloneJobController φ ω} {l : Ledger φ ω} {job : Job φ ω}

theorem mono (h : Follows owner room n s l) : Follows owner room (n + 1) s l :=
  { h with length := fun id job hJob => (h.length id job hJob).trans (Nat.le_succ n) }

theorem weaken (h : Follows owner room n s l) {room' : Prop} (hRoom : room' → room) : Follows owner room' n s l :=
  { h with exact := fun hSmall => h.exact (hRoom hSmall) }

/-- A job that runs is as the ledger has it. -/
theorem exists_job (h : Follows owner room n s l) {run : Running φ ω} (hRun : s.running.get? id = some run) :
    s.mounted = true ∧ ∃ job j, l.jobs id = some job ∧ job.running = true ∧
      run = { origin := job.log, rows := job.rows } ∧ s.job? id = some j ∧ j.destPath = job.destPath ∧
        j.progress = job.progress := by
  have hMounted : s.mounted = true := by
    by_contra hDisposed
    rw [h.mounted (Bool.eq_false_iff.mpr hDisposed)] at hRun
    cases hRun
  have hState := h.state hMounted id
  rw [h.running] at hRun
  obtain ⟨job, hJob, hJobRun⟩ := Option.bind_eq_some_iff.mp hRun
  obtain ⟨hRunning, hSame⟩ := Option.ite_none_right_eq_some.mp hJobRun
  rw [hJob, Option.bind_some, Job.shown?, if_pos hRunning] at hState
  obtain ⟨j, hFound, hShown⟩ := Option.map_eq_some_iff.mp hState
  obtain ⟨hDest, hProgress⟩ := Prod.mk.inj hShown
  exact ⟨hMounted, job, j, hJob, hRunning, (Option.some.inj hSame).symm, hFound, hDest, hProgress⟩

theorem foreign (h : Follows owner room n s l) (cap : ω → ℕ) (log : ω) {entries : List (Entry φ)}
    (hForeign : ∀ entry ∈ entries, ∀ id, ownedBy owner id entry = false) :
    Follows owner (room ∧ (entries.foldl (fun s row => s.record cap log row) s).Room cap) n
      (entries.foldl (fun s row => s.record cap log row) s) l := by
  rw [CloneJobController.foldl_record]
  refine { h with
    homed := h.homed.foreign fun row hMem => ?_
    exact := fun hRoom => (h.exact hRoom.1).foreign hForeign ?_ }
  · obtain hNew | hOld := mem_foldl_appendLogEntry hMem
    · exact .inr (hForeign row hNew)
    · exact .inl hOld
  · have hLog := hRoom.2 log
    dsimp only at hLog
    rwa [Function.update_self] at hLog

/-- One job changes, and nothing else does. -/
theorem change (h : Follows owner room n s l) (hJob : l.jobs id = some job) {s' : CloneJobController φ ω}
    {job' : Job φ ω} (hNextId : s'.nextId = s.nextId) (hMounted : s'.mounted = true) (hWas : s.mounted = true)
    (hRun : ∀ id', s'.running.get? id' = if id' = id then job'.run? else s.running.get? id')
    (hShown : ∀ id', s'.shown? id' = if id' = id then job'.shown? else s.shown? id')
    (hRows : ∀ row ∈ job'.rows, ownedBy owner id row = true) (hNewest : Newest job'.rows)
    (hLength : job'.rows.length ≤ n) (hHomed : Homed owner s'.logs (l.set id job').jobs) {room' : Prop}
    (hExact : room' → Exact owner s'.logs (l.set id job').jobs) :
    Follows owner room' n s' (l.set id job') := by
  refine ⟨hNextId.trans h.nextId, ?_, ?_, ?_, ?_, Ledger.forall_set hRows h.rows, Ledger.forall_set hNewest h.newest,
    Ledger.forall_set hLength h.length, hHomed, hExact⟩
  · intro id' hFresh
    have hOther : id' ≠ id := by
      rintro rfl
      rw [h.fresh id' hFresh] at hJob
      cases hJob
    exact (Ledger.jobs_set_of_ne hOther _ _).trans (h.fresh id' hFresh)
  · intro id'
    rw [hRun]
    split
    next hSame => rw [hSame, Ledger.jobs_set_self, Option.bind_some]
    next hOther => rw [Ledger.jobs_set_of_ne hOther, h.running]
  · intro _ id'
    rw [hShown]
    split
    next hSame => rw [hSame, Ledger.jobs_set_self, Option.bind_some]
    next hOther => rw [Ledger.jobs_set_of_ne hOther, h.state hWas]
  · intro hDisposed
    rw [hMounted] at hDisposed
    cases hDisposed

theorem row (h : Follows owner room n s l) (hMounted : s.mounted = true) (hJob : l.jobs id = some job)
    (hRunning : job.running = true) {record : OperationRecord (Invocation φ)}
    (hOwned : ownedBy owner id (.operationRecord record) = true) (hLess : n < kMaxRows) :
    Follows owner (room ∧ (s.recordRow cap id { origin := job.log, rows := job.rows } record).Room cap) (n + 1)
      (s.recordRow cap id { origin := job.log, rows := job.rows } record)
      (l.set id { job with rows := insertEntry (.operationRecord record) job.rows }) := by
  have hLength := h.length id job hJob
  have hInsert : appendLogEntry job.rows (.operationRecord record) kMaxRows =
      insertEntry (.operationRecord record) job.rows := appendLogEntry_eq (hLength.trans_lt hLess)
  apply h.mono.change hJob
  · rfl
  · exact hMounted
  · exact hMounted
  · intro id'
    refine (InsertionMap.get?_put s.running id _ id').trans ?_
    rw [hInsert, Job.run?, if_pos hRunning]
  · intro id'
    split
    next hSame =>
      have hWas := h.state hMounted id
      rw [hJob, Option.bind_some] at hWas
      rw [hSame]
      exact hWas
    next => rfl
  · intro row hMem
    obtain rfl | hOld := mem_insertEntry hMem
    · exact hOwned
    · exact h.rows id job hJob row hOld
  · exact (h.newest id job hJob).insertEntry _
  · exact (length_insertEntry_le _ _).trans (Nat.succ_le_succ hLength)
  · apply h.homed.insert hJob
    exact fun id' hOwned' => ownedBy_unique hOwned' hOwned
  · intro hRoom
    have hLog := hRoom.2 job.log
    refine (h.exact hRoom.1).insert hJob (fun id' => ?_) ?_
    · obtain rfl | hOther := eq_or_ne id' id
      · rw [hOwned, decide_eq_true rfl]
      · rw [decide_eq_false hOther, Bool.eq_false_iff]
        exact fun hOwned' => hOther (ownedBy_unique hOwned' hOwned)
    · dsimp only [CloneJobController.recordRow, CloneJobController.record] at hLog
      rwa [Function.update_self] at hLog

theorem progress (h : Follows owner room n s l) (hMounted : s.mounted = true) (hJob : l.jobs id = some job)
    (hRunning : job.running = true) (progress : CloneProgress) :
    Follows owner room n (s.update id fun j => { j with progress := some progress })
      (l.set id { job with progress := some progress }) := by
  have hWas := h.state hMounted id
  rw [hJob, Option.bind_some, Job.shown?, if_pos hRunning] at hWas
  obtain ⟨j, hFound, hShown⟩ := Option.map_eq_some_iff.mp hWas
  apply h.change hJob
  · rfl
  · exact hMounted
  · exact hMounted
  · intro id'
    split
    next hSame =>
      have hRun := h.running id
      rw [hJob, Option.bind_some] at hRun
      rw [hSame]
      exact hRun
    next => rfl
  · intro id'
    rw [CloneJobController.shown?_update]
    · split
      next hSame =>
        rw [hSame, hFound, Option.map_some, Option.map_some, Job.shown?, if_pos hRunning]
        exact congrArg (fun destPath => some (destPath, some progress)) (Prod.mk.inj hShown).1
      next => rfl
    · exact fun _ => rfl
  · exact h.rows id job hJob
  · exact h.newest id job hJob
  · exact h.length id job hJob
  · exact h.homed.change hJob rfl fun row hMem => ⟨row, hMem, rfl⟩
  · exact fun hRoom => (h.exact hRoom).change hJob rfl rfl

theorem prompt (h : Follows owner room n s l) (id : ℕ) (prompt : Option String) :
    Follows owner room n (s.update id fun j => { j with credentialPrompt := prompt }) l :=
  { h with
    state := fun hMounted id' => by
      have hShown := @CloneJobController.shown?_update _ _ s id id' (fun j => { j with credentialPrompt := prompt })
        fun _ => rfl
      rw [hShown, ← h.state hMounted, CloneJobController.shown?, Option.map_map]
      split <;> rfl }

theorem ended (h : Follows owner room n s l) (hMounted : s.mounted = true) (hJob : l.jobs id = some job) :
    Follows owner room n (s.closeRun id) (l.set id { job with running := false }) := by
  apply h.change hJob
  · rfl
  · exact hMounted
  · exact hMounted
  · exact s.running.get?_remove id
  · exact s.shown?_closeRun id
  · exact h.rows id job hJob
  · exact h.newest id job hJob
  · exact h.length id job hJob
  · exact h.homed.change hJob rfl fun row hMem => ⟨row, hMem, rfl⟩
  · exact fun hRoom => (h.exact hRoom).change hJob rfl rfl

/-- The job is closed, and its rows go to another log. -/
def moveRun (cap : ω → ℕ) (s : CloneJobController φ ω) (id : ℕ) (job : Job φ ω) (target : ω) (opened : List String) :
    CloneJobController φ ω :=
  let kept := (s.closeRun id).retract job.log (rowIds job.rows)
  { s.closeRun id with
    opened
    logs := Function.update kept.logs target
      (job.rows.foldl (fun all row => appendLogEntry all row (cap target)) (kept.logs target)) }

theorem moved (h : Follows owner room n s l) (hMounted : s.mounted = true) (hJob : l.jobs id = some job) (target : ω)
    (opened : List String) :
    Follows owner (room ∧ (moveRun cap s id job target opened).Room cap) n (moveRun cap s id job target opened)
      (l.set id { job with log := target, running := false }) := by
  apply h.change hJob
  · rfl
  · exact hMounted
  · exact hMounted
  · exact s.running.get?_remove id
  · exact s.shown?_closeRun id
  · exact h.rows id job hJob
  · exact h.newest id job hJob
  · exact h.length id job hJob
  · exact h.homed.move hJob (h.rows id job hJob) target fun row hMem => mem_foldl_appendLogEntry hMem
  · intro hRoom
    have hLog := hRoom.2 target
    refine (h.exact hRoom.1).move h.homed hJob (h.rows id job hJob) (h.newest id job hJob) target rfl ?_
    dsimp only [moveRun] at hLog
    rwa [Function.update_self] at hLog

theorem lines (h : Follows owner room n s l) (log : ω) (lines : List AppLogEntry) :
    Follows owner (room ∧ (lines.foldl (fun s line => s.record cap log (.appLogEntry line)) s).Room cap) n
      (lines.foldl (fun s line => s.record cap log (.appLogEntry line)) s) l := by
  have hLines : ∀ entry ∈ lines.map GbmLogEntry.appLogEntry, ∀ id, ownedBy owner id (entry : Entry φ) = false := by
    intro entry hMem
    obtain ⟨line, -, rfl⟩ := List.mem_map.mp hMem
    exact fun _ => rfl
  have hForeign := h.foreign cap log hLines
  rwa [List.foldl_map] at hForeign

theorem finish (h : Follows owner room n s l) {run : Running φ ω} (hRun : s.running.get? id = some run)
    (hJob : l.jobs id = some job) (finished : CloneFinished) (now : ℤ) :
    Follows owner (room ∧ (s.finish cap repositoryLog id run finished now).Room cap) n
      (s.finish cap repositoryLog id run finished now)
      (l.set id (job.step repositoryLog (.cloneFinished finished))) := by
  obtain ⟨hMounted, job', j, hJob', -, rfl, hFound, hDest, -⟩ := h.exists_job hRun
  obtain rfl := Option.some.inj (hJob.symm.trans hJob')
  rw [CloneJobController.finish, hFound]
  dsimp only
  split
  next hOk =>
    have hMoved : job.step repositoryLog (.cloneFinished finished) =
        { job with log := repositoryLog (finished.destPath.getD job.destPath), running := false } := by
      rw [Job.step, if_pos hOk]
    rw [hMoved, hDest, CloneJobController.foldl_record]
    exact h.moved hMounted hJob _ _
  next hFailed =>
    have hSame : job.step repositoryLog (.cloneFinished finished) = { job with running := false } := by
      rw [Job.step, if_neg hFailed]
    rw [hSame]
    exact (h.ended hMounted hJob).lines _ _

theorem refused (h : Follows owner room n s l) {log : ω} {line : AppLogEntry} {s' : CloneJobController φ ω}
    (hRecord : s' = CloneJobController.record cap { s with nextId := s.nextId + 1 } log (.appLogEntry line)) :
    Follows owner (room ∧ s'.Room cap) n s' { l with nextId := l.nextId + 1 } := by
  have hAsked : Follows owner room n { s with nextId := s.nextId + 1 } { l with nextId := l.nextId + 1 } :=
    { h with
      nextId := congrArg (· + 1) h.nextId
      fresh := fun id hFresh => h.fresh id (Nat.le_of_succ_le hFresh) }
  rw [hRecord]
  exact hAsked.lines log [line]

theorem started (h : Follows owner room n s l) (hMounted : s.mounted = true) (url destPath : String) (origin : ω)
    (native : NativeCall) :
    Follows owner room n
      { s with
        nextId := s.nextId + 1
        calls := s.calls ++ [(s.nextId, native)]
        running := s.running.put s.nextId { origin }
        state := s.state ++ [{ id := s.nextId, url, destPath }] }
      { l.set l.nextId { log := origin, destPath } with nextId := l.nextId + 1 } := by
  have hFresh := h.fresh l.nextId le_rfl
  refine ⟨congrArg (· + 1) h.nextId, ?_, ?_, ?_, ?_, Ledger.forall_set nofun h.rows, Ledger.forall_set .nil h.newest,
    Ledger.forall_set (Nat.zero_le _) h.length, ?_, ?_⟩
  · intro id hLess
    have hOther : id ≠ l.nextId := (Nat.lt_of_succ_le hLess).ne'
    exact (Ledger.jobs_set_of_ne hOther _ _).trans (h.fresh id (Nat.le_of_succ_le hLess))
  · intro id
    rw [InsertionMap.get?_put, h.running, h.nextId]
    split
    next hSame =>
      rw [hSame, Ledger.jobs_set_self]
      rfl
    next hOther => rw [Ledger.jobs_set_of_ne hOther]
  · intro _ id
    have hWas := h.state hMounted id
    rw [CloneJobController.shown?, CloneJobController.job?] at hWas ⊢
    rw [List.find?_append, List.find?_singleton, Option.map_or, hWas, h.nextId]
    obtain rfl | hOther := eq_or_ne id l.nextId
    · rw [hFresh, Ledger.jobs_set_self, if_pos (beq_self_eq_true _)]
      rfl
    · rw [if_neg (by simpa using hOther.symm), Ledger.jobs_set_of_ne hOther]
      exact Option.or_none
  · intro hDisposed
    exact absurd (hMounted.symm.trans hDisposed) (by decide)
  · intro id log row hMem hOwned
    obtain ⟨job, hJob, hRest⟩ := h.homed id log row hMem hOwned
    have hOther : id ≠ l.nextId := by
      rintro rfl
      rw [hFresh] at hJob
      cases hJob
    exact ⟨job, (Ledger.jobs_set_of_ne hOther _ _).trans hJob, hRest⟩
  · intro hRoom
    refine Ledger.forall_set ?_ (h.exact hRoom)
    rw [List.filter_eq_nil_iff]
    intro row hMem hOwned
    obtain ⟨job, hJob, -⟩ := h.homed l.nextId origin row hMem hOwned
    rw [hFresh] at hJob
    cases hJob

theorem disposed (h : Follows owner room n s l) : Follows owner room n s.dispose (l.step repositoryLog .dispose) := by
  have hJobs : ∀ {p : ℕ → Job φ ω → Prop}, (∀ id job, l.jobs id = some job → p id { job with running := false }) →
      ∀ id job, (l.step repositoryLog .dispose).jobs id = some job → p id job := by
    intro p hOld id job hFound
    obtain ⟨old, hJob, rfl⟩ := Option.map_eq_some_iff.mp hFound
    exact hOld id old hJob
  refine ⟨h.nextId, ?_, ?_, nofun, fun _ => rfl, hJobs h.rows, hJobs h.newest, hJobs h.length, ?_,
    fun hRoom => hJobs (h.exact hRoom)⟩
  · intro id hFresh
    exact congrArg (Option.map _) (h.fresh id hFresh)
  · intro id
    change none = ((l.jobs id).map _).bind Job.run?
    cases l.jobs id <;> rfl
  · intro id log row hMem hOwned
    obtain ⟨job, hJob, hRest⟩ := h.homed id log row hMem hOwned
    exact ⟨{ job with running := false }, congrArg (Option.map _) hJob, hRest⟩

theorem ownedBy_shown {record : OperationRecord (Invocation φ)} (hOwned : record.id ≠ 0 ∧ owner record.id = some id)
    (progress : Option CloneProgress) : ownedBy owner id (.operationRecord (shown progress record)) = true := by
  have hId : (shown progress record).id = record.id := by
    cases progress with
    | none => rfl
    | some progress =>
      rw [shown]
      split <;> rfl
  rw [ownedBy_iff]
  exact ⟨record.id, id?_eq_some_iff.mpr ⟨hId ▸ hOwned.1, hId⟩, hOwned.2⟩

theorem ownedBy_laidOver {rows : List (Entry φ)} (hRows : ∀ row ∈ rows, ownedBy owner id row = true)
    {progress : CloneProgress} {record : OperationRecord (Invocation φ)}
    (hLaid : laidOver rows progress = some record) : ownedBy owner id (.operationRecord record) = true := by
  rw [laidOver] at hLaid
  split at hLaid
  next last hLast =>
    obtain ⟨-, hSame⟩ := Option.ite_none_right_eq_some.mp hLaid
    obtain rfl := Option.some.inj hSame
    have hLastOwned := hRows _ (List.mem_of_getLast? hLast)
    rwa [ownedBy_congr (by rfl)] at hLastOwned
  next => cases hLaid

theorem event (h : Follows owner room n s l) {event : CloneEvent φ} {now : ℤ}
    (hOwned : (Input.event id event now : Input φ ω).Owned owner) (hLess : n < kMaxRows) :
    Follows owner (room ∧ (s.onEvent cap repositoryLog id event now).Room cap) (n + 1)
      (s.onEvent cap repositoryLog id event now) (l.step repositoryLog (.event id event now)) := by
  rw [CloneJobController.onEvent, Ledger.step]
  cases hRun : s.running.get? id with
  | none =>
    have hStays : (match l.jobs id with
        | some job => if job.running then l.set id (job.step repositoryLog event) else l
        | none => l) = l := by
      rw [h.running] at hRun
      cases hJob : l.jobs id with
      | none => rfl
      | some job =>
        rw [hJob, Option.bind_some, Job.run?] at hRun
        split at hRun
        next => cases hRun
        next hStopped => exact if_neg hStopped
    rw [hStays]
    exact h.mono.weaken And.left
  | some run =>
    obtain ⟨hMounted, job, j, hJob, hRunning, rfl, hFound, -, hProgress⟩ := h.exists_job hRun
    rw [hJob, hMounted]
    dsimp only
    rw [if_neg (by decide), if_pos hRunning]
    cases event with
    | operationLogRecord record =>
      dsimp only
      rw [hFound, Option.bind_some, hProgress, Job.step]
      exact h.row hMounted hJob hRunning (ownedBy_shown hOwned job.progress) hLess
    | credentialRequested prompt =>
      rw [Job.step, Ledger.set_eq_self hJob]
      exact (h.prompt id _).mono.weaken And.left
    | cloneProgress progress =>
      have hProgressed := h.progress hMounted hJob hRunning progress
      dsimp only
      rw [Job.step]
      cases hLaid : laidOver job.rows progress with
      | none => exact hProgressed.mono.weaken And.left
      | some record =>
        rw [← Ledger.set_set l id { job with progress := some progress }]
        exact hProgressed.row hMounted (Ledger.jobs_set_self _ _ _) hRunning
          (ownedBy_laidOver (h.rows id job hJob) hLaid) hLess
    | cloneFinished finished => exact (h.finish hRun hJob finished now).mono

theorem step (h : Follows owner room n s l) {input : Input φ ω} {s' : CloneJobController φ ω}
    (hOwned : input.Owned owner) (hLess : n < kMaxRows) (hStep : s.step cap repositoryLog input = some s') :
    Follows owner (room ∧ s'.Room cap) (n + 1) s' (l.step repositoryLog input) := by
  have hCall (id : ℕ) (native : NativeCall) : Follows owner room n (s.call id native) l := by
    rw [CloneJobController.call]
    split
    · exact { h with }
    · exact h
  cases input with
  | start url destPath recurseSubmodules shallow origin answer now =>
    cases answer with
    | refused error =>
      obtain rfl := Option.some.inj hStep
      exact (h.refused rfl).mono
    | started =>
      obtain ⟨hMounted, hSame⟩ := Option.ite_none_right_eq_some.mp hStep
      obtain rfl := Option.some.inj hSame
      exact (h.started hMounted url destPath origin _).mono.weaken And.left
  | cancel id =>
    obtain rfl := Option.some.inj hStep
    exact (hCall id .cancel).mono.weaken And.left
  | provideCredential id secret =>
    obtain ⟨-, hSame⟩ := Option.ite_none_right_eq_some.mp hStep
    obtain rfl := Option.some.inj hSame
    exact ((hCall id _).prompt id none).mono.weaken And.left
  | cancelCredential id =>
    obtain ⟨-, hSame⟩ := Option.ite_none_right_eq_some.mp hStep
    obtain rfl := Option.some.inj hSame
    exact ((hCall id _).prompt id none).mono.weaken And.left
  | event id event now =>
    obtain rfl := Option.some.inj hStep
    exact h.event hOwned hLess
  | logged log entry =>
    obtain rfl := Option.some.inj hStep
    have hForeign : ∀ row ∈ [entry], ∀ id, ownedBy owner id row = false := by
      intro row hMem id
      obtain rfl := List.mem_singleton.mp hMem
      rw [Bool.eq_false_iff]
      intro hForeign
      obtain ⟨i, hId, hOwner⟩ := ownedBy_iff.mp hForeign
      rw [hOwned i hId] at hOwner
      cases hOwner
    exact (h.foreign cap log hForeign).mono
  | dispose =>
    obtain rfl := Option.some.inj hStep
    exact h.disposed.mono.weaken And.left

end Follows

section Runs

variable {φ ω : Type} [DecidableEq ω] {cap : ω → ℕ} {repositoryLog : String → ω} {owner : ℤ → Option ℕ}

/-- No log is full after any of the inputs. -/
def Roomy (cap : ω → ℕ) (repositoryLog : String → ω) : CloneJobController φ ω → List (Input φ ω) → Prop
  | _, [] => True
  | s, input :: inputs =>
    ∀ s', s.step cap repositoryLog input = some s' → s'.Room cap ∧ Roomy cap repositoryLog s' inputs

theorem Follows.run {room : Prop} {n : ℕ} {s s' : CloneJobController φ ω} {l : Ledger φ ω}
    (h : Follows owner room n s l) {inputs : List (Input φ ω)} (hOwned : ∀ input ∈ inputs, input.Owned owner)
    (hLess : n + inputs.length ≤ kMaxRows)
    (hRun : inputs.foldlM (CloneJobController.step cap repositoryLog) s = some s') :
    Follows owner (room ∧ Roomy cap repositoryLog s inputs) (n + inputs.length) s'
      (inputs.foldl (Ledger.step repositoryLog) l) := by
  induction inputs generalizing room n s l with
  | nil =>
    obtain rfl := Option.some.inj hRun
    exact h.weaken And.left
  | cons input inputs ih =>
    rw [List.foldlM_cons] at hRun
    obtain ⟨next, hStep, hRest⟩ := Option.bind_eq_some_iff.mp hRun
    rw [List.length_cons] at hLess
    have hNext := h.step (hOwned input List.mem_cons_self) (by omega) hStep
    have hAll := ih hNext (fun later hMem => hOwned later (List.mem_cons_of_mem _ hMem)) (by omega) hRest
    rw [List.length_cons, Nat.add_comm inputs.length, ← Nat.add_assoc, List.foldl_cons]
    exact hAll.weaken fun hRoom => ⟨⟨hRoom.1, (hRoom.2 next hStep).1⟩, (hRoom.2 next hStep).2⟩

theorem follows_nothing : Follows owner True 0 ({} : CloneJobController φ ω) {} where
  nextId := rfl
  fresh := fun _ _ => rfl
  running := fun _ => rfl
  state := fun _ _ => rfl
  mounted := nofun
  rows := nofun
  newest := nofun
  length := nofun
  homed := nofun
  exact := nofun

theorem follows_run {inputs : List (Input φ ω)} {s : CloneJobController φ ω}
    (hRun : CloneJobController.run cap repositoryLog inputs = some s) (hOwned : ∀ input ∈ inputs, input.Owned owner)
    (hLength : inputs.length ≤ kMaxRows) :
    Follows owner (Roomy cap repositoryLog {} inputs) inputs.length s (Ledger.of repositoryLog inputs) := by
  have hFollows := follows_nothing.run hOwned ((Nat.zero_add _).le.trans hLength) hRun
  rw [Nat.zero_add] at hFollows
  exact hFollows.weaken fun hRoom => ⟨trivial, hRoom⟩

def twoOwners (i : ℤ) : Option ℕ := if i = 7 then some 1 else if i = 8 then some 2 else none

theorem owned_twoClones : ∀ input ∈ twoClones, input.Owned twoOwners := by
  simp [twoClones, Input.Owned, twoOwners]

/-- However the clones interleave, a log has rows of a clone only where the clone's rows belong. -/
theorem exists_job_of_mem_log {inputs : List (Input φ ω)} {s : CloneJobController φ ω}
    (hRun : CloneJobController.run cap repositoryLog inputs = some s) (hOwned : ∀ input ∈ inputs, input.Owned owner)
    (hLength : inputs.length ≤ kMaxRows) {id : ℕ} {log : ω} {row : Entry φ} (hMem : row ∈ s.logs log)
    (hRow : ownedBy owner id row = true) :
    ∃ job, (Ledger.of repositoryLog inputs).jobs id = some job ∧ log = job.log ∧
      ∃ form ∈ job.rows, form.id? = row.id? :=
  (follows_run hRun hOwned hLength).homed id log row hMem hRow

theorem exists_job_of_mem_log_twoClones :
    ∃ s, CloneJobController.run (fun _ => 9) (fun _ => true) twoClones = some s ∧
      ∀ log, ∀ row ∈ s.logs log, ownedBy twoOwners 1 row = true →
        ∃ job, (Ledger.of (fun _ => true) twoClones).jobs 1 = some job ∧ log = job.log ∧
          ∃ form ∈ job.rows, form.id? = row.id? :=
  ⟨_, rfl, fun _ _ hMem hRow => exists_job_of_mem_log rfl owned_twoClones (by decide) hMem hRow⟩

/-- While no log is full, the rows of a clone are in one log, all of them and in their order. -/
theorem filter_logs {inputs : List (Input φ ω)} {s : CloneJobController φ ω}
    (hRun : CloneJobController.run cap repositoryLog inputs = some s) (hOwned : ∀ input ∈ inputs, input.Owned owner)
    (hLength : inputs.length ≤ kMaxRows) (hRoom : Roomy cap repositoryLog {} inputs) {id : ℕ} {job : Job φ ω}
    (hJob : (Ledger.of repositoryLog inputs).jobs id = some job) (log : ω) :
    (s.logs log).filter (ownedBy owner id) = if log = job.log then job.rows else [] := by
  have hFollows := follows_run hRun hOwned hLength
  split
  next hSame =>
    rw [hSame]
    exact hFollows.exact hRoom id job hJob
  next hOther =>
    rw [List.filter_eq_nil_iff]
    intro row hMem hRow
    obtain ⟨job', hJob', hLog, -⟩ := hFollows.homed id log row hMem hRow
    obtain rfl := Option.some.inj (hJob.symm.trans hJob')
    exact hOther hLog

theorem roomy_twoClones : Roomy (fun _ => 9) (fun _ => true) {} twoClones := by
  have hRoom {s : CloneJobController Unit Bool} (hFalse : (s.logs false).length < 9)
      (hTrue : (s.logs true).length < 9) : s.Room fun _ => 9 := Bool.forall_bool.mpr ⟨hFalse, hTrue⟩
  rw [twoClones]
  repeat
    rintro _ ⟨⟩
    refine ⟨hRoom (by decide) (by decide), ?_⟩
  trivial

theorem filter_logs_twoClones :
    ∃ s, CloneJobController.run (fun _ => 9) (fun _ => true) twoClones = some s ∧
      ∀ log, (s.logs log).filter (ownedBy twoOwners 1) =
        if log = true then [.operationRecord { id := 7, running := false, fields := { other := () } }] else [] :=
  have hJob : (Ledger.of (fun _ => true) twoClones).jobs 1 =
      some
        { log := true
          destPath := "/src/a"
          progress := some { phase := .receiving, current := 1, total := 2 }
          rows := [.operationRecord { id := 7, running := false, fields := { other := () } }]
          running := false } := rfl
  ⟨_, rfl, filter_logs rfl owned_twoClones (by decide) roomy_twoClones hJob⟩

end Runs

end CloneJobs

end GitBranchManager
