import GitBranchManager.Library.Recent
import Mathlib.Data.Finset.Insert

/-! # The operation log

A command is recorded at its start and at its end under one id. The log has one row for it, which stands
where the first of the two was appended.
-/

namespace GitBranchManager

namespace OperationLog

/-- `fields` stands for what the log does not look at. -/
structure OperationRecord (ρ : Type) where
  id : ℤ
  running : Bool
  fields : ρ
  deriving DecidableEq, Repr

inductive GbmLogEntry (ρ ε : Type)
  | operationRecord (record : OperationRecord ρ)
  | appLogEntry (entry : ε)
  deriving DecidableEq, Repr

variable {ρ ε : Type}

namespace GbmLogEntry

def isRunningRowOf (id : ℤ) : GbmLogEntry ρ ε → Bool
  | .operationRecord e => e.running && e.id == id
  | .appLogEntry _ => false

def isRetracted (ids : Finset ℤ) : GbmLogEntry ρ ε → Bool
  | .operationRecord e => e.id != 0 && decide (e.id ∈ ids)
  | .appLogEntry _ => false

end GbmLogEntry

/-- `indexWhere`, with `none` for -1. -/
def runningAt (log : List (GbmLogEntry ρ ε)) : GbmLogEntry ρ ε → Option ℕ
  | .operationRecord entry => if entry.id ≠ 0 then log.findIdx? (·.isRunningRowOf entry.id) else none
  | .appLogEntry _ => none

def appendLogEntry (log : List (GbmLogEntry ρ ε)) (entry : GbmLogEntry ρ ε) (maxEntries : ℕ) :
    List (GbmLogEntry ρ ε) :=
  match runningAt log entry with
  | some i => log.set i entry
  | none =>
    let updated := log ++ [entry]
    if maxEntries < updated.length then updated.drop (updated.length - maxEntries) else updated

def retractLogEntries (log : List (GbmLogEntry ρ ε)) (ids : Finset ℤ) : List (GbmLogEntry ρ ε) :=
  log.filter fun e => !e.isRetracted ids

/-! ## Sessions -/

inductive LogOp (ρ ε : Type)
  | append (entry : GbmLogEntry ρ ε)
  | retract (ids : Finset ℤ)

def apply (maxEntries : ℕ) (log : List (GbmLogEntry ρ ε)) : LogOp ρ ε → List (GbmLogEntry ρ ε)
  | .append entry => appendLogEntry log entry maxEntries
  | .retract ids => retractLogEntries log ids

def run (maxEntries : ℕ) (ops : List (LogOp ρ ε)) : List (GbmLogEntry ρ ε) := ops.foldl (apply maxEntries) []

def LogOp.added? : LogOp ρ ε → Option (GbmLogEntry ρ ε)
  | .append entry => some entry
  | .retract _ => none

def appended (ops : List (LogOp ρ ε)) : List (GbmLogEntry ρ ε) := ops.filterMap LogOp.added?

namespace GbmLogEntry

/-- The command that a row is about. -/
def id? : GbmLogEntry ρ ε → Option ℤ
  | .operationRecord e => if e.id ≠ 0 then some e.id else none
  | .appLogEntry _ => none

def isRunning : GbmLogEntry ρ ε → Bool
  | .operationRecord e => e.running
  | .appLogEntry _ => false

/-- The other record of a running row's command. -/
def Replaces (entry row : GbmLogEntry ρ ε) : Prop :=
  row.isRunning = true ∧ ∃ id, row.id? = some id ∧ entry.id? = some id

def Names (ids : Finset ℤ) (row : GbmLogEntry ρ ε) : Prop := ∃ id ∈ ids, row.id? = some id

end GbmLogEntry

/-- A command has at most one record of its start and one of its end, in this order. -/
def StartsOnce (ops : List (LogOp ρ ε)) : Prop :=
  (appended ops).Pairwise fun first second =>
    ∀ id, first.id? = some id → second.id? = some id → first.isRunning = true ∧ second.isRunning = false

/-- A row that was appended at a step has what was appended there, or what has replaced it since. -/
def AppendedAt (ops : List (LogOp ρ ε)) (step : ℕ) (row : GbmLogEntry ρ ε) : Prop :=
  ∃ first, ops[step]? = some (.append first) ∧
    (row = first ∨ row.Replaces first ∧ ∃ later > step, ops[later]? = some (.append row))

/-! ## One step -/

section Steps

variable {log : List (GbmLogEntry ρ ε)} {entry row : GbmLogEntry ρ ε} {ops : List (LogOp ρ ε)} {op : LogOp ρ ε}
  {maxEntries : ℕ}

theorem id?_eq_some_iff {record : OperationRecord ρ} {id : ℤ} :
    (GbmLogEntry.operationRecord record : GbmLogEntry ρ ε).id? = some id ↔ record.id ≠ 0 ∧ record.id = id := by
  rw [GbmLogEntry.id?, Option.ite_none_right_eq_some, Option.some_inj]

theorem isRetracted_iff {ids : Finset ℤ} : row.isRetracted ids = true ↔ row.Names ids := by
  cases row with
  | operationRecord e =>
    rw [GbmLogEntry.isRetracted, Bool.and_eq_true, bne_iff_ne, decide_eq_true_eq, GbmLogEntry.Names]
    constructor
    · rintro ⟨hZero, hIn⟩
      exact ⟨e.id, hIn, id?_eq_some_iff.mpr ⟨hZero, rfl⟩⟩
    · rintro ⟨id, hIn, hId⟩
      obtain ⟨hZero, rfl⟩ := id?_eq_some_iff.mp hId
      exact ⟨hZero, hIn⟩
  | appLogEntry e =>
    constructor
    · intro hFalse
      cases hFalse
    · rintro ⟨id, -, hId⟩
      cases hId

theorem isRunningRowOf_iff {record : OperationRecord ρ} (hZero : record.id ≠ 0) :
    row.isRunningRowOf record.id = true ↔ (GbmLogEntry.operationRecord record).Replaces row := by
  cases row with
  | operationRecord e =>
    rw [GbmLogEntry.isRunningRowOf, Bool.and_eq_true, beq_iff_eq, GbmLogEntry.Replaces]
    constructor
    · rintro ⟨hRunning, hSame⟩
      exact ⟨hRunning, record.id, id?_eq_some_iff.mpr ⟨hSame ▸ hZero, hSame⟩, id?_eq_some_iff.mpr ⟨hZero, rfl⟩⟩
    · rintro ⟨hRunning, id, hRow, hEntry⟩
      exact ⟨hRunning, (id?_eq_some_iff.mp hRow).2.trans (id?_eq_some_iff.mp hEntry).2.symm⟩
  | appLogEntry e =>
    constructor
    · intro hFalse
      cases hFalse
    · rintro ⟨hFalse, -⟩
      cases hFalse

theorem runningAt_eq_some {i : ℕ} (h : runningAt log entry = some i) :
    ∃ before row after, log = before ++ row :: after ∧ before.length = i ∧ entry.Replaces row := by
  cases entry with
  | operationRecord record =>
    rw [runningAt] at h
    obtain ⟨hZero, hFound⟩ := Option.ite_none_right_eq_some.mp h
    obtain ⟨hLess, hRow, -⟩ := List.findIdx?_eq_some_iff_getElem.mp hFound
    refine ⟨log.take i, log[i], log.drop (i + 1), ?_, ?_, (isRunningRowOf_iff hZero).mp hRow⟩
    · rw [List.getElem_cons_drop, List.take_append_drop]
    · exact List.length_take_of_le hLess.le
  | appLogEntry e => cases h

theorem runningAt_eq_none (h : runningAt log entry = none) : ∀ row ∈ log, ¬ entry.Replaces row := by
  intro row hMem hReplaces
  cases entry with
  | operationRecord record =>
    obtain ⟨hRunning, id, hRow, hEntry⟩ := hReplaces
    have hZero := (id?_eq_some_iff.mp hEntry).1
    rw [runningAt, if_pos hZero, List.findIdx?_eq_none_iff] at h
    have hNot := h row hMem
    rw [(isRunningRowOf_iff hZero).mpr ⟨hRunning, id, hRow, hEntry⟩] at hNot
    cases hNot
  | appLogEntry e =>
    obtain ⟨-, id, -, hEntry⟩ := hReplaces
    cases hEntry

/-- What an append can do. -/
theorem appendLogEntry_cases (log : List (GbmLogEntry ρ ε)) (entry : GbmLogEntry ρ ε) (maxEntries : ℕ) :
    (∃ before row after, log = before ++ row :: after ∧ entry.Replaces row ∧
      appendLogEntry log entry maxEntries = before ++ entry :: after) ∨
    ((∀ row ∈ log, ¬ entry.Replaces row) ∧
      appendLogEntry log entry maxEntries = (log ++ [entry]).rtake maxEntries) := by
  rw [appendLogEntry]
  split
  next i hAt =>
    obtain ⟨before, row, after, rfl, rfl, hReplaces⟩ := runningAt_eq_some hAt
    refine .inl ⟨before, row, after, rfl, hReplaces, ?_⟩
    rw [List.set_append_right _ _ (Nat.le_refl _), Nat.sub_self, List.set_cons_zero]
  next hNone =>
    refine .inr ⟨runningAt_eq_none hNone, ?_⟩
    by_cases hOver : maxEntries < (log ++ [entry]).length
    · exact if_pos hOver
    · exact (if_neg hOver).trans (Library.rtake_eq_self (Nat.le_of_not_lt hOver)).symm

theorem mem_retractLogEntries {ids : Finset ℤ} :
    row ∈ retractLogEntries log ids ↔ row ∈ log ∧ ¬ row.Names ids := by
  rw [retractLogEntries, List.mem_filter, Bool.not_eq_true', Bool.eq_false_iff, Ne, isRetracted_iff]

theorem run_concat (maxEntries : ℕ) (ops : List (LogOp ρ ε)) (op : LogOp ρ ε) :
    run maxEntries (ops ++ [op]) = apply maxEntries (run maxEntries ops) op := by
  rw [run, List.foldl_append, List.foldl_cons, List.foldl_nil, run]

end Steps

/-! ## Whole sessions -/

section Runs

variable {maxEntries : ℕ} {ops : List (LogOp ρ ε)}

theorem appended_concat (ops : List (LogOp ρ ε)) (op : LogOp ρ ε) :
    appended (ops ++ [op]) = appended ops ++ op.added?.toList := by
  rw [appended, List.filterMap_append, appended]
  cases op <;> rfl

theorem length_run_le (maxEntries : ℕ) (ops : List (LogOp ρ ε)) : (run maxEntries ops).length ≤ maxEntries := by
  induction ops using List.reverseRecOn with
  | nil => exact Nat.zero_le _
  | append_singleton ops op ih =>
    rw [run_concat]
    cases op with
    | append entry =>
      obtain ⟨before, row, after, hLog, -, hEq⟩ | ⟨-, hEq⟩ :=
        appendLogEntry_cases (run maxEntries ops) entry maxEntries
      · rw [apply, hEq]
        rw [hLog, List.length_append, List.length_cons] at ih
        rwa [List.length_append, List.length_cons]
      · rw [apply, hEq, Library.length_rtake]
        exact Nat.min_le_left _ _
    | retract ids => exact (List.length_filter_le _ _).trans ih

theorem mem_appended_of_mem_run {row : GbmLogEntry ρ ε} (h : row ∈ run maxEntries ops) : row ∈ appended ops := by
  induction ops using List.reverseRecOn with
  | nil => cases h
  | append_singleton ops op ih =>
    rw [run_concat] at h
    rw [appended_concat, List.mem_append]
    cases op with
    | append entry =>
      obtain ⟨before, old, after, hLog, -, hEq⟩ | ⟨-, hEq⟩ :=
        appendLogEntry_cases (run maxEntries ops) entry maxEntries
      · rw [apply, hEq, List.mem_append, List.mem_cons] at h
        rw [hLog, List.mem_append, List.mem_cons] at ih
        obtain hBefore | rfl | hAfter := h
        · exact .inl (ih (.inl hBefore))
        · exact .inr (List.mem_singleton.mpr rfl)
        · exact .inl (ih (.inr (.inr hAfter)))
      · rw [apply, hEq] at h
        have hIn := (Library.rtake_suffix _ _).subset h
        exact (List.mem_append.mp hIn).imp_left ih
    | retract ids => exact .inl (ih (mem_retractLogEntries.mp h).1)

theorem nodup_ids_run (h : StartsOnce ops) : ((run maxEntries ops).filterMap GbmLogEntry.id?).Nodup := by
  induction ops using List.reverseRecOn with
  | nil => exact List.nodup_nil
  | append_singleton ops op ih =>
    rw [StartsOnce, appended_concat, List.pairwise_append] at h
    obtain ⟨hBefore, -, hNext⟩ := h
    rw [run_concat]
    cases op with
    | append entry =>
      have hNext := fun (row) (hMem : row ∈ run maxEntries ops) =>
        hNext row (mem_appended_of_mem_run hMem) entry (List.mem_singleton.mpr rfl)
      obtain ⟨before, row, after, hLog, ⟨-, id, hRow, hEntry⟩, hEq⟩ | ⟨hNone, hEq⟩ :=
        appendLogEntry_cases (run maxEntries ops) entry maxEntries
      · have hSame : (before ++ entry :: after).filterMap GbmLogEntry.id? =
            (before ++ row :: after).filterMap GbmLogEntry.id? := by
          rw [List.filterMap_append, List.filterMap_append, List.filterMap_cons_some hRow,
            List.filterMap_cons_some hEntry]
        rw [apply, hEq, hSame, ← hLog]
        exact ih hBefore
      · rw [apply, hEq]
        refine List.Nodup.sublist ((Library.rtake_suffix _ _).sublist.filterMap _) ?_
        rw [List.filterMap_append, List.nodup_append]
        refine ⟨ih hBefore, ?_, fun id hLog id' hEntry hSame => ?_⟩
        · cases hId : entry.id? with
          | none => rw [List.filterMap_cons_none hId]; exact List.nodup_nil
          | some id => rw [List.filterMap_cons_some hId]; exact List.nodup_singleton id
        · obtain ⟨row, hMem, hRow⟩ := List.mem_filterMap.mp hLog
          obtain ⟨entry', hMem', hEntry⟩ := List.mem_filterMap.mp hEntry
          rw [List.mem_singleton.mp hMem', ← hSame] at hEntry
          exact hNone row hMem ⟨(hNext row hMem id hRow hEntry).1, id, hRow, hEntry⟩
    | retract ids => exact (ih hBefore).sublist (List.filter_sublist.filterMap _)

/-! ### The order of the rows -/

theorem AppendedAt.mono {step : ℕ} {row : GbmLogEntry ρ ε} (h : AppendedAt ops step row) (op : LogOp ρ ε) :
    AppendedAt (ops ++ [op]) step row := by
  have hKept : ∀ {i : ℕ} {e : LogOp ρ ε}, ops[i]? = some e → (ops ++ [op])[i]? = some e := fun hAt => by
    rw [List.getElem?_append_left (List.getElem?_eq_some_iff.mp hAt).1, hAt]
  obtain ⟨first, hFirst, hSince⟩ := h
  refine ⟨first, hKept hFirst, hSince.imp_right fun ⟨hReplaces, later, hLater, hAt⟩ => ?_⟩
  exact ⟨hReplaces, later, hLater, hKept hAt⟩

theorem AppendedAt.lt {step : ℕ} {row : GbmLogEntry ρ ε} (h : AppendedAt ops step row) : step < ops.length := by
  obtain ⟨first, hFirst, -⟩ := h
  exact (List.getElem?_eq_some_iff.mp hFirst).1

theorem appendedAt_concat (ops : List (LogOp ρ ε)) (entry : GbmLogEntry ρ ε) :
    AppendedAt (ops ++ [.append entry]) ops.length entry :=
  ⟨entry, List.getElem?_concat_length, .inl rfl⟩

theorem GbmLogEntry.Replaces.trans {entry row first : GbmLogEntry ρ ε} (h : entry.Replaces row)
    (hRow : row.Replaces first) : entry.Replaces first := by
  obtain ⟨-, id, hId, hEntry⟩ := h
  obtain ⟨hRunning, id', hFirst, hId'⟩ := hRow
  obtain rfl := Option.some.inj (hId.symm.trans hId')
  exact ⟨hRunning, id, hFirst, hEntry⟩

theorem AppendedAt.replace {step : ℕ} {entry row : GbmLogEntry ρ ε} (h : AppendedAt ops step row)
    (hReplaces : entry.Replaces row) : AppendedAt (ops ++ [.append entry]) step entry := by
  have hLess := h.lt
  obtain ⟨first, hFirst, hSince⟩ := h
  refine ⟨first, ?_, .inr ⟨?_, ops.length, hLess, List.getElem?_concat_length⟩⟩
  · rw [List.getElem?_append_left hLess, hFirst]
  · obtain rfl | ⟨hRow, -⟩ := hSince
    · exact hReplaces
    · exact hReplaces.trans hRow

/-- The rows of a log, each with the step at which its first record was appended, in the order of these. -/
structure Dated (ops : List (LogOp ρ ε)) (rows : List (ℕ × GbmLogEntry ρ ε)) (log : List (GbmLogEntry ρ ε)) :
    Prop where
  map_snd : rows.map Prod.snd = log
  order : rows.Pairwise fun row row' => row.1 < row'.1
  appended : ∀ row ∈ rows, AppendedAt ops row.1 row.2

section Dated

variable {rows : List (ℕ × GbmLogEntry ρ ε)} {log before after : List (GbmLogEntry ρ ε)} {entry row : GbmLogEntry ρ ε}

theorem Dated.replace (h : Dated ops rows (before ++ row :: after)) (hReplaces : entry.Replaces row) :
    ∃ rows', Dated (ops ++ [.append entry]) rows' (before ++ entry :: after) := by
  obtain ⟨hRows, hOrder, hAt⟩ := h
  obtain ⟨before', rest, rfl, rfl, hRest⟩ := List.map_eq_append_iff.mp hRows
  obtain ⟨old, after', rfl, rfl, rfl⟩ := List.map_eq_cons_iff.mp hRest
  refine ⟨before' ++ (old.1, entry) :: after', ?_, ?_, fun row' hMem => ?_⟩
  · rw [List.map_append, List.map_cons]
  · rw [List.pairwise_append, List.pairwise_cons] at hOrder ⊢
    obtain ⟨hBefore, ⟨hOld, hAfter⟩, hAcross⟩ := hOrder
    refine ⟨hBefore, ⟨hOld, hAfter⟩, fun row' hMem other hOther => ?_⟩
    obtain rfl | hOther := List.mem_cons.mp hOther
    · exact hAcross row' hMem old List.mem_cons_self
    · exact hAcross row' hMem other (List.mem_cons_of_mem _ hOther)
  · obtain hMem | hMem := List.mem_append.mp hMem
    · exact (hAt row' (List.mem_append_left _ hMem)).mono _
    · obtain rfl | hMem := List.mem_cons.mp hMem
      · exact (hAt old (List.mem_append_right _ List.mem_cons_self)).replace hReplaces
      · exact (hAt row' (List.mem_append_right _ (List.mem_cons_of_mem _ hMem))).mono _

theorem Dated.append (h : Dated ops rows log) (entry : GbmLogEntry ρ ε) (maxEntries : ℕ) :
    Dated (ops ++ [.append entry]) ((rows ++ [(ops.length, entry)]).rtake maxEntries)
      ((log ++ [entry]).rtake maxEntries) := by
  obtain ⟨hRows, hOrder, hAt⟩ := h
  refine ⟨?_, ?_, fun row hMem => ?_⟩
  · rw [← Library.map_rtake, List.map_append, hRows, List.map_singleton]
  · refine List.Pairwise.sublist (Library.rtake_suffix _ _).sublist ?_
    rw [List.pairwise_append]
    refine ⟨hOrder, List.pairwise_singleton _ _, fun row hMem last hLast => ?_⟩
    rw [List.mem_singleton.mp hLast]
    exact (hAt row hMem).lt
  · obtain hMem | hLast := List.mem_append.mp ((Library.rtake_suffix _ _).subset hMem)
    · exact (hAt row hMem).mono _
    · rw [List.mem_singleton.mp hLast]
      exact appendedAt_concat ops entry

theorem Dated.retract (h : Dated ops rows log) (ids : Finset ℤ) :
    Dated (ops ++ [.retract ids]) (rows.filter fun row => !row.2.isRetracted ids) (retractLogEntries log ids) := by
  obtain ⟨rfl, hOrder, hAt⟩ := h
  refine ⟨?_, hOrder.filter _, fun row hMem => (hAt row (List.mem_of_mem_filter hMem)).mono _⟩
  rw [retractLogEntries, List.filter_map]
  rfl

end Dated

/-- The rows stand in the order in which their first records were appended. -/
theorem exists_dated (maxEntries : ℕ) (ops : List (LogOp ρ ε)) : ∃ rows, Dated ops rows (run maxEntries ops) := by
  induction ops using List.reverseRecOn with
  | nil => exact ⟨[], rfl, .nil, fun row hMem => absurd hMem List.not_mem_nil⟩
  | append_singleton ops op ih =>
    obtain ⟨rows, hRows⟩ := ih
    rw [run_concat]
    cases op with
    | append entry =>
      obtain ⟨before, row, after, hLog, hReplaces, hEq⟩ | ⟨-, hEq⟩ :=
        appendLogEntry_cases (run maxEntries ops) entry maxEntries
      · rw [apply, hEq]
        exact (hLog ▸ hRows).replace hReplaces
      · rw [apply, hEq]
        exact ⟨_, hRows.append entry maxEntries⟩
    | retract ids => exact ⟨_, hRows.retract ids⟩

/-! ### What stays -/

theorem exists_split_of_replaced {front back before after : List (GbmLogEntry ρ ε)} {row old : GbmLogEntry ρ ε}
    (h : front ++ row :: back = before ++ old :: after) (entry : GbmLogEntry ρ ε) :
    ∃ front' row' back', before ++ entry :: after = front' ++ row' :: back' ∧ back'.length = back.length ∧
      (row' = row ∨ row' = entry ∧ row = old) := by
  obtain ⟨middle, rfl, hRest⟩ | ⟨middle, rfl, hRest⟩ := List.append_eq_append_iff.mp h
  · cases middle with
    | nil =>
      obtain ⟨rfl, rfl⟩ := List.cons.inj hRest
      exact ⟨front, entry, back, by rw [List.append_nil], rfl, .inr ⟨rfl, rfl⟩⟩
    | cons first middle =>
      obtain ⟨rfl, hBack⟩ := List.cons.inj hRest
      refine ⟨front, row, middle ++ entry :: after, by rw [List.append_assoc, List.cons_append], ?_, .inl rfl⟩
      rw [hBack, List.append_eq, List.length_append, List.length_append, List.length_cons, List.length_cons]
  · cases middle with
    | nil =>
      obtain ⟨rfl, rfl⟩ := List.cons.inj hRest
      exact ⟨before, entry, after, rfl, rfl, .inr ⟨rfl, rfl⟩⟩
    | cons first middle =>
      obtain ⟨rfl, hAfter⟩ := List.cons.inj hRest
      refine ⟨before ++ entry :: middle, row, back, ?_, rfl, .inl rfl⟩
      rw [hAfter, List.append_assoc, List.cons_append, List.append_eq]

/-- The row of an entry is in the log, and at most `n` rows are newer. -/
def Stands (entry : GbmLogEntry ρ ε) (n : ℕ) (log : List (GbmLogEntry ρ ε)) : Prop :=
  ∃ front row back, log = front ++ row :: back ∧ back.length ≤ n ∧ row.id? = entry.id? ∧
    (row = entry ∨ row.Replaces entry)

section Stands

variable {log before after : List (GbmLogEntry ρ ε)} {entry next old : GbmLogEntry ρ ε} {n m : ℕ}

theorem Stands.mono (h : Stands entry n log) (hLe : n ≤ m) : Stands entry m log := by
  obtain ⟨front, row, back, hLog, hBack, hRow⟩ := h
  exact ⟨front, row, back, hLog, hBack.trans hLe, hRow⟩

/-- The record that takes the place of a row leaves an entry's row, or is that of the same command. -/
theorem Stands.replace (h : Stands entry n (before ++ old :: after)) (hReplaces : next.Replaces old) :
    Stands entry n (before ++ next :: after) := by
  obtain ⟨front, row, back, hLog, hBack, hId, hRow⟩ := h
  obtain ⟨front', row', back', hSame, hLength, hOld⟩ := exists_split_of_replaced hLog.symm next
  refine ⟨front', row', back', hSame, hLength ▸ hBack, ?_⟩
  obtain rfl | ⟨rfl, rfl⟩ := hOld
  · exact ⟨hId, hRow⟩
  · have hFirst : row'.Replaces entry := by
      obtain rfl | hRow := hRow
      · exact hReplaces
      · exact hReplaces.trans hRow
    obtain ⟨-, id, hOld, hNext⟩ := hReplaces
    exact ⟨hNext.trans (hOld.symm.trans hId), .inr hFirst⟩

/-- A row is not the oldest as long as the log has room for all newer ones. -/
theorem Stands.append {maxEntries : ℕ} (h : Stands entry n log) (next : GbmLogEntry ρ ε) (hRoom : n + 1 < maxEntries) :
    Stands entry (n + 1) ((log ++ [next]).rtake maxEntries) := by
  obtain ⟨front, row, back, rfl, hBack, hRow⟩ := h
  obtain ⟨k, hCap⟩ : ∃ k, maxEntries = k + (row :: (back ++ [next])).length := by
    refine ⟨maxEntries - (back.length + 2), ?_⟩
    rw [List.length_cons, List.length_append, List.length_singleton]
    omega
  refine ⟨front.rtake k, row, back ++ [next], ?_, ?_, hRow⟩
  · rw [List.append_assoc, List.cons_append, hCap, List.rtake, List.rtake, List.length_append,
      Nat.add_sub_add_right, List.drop_append_of_le_length (Nat.sub_le _ _)]
  · rw [List.length_append, List.length_singleton]
    exact Nat.succ_le_succ hBack

theorem Stands.retract {ids : Finset ℤ} (h : Stands entry n log) (hKept : ¬ entry.Names ids) :
    Stands entry n (retractLogEntries log ids) := by
  obtain ⟨front, row, back, rfl, hBack, hId, hRow⟩ := h
  have hStays : (!row.isRetracted ids) = true := by
    rw [Bool.not_eq_true', Bool.eq_false_iff, Ne, isRetracted_iff, GbmLogEntry.Names, hId]
    exact hKept
  refine ⟨front.filter (!·.isRetracted ids), row, back.filter (!·.isRetracted ids), ?_, ?_, hId, hRow⟩
  · rw [retractLogEntries, List.filter_append, List.filter_cons, if_pos hStays]
  · exact (List.length_filter_le _ _).trans hBack

end Stands

/-- A row stays until it is retracted or there are as many newer ones as the log can have. -/
theorem row_stays {entry : GbmLogEntry ρ ε} (hNew : ∀ row ∈ run maxEntries ops, ¬ entry.Replaces row)
    {later : List (LogOp ρ ε)} (hRecent : (appended later).length < maxEntries)
    (hKept : ∀ ids, .retract ids ∈ later → ¬ entry.Names ids) :
    Stands entry (appended later).length (run maxEntries (ops ++ .append entry :: later)) := by
  induction later using List.reverseRecOn with
  | nil =>
    obtain ⟨before, row, after, hLog, hReplaces, -⟩ | ⟨-, hEq⟩ :=
      appendLogEntry_cases (run maxEntries ops) entry maxEntries
    · exact absurd hReplaces (hNew row (hLog ▸ List.mem_append_right _ List.mem_cons_self))
    · obtain ⟨k, hCap⟩ := Nat.exists_eq_succ_of_ne_zero (Nat.ne_zero_of_lt hRecent)
      refine ⟨(run maxEntries ops).rtake k, entry, [], ?_, Nat.zero_le _, rfl, .inl rfl⟩
      rw [run_concat, apply, hEq, hCap, List.rtake_concat_succ]
  | append_singleton later op ih =>
    rw [appended_concat, List.length_append] at hRecent
    have hStands := ih (Nat.lt_of_le_of_lt (Nat.le_add_right _ _) hRecent) fun ids hMem =>
      hKept ids (List.mem_append_left _ hMem)
    have hSplit : ops ++ .append entry :: (later ++ [op]) = (ops ++ .append entry :: later) ++ [op] := by
      rw [List.append_assoc, List.cons_append]
    rw [hSplit, run_concat, appended_concat, List.length_append]
    cases op with
    | append next =>
      obtain ⟨before, old, after, hLog, hReplaces, hEq⟩ | ⟨-, hEq⟩ :=
        appendLogEntry_cases (run maxEntries (ops ++ .append entry :: later)) next maxEntries
      · rw [apply, hEq]
        exact ((hLog ▸ hStands).replace hReplaces).mono (Nat.le_add_right _ _)
      · rw [apply, hEq]
        exact hStands.append next hRecent
    | retract ids => exact hStands.retract (hKept ids (List.mem_append_right _ (List.mem_singleton.mpr rfl)))

theorem append_spec (hCap : 1 ≤ maxEntries) (log : List (GbmLogEntry ρ ε)) (entry : GbmLogEntry ρ ε) :
    entry ∈ appendLogEntry log entry maxEntries ∧
      ((∃ row ∈ log, entry.Replaces row) → ∃ before row after, log = before ++ row :: after ∧ entry.Replaces row ∧
        appendLogEntry log entry maxEntries = before ++ entry :: after) ∧
      ((∀ row ∈ log, ¬ entry.Replaces row) →
        appendLogEntry log entry maxEntries = (log ++ [entry]).rtake maxEntries) := by
  obtain ⟨before, row, after, hLog, hReplaces, hEq⟩ | ⟨hNone, hEq⟩ := appendLogEntry_cases log entry maxEntries
  · refine ⟨?_, fun _ => ⟨before, row, after, hLog, hReplaces, hEq⟩, fun hNone => ?_⟩
    · rw [hEq]
      exact List.mem_append_right _ List.mem_cons_self
    · exact absurd hReplaces (hNone row (hLog ▸ List.mem_append_right _ List.mem_cons_self))
  · refine ⟨?_, fun ⟨row, hMem, hReplaces⟩ => absurd hReplaces (hNone row hMem), fun _ => hEq⟩
    obtain ⟨k, rfl⟩ := Nat.exists_eq_succ_of_ne_zero (Nat.ne_zero_of_lt hCap)
    rw [hEq, List.rtake_concat_succ]
    exact List.mem_append_right _ (List.mem_singleton.mpr rfl)

/-- A row has the record that was appended last, where the first was appended. Only what is retracted or
older than the bound allows is missing, and the rest is in the order in which it came. -/
theorem one_row_per_command (hCap : 1 ≤ maxEntries) (hOrder : StartsOnce ops) :
    (run maxEntries ops).length ≤ maxEntries ∧
      ((run maxEntries ops).filterMap GbmLogEntry.id?).Nodup ∧
      (∀ entry,
        entry ∈ run maxEntries (ops ++ [.append entry]) ∧
        ((∃ row ∈ run maxEntries ops, entry.Replaces row) →
          ∃ before row after, run maxEntries ops = before ++ row :: after ∧ entry.Replaces row ∧
            run maxEntries (ops ++ [.append entry]) = before ++ entry :: after) ∧
        ((∀ row ∈ run maxEntries ops, ¬ entry.Replaces row) →
          run maxEntries (ops ++ [.append entry]) = (run maxEntries ops ++ [entry]).rtake maxEntries)) ∧
      (∀ ids,
        (run maxEntries (ops ++ [.retract ids])).Sublist (run maxEntries ops) ∧
        ∀ row, row ∈ run maxEntries (ops ++ [.retract ids]) ↔ row ∈ run maxEntries ops ∧ ¬ row.Names ids) ∧
      (∀ before entry later, ops = before ++ .append entry :: later →
        (∀ row ∈ run maxEntries before, ¬ entry.Replaces row) →
        (appended later).length < maxEntries → (∀ ids, .retract ids ∈ later → ¬ entry.Names ids) →
        ∃ row ∈ run maxEntries ops, row = entry ∨ row.Replaces entry) ∧
      ∃ rows : List (ℕ × GbmLogEntry ρ ε), rows.map Prod.snd = run maxEntries ops ∧
        rows.Pairwise (fun row row' => row.1 < row'.1) ∧ ∀ row ∈ rows, AppendedAt ops row.1 row.2 := by
  obtain ⟨rows, hRows⟩ := exists_dated maxEntries ops
  refine ⟨length_run_le _ _, nodup_ids_run hOrder, fun entry => ?_, fun ids => ?_, ?_,
    rows, hRows.map_snd, hRows.order, hRows.appended⟩
  · rw [run_concat]
    exact append_spec hCap _ entry
  · rw [run_concat]
    exact ⟨List.filter_sublist, fun row => mem_retractLogEntries⟩
  · intro before entry later hOps hNew hRecent hKept
    obtain ⟨front, row, back, hLog, -, -, hRow⟩ := row_stays hNew hRecent hKept
    refine ⟨row, ?_, hRow⟩
    rw [hOps, hLog]
    exact List.mem_append_right _ List.mem_cons_self

end Runs

/-- A command ends after another has begun. -/
def twoCommands : List (LogOp Unit Unit) :=
  [.append (.operationRecord ⟨7, true, ()⟩), .append (.operationRecord ⟨8, true, ()⟩),
    .append (.operationRecord ⟨7, false, ()⟩), .append (.appLogEntry ()), .retract {8},
    .append (.operationRecord ⟨8, false, ()⟩)]

theorem startsOnce_twoCommands : StartsOnce twoCommands := by
  have hAppended : appended twoCommands = [.operationRecord ⟨7, true, ()⟩, .operationRecord ⟨8, true, ()⟩,
      .operationRecord ⟨7, false, ()⟩, .appLogEntry (), .operationRecord ⟨8, false, ()⟩] := rfl
  rw [StartsOnce, hAppended]
  simp [GbmLogEntry.id?, GbmLogEntry.isRunning]

theorem one_row_per_command_twoCommands :
    run 2 twoCommands = [.appLogEntry (), .operationRecord ⟨8, false, ()⟩] ∧
      ((run 2 twoCommands).filterMap GbmLogEntry.id?).Nodup :=
  ⟨by decide, (one_row_per_command (by decide) startsOnce_twoCommands).2.1⟩

/-! ## Logs that drop nothing -/

def replaces {ρ ε : Type} (entry row : GbmLogEntry ρ ε) : Bool :=
  match entry with
  | .operationRecord e => e.id != 0 && row.isRunningRowOf e.id
  | .appLogEntry _ => false

/-- An append to a log that drops nothing. -/
def insertEntry {ρ ε : Type} (entry : GbmLogEntry ρ ε) : List (GbmLogEntry ρ ε) → List (GbmLogEntry ρ ε)
  | [] => [entry]
  | row :: rest => if replaces entry row then entry :: rest else row :: insertEntry entry rest

section Logs

variable {ρ ε : Type} {log : List (GbmLogEntry ρ ε)} {entry row : GbmLogEntry ρ ε} {maxEntries : ℕ}

theorem replaces_iff : replaces entry row = true ↔ entry.Replaces row := by
  cases entry with
  | operationRecord e =>
    rw [replaces, Bool.and_eq_true, bne_iff_ne]
    constructor
    · rintro ⟨hZero, hRow⟩
      exact (isRunningRowOf_iff hZero).mp hRow
    · intro h
      obtain ⟨-, id, -, hEntry⟩ := id h
      have hZero := (id?_eq_some_iff.mp hEntry).1
      exact ⟨hZero, (isRunningRowOf_iff hZero).mpr h⟩
  | appLogEntry e =>
    constructor
    · intro h
      cases h
    · rintro ⟨-, id, -, hEntry⟩
      cases hEntry

theorem runningAt_cons (row : GbmLogEntry ρ ε) (log : List (GbmLogEntry ρ ε)) (entry : GbmLogEntry ρ ε) :
    runningAt (row :: log) entry = if replaces entry row then some 0 else (runningAt log entry).map (· + 1) := by
  cases entry with
  | appLogEntry _ => rfl
  | operationRecord e =>
    rw [runningAt, runningAt, replaces]
    split
    next hZero =>
      rw [List.findIdx?_cons, bne_iff_ne.mpr hZero, Bool.true_and]
    next hZero =>
      rw [ne_eq, not_not] at hZero
      rw [hZero]
      rfl

theorem appendLogEntry_eq (hRoom : log.length < maxEntries) :
    appendLogEntry log entry maxEntries = insertEntry entry log := by
  have hUncut : appendLogEntry log entry maxEntries =
      match runningAt log entry with
      | some i => log.set i entry
      | none => log ++ [entry] := by
    rw [appendLogEntry]
    cases runningAt log entry with
    | some i => rfl
    | none => exact if_neg (by rw [List.length_append, List.length_singleton]; omega)
  rw [hUncut]
  clear hUncut hRoom
  induction log with
  | nil => cases entry <;> simp [runningAt, insertEntry]
  | cons row log ih =>
    rw [runningAt_cons, insertEntry]
    cases replaces entry row with
    | true => rfl
    | false =>
      rw [if_neg Bool.false_ne_true, if_neg Bool.false_ne_true, ← ih]
      cases runningAt log entry <;> rfl

theorem mem_insertEntry : row ∈ insertEntry entry log → row = entry ∨ row ∈ log := by
  induction log with
  | nil => exact fun h => .inl (List.mem_singleton.mp h)
  | cons first log ih =>
    rw [insertEntry]
    split
    · intro h
      exact (List.mem_cons.mp h).imp_right (List.mem_cons_of_mem _)
    · intro h
      obtain rfl | hMem := List.mem_cons.mp h
      · exact .inr List.mem_cons_self
      · exact (ih hMem).imp_right (List.mem_cons_of_mem _)

theorem mem_insertEntry_self (entry : GbmLogEntry ρ ε) (log : List (GbmLogEntry ρ ε)) :
    entry ∈ insertEntry entry log := by
  induction log with
  | nil => exact List.mem_cons_self
  | cons first log ih =>
    rw [insertEntry]
    split
    · exact List.mem_cons_self
    · exact List.mem_cons_of_mem _ ih

theorem length_insertEntry_le (entry : GbmLogEntry ρ ε) (log : List (GbmLogEntry ρ ε)) :
    (insertEntry entry log).length ≤ log.length + 1 := by
  induction log with
  | nil => exact le_rfl
  | cons first log ih =>
    rw [insertEntry]
    split
    · exact Nat.le_succ _
    · exact Nat.succ_le_succ ih

/-- A row is there under its id from then on. -/
theorem exists_mem_insertEntry (h : row ∈ log) : ∃ form ∈ insertEntry entry log, form.id? = row.id? := by
  induction log with
  | nil => cases h
  | cons first log ih =>
    rw [insertEntry]
    split
    next hReplaces =>
      obtain rfl | hMem := List.mem_cons.mp h
      · obtain ⟨-, id, hRow, hEntry⟩ := replaces_iff.mp hReplaces
        exact ⟨entry, List.mem_cons_self, hEntry.trans hRow.symm⟩
      · exact ⟨row, List.mem_cons_of_mem _ hMem, rfl⟩
    next =>
      obtain rfl | hMem := List.mem_cons.mp h
      · exact ⟨row, List.mem_cons_self, rfl⟩
      · obtain ⟨form, hForm, hId⟩ := ih hMem
        exact ⟨form, List.mem_cons_of_mem _ hForm, hId⟩

theorem filter_insertEntry {p : GbmLogEntry ρ ε → Bool} (hSame : ∀ row, entry.Replaces row → p row = p entry) :
    (insertEntry entry log).filter p = if p entry then insertEntry entry (log.filter p) else log.filter p := by
  induction log with
  | nil =>
    rw [insertEntry, List.filter_cons, List.filter_nil]
    rfl
  | cons row log ih =>
    rw [insertEntry]
    split
    next hReplaces =>
      have hRow := hSame row (replaces_iff.mp hReplaces)
      rw [List.filter_cons, List.filter_cons, hRow]
      split
      · rw [insertEntry, if_pos hReplaces]
      · rfl
    next hOther =>
      rw [List.filter_cons, ih, List.filter_cons]
      split
      · split
        · rw [insertEntry, if_neg hOther]
        · rfl
      · rfl

theorem filter_foldl_insertEntry {p : GbmLogEntry ρ ε → Bool}
    (hSame : ∀ {entry row : GbmLogEntry ρ ε}, entry.Replaces row → p row = p entry)
    (entries log : List (GbmLogEntry ρ ε)) :
    (entries.foldl (fun log row => insertEntry row log) log).filter p =
      (entries.filter p).foldl (fun log row => insertEntry row log) (log.filter p) := by
  induction entries generalizing log with
  | nil => rfl
  | cons entry entries ih =>
    rw [List.foldl_cons, ih, filter_insertEntry fun row => hSame, List.filter_cons]
    split <;> rfl

/-- No row has a later one that would have replaced it. -/
def Newest (log : List (GbmLogEntry ρ ε)) : Prop := log.Pairwise fun row later => ¬ later.Replaces row

theorem Newest.insertEntry (h : Newest log) (entry : GbmLogEntry ρ ε) : Newest (insertEntry entry log) := by
  induction log with
  | nil => exact List.pairwise_singleton _ _
  | cons row log ih =>
    obtain ⟨hRow, hLog⟩ := List.pairwise_cons.mp h
    rw [OperationLog.insertEntry]
    split
    next hReplaces =>
      obtain ⟨hRunning, id, hId, hEntry⟩ := replaces_iff.mp hReplaces
      refine List.pairwise_cons.mpr ⟨fun later hMem hAgain => hRow later hMem ?_, hLog⟩
      obtain ⟨-, id', hEntry', hLater⟩ := hAgain
      obtain rfl := Option.some.inj (hEntry.symm.trans hEntry')
      exact ⟨hRunning, id, hId, hLater⟩
    next hOther =>
      refine List.pairwise_cons.mpr ⟨fun later hMem hAgain => ?_, ih hLog⟩
      obtain rfl | hMem := mem_insertEntry hMem
      · exact hOther (replaces_iff.mpr hAgain)
      · exact hRow later hMem hAgain

theorem insertEntry_eq_append (h : ∀ row ∈ log, ¬ entry.Replaces row) : insertEntry entry log = log ++ [entry] := by
  induction log with
  | nil => rfl
  | cons row log ih =>
    rw [insertEntry, if_neg fun hReplaces => h row List.mem_cons_self (replaces_iff.mp hReplaces),
      ih fun row hMem => h row (List.mem_cons_of_mem _ hMem)]
    rfl

/-- Rows that are appended again come out as they were. -/
theorem foldl_insertEntry {front rows : List (GbmLogEntry ρ ε)} (h : Newest (front ++ rows)) :
    rows.foldl (fun log row => insertEntry row log) front = front ++ rows := by
  induction rows generalizing front with
  | nil => exact (List.append_nil front).symm
  | cons row rows ih =>
    have hFront : ∀ old ∈ front, ¬ row.Replaces old := fun old hMem =>
      (List.pairwise_append.mp h).2.2 old hMem row List.mem_cons_self
    rw [List.foldl_cons, insertEntry_eq_append hFront, ih (by rwa [List.append_assoc, List.singleton_append]),
      List.append_assoc, List.singleton_append]

/-! ### Logs with a limit -/

theorem mem_appendLogEntry (h : row ∈ appendLogEntry log entry maxEntries) : row = entry ∨ row ∈ log := by
  obtain ⟨before, old, after, rfl, -, hEq⟩ | ⟨-, hEq⟩ := appendLogEntry_cases log entry maxEntries
  · rw [hEq, List.mem_append, List.mem_cons] at h
    rw [List.mem_append, List.mem_cons]
    obtain hBefore | rfl | hAfter := h
    · exact .inr (.inl hBefore)
    · exact .inl rfl
    · exact .inr (.inr (.inr hAfter))
  · rw [hEq] at h
    obtain hMem | hMem := List.mem_append.mp ((Library.rtake_suffix _ _).subset h)
    · exact .inr hMem
    · exact .inl (List.mem_singleton.mp hMem)

theorem mem_foldl_appendLogEntry {rows : List (GbmLogEntry ρ ε)}
    (h : row ∈ rows.foldl (fun log row => appendLogEntry log row maxEntries) log) : row ∈ rows ∨ row ∈ log := by
  induction rows generalizing log with
  | nil => exact .inr h
  | cons first rows ih =>
    obtain hMem | hMem := ih h
    · exact .inl (List.mem_cons_of_mem _ hMem)
    · obtain rfl | hMem := mem_appendLogEntry hMem
      · exact .inl List.mem_cons_self
      · exact .inr hMem

theorem lt_of_length_appendLogEntry (h : (appendLogEntry log entry maxEntries).length < maxEntries) :
    log.length < maxEntries := by
  obtain ⟨before, old, after, rfl, -, hEq⟩ | ⟨-, hEq⟩ := appendLogEntry_cases log entry maxEntries
  · rw [hEq] at h
    rwa [List.length_append, List.length_cons] at h ⊢
  · rw [hEq, Library.length_rtake, List.length_append, List.length_singleton] at h
    omega

theorem foldl_appendLogEntry {rows : List (GbmLogEntry ρ ε)}
    (h : (rows.foldl (fun log row => appendLogEntry log row maxEntries) log).length < maxEntries) :
    log.length < maxEntries ∧ rows.foldl (fun log row => appendLogEntry log row maxEntries) log =
      rows.foldl (fun log row => insertEntry row log) log := by
  induction rows generalizing log with
  | nil => exact ⟨h, rfl⟩
  | cons row rows ih =>
    rw [List.foldl_cons] at h
    obtain ⟨hNext, hRest⟩ := ih h
    have hRoom := lt_of_length_appendLogEntry hNext
    rw [List.foldl_cons, List.foldl_cons, ← appendLogEntry_eq hRoom]
    exact ⟨hRoom, hRest⟩

end Logs

end OperationLog

end GitBranchManager
