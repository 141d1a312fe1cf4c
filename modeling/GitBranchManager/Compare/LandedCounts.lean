import GitBranchManager.Compare.NumstatJoins

/-! # Line counts land on their files

A commit, the working copy and a comparison join the same output by path. The comparison reads
it by lines, which changes the paths it joins by.
-/

namespace GitBranchManager

def ChangedFile.counts (file : ChangedFile) : Nat × Nat := (file.addedLines.toNat, file.removedLines.toNat)

def WorkingCopyEntry.counts (staged : Bool) (entry : WorkingCopyEntry) : Nat × Nat :=
  if staged then (entry.stagedAdded.toNat, entry.stagedRemoved.toNat)
  else (entry.unstagedAdded.toNat, entry.unstagedRemoved.toNat)

/-- The counts of a path that had others before. -/
def expectedCounts (files : List DiffedFile) (path : Bytes) (before : Nat × Nat) : Nat × Nat :=
  (countsOf files path).getD before

/-- One list of changed files as git prints it to each of the three, in chunks. -/
structure NumstatRun where
  files : List DiffedFile
  changed : List ChangedFile
  entries : List WorkingCopyEntry
  staged : Bool
  reads : StatusReads
  commitOut : List Bytes
  workingCopyOut : List Bytes
  nameStatusOut : List Bytes
  compareOut : List Bytes
  distinct : (files.map DiffedFile.path).Nodup
  distinct_changed : (changed.map ChangedFile.path).Nodup
  distinct_entries : (entries.map WorkingCopyEntry.path).Nodup
  commitOut_eq : commitOut.flatten = Library.Lines.join NUL (files.flatMap DiffedFile.numstatFields)
  workingCopyOut_eq : workingCopyOut.flatten = Library.Lines.join NUL (files.flatMap DiffedFile.numstatFields)
  nameStatusOut_eq : nameStatusOut.flatten = Library.Lines.join NUL (files.flatMap DiffedFile.statusFields)
  compareOut_eq : compareOut.flatten = Library.Lines.join NUL (files.flatMap DiffedFile.numstatFields)
  reads_numstat : reads.numstat staged = .ok (LineSplitter.records NUL workingCopyOut)

namespace NumstatRun

variable (run : NumstatRun)

def commitFiles : GitResult (List ChangedFile) :=
  DiffService.attachLineCounts (.ok (LineSplitter.records NUL run.commitOut)) run.changed

def workingCopy : GitResult (List WorkingCopyEntry) :=
  WorkingCopyStatusReader.attachNumstat run.reads run.staged run.entries

def compared : GitResult (List DiffFile) :=
  CompareOps.readFiles (.ok (ProcessRunner.buffered (LineSplitter.records LF run.nameStatusOut)))
    (.ok (ProcessRunner.buffered (LineSplitter.records LF run.compareOut)))

/-- The three lists are of the same files and nothing is counted yet. -/
structure Fresh : Prop where
  changed : run.changed.map ChangedFile.path = run.files.map DiffedFile.path
  entries : run.entries.map WorkingCopyEntry.path = run.files.map DiffedFile.path
  changed_zero : ∀ file ∈ run.changed, file.counts = (0, 0)
  entries_zero : ∀ entry ∈ run.entries, entry.counts run.staged = (0, 0)

/-- Every file has its own counts where lines are counted for it, and those it had elsewhere. -/
structure CountsRight (commit : List ChangedFile) (working : List WorkingCopyEntry) (compared : List DiffFile) :
    Prop where
  commit_right : commit.map ChangedFile.counts =
    run.changed.map fun file => expectedCounts run.files file.path file.counts
  working_right : working.map (WorkingCopyEntry.counts run.staged) =
    run.entries.map fun entry => expectedCounts run.files entry.path (entry.counts run.staged)
  other_side : working.map (WorkingCopyEntry.counts !run.staged) =
    run.entries.map (WorkingCopyEntry.counts !run.staged)
  compared_right : compared.map (fun file => toNats file.counts) =
    run.files.map fun file => expectedCounts run.files file.path (0, 0)
  agree : run.Fresh →
    commit.map ChangedFile.counts = compared.map (fun file => toNats file.counts) ∧
    working.map (WorkingCopyEntry.counts run.staged) = compared.map fun file => toNats file.counts

def JoinsRight : Prop :=
  ∃ commit working compared, run.commitFiles = .ok commit ∧ run.workingCopy = .ok working ∧
    run.compared = .ok compared ∧ run.CountsRight commit working compared

end NumstatRun

theorem lineCounts_of_countsOf {files : List DiffedFile} {path : Bytes} {counts : Nat × Nat}
    (h : countsOf files path = some counts) : ∃ file ∈ files, file.ownCounts = counts := by
  obtain ⟨file, hFound, hCounts⟩ := Option.bind_eq_some_iff.mp h
  refine ⟨file, List.mem_of_find?_eq_some hFound, ?_⟩
  rw [DiffedFile.ownCounts, hCounts, Option.getD_some]

theorem expectedCounts_of_mem {files : List DiffedFile} (h : (files.map DiffedFile.path).Nodup) {file : DiffedFile}
    (hMem : file ∈ files) : expectedCounts files file.path (0, 0) = file.ownCounts := by
  have hFound : files.find? (fun other => other.path == file.path) = some file := by
    induction files with
    | nil => cases hMem
    | cons first files ih =>
      obtain ⟨hFirst, hRest⟩ := List.nodup_cons.mp h
      rw [List.find?_cons]
      rcases List.mem_cons.mp hMem with rfl | hMem
      · rw [beq_self_eq_true]
      · have hOther : (first.path == file.path) = false :=
          beq_eq_false_iff_ne.mpr fun hSame => hFirst (hSame ▸ List.mem_map_of_mem hMem)
        rw [hOther]
        exact ih hRest hMem
  rw [expectedCounts, countsOf, hFound]
  rfl

/-- Counts that fit are put as they are printed. -/
theorem counts_putCounts {τ : Type} {put : UInt32 → UInt32 → τ → τ} {counts : τ → Nat × Nat}
    (hPut : ∀ added removed item, counts (put added removed item) = (added.toNat, removed.toNat))
    {files : List DiffedFile} (hFits : ∀ file ∈ files, file.ownCounts.1 < 2 ^ 32 ∧ file.ownCounts.2 < 2 ^ 32)
    (path : Bytes) (item : τ) :
    counts (putCounts put (countsOf files path) item) = expectedCounts files path (counts item) := by
  rw [expectedCounts]
  cases hCounts : countsOf files path with
  | none => rfl
  | some printed =>
    obtain ⟨file, hMem, hOwn⟩ := lineCounts_of_countsOf hCounts
    obtain ⟨hAdded, hRemoved⟩ := hFits file hMem
    rw [hOwn] at hAdded hRemoved
    rw [putCounts, hPut, readCount_toNat_iff.mpr hAdded, readCount_toNat_iff.mpr hRemoved, Option.getD_some]

theorem NUL_not_mem_statusFields {files : List DiffedFile} :
    ∀ field ∈ files.flatMap DiffedFile.statusFields, NUL ∉ field := by
  intro field hField
  obtain ⟨file, -, hField⟩ := List.mem_flatMap.mp hField
  obtain ⟨hOld, hNew, -⟩ := file.named
  have hCode : NUL ∉ file.letter :: file.score := file.not_mem_code (by decide) (by decide)
  rw [DiffedFile.statusFields] at hField
  split at hField <;> simp only [List.mem_cons, List.not_mem_nil, or_false] at hField
  · rcases hField with rfl | rfl | rfl
    · exact hCode
    · exact hOld
    · exact hNew
  · rcases hField with rfl | rfl
    · exact hCode
    · exact hNew

theorem NUL_not_mem_numstatFields {files : List DiffedFile} :
    ∀ field ∈ files.flatMap DiffedFile.numstatFields, NUL ∉ field := by
  intro field hField
  obtain ⟨file, -, hField⟩ := List.mem_flatMap.mp hField
  obtain ⟨hOld, hNew, -⟩ := file.named
  rw [DiffedFile.numstatFields] at hField
  cases hNumstat : file.numstat with
  | none =>
    rw [hNumstat] at hField
    cases hField
  | some counts =>
    have hFront : NUL ∉ counts.front := not_mem_front counts (by decide) (by decide) (by decide)
    rw [hNumstat] at hField
    simp only at hField
    split at hField <;> simp only [List.mem_cons, List.not_mem_nil, or_false] at hField
    · rcases hField with rfl | rfl | rfl
      · exact hFront
      · exact hOld
      · exact hNew
    · rw [hField, List.mem_append]
      exact not_or.mpr ⟨hFront, hNew⟩

namespace NumstatRun

variable {run : NumstatRun}

def putLineCounts (added removed : UInt32) (file : ChangedFile) : ChangedFile :=
  { file with addedLines := added, removedLines := removed }

theorem commitFiles_eq : run.commitFiles =
    .ok (run.changed.map fun file => putCounts putLineCounts (countsOf run.files file.path) file) := by
  have hJoin := foldl_putAt (fun _ _ _ => rfl : ∀ added removed file,
    ChangedFile.path (putLineCounts added removed file) = file.path) run.distinct run.distinct_changed
  rw [← joinRecords_files (putAt ChangedFile.path putLineCounts) (fun _ _ files => files)] at hJoin
  rw [commitFiles, LineSplitter.records_nul NUL_not_mem_numstatFields run.commitOut_eq,
    DiffService.attachLineCounts]
  split
  · rename_i hNone
    rw [List.isEmpty_iff.mp hNone]
    rfl
  · exact congrArg Except.ok hJoin

theorem workingCopy_eq : run.workingCopy = .ok (run.entries.map fun entry =>
    putCounts (WorkingCopyStatusReader.setCounts run.staged) (countsOf run.files entry.path) entry) := by
  have hKey : ∀ added removed entry,
      WorkingCopyEntry.path (WorkingCopyStatusReader.setCounts run.staged added removed entry) = entry.path := by
    intro added removed entry
    rw [WorkingCopyStatusReader.setCounts]
    split <;> rfl
  have hJoin := foldl_putAt hKey run.distinct run.distinct_entries
  rw [← joinRecords_files _ (fun _ _ entries => entries), ← joinNumstat_eq] at hJoin
  rw [workingCopy, WorkingCopyStatusReader.attachNumstat]
  split
  · rename_i hNone
    rw [List.isEmpty_iff.mp hNone]
    rfl
  · rw [run.reads_numstat, LineSplitter.records_nul NUL_not_mem_numstatFields run.workingCopyOut_eq]
    exact congrArg Except.ok hJoin

theorem splitNul_fields {fields chunks : List Bytes} (hFields : ∀ field ∈ fields.map unixLines, NUL ∉ field)
    (hChunks : chunks.flatten = Library.Lines.join NUL fields) :
    CompareOps.splitNul (ProcessRunner.buffered (LineSplitter.records LF chunks)) = fields.map unixLines := by
  have hCut := Library.Lines.cut_join NUL hFields (List.not_mem_nil : NUL ∉ ([] : Bytes))
  rw [List.append_nil] at hCut
  rw [buffered_join hChunks, CompareOps.splitNul, splitTerminated, hCut]
  rfl

theorem compared_eq : run.compared = .ok (comparedFiles (run.files.map DiffedFile.unix)) := by
  have hStatus : (run.files.flatMap DiffedFile.statusFields).map unixLines =
      (run.files.map DiffedFile.unix).flatMap DiffedFile.statusFields := by
    simp only [List.map_flatMap, List.flatMap_map, DiffedFile.statusFields_unix]
  have hNumstat : (run.files.flatMap DiffedFile.numstatFields).map unixLines =
      (run.files.map DiffedFile.unix).flatMap DiffedFile.numstatFields := by
    simp only [List.map_flatMap, List.flatMap_map, DiffedFile.numstatFields_unix]
  have hStatusFields := splitNul_fields (hStatus ▸ NUL_not_mem_statusFields) run.nameStatusOut_eq
  have hNumstatFields := splitNul_fields (hNumstat ▸ NUL_not_mem_numstatFields) run.compareOut_eq
  rw [hStatus] at hStatusFields
  rw [hNumstat] at hNumstatFields
  have hRead : run.compared = .ok (CompareOps.joinNumstat
      (CompareOps.indexByDisplayPath (CompareOps.parseNameStatus
        (CompareOps.splitNul (ProcessRunner.buffered (LineSplitter.records LF run.nameStatusOut)))))
      (CompareOps.splitNul (ProcessRunner.buffered (LineSplitter.records LF run.compareOut)))
      (CompareOps.parseNameStatus
        (CompareOps.splitNul (ProcessRunner.buffered (LineSplitter.records LF run.nameStatusOut))))) := rfl
  rw [hRead, hStatusFields, hNumstatFields, parseNameStatus_files, CompareOps.joinNumstat, joinRecords_files]
  rfl

/-- Lists of the same files have the same counts where nothing was counted before. -/
theorem expected_eq {τ : Type} {key : τ → Bytes} {counts : τ → Nat × Nat} {items : List τ}
    (hKeys : items.map key = run.files.map DiffedFile.path) (hZero : ∀ item ∈ items, counts item = (0, 0)) :
    (items.map fun item => expectedCounts run.files (key item) (counts item)) =
      run.files.map fun file => expectedCounts run.files file.path (0, 0) := by
  have hPaths := congrArg (List.map fun path => expectedCounts run.files path (0, 0)) hKeys
  rw [List.map_map, List.map_map] at hPaths
  rw [← Function.comp_def (fun path => expectedCounts run.files path (0, 0)) DiffedFile.path, ← hPaths]
  refine List.map_congr_left fun item hMem => ?_
  rw [Function.comp_apply, hZero item hMem]

/-- The counts land on their files exactly when they fit, and the comparison reads no two paths as
one unless the earlier file has no lines counted. -/
theorem joinsRight_iff : run.JoinsRight ↔
    (∀ file ∈ run.files, file.ownCounts.1 < 2 ^ 32 ∧ file.ownCounts.2 < 2 ^ 32) ∧
    run.files.Pairwise fun earlier later =>
      unixLines earlier.path = unixLines later.path → earlier.ownCounts = (0, 0) := by
  have hOwn : run.files.map (fun file => expectedCounts run.files file.path (0, 0)) =
      (run.files.map DiffedFile.unix).map DiffedFile.ownCounts := by
    rw [List.map_map]
    exact List.map_congr_left fun file hMem => expectedCounts_of_mem run.distinct hMem
  have hCompared := comparedFiles_right_iff (run.files.map DiffedFile.unix)
  rw [← hOwn, List.forall_mem_map, List.pairwise_map] at hCompared
  constructor
  · rintro ⟨commit, working, compared, -, -, hRead, hRight⟩
    rw [compared_eq] at hRead
    obtain rfl := Except.ok.inj hRead
    exact hCompared.mp hRight.compared_right
  · intro h
    refine ⟨_, _, _, commitFiles_eq, workingCopy_eq, compared_eq, ?_⟩
    have hCommit : (run.changed.map fun file => putCounts putLineCounts (countsOf run.files file.path) file).map
        ChangedFile.counts = run.changed.map fun file => expectedCounts run.files file.path file.counts := by
      rw [List.map_map]
      exact List.map_congr_left fun file _ => counts_putCounts (fun _ _ _ => rfl) h.1 file.path file
    have hPut : ∀ added removed entry,
        WorkingCopyEntry.counts run.staged (WorkingCopyStatusReader.setCounts run.staged added removed entry) =
          (added.toNat, removed.toNat) := by
      intro added removed entry
      cases run.staged <;> rfl
    have hOther : ∀ added removed entry,
        WorkingCopyEntry.counts (!run.staged)
          (WorkingCopyStatusReader.setCounts run.staged added removed entry) = entry.counts !run.staged := by
      intro added removed entry
      cases run.staged <;> rfl
    have hWorking : (run.entries.map fun entry =>
        putCounts (WorkingCopyStatusReader.setCounts run.staged) (countsOf run.files entry.path) entry).map
          (WorkingCopyEntry.counts run.staged) =
        run.entries.map fun entry => expectedCounts run.files entry.path (entry.counts run.staged) := by
      rw [List.map_map]
      exact List.map_congr_left fun entry _ => counts_putCounts hPut h.1 entry.path entry
    refine ⟨hCommit, hWorking, ?_, hCompared.mpr h, ?_⟩
    · rw [List.map_map]
      refine List.map_congr_left fun entry _ => ?_
      rw [Function.comp_apply]
      cases countsOf run.files entry.path with
      | none => rfl
      | some counts => exact hOther _ _ entry
    · intro hFresh
      rw [hCommit, hWorking, hCompared.mpr h]
      exact ⟨expected_eq hFresh.changed hFresh.changed_zero, expected_eq hFresh.entries hFresh.entries_zero⟩

/-- Two names that differ by a carriage return before their line feed. -/
def twoNames : List DiffedFile :=
  [{ letter := 65, path := ascii "a\nb", numstat := some (.lines 1 0) },
    { letter := 65, path := ascii "a\r\nb", numstat := some (.lines 2 0) }]

def twoNamesRun : NumstatRun where
  files := twoNames
  changed := []
  entries := []
  staged := false
  reads :=
    { status := .ok []
      lsFilesOthers := fun _ => .ok []
      numstat := fun _ => .ok (LineSplitter.records NUL
        [Library.Lines.join NUL (twoNames.flatMap DiffedFile.numstatFields)])
      isBare := false
      now := 0
      fileSize := fun _ => none
      lastWriteTime := fun _ => none
      contents := fun _ => none }
  commitOut := [Library.Lines.join NUL (twoNames.flatMap DiffedFile.numstatFields)]
  workingCopyOut := [Library.Lines.join NUL (twoNames.flatMap DiffedFile.numstatFields)]
  nameStatusOut := [Library.Lines.join NUL (twoNames.flatMap DiffedFile.statusFields)]
  compareOut := [Library.Lines.join NUL (twoNames.flatMap DiffedFile.numstatFields)]
  distinct := by decide
  distinct_changed := List.nodup_nil
  distinct_entries := List.nodup_nil
  commitOut_eq := by simp
  workingCopyOut_eq := by simp
  nameStatusOut_eq := by simp
  compareOut_eq := by simp
  reads_numstat := rfl

theorem twoNamesRun_misplaced : ¬ twoNamesRun.JoinsRight := by
  rintro ⟨commit, working, compared, -, -, hRead, hRight⟩
  have hCounts : (twoNamesRun.compared.toOption.map fun files => files.map fun file => toNats file.counts) =
      some [(0, 0), (2, 0)] := by decide +kernel
  have hOwn : (twoNamesRun.files.map fun file => expectedCounts twoNamesRun.files file.path (0, 0)) =
      [(1, 0), (2, 0)] := by decide
  rw [hRead, Except.toOption, Option.map_some, hRight.compared_right, hOwn] at hCounts
  cases hCounts

end NumstatRun

end GitBranchManager
