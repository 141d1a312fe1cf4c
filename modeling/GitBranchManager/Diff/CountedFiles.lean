import GitBranchManager.Diff.ChangedFiles

/-! # The count column and the list it opens

One `log` prints the raw records of many commits, each behind a header. A path that reads like a
header is taken for one.
-/

namespace GitBranchManager

open DiffService

/-- A raw record as git prints it; `oldPath` is printed for renames and copies. -/
structure RawFile where
  oldMode : Bytes
  newMode : Bytes
  oldBlob : Bytes
  newBlob : Bytes
  letter : UInt8
  score : Bytes := []
  oldPath : Bytes := []
  path : Bytes
  plain : ∀ field ∈ [oldMode, newMode, oldBlob, newBlob, letter :: score], space ∉ field ∧ NUL ∉ field := by
    decide
  named : NUL ∉ oldPath ∧ NUL ∉ path := by decide

namespace RawFile

variable (file : RawFile)

def metadata : Bytes :=
  58 :: (Library.Lines.join space [file.oldMode, file.newMode, file.oldBlob, file.newBlob] ++
    file.letter :: file.score)

def paths : List Bytes :=
  if hasTwoPaths (kindForStatusLetter file.letter) then [file.oldPath, file.path] else [file.path]

def fields : List Bytes := file.metadata :: file.paths

/-- The entry without its paths. -/
def entry : ChangedFile where
  oldMode := file.oldMode
  newMode := file.newMode
  oldBlob := file.oldBlob
  newBlob := file.newBlob
  kind := kindForStatusLetter file.letter
  similarity := similarityOf (file.letter :: file.score)

def parsed : ChangedFile :=
  if hasTwoPaths (kindForStatusLetter file.letter) then
    { file.entry with oldPath := file.oldPath, path := file.path }
  else { file.entry with path := file.path }

end RawFile

def diffTreeFields (files : List RawFile) : List Bytes := files.flatMap RawFile.fields

/-- A commit as `log` prints it: empty fields, the header, and the records behind a line ending. -/
structure LogCommit where
  gap : Nat := 1
  commit : ObjectId
  lead : Bytes := [LF]
  files : List RawFile
  known : commit.isNull = false
  lineEnds : ∀ b ∈ lead, b = LF ∨ b = CR := by simp

namespace LogCommit

def header (c : LogCommit) : Bytes := kHeader ++ c.commit.hex

def body (c : LogCommit) : List Bytes := (diffTreeFields c.files).modifyHead (c.lead ++ ·)

def fields (c : LogCommit) : List Bytes := List.replicate c.gap [] ++ c.header :: c.body

end LogCommit

/-- One page of the history: the `log` over it, and the two runs of `diff-tree` for each commit. -/
structure HistoryPage where
  asked : List ObjectId
  commits : List LogCommit
  log : List Bytes
  raw : LogCommit → List Bytes
  numstat : LogCommit → List Bytes
  reported : ∀ c ∈ commits, c.commit ∈ asked
  log_eq : log.flatten = Library.Lines.join NUL (commits.flatMap LogCommit.fields)
  raw_eq : ∀ c, (raw c).flatten = Library.Lines.join NUL (diffTreeFields c.files)

namespace HistoryPage

variable (page : HistoryPage)

def counts : GitResult (List CommitFileCount) :=
  commitFileCounts page.asked (.ok (LineSplitter.records NUL page.log))

def listed (c : LogCommit) : GitResult (List ChangedFile) :=
  changedFiles (.ok (LineSplitter.records NUL (page.raw c))) (.ok (LineSplitter.records NUL (page.numstat c)))

/-- One count for each commit, as large as the list of the commit. -/
def CountsMatch : Prop :=
  ∃ counts, page.counts = .ok counts ∧
    List.Forall₂ (fun c count => count.commit = c.commit ∧
      ∃ files, page.listed c = .ok files ∧ count.fileCount.toNat = files.length) page.commits counts

end HistoryPage

/-! ## The records of one commit -/

theorem parseMeta_metadata (file : RawFile) {lead : Bytes} (hLead : ∀ b ∈ lead, b = LF ∨ b = CR) :
    parseMeta (lead ++ file.metadata) = some file.entry := by
  have hDrop : (lead ++ file.metadata).dropWhile (fun b => b == LF || b == CR) = file.metadata := by
    rw [List.dropWhile_append_of_pos (by simpa using hLead)]
    exact List.dropWhile_cons_of_neg (by decide)
  have hFree : ∀ field ∈ [file.oldMode, file.newMode, file.oldBlob, file.newBlob], space ∉ field := by
    intro field hField
    exact (file.plain field (List.mem_append_left [file.letter :: file.score] hField)).1
  have hStatus : space ∉ file.letter :: file.score := (file.plain _ (by simp)).1
  have hCut := Library.Lines.cut_join space hFree hStatus
  rw [parseMeta, hDrop, RawFile.metadata]
  simp only [splitTerminated, hCut, List.isEmpty_cons, Bool.false_eq_true, if_false]
  rfl

theorem parseRawRecords_file (file : RawFile) {lead : Bytes} (hLead : ∀ b ∈ lead, b = LF ∨ b = CR)
    (rest : List Bytes) :
    parseRawRecords ((lead ++ file.metadata) :: (file.paths ++ rest)) = file.parsed :: parseRawRecords rest := by
  rw [parseRawRecords, parseMeta_metadata file hLead, RawFile.paths, RawFile.parsed]
  by_cases hTwo : hasTwoPaths (kindForStatusLetter file.letter) = true
  · have hKind : hasTwoPaths file.entry.kind = true := hTwo
    simp only [hTwo, hKind, if_true, List.cons_append, List.nil_append]
  · have hKind : ¬ hasTwoPaths file.entry.kind = true := hTwo
    simp only [if_neg hTwo, List.cons_append, List.nil_append]
    cases rest with
    | nil => rfl
    | cons next rest => simp only [if_neg hKind]

theorem modifyHead_nil_append (fields : List Bytes) : fields.modifyHead (([] : Bytes) ++ ·) = fields := by
  cases fields <;> rfl

theorem parseRawRecords_files (files : List RawFile) {lead : Bytes} (hLead : ∀ b ∈ lead, b = LF ∨ b = CR)
    (rest : List Bytes) :
    parseRawRecords ((diffTreeFields files).modifyHead (lead ++ ·) ++ rest) =
      files.map RawFile.parsed ++ parseRawRecords rest := by
  induction files generalizing lead with
  | nil => rfl
  | cons file files ih =>
    have hRest := @ih [] (by simp)
    rw [modifyHead_nil_append] at hRest
    rw [diffTreeFields, List.flatMap_cons, RawFile.fields, List.cons_append, List.modifyHead_cons, List.cons_append,
      List.append_assoc, ← diffTreeFields, parseRawRecords_file file hLead, hRest, List.map_cons, List.cons_append]

theorem parseRawRecords_gap (gap : Nat) : parseRawRecords (List.replicate gap []) = [] := by
  induction gap with
  | zero => rfl
  | succ gap ih => exact ih

/-! ## The headers of the stream -/

theorem isHeader_metadata (file : RawFile) {lead : Bytes} (hLead : ∀ b ∈ lead, b = LF ∨ b = CR) :
    isHeader (lead ++ file.metadata) = false := by
  have hNot : ∀ (b : UInt8) (rest : Bytes), b ≠ 67 → isHeader (b :: rest) = false := by
    intro b rest hFirst
    rw [isHeader, show kHeader = 67 :: ascii "OMMIT " from rfl, startsWith_cons_cons, Bool.and_eq_false_iff]
    exact .inl (beq_eq_false_iff_ne.mpr hFirst.symm)
  cases lead with
  | nil => exact hNot 58 _ (by decide)
  | cons b lead =>
    refine hNot b _ ?_
    rcases hLead b List.mem_cons_self with rfl | rfl <;> decide

theorem isHeader_header (c : LogCommit) : isHeader c.header = true := startsWith_append _ _

/-- A header is a commit's own, or a path that looks like one. -/
theorem countP_records (files : List RawFile) {lead : Bytes} (hLead : ∀ b ∈ lead, b = LF ∨ b = CR) :
    ((diffTreeFields files).modifyHead (lead ++ ·)).countP isHeader =
      (files.flatMap RawFile.paths).countP isHeader := by
  induction files generalizing lead with
  | nil => rfl
  | cons file files ih =>
    have hRest := @ih [] (by simp)
    rw [modifyHead_nil_append] at hRest
    rw [diffTreeFields, List.flatMap_cons, RawFile.fields, List.cons_append, List.modifyHead_cons,
      List.countP_cons_of_neg (by simp [isHeader_metadata file hLead]), List.countP_append, ← diffTreeFields,
      hRest, List.flatMap_cons, List.countP_append]

theorem countP_fields (commits : List LogCommit) :
    (commits.flatMap LogCommit.fields).countP isHeader =
      commits.length + ((commits.flatMap LogCommit.files).flatMap RawFile.paths).countP isHeader := by
  induction commits with
  | nil => rfl
  | cons c commits ih =>
    have hGap : (List.replicate c.gap ([] : Bytes)).countP isHeader = 0 := by
      rw [List.countP_eq_zero]
      intro field hField
      rw [(List.mem_replicate.mp hField).2]
      decide
    rw [List.flatMap_cons, List.countP_append, ih, LogCommit.fields, List.countP_append, hGap,
      List.countP_cons_of_pos (isHeader_header c), LogCommit.body, countP_records c.files c.lineEnds,
      List.flatMap_cons, List.flatMap_append, List.countP_append, List.length_cons]
    omega

theorem length_commitSlices (fields : List Bytes) : (commitSlices fields).length = fields.countP isHeader := by
  induction fields with
  | nil => rfl
  | cons field fields ih =>
    rw [commitSlices]
    by_cases hHeader : isHeader field = true
    · rw [if_pos hHeader, List.length_cons, ih, List.countP_cons_of_pos hHeader]
    · rw [if_neg hHeader, ih, List.countP_cons_of_neg hHeader]

theorem commitSlices_skip {front : List Bytes} (h : ∀ field ∈ front, isHeader field = false) (rest : List Bytes) :
    commitSlices (front ++ rest) = commitSlices rest := by
  induction front with
  | nil => rfl
  | cons field front ih =>
    have hField : ¬ isHeader field = true := Bool.eq_false_iff.mp (h field List.mem_cons_self)
    rw [List.cons_append, commitSlices, if_neg hField]
    exact ih fun other hOther => h other (List.mem_cons_of_mem _ hOther)

theorem isHeader_gap {gap : Nat} : ∀ field ∈ List.replicate gap ([] : Bytes), isHeader field = false := by
  intro field hField
  rw [(List.mem_replicate.mp hField).2]
  decide

/-- Without such paths each slice is the body of its commit, up to empty fields. -/
theorem commitSlices_fields {commits : List LogCommit}
    (h : ∀ c ∈ commits, ∀ field ∈ c.body, isHeader field = false) :
    List.Forall₂ (fun c slice => slice.1 = c.commit.hex ∧ ∃ gap, slice.2 = c.body ++ List.replicate gap [])
      commits (commitSlices (commits.flatMap LogCommit.fields)) := by
  induction commits with
  | nil => exact List.Forall₂.nil
  | cons c commits ih =>
    obtain ⟨hBody, hBodies⟩ := List.forall_mem_cons.mp h
    have hAfter : ∃ gap, (commits.flatMap LogCommit.fields).takeWhile (fun field => !isHeader field) =
        List.replicate gap [] := by
      cases commits with
      | nil => exact ⟨0, rfl⟩
      | cons next commits =>
        refine ⟨next.gap, ?_⟩
        rw [List.flatMap_cons, LogCommit.fields, List.append_assoc, List.takeWhile_append_of_pos, List.cons_append,
          List.takeWhile_cons_of_neg (by simp [isHeader_header]), List.append_nil]
        intro field hField
        rw [isHeader_gap field hField]
        rfl
    obtain ⟨gap, hGap⟩ := hAfter
    rw [List.flatMap_cons, LogCommit.fields, List.append_assoc, commitSlices_skip isHeader_gap, List.cons_append,
      commitSlices, if_pos (isHeader_header c), commitSlices_skip hBody]
    refine List.Forall₂.cons ⟨?_, gap, ?_⟩ (ih hBodies)
    · rw [LogCommit.header, List.drop_left]
    · rw [List.takeWhile_append_of_pos, hGap]
      intro field hField
      rw [hBody field hField]
      rfl

/-! ## The two counts -/

theorem length_attachLineCounts (records : List Bytes) (files : List ChangedFile) :
    ∃ counted, attachLineCounts (.ok records) files = .ok counted ∧ counted.length = files.length := by
  rw [attachLineCounts]
  split
  · exact ⟨files, rfl, rfl⟩
  · refine ⟨_, rfl, ?_⟩
    refine joinRecords_keeps (P := fun counted : List ChangedFile => counted.length = files.length) ?_ ?_ records rfl
    · intro added removed path counted hLength
      rw [setLineCountsAt]
      split
      · exact hLength
      · rw [List.length_modify, hLength]
    · intro added removed counted hLength
      exact hLength

theorem NUL_not_mem_diffTreeFields {files : List RawFile} : ∀ field ∈ diffTreeFields files, NUL ∉ field := by
  intro field hField
  obtain ⟨file, -, hField⟩ := List.mem_flatMap.mp hField
  rw [RawFile.fields, List.mem_cons] at hField
  rcases hField with rfl | hPath
  · have hPlain : ∀ part ∈ [file.oldMode, file.newMode, file.oldBlob, file.newBlob, file.letter :: file.score],
        NUL ∉ part := fun part hPart => (file.plain part hPart).2
    simp only [List.forall_mem_cons] at hPlain
    obtain ⟨hOldMode, hNewMode, hOldBlob, hNewBlob, hStatus, -⟩ := hPlain
    have hColon : NUL ≠ 58 := by decide
    have hSpace : NUL ≠ space := by decide
    simp only [RawFile.metadata, Library.Lines.join_cons, Library.Lines.join_nil, List.mem_cons, List.mem_append]
      at hStatus ⊢
    simp [hOldMode, hNewMode, hOldBlob, hNewBlob, hStatus, hColon, hSpace]
  · obtain ⟨hOld, hNew⟩ := file.named
    rw [RawFile.paths] at hPath
    split at hPath
    · rcases List.mem_cons.mp hPath with rfl | hPath
      · exact hOld
      · rwa [List.mem_singleton.mp hPath]
    · rwa [List.mem_singleton.mp hPath]

theorem NUL_not_mem_fields (c : LogCommit) : ∀ field ∈ c.fields, NUL ∉ field := by
  intro field hField
  rw [LogCommit.fields, List.mem_append, List.mem_cons] at hField
  rcases hField with hGap | rfl | hBody
  · rw [(List.mem_replicate.mp hGap).2]
    exact List.not_mem_nil
  · have hHeader : NUL ∉ kHeader := by decide
    have hDigits : NUL ∉ ObjectId.kDigits := by decide
    rw [LogCommit.header, List.mem_append]
    rintro (hMem | hMem)
    · exact hHeader hMem
    · exact hDigits (ObjectId.mem_kDigits_of_mem_hex hMem)
  · have hLead : NUL ∉ c.lead := by
      intro hMem
      rcases c.lineEnds NUL hMem with hEnd | hEnd <;> exact absurd hEnd (by decide)
    have hRecords : ∀ record ∈ diffTreeFields c.files, NUL ∉ record := NUL_not_mem_diffTreeFields
    rw [LogCommit.body] at hBody
    cases hFields : diffTreeFields c.files with
    | nil =>
      rw [hFields] at hBody
      cases hBody
    | cons first rest =>
      rw [hFields, List.modifyHead_cons] at hBody
      rw [hFields, List.forall_mem_cons] at hRecords
      rcases List.mem_cons.mp hBody with rfl | hRest
      · rw [List.mem_append]
        exact not_or.mpr ⟨hLead, hRecords.1⟩
      · exact hRecords.2 field hRest

namespace HistoryPage

variable {page : HistoryPage}

theorem counts_eq : page.counts = .ok ((commitSlices (page.commits.flatMap LogCommit.fields)).map fun slice =>
    { commit := ObjectId.fromHex slice.1
      fileCount := UInt32.ofNat (parseRawRecords slice.2).length }) := by
  have hFields : ∀ field ∈ page.commits.flatMap LogCommit.fields, NUL ∉ field := by
    intro field hField
    obtain ⟨c, -, hField⟩ := List.mem_flatMap.mp hField
    exact NUL_not_mem_fields c field hField
  rw [counts, LineSplitter.records_nul hFields page.log_eq, commitFileCounts]
  split
  · rename_i hAsked
    have hNone : page.commits = [] := by
      rw [List.eq_nil_iff_forall_not_mem]
      intro c hMem
      have hReported := page.reported c hMem
      rw [List.isEmpty_iff.mp hAsked] at hReported
      cases hReported
    rw [hNone]
    rfl
  · rfl

theorem listed_length (c : LogCommit) : ∃ files, page.listed c = .ok files ∧ files.length = c.files.length := by
  have hParsed : parseRawRecords (diffTreeFields c.files) = c.files.map RawFile.parsed := by
    have hFiles := @parseRawRecords_files c.files [] (by simp) []
    rw [modifyHead_nil_append, List.append_nil, parseRawRecords, List.append_nil] at hFiles
    exact hFiles
  obtain ⟨files, hCounted, hLength⟩ :=
    length_attachLineCounts (LineSplitter.records NUL (page.numstat c)) (c.files.map RawFile.parsed)
  refine ⟨files, ?_, by rw [hLength, List.length_map]⟩
  rw [listed, changedFiles, LineSplitter.records_nul NUL_not_mem_diffTreeFields (page.raw_eq c), ← hCounted,
    ← hParsed]
  rfl

/-- The counts are those of the lists exactly when no path reads like a commit header, and each
commit has fewer than 2 ^ 32 files. -/
theorem countsMatch_iff : page.CountsMatch ↔
    ∀ c ∈ page.commits, c.files.length < 2 ^ 32 ∧
      ∀ file ∈ c.files, ∀ path ∈ file.paths, startsWith path kHeader = false := by
  constructor
  · rintro ⟨counts, hCounts, hMatch⟩
    rw [counts_eq] at hCounts
    obtain rfl := Except.ok.inj hCounts
    have hSizes : ∀ c ∈ page.commits, c.files.length < 2 ^ 32 := by
      refine ((List.forall₂_and_left _ _).mp (hMatch.imp (S := fun c _ => c.files.length < 2 ^ 32 ∧ True) ?_)).1
      rintro c count ⟨-, files, hListed, hCount⟩
      obtain ⟨files', hListed', hLength⟩ := @listed_length page c
      rw [hListed] at hListed'
      obtain rfl := Except.ok.inj hListed'
      rw [← hLength, ← hCount]
      exact ⟨count.fileCount.toNat_lt, trivial⟩
    have hHeaders := hMatch.length_eq
    rw [List.length_map, length_commitSlices, countP_fields] at hHeaders
    have hNone : ((page.commits.flatMap LogCommit.files).flatMap RawFile.paths).countP isHeader = 0 := by omega
    intro c hMem
    refine ⟨hSizes c hMem, ?_⟩
    intro file hFile path hPath
    have hPaths : path ∈ (page.commits.flatMap LogCommit.files).flatMap RawFile.paths :=
      List.mem_flatMap.mpr ⟨file, List.mem_flatMap.mpr ⟨c, hMem, hFile⟩, hPath⟩
    exact Bool.eq_false_iff.mpr (List.countP_eq_zero.mp hNone path hPaths)
  · intro h
    refine ⟨_, counts_eq, ?_⟩
    have hBodies : ∀ c ∈ page.commits, ∀ field ∈ c.body, isHeader field = false := by
      intro c hMem field hField
      have hNone : c.body.countP isHeader = 0 := by
        rw [LogCommit.body, countP_records c.files c.lineEnds, List.countP_eq_zero]
        intro path hPath
        obtain ⟨file, hFile, hPath⟩ := List.mem_flatMap.mp hPath
        exact Bool.eq_false_iff.mp ((h c hMem).2 file hFile path hPath)
      exact Bool.eq_false_iff.mpr (List.countP_eq_zero.mp hNone field hField)
    rw [List.forall₂_map_right_iff]
    have hSlices := (List.forall₂_and_left _ _).mpr ⟨fun c hMem => (h c hMem).1, commitSlices_fields hBodies⟩
    refine hSlices.imp ?_
    rintro c slice ⟨hSize, hHex, gap, hSlice⟩
    obtain ⟨files, hListed, hLength⟩ := @listed_length page c
    refine ⟨?_, files, hListed, ?_⟩
    · rw [hHex, ObjectId.fromHex_hex c.known]
    · rw [hSlice, LogCommit.body, parseRawRecords_files c.files c.lineEnds, parseRawRecords_gap, List.append_nil,
        List.length_map, hLength]
      exact UInt32.toNat_ofNat_of_lt hSize

end HistoryPage

/-- A commit that adds a file whose name starts like a commit header. -/
def notesCommit : LogCommit where
  commit := ObjectId.replicate 1
  files := [{
    oldMode := ascii "000000"
    newMode := ascii "100644"
    oldBlob := ascii "0000000"
    newBlob := ascii "257cc56"
    letter := 65
    path := ascii "COMMIT notes" }]
  known := by decide

def notesPage : HistoryPage where
  asked := [notesCommit.commit]
  commits := [notesCommit]
  log := [Library.Lines.join NUL notesCommit.fields]
  raw c := [Library.Lines.join NUL (diffTreeFields c.files)]
  numstat _ := [ascii "1\t0\tCOMMIT notes\x00"]
  reported := by simp
  log_eq := by simp
  raw_eq c := by simp

theorem notesPage_counts_twice : ¬ notesPage.CountsMatch := by
  rintro ⟨counts, hCounts, hMatch⟩
  have hTwo : (notesPage.counts.toOption.map List.length) = some 2 := by decide
  rw [hCounts] at hTwo
  have hLength := hMatch.length_eq
  have hOne : notesPage.commits.length = 1 := rfl
  rw [hOne] at hLength
  rw [Except.toOption, Option.map_some, ← hLength] at hTwo
  cases hTwo

end GitBranchManager
