import GitBranchManager.Base.BufferedOutput
import GitBranchManager.Codec.JsonCodec
import GitBranchManager.Diff.ChangedFiles
import GitBranchManager.Stash.StashOps

/-! # The files between two revisions

`--name-status` gives the files and `--numstat` their line counts; the join is by the path that
is displayed.
-/

namespace GitBranchManager

namespace CompareOps

open JsonCodec (displayPath)

def splitNul (text : Bytes) : List Bytes := splitTerminated NUL text

def kindFromStatus (code : UInt8) : FileChangeKind := DiffService.kindForStatusLetter code

/-- An added file has no old path, a deleted one no new path. -/
def clearAbsentPath (file : DiffFile) : DiffFile :=
  { file with
    oldPath := if file.kind = .added then [] else file.oldPath
    newPath := if file.kind = .deleted then [] else file.newPath }

def parseNameStatus : List Bytes → List DiffFile
  | [] => []
  | [] :: rest => parseNameStatus rest
  | (code :: score) :: rest =>
    let kind := kindFromStatus code
    if DiffService.hasTwoPaths kind then
      let similarity := parseInt32 score
      match rest with
      | [] => [{ kind, similarity }]
      | [oldPath] => [{ kind, similarity, oldPath }]
      | oldPath :: newPath :: rest => { kind, similarity, oldPath, newPath } :: parseNameStatus rest
    else
      match rest with
      | [] => [clearAbsentPath { kind }]
      | path :: rest => clearAbsentPath { kind, oldPath := path, newPath := path } :: parseNameStatus rest

/-- The last file of a path stays in the map. -/
def indexByDisplayPath (files : List DiffFile) : Bytes → Option Nat :=
  files.zipIdx.foldl (fun index (file, i) => Function.update index (displayPath file) (some i)) fun _ => none

def setLineCountsAt (index : Bytes → Option Nat) (addedField removedField path : Bytes)
    (files : List DiffFile) : List DiffFile :=
  match index path with
  | none => files
  | some i => files.modify i fun file =>
    if addedField = [minus] ∨ removedField = [minus] then { file with binary := true }
    else { file with
      binary := false
      addedLines := parseUint addedField
      removedLines := parseUint removedField }

/-- Where the records of a rename are missing, the empty path is looked up. -/
def joinNumstat (index : Bytes → Option Nat) (records : List Bytes) (files : List DiffFile) : List DiffFile :=
  joinRecords (setLineCountsAt index) (fun added removed => setLineCountsAt index added removed []) records files

def readFiles (nameStatus numstat : GitResult Bytes) : GitResult (List DiffFile) := do
  let files := parseNameStatus (splitNul (← nameStatus))
  let records := splitNul (← numstat)
  .ok (joinNumstat (indexByDisplayPath files) records files)

end CompareOps

end GitBranchManager

/-! ## Line counts on their files

The loops over the output of `--numstat -z` find a file by its path, the first of a list or the
last one that a map holds.
-/

namespace GitBranchManager

open DiffService (hasTwoPaths kindForStatusLetter)

inductive NumstatCounts
  | binary
  | lines (added removed : Nat)
  deriving DecidableEq, Repr

namespace NumstatCounts

def addedField : NumstatCounts → Bytes
  | binary => [minus]
  | lines added _ => Library.Decimal.numeral added

def removedField : NumstatCounts → Bytes
  | binary => [minus]
  | lines _ removed => Library.Decimal.numeral removed

def lineCounts : NumstatCounts → Option (Nat × Nat)
  | binary => none
  | lines added removed => some (added, removed)

def front (counts : NumstatCounts) : Bytes := counts.addedField ++ 9 :: (counts.removedField ++ [9])

end NumstatCounts

/-- A changed file as git prints it: `oldPath` for renames and copies, and `numstat` where there
is an entry for the file. -/
structure DiffedFile where
  letter : UInt8
  score : Bytes := []
  oldPath : Bytes := []
  path : Bytes
  numstat : Option NumstatCounts := none
  letter_upper : 65 ≤ letter ∧ letter ≤ 90 := by decide
  score_digits : ∀ b ∈ score, Library.Decimal.isDigit b = true := by simp
  named : NUL ∉ oldPath ∧ NUL ∉ path ∧ path ≠ [] := by decide

namespace DiffedFile

variable (file : DiffedFile)

def twoPaths : Bool := hasTwoPaths (kindForStatusLetter file.letter)

def statusFields : List Bytes :=
  (file.letter :: file.score) :: if file.twoPaths then [file.oldPath, file.path] else [file.path]

def numstatFields : List Bytes :=
  match file.numstat with
  | none => []
  | some counts =>
    if file.twoPaths then [counts.front, file.oldPath, file.path] else [counts.front ++ file.path]

def lineCounts : Option (Nat × Nat) := file.numstat.bind NumstatCounts.lineCounts

/-- The counts of the file, zero where git counts no lines. -/
def ownCounts : Nat × Nat := file.lineCounts.getD (0, 0)

def set {σ : Type} (setAt : Bytes → Bytes → Bytes → σ → σ) (files : σ) : σ :=
  match file.numstat with
  | none => files
  | some counts => setAt counts.addedField counts.removedField file.path files

end DiffedFile

def countsOf (files : List DiffedFile) (path : Bytes) : Option (Nat × Nat) :=
  (files.find? fun file => file.path == path).bind DiffedFile.lineCounts

/-- `std::from_chars` of a printed count. -/
def readCount (n : Nat) : UInt32 := if n < 2 ^ 32 then UInt32.ofNat n else 0

theorem readCount_toNat_iff {n : Nat} : (readCount n).toNat = n ↔ n < 2 ^ 32 := by
  constructor
  · intro h
    rw [← h]
    exact (readCount n).toNat_lt
  · intro h
    rw [readCount, if_pos h]
    exact UInt32.toNat_ofNat_of_lt h

theorem parseUint_count (n : Nat) : parseUint (Library.Decimal.numeral n) = readCount n := by
  have hRead := @parseUint_numeral n [] (by simp)
  rwa [List.append_nil] at hRead

theorem numeral_ne_minus (n : Nat) : Library.Decimal.numeral n ≠ [minus] := by
  intro hMinus
  have hMem : minus ∈ Library.Decimal.numeral n := by
    rw [hMinus]
    exact List.mem_singleton_self minus
  exact Library.Decimal.not_mem_numeral n (by decide) hMem

theorem not_mem_addedField (counts : NumstatCounts) {b : UInt8} (hMinus : b ≠ minus)
    (hDigit : Library.Decimal.isDigit b = false) : b ∉ counts.addedField := by
  cases counts with
  | binary => exact fun hMem => hMinus (List.mem_singleton.mp hMem)
  | lines added removed => exact Library.Decimal.not_mem_numeral added hDigit

theorem not_mem_removedField (counts : NumstatCounts) {b : UInt8} (hMinus : b ≠ minus)
    (hDigit : Library.Decimal.isDigit b = false) : b ∉ counts.removedField := by
  cases counts with
  | binary => exact fun hMem => hMinus (List.mem_singleton.mp hMem)
  | lines added removed => exact Library.Decimal.not_mem_numeral removed hDigit

theorem not_mem_front (counts : NumstatCounts) {b : UInt8} (hMinus : b ≠ minus)
    (hDigit : Library.Decimal.isDigit b = false) (hTab : b ≠ 9) : b ∉ counts.front := by
  rw [NumstatCounts.front, List.mem_append, List.mem_cons, List.mem_append, List.mem_singleton]
  rintro (hMem | hMem | hMem | hMem)
  · exact not_mem_addedField counts hMinus hDigit hMem
  · exact hTab hMem
  · exact not_mem_removedField counts hMinus hDigit hMem
  · exact hTab hMem

theorem DiffedFile.not_mem_code (file : DiffedFile) {b : UInt8} (hUpper : ¬ 65 ≤ b)
    (hDigit : Library.Decimal.isDigit b = false) : b ∉ file.letter :: file.score := by
  intro hMem
  rcases List.mem_cons.mp hMem with hLetter | hScore
  · exact hUpper (hLetter ▸ file.letter_upper.1)
  · rw [file.score_digits b hScore] at hDigit
    cases hDigit

/-! ## One pass over the records -/

section Records

variable {σ : Type} (setAt : Bytes → Bytes → Bytes → σ → σ) (cutOff : Bytes → Bytes → σ → σ)

/-- The two tabs of an entry, and what stands between and behind them. -/
theorem entry_fields (counts : NumstatCounts) (path : Bytes) :
    find [9] (counts.front ++ path) = some counts.addedField.length ∧
    (counts.front ++ path).take counts.addedField.length = counts.addedField ∧
    (counts.front ++ path).drop (counts.addedField.length + 1) = counts.removedField ++ 9 :: path ∧
    find [9] (counts.removedField ++ 9 :: path) = some counts.removedField.length ∧
    (counts.removedField ++ 9 :: path).drop (counts.removedField.length + 1) = path := by
  have hRecord : counts.front ++ path = counts.addedField ++ 9 :: (counts.removedField ++ 9 :: path) := by
    simp [NumstatCounts.front]
  rw [hRecord]
  refine ⟨?_, List.take_left, ?_, ?_, ?_⟩
  · exact find_byte (not_mem_addedField counts (by decide) (by decide)) _
  · simp [← List.drop_drop]
  · exact find_byte (not_mem_removedField counts (by decide) (by decide)) _
  · simp [← List.drop_drop]

theorem joinRecords_plain (counts : NumstatCounts) {path : Bytes} (hPath : path ≠ []) (rest : List Bytes)
    (files : σ) : joinRecords setAt cutOff ((counts.front ++ path) :: rest) files =
      joinRecords setAt cutOff rest (setAt counts.addedField counts.removedField path files) := by
  obtain ⟨hFirst, hAdded, hAfter, hSecond, hBehind⟩ := entry_fields counts path
  rw [joinRecords, hFirst]
  simp [hAdded, hAfter, hSecond, hBehind, hPath]

/-- An entry without a path takes the next two records for its paths. -/
theorem joinRecords_renamed (counts : NumstatCounts) (oldPath newPath : Bytes) (rest : List Bytes) (files : σ) :
    joinRecords setAt cutOff (counts.front :: oldPath :: newPath :: rest) files =
      joinRecords setAt cutOff rest (setAt counts.addedField counts.removedField newPath files) := by
  obtain ⟨hFirst, hAdded, hAfter, hSecond, hBehind⟩ := entry_fields counts []
  rw [List.append_nil] at hFirst hAdded hAfter
  rw [joinRecords, hFirst]
  simp [hAdded, hAfter, hSecond, hBehind]

theorem joinRecords_files (files : List DiffedFile) (joined : σ) :
    joinRecords setAt cutOff (files.flatMap DiffedFile.numstatFields) joined =
      files.foldl (fun joined file => file.set setAt joined) joined := by
  induction files generalizing joined with
  | nil => rfl
  | cons file files ih =>
    rw [List.flatMap_cons, List.foldl_cons, ← ih, DiffedFile.numstatFields, DiffedFile.set]
    cases file.numstat with
    | none => rfl
    | some counts =>
      by_cases hTwo : file.twoPaths = true
      · simp only [if_pos hTwo, List.cons_append, List.nil_append]
        exact joinRecords_renamed setAt cutOff counts _ _ _ _
      · simp only [if_neg hTwo, List.cons_append, List.nil_append]
        exact joinRecords_plain setAt cutOff counts file.named.2.2 _ _

end Records

/-! ## Files found by their paths -/

section ByPath

variable {τ : Type} (key : τ → Bytes) (put : UInt32 → UInt32 → τ → τ)

/-- The first item of a path gets its counts; a binary file's `-` counts nothing. -/
def putAt (addedField removedField path : Bytes) (items : List τ) : List τ :=
  if addedField = [minus] ∨ removedField = [minus] then items
  else items.modify (items.findIdx fun item => key item == path)
    (put (parseUint addedField) (parseUint removedField))

def putCounts (counts : Option (Nat × Nat)) (item : τ) : τ :=
  match counts with
  | none => item
  | some (added, removed) => put (readCount added) (readCount removed) item

variable {key} {put}

theorem modify_findIdx {items : List τ} (h : (items.map key).Nodup) (path : Bytes) (change : τ → τ) :
    items.modify (items.findIdx fun item => key item == path) change =
      items.map fun item => if key item = path then change item else item := by
  induction items with
  | nil => rfl
  | cons item items ih =>
    obtain ⟨hFirst, hRest⟩ := List.nodup_cons.mp h
    rw [List.findIdx_cons, List.map_cons]
    by_cases hHere : key item = path
    · have hOthers : items.map (fun item => if key item = path then change item else item) = items := by
        rw [List.map_congr_left (g := id), List.map_id]
        intro other hMem
        refine if_neg fun hSame : key other = path => hFirst ?_
        rw [hHere, ← hSame]
        exact List.mem_map_of_mem hMem
      rw [beq_iff_eq.mpr hHere, cond_true, List.modify_zero_cons, if_pos hHere, hOthers]
    · rw [beq_eq_false_iff_ne.mpr hHere, cond_false, List.modify_succ_cons, ih hRest, if_neg hHere]

theorem set_putAt (file : DiffedFile) {items : List τ} (h : (items.map key).Nodup) :
    file.set (putAt key put) items =
      items.map fun item => if key item = file.path then putCounts put file.lineCounts item else item := by
  have hSame : ∀ other : List τ, other = other.map fun item => if key item = file.path then item else item := by
    intro other
    simp
  rw [DiffedFile.set, DiffedFile.lineCounts]
  cases file.numstat with
  | none => exact hSame items
  | some counts =>
    cases counts with
    | binary => exact hSame items
    | lines added removed =>
      simp only [NumstatCounts.addedField, NumstatCounts.removedField, putAt, numeral_ne_minus, or_self, if_false,
        parseUint_count, modify_findIdx h]
      rfl

/-- Each item gets the counts that are printed for its path. -/
theorem foldl_putAt (hKey : ∀ added removed item, key (put added removed item) = key item)
    {files : List DiffedFile} (hFiles : (files.map DiffedFile.path).Nodup) {items : List τ}
    (hItems : (items.map key).Nodup) :
    files.foldl (fun items file => file.set (putAt key put) items) items =
      items.map fun item => putCounts put (countsOf files (key item)) item := by
  have hPut : ∀ counts item, key (putCounts put counts item) = key item := by
    rintro (_ | ⟨added, removed⟩) item
    · rfl
    · exact hKey _ _ _
  induction files generalizing items with
  | nil => exact (List.map_id items).symm
  | cons file files ih =>
    obtain ⟨hFirst, hRest⟩ := List.nodup_cons.mp hFiles
    rw [List.foldl_cons, set_putAt file hItems]
    have hKeys : (items.map fun item => if key item = file.path then putCounts put file.lineCounts item else item).map
        key = items.map key := by
      rw [List.map_map]
      refine List.map_congr_left fun item _ => ?_
      rw [Function.comp_apply]
      split
      · exact hPut _ _
      · rfl
    rw [ih hRest (hKeys ▸ hItems), List.map_map]
    refine List.map_congr_left fun item _ => ?_
    rw [Function.comp_apply, countsOf, countsOf, List.find?_cons]
    by_cases hHere : key item = file.path
    · have hNone : files.find? (fun other => other.path == file.path) = none := by
        rw [List.find?_eq_none]
        intro other hMem hSame
        exact hFirst (beq_iff_eq.mp hSame ▸ List.mem_map_of_mem hMem)
      rw [if_pos hHere, hPut, hHere, hNone, beq_self_eq_true]
      rfl
    · have hElse : (file.path == key item) = false := beq_eq_false_iff_ne.mpr fun hSame => hHere hSame.symm
      rw [if_neg hHere, hElse]

end ByPath

theorem joinNumstat_eq (staged : Bool) (records : List Bytes) (entries : List WorkingCopyEntry) :
    WorkingCopyStatusReader.joinNumstat staged records entries =
      joinRecords (putAt WorkingCopyEntry.path (WorkingCopyStatusReader.setCounts staged))
        (fun _ _ entries => entries) records entries := by
  fun_induction WorkingCopyStatusReader.joinNumstat staged records entries with
  | case1 => rfl
  | case2 entries record rest hTab ih => rw [joinRecords, hTab, ih]
  | case3 entries record rest firstTab hFirst afterFirst hTab ih =>
    simp only [joinRecords, hFirst]
    rw [hTab, ih]
  | case4 =>
    rename_i record entries firstTab hFirst afterFirst secondTab hSecond added removed path hPath old newPath rest ih
    rw [ih, joinRecords, hFirst]
    simp only
    rw [hSecond]
    simp only
    rw [if_pos hPath]
    rfl
  | case5 =>
    rename_i record rest entries firstTab hFirst afterFirst secondTab hSecond path hPath hShort
    rw [joinRecords, hFirst]
    simp only
    rw [hSecond]
    simp only
    rw [if_pos hPath]
  | case6 =>
    rename_i record rest entries firstTab hFirst afterFirst secondTab hSecond added removed path hPath ih
    rw [ih, joinRecords, hFirst]
    simp only
    rw [hSecond]
    simp only
    rw [if_neg hPath]
    rfl

/-! ## Files found by their positions -/

namespace DiffedFile

/-- The file as the comparison reads it from `--name-status`. -/
def compared (file : DiffedFile) : DiffFile :=
  let kind := kindForStatusLetter file.letter
  if file.twoPaths then
    { kind, similarity := parseInt32 file.score, oldPath := file.oldPath, newPath := file.path }
  else CompareOps.clearAbsentPath { kind, oldPath := file.path, newPath := file.path }

/-- The file with the paths that reading by lines leaves. -/
def unix (file : DiffedFile) : DiffedFile :=
  { file with
    oldPath := unixLines file.oldPath
    path := unixLines file.path
    named := by
      obtain ⟨hOld, hNew, hSome⟩ := file.named
      exact ⟨fun hMem => hOld ((unixLines_sublist _).mem hMem), fun hMem => hNew ((unixLines_sublist _).mem hMem),
        unixLines_ne_nil hSome⟩ }

theorem displayPath_compared (file : DiffedFile) : JsonCodec.displayPath file.compared = file.path := by
  rw [compared]
  by_cases hTwo : file.twoPaths = true
  · have hKind : kindForStatusLetter file.letter ≠ .deleted := by
      intro hKind
      rw [twoPaths, hKind] at hTwo
      cases hTwo
    rw [if_pos hTwo]
    exact if_neg hKind
  · rw [if_neg hTwo]
    by_cases hKind : kindForStatusLetter file.letter = .deleted
    · simp [CompareOps.clearAbsentPath, JsonCodec.displayPath, hKind]
    · simp [CompareOps.clearAbsentPath, JsonCodec.displayPath, hKind]

theorem statusFields_unix (file : DiffedFile) : file.statusFields.map unixLines = file.unix.statusFields := by
  have hCode : LF ∉ file.letter :: file.score := file.not_mem_code (by decide) (by decide)
  rw [statusFields, statusFields, List.map_cons, unixLines_of_not_mem hCode]
  by_cases hTwo : file.twoPaths = true
  · rw [if_pos hTwo, if_pos (show file.unix.twoPaths = true from hTwo)]
    rfl
  · rw [if_neg hTwo, if_neg (show ¬ file.unix.twoPaths = true from hTwo)]
    rfl

theorem numstatFields_unix (file : DiffedFile) : file.numstatFields.map unixLines = file.unix.numstatFields := by
  have hNumstat : file.unix.numstat = file.numstat := rfl
  rw [numstatFields, numstatFields, hNumstat]
  cases file.numstat with
  | none => rfl
  | some counts =>
    have hFront : CR ∉ counts.front := not_mem_front counts (by decide) (by decide) (by decide)
    by_cases hTwo : file.twoPaths = true
    · have hKept := unixLines_append hFront []
      rw [List.append_nil, unixLines, List.append_nil] at hKept
      simp only [if_pos hTwo, if_pos (show file.unix.twoPaths = true from hTwo), List.map_cons, List.map_nil, hKept]
      rfl
    · simp only [if_neg hTwo, if_neg (show ¬ file.unix.twoPaths = true from hTwo), List.map_cons, List.map_nil,
        unixLines_append hFront]
      rfl

/-- The counts after the file's own entry is read. -/
def countsAfter (file : DiffedFile) (counts : UInt32 × UInt32) : UInt32 × UInt32 :=
  match file.lineCounts with
  | none => counts
  | some (added, removed) => (readCount added, readCount removed)

end DiffedFile

theorem parseNameStatus_files (files : List DiffedFile) :
    CompareOps.parseNameStatus (files.flatMap DiffedFile.statusFields) = files.map DiffedFile.compared := by
  induction files with
  | nil => rfl
  | cons file files ih =>
    rw [List.flatMap_cons, DiffedFile.statusFields, List.cons_append, List.map_cons, DiffedFile.compared]
    by_cases hTwo : file.twoPaths = true
    · have hKind : hasTwoPaths (CompareOps.kindFromStatus file.letter) = true := hTwo
      simp only [hTwo, if_true, List.cons_append, List.nil_append, CompareOps.parseNameStatus, hKind, ih]
      rfl
    · have hKind : hasTwoPaths (CompareOps.kindFromStatus file.letter) = false := Bool.eq_false_iff.mpr hTwo
      simp only [hTwo, if_false, List.cons_append, List.nil_append, CompareOps.parseNameStatus, hKind,
        Bool.false_eq_true, ih]
      rfl

section Positions

variable {files : List DiffFile} {path : Bytes}

open CompareOps (indexByDisplayPath)
open JsonCodec (displayPath)

theorem indexByDisplayPath_concat (files : List DiffFile) (file : DiffFile) :
    indexByDisplayPath (files ++ [file]) =
      Function.update (indexByDisplayPath files) (displayPath file) (some files.length) := by
  rw [indexByDisplayPath, List.zipIdx_append, List.foldl_append, Nat.zero_add]
  rfl

theorem indexByDisplayPath_lt {i : Nat} (h : indexByDisplayPath files path = some i) : i < files.length := by
  induction files using List.reverseRecOn with
  | nil => cases h
  | append_singleton files file ih =>
    rw [indexByDisplayPath_concat, Function.update_apply] at h
    rw [List.length_append, List.length_singleton]
    split at h
    · obtain rfl := Option.some.inj h
      exact Nat.lt_succ_self _
    · exact Nat.lt_succ_of_lt (ih h)

/-- A path leads to the last file of that path. -/
theorem indexByDisplayPath_eq_some_iff (front : List DiffFile) (file : DiffFile) (back : List DiffFile)
    (path : Bytes) : indexByDisplayPath (front ++ file :: back) path = some front.length ↔
      displayPath file = path ∧ ∀ later ∈ back, displayPath later ≠ path := by
  induction back using List.reverseRecOn with
  | nil =>
    rw [indexByDisplayPath_concat, Function.update_apply]
    split
    · rename_i hSame
      simp [hSame]
    · rename_i hOther
      constructor
      · intro hIndex
        exact absurd (indexByDisplayPath_lt hIndex) (Nat.lt_irrefl _)
      · rintro ⟨hSame, -⟩
        exact absurd hSame.symm hOther
  | append_singleton back last ih =>
    rw [← List.cons_append, ← List.append_assoc, indexByDisplayPath_concat, Function.update_apply]
    split
    · rename_i hSame
      constructor
      · intro hIndex
        have hLength := Option.some.inj hIndex
        rw [List.length_append, List.length_cons] at hLength
        omega
      · rintro ⟨-, hLater⟩
        exact absurd hSame.symm (hLater last (by simp))
    · rename_i hOther
      rw [ih, List.forall_mem_append]
      constructor
      · rintro ⟨hSame, hLater⟩
        refine ⟨hSame, hLater, ?_⟩
        intro later hMem
        rw [List.mem_singleton.mp hMem]
        exact fun hLast => hOther hLast.symm
      · rintro ⟨hSame, hLater, -⟩
        exact ⟨hSame, hLater⟩

theorem index_compared_iff (front : List DiffedFile) (file : DiffedFile) (back : List DiffedFile) (path : Bytes) :
    indexByDisplayPath ((front ++ file :: back).map DiffedFile.compared) path = some front.length ↔
      file.path = path ∧ ∀ later ∈ back, later.path ≠ path := by
  have hIndex := indexByDisplayPath_eq_some_iff (front.map DiffedFile.compared) file.compared
    (back.map DiffedFile.compared) path
  rw [List.length_map, DiffedFile.displayPath_compared, List.forall_mem_map] at hIndex
  simp only [DiffedFile.displayPath_compared] at hIndex
  rw [List.map_append, List.map_cons]
  exact hIndex

end Positions

/-! ## What the comparison counts -/

def DiffFile.counts (file : DiffFile) : UInt32 × UInt32 := (file.addedLines, file.removedLines)

def toNats (counts : UInt32 × UInt32) : Nat × Nat := (counts.1.toNat, counts.2.toNat)

section Compared

variable (index : Bytes → Option Nat)

theorem set_compared (file : DiffedFile) (joined : List DiffFile) (i : Nat) :
    (file.set (CompareOps.setLineCountsAt index) joined)[i]?.map DiffFile.counts =
      (joined[i]?.map DiffFile.counts).map fun counts =>
        if index file.path = some i then file.countsAfter counts else counts := by
  have hAfter : ∀ old, file.countsAfter old =
      match file.numstat.bind NumstatCounts.lineCounts with
      | none => old
      | some (added, removed) => (readCount added, readCount removed) := fun _ => rfl
  rw [DiffedFile.set]
  cases hNumstat : file.numstat with
  | none =>
    rw [hNumstat] at hAfter
    simp [hAfter, Function.comp_def]
  | some counts =>
    rw [hNumstat] at hAfter
    simp only [CompareOps.setLineCountsAt]
    cases hIndex : index file.path with
    | none => simp [Function.comp_def]
    | some at_ =>
      rw [List.getElem?_modify]
      by_cases hHere : at_ = i
      · cases joined[i]? with
        | none => simp
        | some old =>
          cases counts with
          | binary => simp [hHere, hAfter, NumstatCounts.addedField, NumstatCounts.lineCounts, DiffFile.counts]
          | lines added removed =>
            simp [hHere, hAfter, NumstatCounts.addedField, NumstatCounts.removedField, NumstatCounts.lineCounts,
              DiffFile.counts, numeral_ne_minus, parseUint_count]
      · simp [hHere, Function.comp_def]

theorem foldl_compared (files : List DiffedFile) (joined : List DiffFile) (i : Nat) :
    (files.foldl (fun joined file => file.set (CompareOps.setLineCountsAt index) joined) joined)[i]?.map
        DiffFile.counts =
      (joined[i]?.map DiffFile.counts).map fun counts =>
        files.foldl (fun counts file => if index file.path = some i then file.countsAfter counts else counts)
          counts := by
  induction files generalizing joined with
  | nil => exact Option.map_id'.symm
  | cons file files ih =>
    rw [List.foldl_cons, ih, set_compared, Option.map_map]
    rfl

end Compared

def comparedFiles (files : List DiffedFile) : List DiffFile :=
  files.foldl
    (fun joined file => file.set
      (CompareOps.setLineCountsAt (CompareOps.indexByDisplayPath (files.map DiffedFile.compared))) joined)
    (files.map DiffedFile.compared)

theorem foldl_skip {files : List DiffedFile} {p : Bytes → Prop} [DecidablePred p]
    {counts : UInt32 × UInt32}
    (h : ∀ file ∈ files, p file.path → file.countsAfter counts = counts) :
    files.foldl (fun counts file => if p file.path then file.countsAfter counts else counts) counts = counts := by
  induction files with
  | nil => rfl
  | cons file files ih =>
    have hFile : (if p file.path then file.countsAfter counts else counts) = counts := by
      split
      · rename_i hHere
        exact h file List.mem_cons_self hHere
      · rfl
    rw [List.foldl_cons, hFile]
    exact ih fun other hMem => h other (List.mem_cons_of_mem _ hMem)

/-- An earlier file of the same path gets nothing; the last one gets what was printed last. -/
theorem comparedFiles_counts (front : List DiffedFile) (file : DiffedFile) (back : List DiffedFile) :
    (comparedFiles (front ++ file :: back))[front.length]?.map DiffFile.counts =
      some (if ∃ later ∈ back, later.path = file.path then (0, 0)
        else file.countsAfter (front.foldl
          (fun counts earlier => if earlier.path = file.path then earlier.countsAfter counts else counts) (0, 0))) := by
  have hStart : ((front ++ file :: back).map DiffedFile.compared)[front.length]?.map DiffFile.counts =
      some (0, 0) := by
    rw [List.getElem?_map, List.getElem?_append_right (Nat.le_refl _), Nat.sub_self]
    simp only [List.getElem?_cons_zero, Option.map_some, DiffedFile.compared]
    split <;> rfl
  rw [comparedFiles, foldl_compared, hStart, Option.map_some, List.foldl_append, List.foldl_cons]
  by_cases hLater : ∃ later ∈ back, later.path = file.path
  · have hNever : ∀ path, ¬ CompareOps.indexByDisplayPath ((front ++ file :: back).map DiffedFile.compared) path =
        some front.length := by
      intro path hIndex
      obtain ⟨rfl, hNone⟩ := (index_compared_iff front file back path).mp hIndex
      obtain ⟨later, hMem, hSame⟩ := hLater
      exact hNone later hMem hSame
    simp only [hNever, if_false, if_pos hLater, List.foldl_fixed]
  · have hLast : ∀ path, CompareOps.indexByDisplayPath ((front ++ file :: back).map DiffedFile.compared) path =
        some front.length ↔ path = file.path := by
      intro path
      rw [index_compared_iff]
      constructor
      · rintro ⟨hSame, -⟩
        exact hSame.symm
      · rintro rfl
        exact ⟨rfl, fun later hMem hSame => hLater ⟨later, hMem, hSame⟩⟩
    simp only [hLast, if_true, if_neg hLater]
    rw [foldl_skip (p := fun path => path = file.path)]
    intro later hMem hSame
    exact absurd ⟨later, hMem, hSame⟩ hLater

theorem countsAfter_zero_of_ownCounts {file : DiffedFile} (h : file.ownCounts = (0, 0)) :
    file.countsAfter (0, 0) = (0, 0) := by
  rw [DiffedFile.ownCounts] at h
  rw [DiffedFile.countsAfter]
  cases hCounts : file.lineCounts with
  | none => rfl
  | some counts =>
    rw [hCounts, Option.getD_some] at h
    rw [h]
    rfl

theorem toNats_countsAfter {file : DiffedFile} (hAdded : file.ownCounts.1 < 2 ^ 32)
    (hRemoved : file.ownCounts.2 < 2 ^ 32) : toNats (file.countsAfter (0, 0)) = file.ownCounts := by
  rw [DiffedFile.ownCounts] at hAdded hRemoved ⊢
  rw [DiffedFile.countsAfter]
  cases hCounts : file.lineCounts with
  | none => rfl
  | some counts =>
    rw [hCounts, Option.getD_some] at hAdded hRemoved
    rw [Option.getD_some, toNats, readCount_toNat_iff.mpr hAdded, readCount_toNat_iff.mpr hRemoved]

theorem length_comparedFiles (files : List DiffedFile) : (comparedFiles files).length = files.length := by
  have hFold : ∀ (index : Bytes → Option Nat) (files : List DiffedFile) (joined : List DiffFile),
      (files.foldl (fun joined file => file.set (CompareOps.setLineCountsAt index) joined) joined).length =
        joined.length := by
    intro index files
    induction files with
    | nil => exact fun _ => rfl
    | cons file files ih =>
      intro joined
      rw [List.foldl_cons, ih, DiffedFile.set]
      cases file.numstat with
      | none => rfl
      | some counts =>
        simp only [CompareOps.setLineCountsAt]
        cases index file.path with
        | none => rfl
        | some i => exact List.length_modify _ _ _
  rw [comparedFiles, hFold, List.length_map]

theorem comparedFiles_eq_iff (files : List DiffedFile) :
    (comparedFiles files).map (fun file => toNats file.counts) = files.map DiffedFile.ownCounts ↔
      ∀ front file back, files = front ++ file :: back →
        (comparedFiles files)[front.length]?.map (fun file => toNats file.counts) = some file.ownCounts := by
  constructor
  · intro hSame front file back hSplit
    have hHere := congrArg (fun counts => counts[front.length]?) hSame
    simp only [List.getElem?_map] at hHere
    rw [hHere, hSplit, List.getElem?_append_right (Nat.le_refl _), Nat.sub_self]
    rfl
  · intro hEach
    apply List.ext_getElem?
    intro i
    rw [List.getElem?_map, List.getElem?_map]
    by_cases hInside : i < files.length
    · have hSplit : files = files.take i ++ files[i] :: files.drop (i + 1) := by
        rw [List.getElem_cons_drop, List.take_append_drop]
      have hLength : (files.take i).length = i := List.length_take_of_le (Nat.le_of_lt hInside)
      have hHere := hEach _ _ _ hSplit
      rw [hLength] at hHere
      rw [hHere, List.getElem?_eq_getElem hInside]
      rfl
    · have hOutside := Nat.le_of_not_lt hInside
      rw [List.getElem?_eq_none hOutside, List.getElem?_eq_none (by rw [length_comparedFiles]; exact hOutside)]
      rfl

/-- The comparison is right exactly when the counts fit, and a file that shares its path with a
later one has no lines counted. -/
theorem comparedFiles_right_iff (files : List DiffedFile) :
    (comparedFiles files).map (fun file => toNats file.counts) = files.map DiffedFile.ownCounts ↔
      (∀ file ∈ files, file.ownCounts.1 < 2 ^ 32 ∧ file.ownCounts.2 < 2 ^ 32) ∧
      files.Pairwise fun earlier later => earlier.path = later.path → earlier.ownCounts = (0, 0) := by
  rw [comparedFiles_eq_iff]
  have hHere : ∀ front file back, files = front ++ file :: back →
      (comparedFiles files)[front.length]?.map (fun file => toNats file.counts) =
        some (toNats (if ∃ later ∈ back, later.path = file.path then (0, 0)
          else file.countsAfter (front.foldl
            (fun counts earlier => if earlier.path = file.path then earlier.countsAfter counts else counts)
            (0, 0)))) := by
    rintro front file back rfl
    rw [← Option.map_some, ← comparedFiles_counts, Option.map_map]
    rfl
  constructor
  · intro hEach
    constructor
    · intro file hMem
      obtain ⟨front, back, hSplit⟩ := List.append_of_mem hMem
      have hOwn := Option.some.inj ((hHere front file back hSplit).symm.trans (hEach front file back hSplit))
      rw [← hOwn]
      exact ⟨UInt32.toNat_lt _, UInt32.toNat_lt _⟩
    · rw [List.pairwise_iff_forall_sublist]
      intro earlier later hBoth hSame
      obtain ⟨left, right, rfl, hLeft, hRight⟩ := List.cons_sublist_iff.mp hBoth
      obtain ⟨front, middle, rfl⟩ := List.append_of_mem hLeft
      have hLater : later ∈ middle ++ right := List.mem_append_right _ (List.singleton_sublist.mp hRight)
      have hSplit : (front ++ earlier :: middle) ++ right = front ++ earlier :: (middle ++ right) := by simp
      have hOwn := (hHere _ _ _ hSplit).symm.trans (hEach _ _ _ hSplit)
      rw [if_pos ⟨later, hLater, hSame.symm⟩] at hOwn
      exact (Option.some.inj hOwn).symm
  · rintro ⟨hFits, hPairs⟩ front file back hSplit
    rw [hHere front file back hSplit]
    subst hSplit
    obtain ⟨-, hBack, hFront⟩ := List.pairwise_append.mp hPairs
    have hFile := hFits file (by simp)
    split
    · rename_i hLater
      obtain ⟨later, hMem, hSame⟩ := hLater
      rw [(List.pairwise_cons.mp hBack).1 later hMem hSame.symm]
      rfl
    · rw [foldl_skip (p := fun path => path = file.path), toNats_countsAfter hFile.1 hFile.2]
      intro earlier hMem hSame
      exact countsAfter_zero_of_ownCounts (hFront earlier hMem file List.mem_cons_self hSame)

end GitBranchManager
