import GitBranchManager.Base.LineSplitter
import GitBranchManager.Library.Joined
import GitBranchManager.Status.WorkingCopyStatus

/-! # Porcelain v2 records round-trip

What `git status --porcelain=v2 -z` prints for its four kinds of entry, and how the parser
reads it back. Only a path may hold a space.
-/

namespace GitBranchManager

namespace WorkingCopyStatusReader

inductive ChangeCode
  | modified
  | typeChanged
  | added
  | deleted
  | renamed
  | copied
  deriving DecidableEq, Repr

namespace ChangeCode

def letter : ChangeCode → UInt8
  | .modified => 77
  | .typeChanged => 84
  | .added => 65
  | .deleted => 68
  | .renamed => 82
  | .copied => 67

def kind : ChangeCode → FileChangeKind
  | .modified => .modified
  | .typeChanged => .typeChanged
  | .added => .added
  | .deleted => .deleted
  | .renamed => .renamed
  | .copied => .copied

end ChangeCode

/-- An unchanged side is a dot. -/
def codeLetter : Option ChangeCode → UInt8
  | none => 46
  | some code => code.letter

inductive UnmergedCode
  | bothDeleted
  | addedByUs
  | deletedByThem
  | addedByThem
  | deletedByUs
  | bothAdded
  | bothModified
  deriving DecidableEq, Repr

namespace UnmergedCode

def letters : UnmergedCode → Bytes
  | .bothDeleted => ascii "DD"
  | .addedByUs => ascii "AU"
  | .deletedByThem => ascii "UD"
  | .addedByThem => ascii "UA"
  | .deletedByUs => ascii "DU"
  | .bothAdded => ascii "AA"
  | .bothModified => ascii "UU"

def kind : UnmergedCode → ConflictKind
  | .bothDeleted => .bothDeleted
  | .addedByUs => .addedByUs
  | .deletedByThem => .deletedByThem
  | .addedByThem => .addedByThem
  | .deletedByUs => .deletedByUs
  | .bothAdded => .bothAdded
  | .bothModified => .bothModified

end UnmergedCode

structure SubmoduleState where
  commitChanged : Bool
  modified : Bool
  untracked : Bool
  deriving DecidableEq, Repr

def submoduleField : Option SubmoduleState → Bytes
  | none => ascii "N..."
  | some state =>
    [83, if state.commitChanged then 67 else 46, if state.modified then 77 else 46,
      if state.untracked then 85 else 46]

/-- The fields of a changed entry; its modes and hashes are not read. -/
structure ChangedFields where
  x : Option ChangeCode
  y : Option ChangeCode
  submodule : Option SubmoduleState := none
  headMode : Bytes
  indexMode : Bytes
  worktreeMode : Bytes
  headHash : Bytes
  indexHash : Bytes
  path : Bytes
  deriving DecidableEq, Repr

structure UnmergedFields where
  code : UnmergedCode
  submodule : Option SubmoduleState := none
  ancestorMode : Bytes
  oursMode : Bytes
  theirsMode : Bytes
  worktreeMode : Bytes
  ancestor : Option Bytes
  ours : Option Bytes
  theirs : Option Bytes
  path : Bytes
  deriving DecidableEq, Repr

inductive StatusEntry
  | ordinary (fields : ChangedFields)
  | renamed (fields : ChangedFields) (copied : Bool) (score : Nat) (oldPath : Bytes)
  | unmerged (fields : UnmergedFields)
  | untracked (path : Bytes)
  deriving DecidableEq, Repr

def ChangedFields.front (fields : ChangedFields) (type : Bytes) : List Bytes :=
  [type, [codeLetter fields.x, codeLetter fields.y], submoduleField fields.submodule, fields.headMode,
    fields.indexMode, fields.worktreeMode, fields.headHash, fields.indexHash]

def scoreField (copied : Bool) (score : Nat) : Bytes :=
  (if copied then 67 else 82) :: Library.Decimal.numeral score

/-- A stage that does not exist has the null hash. -/
def stageHash (hexSize : Nat) (hash : Option Bytes) : Bytes := hash.getD (List.replicate hexSize 48)

def UnmergedFields.front (hexSize : Nat) (fields : UnmergedFields) : List Bytes :=
  [ascii "u", fields.code.letters, submoduleField fields.submodule, fields.ancestorMode, fields.oursMode,
    fields.theirsMode, fields.worktreeMode, stageHash hexSize fields.ancestor, stageHash hexSize fields.ours,
    stageHash hexSize fields.theirs]

def joined (front : List Bytes) (path : Bytes) : Bytes := [space].intercalate (front ++ [path])

/-- A rename's old path is a record of its own. -/
def StatusEntry.records (hexSize : Nat) : StatusEntry → List Bytes
  | .ordinary fields => [joined (fields.front (ascii "1")) fields.path]
  | .renamed fields copied score oldPath =>
    [joined (fields.front (ascii "2") ++ [scoreField copied score]) fields.path, oldPath]
  | .unmerged fields => [joined (fields.front hexSize) fields.path]
  | .untracked path => [joined [ascii "?"] path]

def ChangedFields.entry (fields : ChangedFields) : WorkingCopyEntry where
  path := fields.path
  isSubmodule := fields.submodule.isSome
  staged := fields.x.isSome
  indexStatus := (fields.x.map ChangeCode.kind).getD .modified
  hasUnstagedChange := fields.y.isSome
  worktreeStatus := (fields.y.map ChangeCode.kind).getD .modified

def UnmergedFields.entry (fields : UnmergedFields) : WorkingCopyEntry where
  path := fields.path
  isSubmodule := fields.submodule.isSome
  conflict := fields.code.kind
  ancestorBlob := fields.ancestor.getD []
  oursBlob := fields.ours.getD []
  theirsBlob := fields.theirs.getD []

def StatusEntry.entry : StatusEntry → WorkingCopyEntry
  | .ordinary fields => fields.entry
  | .renamed fields _ score oldPath => { fields.entry with similarity := Int32.ofNat score, oldPath }
  | .unmerged fields => fields.entry
  | .untracked path => { path, untracked := true }

/-- What an entry says of its path: its kind, its codes and the path it had before. -/
inductive StatusCodes
  | ordinary (x y : Option ChangeCode) (path : Bytes)
  | renamed (x y : Option ChangeCode) (path oldPath : Bytes)
  | unmerged (code : UnmergedCode) (path : Bytes)
  | untracked (path : Bytes)
  deriving DecidableEq, Repr

def StatusEntry.codes : StatusEntry → StatusCodes
  | .ordinary fields => .ordinary fields.x fields.y fields.path
  | .renamed fields _ _ oldPath => .renamed fields.x fields.y fields.path oldPath
  | .unmerged fields => .unmerged fields.code fields.path
  | .untracked path => .untracked path

def Plain (field : Bytes) : Prop := space ∉ field ∧ NUL ∉ field

def PathText (path : Bytes) : Prop := path ≠ [] ∧ NUL ∉ path

structure ChangedFields.WellFormed (fields : ChangedFields) : Prop where
  headMode : Plain fields.headMode
  indexMode : Plain fields.indexMode
  worktreeMode : Plain fields.worktreeMode
  headHash : Plain fields.headHash
  indexHash : Plain fields.indexHash
  path : PathText fields.path

def StageHash (hash : Option Bytes) : Prop := ∀ b ∈ hash, Plain b ∧ ∃ digit ∈ b, digit ≠ 48

structure UnmergedFields.WellFormed (fields : UnmergedFields) : Prop where
  ancestorMode : Plain fields.ancestorMode
  oursMode : Plain fields.oursMode
  theirsMode : Plain fields.theirsMode
  worktreeMode : Plain fields.worktreeMode
  ancestor : StageHash fields.ancestor
  ours : StageHash fields.ours
  theirs : StageHash fields.theirs
  path : PathText fields.path

def StatusEntry.WellFormed : StatusEntry → Prop
  | .ordinary fields => fields.WellFormed
  | .renamed fields _ score oldPath => fields.WellFormed ∧ score < 2 ^ 31 ∧ PathText oldPath
  | .unmerged fields => fields.WellFormed
  | .untracked path => PathText path

theorem splitFieldsMax_joined {front : List Bytes} (hFront : ∀ field ∈ front, space ∉ field) (path : Bytes) :
    splitFieldsMax (joined front path) (front.length + 1) = front ++ [path] := by
  induction front with
  | nil => simp [splitFieldsMax, joined, List.intercalate]
  | cons field front ih =>
    have hField := hFront field List.mem_cons_self
    have hJoin : joined (field :: front) path = field ++ space :: joined front path := by
      rw [joined, List.cons_append, Library.Joined.join_cons field (by simp), joined]
    have hFind : find [space] (field ++ space :: joined front path) = some field.length := by
      rw [find_skip hField, find_of_startsWith (by simp)]
      simp
    have hDrop : (field ++ space :: joined front path).drop (field.length + 1) = joined front path := by
      rw [← List.drop_drop, List.drop_left]
      rfl
    rw [hJoin, List.length_cons, splitFieldsMax]
    simp only [hFind]
    rw [List.take_left, hDrop, ih (fun other hOther => hFront other (List.mem_cons_of_mem _ hOther))]
    rfl

theorem joined_front (type : Bytes) (front : List Bytes) (path : Bytes) :
    joined (type :: front) path = type ++ space :: joined front path := by
  rw [joined, List.cons_append, Library.Joined.join_cons type (by simp), joined]

theorem not_mem_joined {b : UInt8} (hb : b ≠ space) {front : List Bytes}
    (hFront : ∀ field ∈ front, b ∉ field) {path : Bytes} (hPath : b ∉ path) : b ∉ joined front path := by
  induction front with
  | nil => simpa [joined, List.intercalate] using hPath
  | cons field front ih =>
    rw [joined_front, List.mem_append, List.mem_cons, not_or, not_or]
    exact ⟨hFront field List.mem_cons_self, hb, ih fun other hOther => hFront other (List.mem_cons_of_mem _ hOther)⟩

theorem plain_codes (x y : Option ChangeCode) : Plain [codeLetter x, codeLetter y] := by
  have hLetter (code : Option ChangeCode) : codeLetter code ≠ space ∧ codeLetter code ≠ NUL := by
    rcases code with _ | code
    · decide
    · cases code <;> decide
  obtain ⟨hxSpace, hxNul⟩ := hLetter x
  obtain ⟨hySpace, hyNul⟩ := hLetter y
  constructor
  · simp [hxSpace.symm, hySpace.symm]
  · simp [hxNul.symm, hyNul.symm]

theorem plain_submoduleField (state : Option SubmoduleState) : Plain (submoduleField state) := by
  rcases state with _ | ⟨commitChanged, modified, untracked⟩
  · exact ⟨by decide, by decide⟩
  · cases commitChanged <;> cases modified <;> cases untracked <;> exact ⟨by decide, by decide⟩

theorem plain_scoreField (copied : Bool) (score : Nat) : Plain (scoreField copied score) := by
  have hLetter : space ≠ (if copied then 67 else 82 : UInt8) ∧ NUL ≠ (if copied then 67 else 82 : UInt8) := by
    cases copied <;> decide
  constructor
  · exact List.not_mem_cons_of_ne_of_not_mem hLetter.1 (Library.Decimal.not_mem_numeral score (by decide))
  · exact List.not_mem_cons_of_ne_of_not_mem hLetter.2 (Library.Decimal.not_mem_numeral score (by decide))

theorem plain_stageHash (hexSize : Nat) {hash : Option Bytes} (h : StageHash hash) :
    Plain (stageHash hexSize hash) := by
  cases hash with
  | none =>
    constructor
    · exact fun hMem => absurd (List.eq_of_mem_replicate hMem) (by decide)
    · exact fun hMem => absurd (List.eq_of_mem_replicate hMem) (by decide)
  | some hash => exact (h hash rfl).1

theorem ChangedFields.plain_front {fields : ChangedFields} (h : fields.WellFormed) {type : Bytes}
    (hType : Plain type) : ∀ field ∈ fields.front type, Plain field := by
  simp only [ChangedFields.front, List.forall_mem_cons]
  exact ⟨hType, plain_codes _ _, plain_submoduleField _, h.headMode, h.indexMode, h.worktreeMode, h.headHash,
    h.indexHash, List.forall_mem_nil _⟩

theorem UnmergedFields.plain_front (hexSize : Nat) {fields : UnmergedFields} (h : fields.WellFormed) :
    ∀ field ∈ fields.front hexSize, Plain field := by
  have hCode : Plain fields.code.letters := by
    cases fields.code <;> exact ⟨by decide, by decide⟩
  simp only [UnmergedFields.front, List.forall_mem_cons]
  exact ⟨⟨by decide, by decide⟩, hCode, plain_submoduleField _, h.ancestorMode, h.oursMode, h.theirsMode,
    h.worktreeMode, plain_stageHash _ h.ancestor, plain_stageHash _ h.ours, plain_stageHash _ h.theirs,
    List.forall_mem_nil _⟩

theorem isSubmoduleField_submoduleField (state : Option SubmoduleState) :
    isSubmoduleField (submoduleField state) = state.isSome := by
  cases state with
  | none => rfl
  | some state => rfl

theorem code_status (code : Option ChangeCode) :
    (codeLetter code != 46) = code.isSome ∧
    (if code.isSome then kindForCode (codeLetter code) else .modified) =
      (code.map ChangeCode.kind).getD .modified := by
  rcases code with _ | code
  · decide
  · cases code <;> decide

theorem changedEntry_front (fields : ChangedFields) (type : Bytes) (more : List Bytes) :
    changedEntry (fields.front type ++ (more ++ [fields.path])) = fields.entry := by
  obtain ⟨hx, hxKind⟩ := code_status fields.x
  obtain ⟨hy, hyKind⟩ := code_status fields.y
  have hPath : (fields.front type ++ (more ++ [fields.path])).getLastD [] = fields.path := by
    rw [← List.append_assoc, List.getLastD_concat]
  rw [changedEntry, hPath]
  simp only [ChangedFields.front, List.cons_append, List.getD_cons_succ, List.getD_cons_zero,
    isSubmoduleField_submoduleField, hx, hxKind, hy, hyKind, ChangedFields.entry]

theorem blobOrEmpty_stageHash (hexSize : Nat) {hash : Option Bytes} (h : StageHash hash) :
    blobOrEmpty (stageHash hexSize hash) = hash.getD [] := by
  cases hash with
  | none => simp [blobOrEmpty, stageHash]
  | some hash =>
    obtain ⟨digit, hMem, hDigit⟩ := (h hash rfl).2
    have hNot : ¬ (hash.all (· == 48)) = true := by
      intro hAll
      exact hDigit (beq_iff_eq.mp (List.all_eq_true.mp hAll digit hMem))
    exact if_neg hNot

theorem unmergedEntry_front (hexSize : Nat) {fields : UnmergedFields} (h : fields.WellFormed) :
    unmergedEntry (fields.front hexSize ++ [fields.path]) = fields.entry := by
  have hCode : conflictForXY (fields.code.letters.getD 0 63) (fields.code.letters.getD 1 63) =
      fields.code.kind := by
    cases fields.code <;> decide
  simp only [unmergedEntry, UnmergedFields.front, List.cons_append, List.getD_cons_succ, List.getD_cons_zero,
    isSubmoduleField_submoduleField, hCode, blobOrEmpty_stageHash _ h.ancestor,
    blobOrEmpty_stageHash _ h.ours, blobOrEmpty_stageHash _ h.theirs, UnmergedFields.entry]
  rfl

theorem parseScore_scoreField (copied : Bool) {score : Nat} (h : score < 2 ^ 31) :
    parseScore (scoreField copied score) = Int32.ofNat score := by
  have hDigits : (scoreField copied score).dropWhile (fun b => !Library.Decimal.isDigit b) =
      Library.Decimal.numeral score := by
    have hLetter : Library.Decimal.isDigit (if copied then 67 else 82) = false := by cases copied <;> decide
    rw [scoreField, List.dropWhile_cons_of_pos (by rw [hLetter]; rfl), List.dropWhile_eq_self_iff]
    intro hLength
    rw [Library.Decimal.isDigit_of_mem_numeral (List.getElem_mem hLength)]
    decide
  have hRead := Library.Decimal.read_numeral score (fun b (hb : b ∈ ([] : Bytes).head?) => by cases hb)
  rw [List.append_nil] at hRead
  rw [parseScore, hDigits, hRead]
  exact if_pos h

theorem head?_joined (type : UInt8) (front : List Bytes) (path : Bytes) :
    (joined ([type] :: front) path).head? = some type := by
  rw [joined_front]
  rfl

theorem parse_ordinary {fields : ChangedFields} (h : fields.WellFormed) (rest : List Bytes) :
    parsePorcelainV2Records (joined (fields.front (ascii "1")) fields.path :: rest) =
      fields.entry :: parsePorcelainV2Records rest := by
  have hPlain := ChangedFields.plain_front h (⟨by decide, by decide⟩ : Plain (ascii "1"))
  have hSplit := splitFieldsMax_joined (fun field hField => (hPlain field hField).1) fields.path
  have hHead : (joined (fields.front (ascii "1")) fields.path).head? = some 49 := head?_joined _ _ _
  have hLength : (fields.front (ascii "1")).length + 1 = 9 := rfl
  rw [hLength] at hSplit
  rw [parsePorcelainV2Records, if_pos hHead, hSplit]
  exact congrArg (· :: _) (changedEntry_front fields (ascii "1") [])

theorem parse_renamed {fields : ChangedFields} (h : fields.WellFormed) (copied : Bool) {score : Nat}
    (hScore : score < 2 ^ 31) (oldPath : Bytes) (rest : List Bytes) :
    parsePorcelainV2Records
        (joined (fields.front (ascii "2") ++ [scoreField copied score]) fields.path :: oldPath :: rest) =
      { fields.entry with similarity := Int32.ofNat score, oldPath } :: parsePorcelainV2Records rest := by
  have hPlain := ChangedFields.plain_front h (⟨by decide, by decide⟩ : Plain (ascii "2"))
  have hSpace : ∀ field ∈ fields.front (ascii "2") ++ [scoreField copied score], space ∉ field := by
    rw [List.forall_mem_append]
    exact ⟨fun field hField => (hPlain field hField).1, by simpa using (plain_scoreField copied score).1⟩
  have hSplit := splitFieldsMax_joined hSpace fields.path
  have hHead : (joined (fields.front (ascii "2") ++ [scoreField copied score]) fields.path).head? = some 50 :=
    head?_joined _ _ _
  have hLength : (fields.front (ascii "2") ++ [scoreField copied score]).length + 1 = 10 := rfl
  have hEntry := changedEntry_front fields (ascii "2") [scoreField copied score]
  have hSimilarity := parseScore_scoreField copied hScore
  rw [hLength] at hSplit
  rw [parsePorcelainV2Records, hHead, if_neg (by decide), if_pos rfl, hSplit]
  exact congrArg₂ (fun (entry : WorkingCopyEntry) similarity =>
    { entry with similarity, oldPath } :: parsePorcelainV2Records rest) hEntry hSimilarity

theorem parse_unmerged (hexSize : Nat) {fields : UnmergedFields} (h : fields.WellFormed) (rest : List Bytes) :
    parsePorcelainV2Records (joined (fields.front hexSize) fields.path :: rest) =
      fields.entry :: parsePorcelainV2Records rest := by
  have hPlain := UnmergedFields.plain_front hexSize h
  have hSplit := splitFieldsMax_joined (fun field hField => (hPlain field hField).1) fields.path
  have hHead : (joined (fields.front hexSize) fields.path).head? = some 117 := head?_joined _ _ _
  have hLength : (fields.front hexSize).length + 1 = 11 := rfl
  rw [hLength] at hSplit
  rw [parsePorcelainV2Records, hHead, if_neg (by decide), if_neg (by decide), if_pos rfl, hSplit]
  exact congrArg (· :: _) (unmergedEntry_front hexSize h)

theorem parse_untracked (path : Bytes) (rest : List Bytes) :
    parsePorcelainV2Records (joined [ascii "?"] path :: rest) =
      { path, untracked := true } :: parsePorcelainV2Records rest := by
  have hHead : (joined [ascii "?"] path).head? = some 63 := head?_joined _ _ _
  have hRecord : joined [ascii "?"] path = 63 :: space :: path := by
    rw [joined_front]
    simp [joined, List.intercalate, ascii]
  rw [parsePorcelainV2Records, hHead, if_neg (by decide), if_neg (by decide), if_neg (by decide), if_pos rfl,
    hRecord]
  rfl

theorem parse_entry (hexSize : Nat) {entry : StatusEntry} (h : entry.WellFormed) (rest : List Bytes) :
    parsePorcelainV2Records (entry.records hexSize ++ rest) = entry.entry :: parsePorcelainV2Records rest := by
  cases entry with
  | ordinary fields => exact parse_ordinary h rest
  | renamed fields copied score oldPath => exact parse_renamed h.1 copied h.2.1 oldPath rest
  | unmerged fields => exact parse_unmerged hexSize h rest
  | untracked path => exact parse_untracked path rest

theorem parse_entries (hexSize : Nat) {entries : List StatusEntry} (h : ∀ entry ∈ entries, entry.WellFormed) :
    parsePorcelainV2Records (entries.flatMap (StatusEntry.records hexSize)) = entries.map StatusEntry.entry := by
  induction entries with
  | nil => rfl
  | cons entry entries ih =>
    rw [List.flatMap_cons, parse_entry hexSize (h entry List.mem_cons_self),
      ih (fun other hOther => h other (List.mem_cons_of_mem _ hOther))]
    rfl

theorem nul_not_mem_records (hexSize : Nat) {entry : StatusEntry} (h : entry.WellFormed) :
    ∀ record ∈ entry.records hexSize, NUL ∉ record := by
  have hType (type : Bytes) (hPlain : Plain type) {fields : ChangedFields} (hFields : fields.WellFormed) :
      ∀ field ∈ fields.front type, NUL ∉ field :=
    fun field hField => (ChangedFields.plain_front hFields hPlain field hField).2
  cases entry with
  | ordinary fields =>
    refine List.forall_mem_singleton.mpr (not_mem_joined (by decide) ?_ h.path.2)
    exact hType _ ⟨by decide, by decide⟩ h
  | renamed fields copied score oldPath =>
    refine List.forall_mem_cons.mpr ⟨not_mem_joined (by decide) ?_ h.1.path.2, ?_⟩
    · rw [List.forall_mem_append]
      exact ⟨hType _ ⟨by decide, by decide⟩ h.1, by simpa using (plain_scoreField copied score).2⟩
    · exact List.forall_mem_singleton.mpr h.2.2.2
  | unmerged fields =>
    refine List.forall_mem_singleton.mpr (not_mem_joined (by decide) ?_ h.path.2)
    exact fun field hField => (UnmergedFields.plain_front hexSize h field hField).2
  | untracked path =>
    exact List.forall_mem_singleton.mpr (not_mem_joined (by decide) (by decide) h.2)

theorem code_inj {code other : Option ChangeCode} (hChanged : code.isSome = other.isSome)
    (hKind : (code.map ChangeCode.kind).getD .modified = (other.map ChangeCode.kind).getD .modified) :
    code = other := by
  rcases code with _ | code <;> rcases other with _ | other
  · rfl
  · cases hChanged
  · cases hChanged
  · congr 1
    cases code <;> cases other <;> first | rfl | cases hKind

theorem ChangedFields.entry_inj {fields other : ChangedFields} (h : fields.entry.path = other.entry.path)
    (hStaged : fields.entry.staged = other.entry.staged)
    (hIndex : fields.entry.indexStatus = other.entry.indexStatus)
    (hUnstaged : fields.entry.hasUnstagedChange = other.entry.hasUnstagedChange)
    (hWorktree : fields.entry.worktreeStatus = other.entry.worktreeStatus) :
    fields.x = other.x ∧ fields.y = other.y ∧ fields.path = other.path :=
  ⟨code_inj hStaged hIndex, code_inj hUnstaged hWorktree, h⟩

/-- The parsed entry still tells the kind, the codes and the paths of the printed one. -/
theorem codes_of_entry_eq {entry other : StatusEntry} (h : entry.WellFormed) (h' : other.WellFormed)
    (hEntry : entry.entry = other.entry) : entry.codes = other.codes := by
  have hPath := congrArg WorkingCopyEntry.path hEntry
  have hOldPath := congrArg WorkingCopyEntry.oldPath hEntry
  have hUntracked := congrArg WorkingCopyEntry.untracked hEntry
  have hStaged := congrArg WorkingCopyEntry.staged hEntry
  have hIndex := congrArg WorkingCopyEntry.indexStatus hEntry
  have hUnstaged := congrArg WorkingCopyEntry.hasUnstagedChange hEntry
  have hWorktree := congrArg WorkingCopyEntry.worktreeStatus hEntry
  have hConflict := congrArg WorkingCopyEntry.conflict hEntry
  have hKind (code : UnmergedCode) : code.kind ≠ .none := by cases code <;> decide
  rcases entry with fields | ⟨fields, copied, score, oldPath⟩ | fields | path <;>
    rcases other with fields' | ⟨fields', copied', score', oldPath'⟩ | fields' | path'
  case ordinary.ordinary =>
    obtain ⟨hx, hy, hSame⟩ := ChangedFields.entry_inj hPath hStaged hIndex hUnstaged hWorktree
    rw [StatusEntry.codes, StatusEntry.codes, hx, hy, hSame]
  case renamed.renamed =>
    obtain ⟨hx, hy, hSame⟩ := ChangedFields.entry_inj hPath hStaged hIndex hUnstaged hWorktree
    obtain rfl : oldPath = oldPath' := hOldPath
    rw [StatusEntry.codes, StatusEntry.codes, hx, hy, hSame]
  case unmerged.unmerged =>
    have hCode : fields.code = fields'.code := by
      have hSame : fields.code.kind = fields'.code.kind := hConflict
      revert hSame
      cases fields.code <;> cases fields'.code <;> decide
    have hSamePath : fields.path = fields'.path := hPath
    rw [StatusEntry.codes, StatusEntry.codes, hCode, hSamePath]
  case untracked.untracked => exact congrArg StatusCodes.untracked hPath
  case ordinary.renamed => exact absurd hOldPath.symm h'.2.2.1
  case renamed.ordinary => exact absurd hOldPath h.2.2.1
  case ordinary.unmerged => exact absurd hConflict.symm (hKind _)
  case renamed.unmerged => exact absurd hConflict.symm (hKind _)
  case unmerged.ordinary => exact absurd hConflict (hKind _)
  case unmerged.renamed => exact absurd hConflict (hKind _)
  case unmerged.untracked => exact absurd hConflict (hKind _)
  case untracked.unmerged => exact absurd hConflict.symm (hKind _)
  all_goals cases hUntracked

theorem codes_of_entries_eq {entries other : List StatusEntry} (h : ∀ entry ∈ entries, entry.WellFormed)
    (hOther : ∀ entry ∈ other, entry.WellFormed)
    (hRead : other.map StatusEntry.entry = entries.map StatusEntry.entry) :
    other.map StatusEntry.codes = entries.map StatusEntry.codes := by
  induction entries generalizing other with
  | nil =>
    obtain rfl := List.map_eq_nil_iff.mp hRead
    rfl
  | cons entry entries ih =>
    obtain ⟨first, others, rfl, hFirst, hOthers⟩ := List.map_eq_cons_iff.mp hRead
    have hHead := codes_of_entry_eq (hOther first List.mem_cons_self) (h entry List.mem_cons_self) hFirst
    have hTail := ih (fun e he => h e (List.mem_cons_of_mem _ he))
      (fun e he => hOther e (List.mem_cons_of_mem _ he)) hOthers
    rw [List.map_cons, List.map_cons, hHead, hTail]

/-- However the printed records are chopped into chunks, the entries are read back in their
order, and no two lists of entries that are read alike differ in kinds, codes or paths. -/
theorem porcelain_round_trip {hexSize : Nat} {entries : List StatusEntry} {chunks : List Bytes}
    (h : ∀ entry ∈ entries, entry.WellFormed)
    (hChunks : chunks.flatten =
      Library.Lines.join NUL (entries.flatMap (StatusEntry.records hexSize))) :
    parsePorcelainV2Records (LineSplitter.records NUL chunks) = entries.map StatusEntry.entry ∧
    ∀ other : List StatusEntry, (∀ entry ∈ other, entry.WellFormed) →
      other.map StatusEntry.entry = parsePorcelainV2Records (LineSplitter.records NUL chunks) →
      other.map StatusEntry.codes = entries.map StatusEntry.codes := by
  have hFree : ∀ record ∈ entries.flatMap (StatusEntry.records hexSize), NUL ∉ record := by
    intro record hRecord
    obtain ⟨entry, hEntry, hMem⟩ := List.mem_flatMap.mp hRecord
    exact nul_not_mem_records hexSize (h entry hEntry) record hMem
  have hParsed : parsePorcelainV2Records (LineSplitter.records NUL chunks) = entries.map StatusEntry.entry := by
    rw [LineSplitter.records_nul hFree hChunks, parse_entries hexSize h]
  refine ⟨hParsed, ?_⟩
  intro other hOther hRead
  rw [hParsed] at hRead
  exact codes_of_entries_eq h hOther hRead

/-- A path with spaces, a rename and a path that looks like a header, in chunks that end
inside of records. -/
def printedEntries : List StatusEntry :=
  [.renamed
      { x := some .renamed, y := none, headMode := ascii "100644", indexMode := ascii "100644"
        worktreeMode := ascii "100644", headHash := ascii "1a", indexHash := ascii "2b"
        path := ascii "new name" }
      false 97 (ascii "1 old"),
    .untracked (ascii "? # 2")]

def printedChunks : List Bytes :=
  [ascii "2 R. N... 100644 100644 100644 1a 2b R97 new ", ascii "name" ++ [NUL] ++ ascii "1 o",
    ascii "ld" ++ [NUL] ++ ascii "? ? # 2" ++ [NUL]]

theorem porcelain_round_trip_printed :
    parsePorcelainV2Records (LineSplitter.records NUL printedChunks) =
      printedEntries.map StatusEntry.entry := by
  refine (@porcelain_round_trip 40 _ _ ?_ (by decide)).1
  have hPlain : Plain (ascii "100644") ∧ Plain (ascii "1a") ∧ Plain (ascii "2b") := by
    simp only [Plain]
    decide
  obtain ⟨hMode, hHead, hIndex⟩ := hPlain
  rw [printedEntries, List.forall_mem_cons, List.forall_mem_singleton]
  refine ⟨⟨⟨hMode, hMode, hMode, hHead, hIndex, ?_⟩, by decide, ?_⟩, ?_⟩
  · exact ⟨by decide, by decide⟩
  · exact ⟨by decide, by decide⟩
  · exact ⟨by decide, by decide⟩

end WorkingCopyStatusReader

end GitBranchManager
