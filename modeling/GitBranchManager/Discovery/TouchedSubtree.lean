import GitBranchManager.Library.Like

/-! # The index of repositories

A row is seen when a scan finds its repository, or skips a directory that its path begins with.
The sweep at the end of a scan marks the rows of its base folder that it has not seen.
-/

namespace GitBranchManager

open Library

/-- UTF-8 text, by its characters. -/
abbrev Text := List Char

structure RepoRecord where
  baseFolderId : Int
  workDir : Text
  gitDir : Text
  lastSeenGeneration : Int := 0
  missingSince : Option Int := none
  deriving DecidableEq, Repr

namespace RepoIndexDb

def sameRow (record row : RepoRecord) : Bool := row.gitDir == record.gitDir && row.workDir == record.workDir

/-- A row that is there comes back to `record`'s base folder, and is not missing any more. -/
def upsertRepo (rows : List RepoRecord) (record : RepoRecord) : List RepoRecord :=
  if rows.any (sameRow record) then
    rows.map fun row => if sameRow record row then { record with missingSince := none } else row
  else rows ++ [{ record with missingSince := none }]

def likePattern (pathPrefix : Text) : Text := Like.quote '\\' pathPrefix ++ ['%']

def touchReposUnder (rows : List RepoRecord) (baseFolderId : Int) (pathPrefix : Text) (generation : Int) :
    List RepoRecord :=
  rows.map fun row =>
    if row.baseFolderId = baseFolderId ∧
        (Like.like '\\' (likePattern pathPrefix) row.workDir || Like.like '\\' (likePattern pathPrefix) row.gitDir) then
      { row with lastSeenGeneration := generation }
    else row

def markMissing (rows : List RepoRecord) (baseFolderId generation now : Int) : List RepoRecord :=
  rows.map fun row =>
    if row.baseFolderId = baseFolderId ∧ row.lastSeenGeneration < generation ∧ row.missingSince = none then
      { row with missingSince := some now }
    else row

end RepoIndexDb

end GitBranchManager

/-! ## The rows that a skipped directory touches

The pattern stands for a path's beginning, where a subtree is meant.
-/

namespace GitBranchManager

open Library

/-- `path` is `directory` itself, or goes on after it with a separator. -/
def Below (isSeparator : Char → Bool) (directory path : Text) : Prop :=
  path = directory ∨ ∃ separator rest, isSeparator separator = true ∧ path = directory ++ separator :: rest

theorem below_iff {isSeparator : Char → Bool} {directory path : Text} :
    Below isSeparator directory path ↔
      directory <+: path ∧ (path.drop directory.length).head?.all isSeparator = true := by
  constructor
  · rintro (rfl | ⟨separator, rest, hSeparator, rfl⟩)
    · simp
    · simp [hSeparator]
  · rintro ⟨⟨rest, rfl⟩, hNext⟩
    rw [List.drop_left] at hNext
    cases rest with
    | nil => exact .inl (List.append_nil _)
    | cons separator rest => exact .inr ⟨separator, rest, hNext, rfl⟩

instance (isSeparator : Char → Bool) (directory path : Text) : Decidable (Below isSeparator directory path) :=
  decidable_of_iff _ below_iff.symm

theorem Below.beginsWith {isSeparator : Char → Bool} {directory path : Text} (h : Below isSeparator directory path) :
    Like.BeginsWith directory path :=
  (below_iff.mp h).1.map _

namespace RepoIndexDb

/-- Exactly the rows of the base folder that are at or below the directory are touched. -/
def TouchesSubtree (isSeparator : Char → Bool) (rows : List RepoRecord) (baseFolderId : Int) (directory : Text)
    (generation : Int) : Prop :=
  touchReposUnder rows baseFolderId directory generation = rows.map fun row =>
    if row.baseFolderId = baseFolderId ∧
        (Below isSeparator directory row.workDir ∨ Below isSeparator directory row.gitDir) then
      { row with lastSeenGeneration := generation }
    else row

/-- The pattern matches the rows whose paths the directory's path begins, the case of ASCII letters
left out. -/
theorem touchReposUnder_eq (rows : List RepoRecord) (baseFolderId : Int) (directory : Text) (generation : Int) :
    touchReposUnder rows baseFolderId directory generation = rows.map fun row =>
      if row.baseFolderId = baseFolderId ∧
          (Like.BeginsWith directory row.workDir ∨ Like.BeginsWith directory row.gitDir) then
        { row with lastSeenGeneration := generation }
      else row := by
  refine List.map_congr_left fun row _ => ?_
  simp only [Bool.or_eq_true, likePattern, Like.like_quote (show '\\' ≠ '%' by decide)]

theorem touched_eq_iff (row : RepoRecord) (generation : Int) :
    ({ row with lastSeenGeneration := generation } : RepoRecord) = row ↔ row.lastSeenGeneration = generation := by
  constructor
  · intro hSame
    exact (congrArg RepoRecord.lastSeenGeneration hSame).symm
  · rintro rfl
    rfl

/-- The subtree alone is touched exactly when each row of the base folder that is begun by the
directory's path, the case of ASCII letters left out, is at or below the directory. -/
theorem touches_subtree_iff (isSeparator : Char → Bool) (rows : List RepoRecord) (baseFolderId : Int) (directory : Text)
    (generation : Int) :
    TouchesSubtree isSeparator rows baseFolderId directory generation ↔
      ∀ row ∈ rows, row.baseFolderId = baseFolderId → row.lastSeenGeneration ≠ generation →
        Like.BeginsWith directory row.workDir ∨ Like.BeginsWith directory row.gitDir →
        Below isSeparator directory row.workDir ∨ Below isSeparator directory row.gitDir := by
  rw [TouchesSubtree, touchReposUnder_eq, List.map_inj_left]
  refine forall₂_congr fun row _ => ?_
  by_cases hBase : row.baseFolderId = baseFolderId
  · subst hBase
    by_cases hBelow : Below isSeparator directory row.workDir ∨ Below isSeparator directory row.gitDir
    · have hBegins := hBelow.imp Below.beginsWith Below.beginsWith
      simp [hBelow, hBegins]
    · by_cases hBegins : Like.BeginsWith directory row.workDir ∨ Like.BeginsWith directory row.gitDir
      · rw [if_pos ⟨rfl, hBegins⟩, if_neg fun hBoth => hBelow hBoth.2, touched_eq_iff]
        simp [hBegins, hBelow]
      · simp [hBelow, hBegins]
  · simp [hBase]

def isSlash (c : Char) : Bool := c = '/'

/-- Beside a directory that is skipped there is another whose name goes on after its own. -/
theorem sibling_touched : ¬ ∀ (isSeparator : Char → Bool) (rows : List RepoRecord) (baseFolderId : Int)
    (directory : Text) (generation : Int), TouchesSubtree isSeparator rows baseFolderId directory generation := by
  intro h
  have hTouched :=
    h isSlash [{ baseFolderId := 1, workDir := ['/', 'a', 'b'], gitDir := ['/', 'a', 'b'] }] 1 ['/', 'a'] 2
  rw [TouchesSubtree, touchReposUnder_eq, List.map_inj_left] at hTouched
  have hRow := congrArg RepoRecord.lastSeenGeneration (hTouched _ (List.mem_singleton_self _))
  exact absurd hRow (by decide)

end RepoIndexDb

end GitBranchManager
