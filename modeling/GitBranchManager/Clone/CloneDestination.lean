import GitBranchManager.Base.GitError
import GitBranchManager.Library.FileTree

/-! # The destination of a clone

Whether a cancelled clone may remove anything is decided before git runs, from what is at the
destination then. The removal looks again, and leaves everything as it is where the destination is
no directory, its folder is another one, or the directory that was there is another one. What is
in the destination by then goes, whoever made it.
-/

namespace GitBranchManager

open Library

inductive FileMaker
  | git
  | other
  deriving DecidableEq

abbrev Files := FileTree Bytes FileMaker

/-- An absolute, normalised path that is no root. -/
structure DestinationPath where
  parent : List Bytes
  name : Bytes
  deriving DecidableEq

namespace DestinationPath

variable (path : DestinationPath)

def folder : List (PathPart Bytes) := path.parent.map .entry

def parts : List (PathPart Bytes) := path.folder ++ [.entry path.name]

def shown : Bytes := (path.parent ++ [path.name]).flatMap fun part => ascii "/" ++ part

end DestinationPath

/-- Which calls fail, otherwise than by finding nothing. `listing` is after how many entries. -/
structure FileFaults where
  status : Bool := false
  isEmpty : Bool := false
  listing : Option (Nat × Bytes) := none
  remove : Nat → Option Bytes := fun _ => none
  lastStatus : Bool := false

/-- A path whose status cannot be read does not exist for `exists`. -/
def symlinkStatus (fails : Bool) (links : Nat) (files : Files) (path : DestinationPath) : Option Nat :=
  if fails then none else files.resolve false links 0 path.parts

def fileIdOf (links : Nat) (files : Files) (path : DestinationPath) : Option Nat :=
  files.resolve false links 0 path.parts

def resolvedDirId (links : Nat) (files : Files) (path : List (PathPart Bytes)) : Option Nat :=
  files.resolve true links 0 path

structure CloneDestination where
  path : DestinationPath
  owned : Bool := false
  preexisted : Bool := false
  dirId : Option Nat := none
  parentId : Option Nat := none

namespace CloneDestination

structure Removal where
  removedPath : Option DestinationPath := none
  error : Option Bytes := none

def claim (links : Nat) (faults : FileFaults) (files : Files) (path : DestinationPath) : CloneDestination :=
  let parentId := resolvedDirId links files path.folder
  match symlinkStatus faults.status links files path with
  | none => { path, owned := true, parentId }
  | some id =>
    if files.isDir id && (files.children id).isEmpty && !faults.isEmpty then
      { path, owned := true, preexisted := true, dirId := fileIdOf links files path, parentId }
    else { path, parentId }

/-- Every entry is tried; the first error is kept. -/
def removeEntries (fails : Nat → Option Bytes) : List Nat → Files → Files × Option Bytes
  | [], files => (files, none)
  | entry :: entries, files =>
    let one := files.removeAll fails entry
    let others := removeEntries fails entries one.1
    (others.1, one.2 <|> others.2)

/-- The directory stays. -/
def removeInside (faults : FileFaults) (files : Files) (dir : Nat) : Files × Option Bytes :=
  let listed := faults.listing.elim (files.children dir) fun stop => (files.children dir).take stop.1
  let removed := removeEntries faults.remove listed files
  (removed.1, removed.2 <|> faults.listing.map Prod.snd)

variable (destination : CloneDestination)

def leftAsItIs (before after : Bytes) (files : Files) : Removal × Files :=
  ({ error := some (before ++ destination.path.shown ++ after ++ ascii "; it was left as it is") }, files)

def removeFound (faults : FileFaults) (files : Files) (dir : Nat) : Files × Option Bytes :=
  if destination.preexisted then removeInside faults files dir else files.removeAll faults.remove dir

def removeUnfinished (links : Nat) (faults : FileFaults) (files : Files) : Removal × Files :=
  let path := destination.path
  if !destination.owned then ({}, files)
  else
    match symlinkStatus faults.status links files path with
    | none => ({ removedPath := some path }, files)
    | some id =>
      if !files.isDir id then destination.leftAsItIs [] (ascii " is no longer a directory") files
      else if destination.parentId ≠ resolvedDirId links files path.folder then
        destination.leftAsItIs (ascii "The folder holding ") (ascii " changed") files
      else if destination.preexisted ∧ fileIdOf links files path ≠ destination.dirId then
        destination.leftAsItIs [] (ascii " was replaced") files
      else
        let removed := destination.removeFound faults files id
        let clean :=
          if destination.preexisted then (removed.1.children id).isEmpty && !faults.isEmpty
          else (symlinkStatus faults.lastStatus links removed.1 path).isNone
        if clean then ({ removedPath := some path }, removed.1)
        else
          let why := removed.2.elim [] fun error => ascii ": " ++ error
          ({ error := some (ascii "Could not remove everything in " ++ path.shown ++ why) }, removed.1)

structure CloneFinished where
  ok : Bool
  error : Option GitError
  removedPath : Option DestinationPath
  removalError : Option Bytes
  destPath : DestinationPath

/-- Only a cancel removes anything. -/
def emitFinished (links : Nat) (faults : FileFaults) (result : GitResult Unit) (files : Files) :
    CloneFinished × Files :=
  let error := match result with
    | .ok _ => none
    | .error error => some error
  let cleanup :=
    if error.map GitError.code = some .cancelled then destination.removeUnfinished links faults files
    else ({}, files)
  ({ ok := error.isNone
     error
     removedPath := cleanup.1.removedPath
     removalError := cleanup.1.error
     destPath := destination.path }, cleanup.2)

/-! ## What the removal takes -/

section Removal

variable {links : Nat} {faults : FileFaults} {files : Files} {path : DestinationPath}

theorem nodes_removeEntries (fails : Nat → Option Bytes) (entries : List Nat) (files : Files) :
    (removeEntries fails entries files).1.nodes.Sublist files.nodes := by
  induction entries generalizing files with
  | nil => exact List.Sublist.refl _
  | cons entry entries ih => exact (ih _).trans (FileTree.nodes_removeAll entry)

theorem reaches_of_removedEntry {fails : Nat → Option Bytes} {entries : List Nat} {node : FileNode Bytes FileMaker}
    (hNode : node ∈ files.nodes) (hGone : node ∉ (removeEntries fails entries files).1.nodes) :
    ∃ entry ∈ entries, files.Reaches entry node.id := by
  induction entries generalizing files with
  | nil => exact absurd hNode hGone
  | cons entry entries ih =>
    by_cases hKept : node ∈ (files.removeAll fails entry).1.nodes
    · obtain ⟨later, hLater, hWay⟩ := ih hKept hGone
      exact ⟨later, List.mem_cons_of_mem _ hLater, FileTree.reaches_of_without hWay⟩
    · exact ⟨entry, List.mem_cons_self, FileTree.reaches_of_removed hNode hKept⟩

theorem nodes_removeInside (dir : Nat) : (removeInside faults files dir).1.nodes.Sublist files.nodes :=
  nodes_removeEntries _ _ _

theorem below_of_removedInside {dir : Nat} {node : FileNode Bytes FileMaker} (hNode : node ∈ files.nodes)
    (hGone : node ∉ (removeInside faults files dir).1.nodes) : Relation.TransGen files.Holds dir node.id := by
  obtain ⟨entry, hEntry, hWay⟩ := reaches_of_removedEntry hNode hGone
  have hChild : entry ∈ files.children dir := by
    cases hListing : faults.listing with
    | none => simpa [hListing] using hEntry
    | some stop => exact List.mem_of_mem_take (by simpa [hListing] using hEntry)
  exact Relation.TransGen.head' (FileTree.mem_children.mp hChild) hWay

/-- What holds where the removal goes on. -/
structure Found (links : Nat) (files : Files) (dir : Nat) : Prop where
  owned : destination.owned = true
  found : fileIdOf links files destination.path = some dir
  isDir : files.isDir dir = true
  parent : destination.parentId = resolvedDirId links files destination.path.folder
  same : destination.preexisted = true → destination.dirId = some dir

variable {destination}

theorem removeUnfinished_cases :
    (destination.removeUnfinished links faults files).2 = files ∨
    ∃ dir, destination.Found links files dir ∧
      (destination.removeUnfinished links faults files).2 = (destination.removeFound faults files dir).1 := by
  unfold removeUnfinished
  by_cases hOwned : destination.owned = true
  case neg => simp [hOwned]
  cases hStatus : symlinkStatus faults.status links files destination.path with
  | none => simp [hOwned, hStatus]
  | some dir =>
    have hFound : fileIdOf links files destination.path = some dir := by
      unfold symlinkStatus at hStatus
      split at hStatus
      · cases hStatus
      · exact hStatus
    by_cases hDir : files.isDir dir = true
    case neg => simp [hOwned, hStatus, hDir, leftAsItIs]
    by_cases hParent : destination.parentId = resolvedDirId links files destination.path.folder
    case neg => simp [hOwned, hStatus, hDir, hParent, leftAsItIs]
    by_cases hReplaced : destination.preexisted ∧ fileIdOf links files destination.path ≠ destination.dirId
    · simp [hOwned, hStatus, hDir, hParent, hReplaced, leftAsItIs]
    · refine .inr ⟨dir, ⟨hOwned, hFound, hDir, hParent, fun hPre => ?_⟩, ?_⟩
      · by_contra hOther
        exact hReplaced ⟨hPre, fun hSame => hOther (hSame ▸ hFound)⟩
      · simp only [hOwned, hStatus, hDir, hParent, hReplaced, Bool.not_true, Bool.false_eq_true, if_false, ne_eq,
          not_true_eq_false]
        split <;> split <;> rfl

theorem nodes_removeFound (dir : Nat) : (destination.removeFound faults files dir).1.nodes.Sublist files.nodes := by
  unfold removeFound
  split
  · exact nodes_removeInside dir
  · exact FileTree.nodes_removeAll dir

/-- The directory that was there is not removed itself. -/
theorem reaches_of_removedFound {dir : Nat} {node : FileNode Bytes FileMaker} (hNode : node ∈ files.nodes)
    (hGone : node ∉ (destination.removeFound faults files dir).1.nodes) :
    files.Reaches dir node.id ∧ (destination.preexisted = true → Relation.TransGen files.Holds dir node.id) := by
  unfold removeFound at hGone
  split at hGone
  next hPre =>
    have hBelow := below_of_removedInside hNode hGone
    exact ⟨hBelow.to_reflTransGen, fun _ => hBelow⟩
  next hNew => exact ⟨FileTree.reaches_of_removed hNode hGone, fun hPre => absurd hPre hNew⟩

/-- What no error stops leaves nothing inside the directory. -/
theorem not_reaches_of_kept {fails : Nat → Option Bytes} (hFine : ∀ id, fails id = none)
    (hAcyclic : ∀ id, ¬ Relation.TransGen files.Holds id id) {entries : List Nat}
    {node : FileNode Bytes FileMaker} (hKept : node ∈ (removeEntries fails entries files).1.nodes)
    {entry : Nat} (hEntry : entry ∈ entries) : ¬ files.Reaches entry node.id := by
  induction entries generalizing files with
  | nil => exact absurd hEntry List.not_mem_nil
  | cons first entries ih =>
    intro hWay
    have hNode := (nodes_removeEntries fails entries _).subset hKept
    obtain ⟨-, hOut⟩ := (FileTree.mem_removeAll hAcyclic hFine).mp hNode
    rcases List.mem_cons.mp hEntry with rfl | hLater
    · exact hOut hWay
    · have hAfter : ∀ id, ¬ Relation.TransGen (files.removeAll fails first).1.Holds id id := fun id hCycle =>
        hAcyclic id (Relation.TransGen.mono (fun _ _ => FileTree.holds_of_without) _ _ hCycle)
      exact ih hAfter hKept hLater (FileTree.reaches_removeAll hAcyclic hFine hOut hWay)

theorem removeFound_whole (hFine : ∀ id, faults.remove id = none) (hListing : faults.listing = none)
    (hAcyclic : ∀ id, ¬ Relation.TransGen files.Holds id id) {dir : Nat} {node : FileNode Bytes FileMaker}
    (hKept : node ∈ (destination.removeFound faults files dir).1.nodes) :
    ¬ Relation.TransGen files.Holds dir node.id ∧ (destination.preexisted = false → node.id ≠ dir) := by
  unfold removeFound at hKept
  split at hKept
  next hPre =>
    refine ⟨fun hBelow => ?_, fun hNew => absurd hPre (by simp [hNew])⟩
    obtain ⟨entry, hEntry, hWay⟩ := Relation.TransGen.head'_iff.mp hBelow
    rw [removeInside, hListing] at hKept
    exact not_reaches_of_kept hFine hAcyclic hKept (FileTree.mem_children.mpr hEntry) hWay
  next =>
    obtain ⟨-, hOut⟩ := (FileTree.mem_removeAll hAcyclic hFine).mp hKept
    exact ⟨fun hBelow => hOut hBelow.to_reflTransGen, fun _ hItself => hOut (hItself ▸ .refl)⟩

theorem emitFinished_cases (destination : CloneDestination) (links : Nat) (faults : FileFaults) (files : Files)
    (result : GitResult Unit) :
    (destination.emitFinished links faults result files).2 = files ∨
    (∃ error, result = .error error ∧ error.code = .cancelled) ∧
      ∃ dir, destination.Found links files dir ∧
        (destination.emitFinished links faults result files).2 = (destination.removeFound faults files dir).1 := by
  cases result with
  | ok => exact .inl rfl
  | error error =>
    by_cases hCode : error.code = .cancelled
    · have hEmit : (destination.emitFinished links faults (.error error) files).2 =
          (destination.removeUnfinished links faults files).2 := by
        simp [emitFinished, hCode]
      rw [hEmit]
      exact removeUnfinished_cases.imp_right fun hFound => ⟨⟨error, rfl, hCode⟩, hFound⟩
    · exact .inl (by simp [emitFinished, hCode])

end Removal

/-! ## What it takes got there after the claim -/

/-- How a removed node got under the destination. -/
structure TakenAway (links : Nat) (path : DestinationPath) (first last : Files) (folder : Nat)
    (node : FileNode Bytes FileMaker) : Prop where
  folderBefore : resolvedDirId links first path.folder = some folder
  folderAfter : resolvedDirId links last path.folder = some folder
  claimed : first.lookup folder path.name = none ∨
    ∃ dir now, first.lookup folder path.name = some dir ∧ dir.kind = .dir ∧ first.children dir.id = [] ∧
      last.lookup folder path.name = some now ∧ now.id = dir.id ∧ node.id ≠ dir.id
  inside : ∃ top, last.lookup folder path.name = some top ∧ top.kind = .dir ∧ last.Reaches top.id node.id
  wasOutside : ¬ first.InEntry folder path.name node.id
  came : node.maker = .git ∨
    (∃ parent own kind, first.EntersBy folder path.name node.id last (.create .other parent own kind)) ∨
    ∃ mover moved parent own, first.EntersBy folder path.name node.id last (.move mover moved parent own)

section Claim

variable {links : Nat} {faults : FileFaults} {files : Files} {path : DestinationPath}

@[simp] theorem path_claim : (claim links faults files path).path = path := by
  unfold claim
  dsimp only
  split
  · rfl
  · split <;> rfl

@[simp] theorem parentId_claim : (claim links faults files path).parentId = resolvedDirId links files path.folder := by
  unfold claim
  dsimp only
  split
  · rfl
  · split <;> rfl

theorem claim_owned (hRead : faults.status = false) (hOwned : (claim links faults files path).owned = true) :
    fileIdOf links files path = none ∨
    ∃ dir, fileIdOf links files path = some dir ∧ files.isDir dir = true ∧ files.children dir = [] ∧
      (claim links faults files path).preexisted = true ∧ (claim links faults files path).dirId = some dir := by
  have hStatus : symlinkStatus faults.status links files path = fileIdOf links files path := by
    rw [symlinkStatus, hRead]
    rfl
  cases hFound : fileIdOf links files path with
  | none => exact .inl rfl
  | some dir =>
    have hClaim : claim links faults files path =
        if files.isDir dir && (files.children dir).isEmpty && !faults.isEmpty then
          { path, owned := true, preexisted := true, dirId := some dir,
            parentId := resolvedDirId links files path.folder }
        else { path, parentId := resolvedDirId links files path.folder } := by
      simp only [claim, hStatus, hFound]
    rw [hClaim] at hOwned ⊢
    split at hOwned
    next hEmptyDir =>
      rw [if_pos hEmptyDir]
      simp only [Bool.and_eq_true, List.isEmpty_iff] at hEmptyDir
      exact .inr ⟨dir, rfl, hEmptyDir.1.1, hEmptyDir.1.2, rfl, rfl⟩
    next => cases hOwned

theorem fileIdOf_eq (h : files.WellFormed) : fileIdOf links files path =
    (resolvedDirId links files path.folder).bind fun folder =>
      (files.lookup folder path.name).map FileNode.id :=
  FileTree.resolve_child h path.name links 0 path.folder

end Claim

section Taken

variable {links : Nat} {atClaim atEnd : FileFaults} {first last : Files} {path : DestinationPath}

/-- The directory that is removed or emptied is the destination's entry in the folder of the claim. -/
theorem entry_of_found (hLast : last.WellFormed) {dir : Nat}
    (hFound : (claim links atClaim first path).Found links last dir) :
    ∃ folder top, resolvedDirId links first path.folder = some folder ∧
      resolvedDirId links last path.folder = some folder ∧ last.lookup folder path.name = some top ∧ top.id = dir := by
  have hDir := hFound.found
  have hParent := hFound.parent
  rw [path_claim] at hDir hParent
  rw [parentId_claim] at hParent
  rw [fileIdOf_eq hLast] at hDir
  obtain ⟨folder, hFolder, hEntry⟩ := Option.bind_eq_some_iff.mp hDir
  obtain ⟨top, hTop, hTopId⟩ := Option.map_eq_some_iff.mp hEntry
  exact ⟨folder, top, hParent.trans hFolder, hFolder, hTop, hTopId⟩

/-- At the claim there was nothing at the destination, or the directory itself, and empty. -/
theorem claimed_of_found (h : first.WellFormed) (hRead : atClaim.status = false) {dir folder : Nat}
    (hFound : (claim links atClaim first path).Found links last dir)
    (hFolder : resolvedDirId links first path.folder = some folder) :
    first.lookup folder path.name = none ∨
    ∃ old, first.lookup folder path.name = some old ∧ old.id = dir ∧ old.kind = .dir ∧
      first.children old.id = [] ∧ (claim links atClaim first path).preexisted = true := by
  cases hLookup : first.lookup folder path.name with
  | none => exact .inl rfl
  | some old =>
    have hOwned := claim_owned hRead hFound.owned
    rw [fileIdOf_eq h, hFolder, Option.bind_some, hLookup, Option.map_some] at hOwned
    obtain hNone | ⟨emptyDir, hOldId, hOldDir, hEmpty, hPre, hId⟩ := hOwned
    · cases hNone
    · cases hOldId
      rw [hFound.same hPre] at hId
      have hOld := (FileTree.mem_of_lookup hLookup).1
      exact .inr ⟨old, rfl, (Option.some.inj hId).symm, h.kind_of_isDir hOld hOldDir, hEmpty, hPre⟩

theorem takenAway (h : first.WellFormed) (hRun : FileTree.Run first last) (hRead : atClaim.status = false)
    {node : FileNode Bytes FileMaker} (hNode : node ∈ last.nodes) {dir : Nat}
    (hFound : (claim links atClaim first path).Found links last dir)
    (hGone : node ∉ ((claim links atClaim first path).removeFound atEnd last dir).1.nodes) :
    ∃ folder, TakenAway links path first last folder node := by
  have hLast := FileTree.Run.wellFormed hRun h
  obtain ⟨hReached, hInside⟩ := reaches_of_removedFound hNode hGone
  obtain ⟨folder, top, hBefore, hAfter, hTop, rfl⟩ := entry_of_found hLast hFound
  obtain ⟨hTopNode, hTopFolder, hTopName⟩ := FileTree.mem_of_lookup hTop
  have hIn : last.InEntry folder path.name node.id := ⟨top, hTopNode, hTopFolder, hTopName, hReached⟩
  have hClaimed := claimed_of_found h hRead hFound hBefore
  have hNotItself : (claim links atClaim first path).preexisted = true → node.id ≠ top.id := by
    intro hPre hItself
    exact hLast.acyclic top.id (hItself ▸ hInside hPre)
  have hOut : ¬ first.InEntry folder path.name node.id := by
    rintro ⟨old, hOld, rfl, hOldName, hWay⟩
    rw [← hOldName, h.lookup_eq hOld] at hClaimed
    obtain hNone | ⟨found, hSame, hId, -, hEmpty, hPre⟩ := hClaimed
    · cases hNone
    · obtain rfl := Option.some.inj hSame
      rcases Relation.ReflTransGen.cases_head hWay with hItself | ⟨child, hChild, -⟩
      · exact hNotItself hPre (hItself.symm.trans hId)
      · exact List.not_mem_nil (hEmpty ▸ FileTree.mem_children.mpr hChild)
  refine ⟨folder, hBefore, hAfter, ?_, ⟨top, hTop, hLast.kind_of_isDir hTopNode hFound.isDir, hReached⟩, hOut, ?_⟩
  · apply hClaimed.imp_right
    rintro ⟨old, hOld, hId, hKind, hEmpty, hPre⟩
    exact ⟨old, top, hOld, hKind, hEmpty, hTop, hId.symm, hId ▸ hNotItself hPre⟩
  · rcases FileTree.entersBy_create_or_move h hRun hNode hOut hIn with ⟨parent, own, kind, hEnters⟩ | hMoved
    · cases hMaker : node.maker with
      | git => exact .inl rfl
      | other => exact .inr (.inl ⟨parent, own, kind, hMaker ▸ hEnters⟩)
    · exact .inr (.inr hMoved)

end Taken

/-- A clone that is not cancelled removes nothing. A cancelled one removes only what got under the
destination after the claim, in the folder of the claim. -/
theorem emitFinished_takenAway {first last : Files} (h : first.WellFormed) (hRun : FileTree.Run first last)
    (links : Nat) (path : DestinationPath) (atClaim atEnd : FileFaults) (hRead : atClaim.status = false)
    (result : GitResult Unit) :
    ((claim links atClaim first path).emitFinished links atEnd result last).2.nodes.Sublist last.nodes ∧
    ∀ node ∈ last.nodes, node ∉ ((claim links atClaim first path).emitFinished links atEnd result last).2.nodes →
      (∃ error, result = .error error ∧ error.code = .cancelled) ∧
      ∃ folder, TakenAway links path first last folder node := by
  rcases emitFinished_cases (claim links atClaim first path) links atEnd last result with
    hSame | ⟨hCancelled, dir, hFound, hRemoved⟩
  · rw [hSame]
    exact ⟨List.Sublist.refl _, fun node hNode hGone => absurd hNode hGone⟩
  · rw [hRemoved]
    exact ⟨nodes_removeFound dir, fun node hNode hGone => ⟨hCancelled, takenAway h hRun hRead hNode hFound hGone⟩⟩

section Notes

def repoPath : DestinationPath := { parent := [], name := ascii "repo" }

def gitsRepo : Files := (({} : Files).add .git 0 (ascii "repo") .dir).add .git 1 (ascii ".git") .dir

/-- Somebody else has put a file into what git has made. -/
def notesRepo : Files := gitsRepo.add .other 1 (ascii "notes") .file

theorem run_notesRepo : FileTree.Run ({} : Files) notesRepo := by
  have hRepo : FileTree.Run ({} : Files) (({} : Files).add .git 0 (ascii "repo") .dir) :=
    .single ⟨_, .create (by decide) (by decide)⟩
  have hGit : FileTree.Run ({} : Files) gitsRepo := hRepo.tail ⟨_, .create (by decide) (by decide)⟩
  exact hGit.tail ⟨_, .create (by decide) (by decide)⟩

def notesFile : FileNode Bytes FileMaker :=
  { id := 3, parent := 1, name := ascii "notes", kind := .file, maker := .other }

theorem emitFinished_takenAway_notes :
    ∃ folder, TakenAway 40 repoPath {} notesRepo folder notesFile :=
  ((emitFinished_takenAway FileTree.wellFormed_empty run_notesRepo 40 repoPath {} {} rfl
    (.error { code := .cancelled })).2 notesFile (by decide) (by decide)).2

/-- The destination was absent, the clone is cancelled, and the other's file is removed. -/
theorem notesFile_removed :
    FileTree.Run ({} : Files) notesRepo ∧ notesFile ∈ notesRepo.nodes ∧ notesFile.maker = .other ∧
    notesFile ∉ ((claim 40 {} {} repoPath).emitFinished 40 {} (.error { code := .cancelled }) notesRepo).2.nodes :=
  ⟨run_notesRepo, by decide, rfl, by decide⟩

end Notes

end CloneDestination

end GitBranchManager
