import GitBranchManager.Base.Bytes
import GitBranchManager.Library.InsertionMap
import GitBranchManager.Library.Lines
import Mathlib.Data.List.Sort

/-! # The sidebar's branch tree

Local branches and the remote branches that no local one claims share one list, which is
inserted name by name into a map of folders.
-/

namespace GitBranchManager

def slash : UInt16 := 47

/-- `name.split('/')`. -/
def splitSlash (name : Utf16) : List Utf16 :=
  (Library.Lines.cut slash name).1 ++ [(Library.Lines.cut slash name).2]

inductive RefKind
  | localBranch
  | remoteBranch
  | tag
  | note
  | stash
  | other
  deriving DecidableEq, Repr

structure RefInfo where
  fullName : Utf16
  shortName : Utf16
  kind : RefKind
  upstream : Utf16 := []
  isSymbolic : Bool := false
  deriving DecidableEq, Repr

def remotesPrefix : Utf16 := utf16 "refs/remotes/"

/-- The remote, and the branch as the remote names it. -/
def remoteBranchParts (fullName : Utf16) : Utf16 × Utf16 :=
  let rest := if remotesPrefix.isPrefixOf fullName then fullName.drop remotesPrefix.length else fullName
  if slash ∈ rest then
    (rest.takeWhile fun c => c != slash, (rest.dropWhile fun c => c != slash).drop 1)
  else (rest, [])

open Library (InsertionMap)

/-- Branch name to the one remote ref that has it. -/
structure RemoteBranchIndex where
  unambiguousByBranchName : InsertionMap Utf16 Utf16

namespace RemoteBranchIndex

structure Scan where
  byName : InsertionMap Utf16 Utf16 := .empty
  ambiguous : List Utf16 := []

def Scan.add (scan : Scan) (remote : RefInfo) : Scan :=
  if remote.isSymbolic then scan
  else
    let branchName := (remoteBranchParts remote.fullName).2
    if (scan.byName.get? branchName).isSome then { scan with ambiguous := scan.ambiguous ++ [branchName] }
    else { scan with byName := scan.byName.put branchName remote.fullName }

def fromRemoteBranches (remoteBranches : List RefInfo) : RemoteBranchIndex :=
  let scan := remoteBranches.foldl Scan.add {}
  ⟨scan.ambiguous.foldl InsertionMap.remove scan.byName⟩

/-- An explicit upstream wins, whether or not it is there. -/
def counterpartOf (index : RemoteBranchIndex) (localBranch : RefInfo) : Utf16 :=
  if !localBranch.upstream.isEmpty then localBranch.upstream
  else (index.unambiguousByBranchName.get? localBranch.shortName).getD []

end RemoteBranchIndex

/-- The refs that are claimed. -/
def claimedBy (localBranches remoteBranches : List RefInfo) : List Utf16 :=
  (localBranches.map (RemoteBranchIndex.fromRemoteBranches remoteBranches).counterpartOf).filter fun name =>
    !name.isEmpty

def remoteOnly (claimed : List Utf16) : List Utf16 → List RefInfo → List RefInfo
  | _, [] => []
  | takenNames, r :: rest =>
    if r.isSymbolic || claimed.contains r.fullName then remoteOnly claimed takenNames rest
    else
      let branchName := (remoteBranchParts r.fullName).2
      if takenNames.contains branchName then remoteOnly claimed takenNames rest
      else { r with shortName := branchName } :: remoteOnly claimed (branchName :: takenNames) rest

/-- The name of a remote ref that is kept loses its remote; the first ref of a name is kept. -/
def mergeLocalAndRemoteBranches (localBranches remoteBranches : List RefInfo) : List RefInfo :=
  localBranches ++
    remoteOnly (claimedBy localBranches remoteBranches) (localBranches.map RefInfo.shortName) remoteBranches

inductive BranchTreeNode
  | folder (folderName folderPath : Utf16) (children : List BranchTreeNode) (isExpanded : Bool)
  | leaf (ref : RefInfo) (label : Option Utf16)

namespace BranchTreeNode

mutual

def leaves : BranchTreeNode → List RefInfo
  | .folder _ _ children _ => leavesOf children
  | .leaf ref _ => [ref]

def leavesOf : List BranchTreeNode → List RefInfo
  | [] => []
  | node :: nodes => node.leaves ++ leavesOf nodes

end

def isFolder : BranchTreeNode → Bool
  | .folder _ _ _ _ => true
  | .leaf _ _ => false

def name : BranchTreeNode → Utf16
  | .folder folderName _ _ _ => folderName
  | .leaf ref _ => ref.shortName

end BranchTreeNode

/-- Folders before leaves, each by name. -/
def compareTreeNodes (a b : BranchTreeNode) : Ordering :=
  if a.isFolder && !b.isFolder then .lt
  else if !a.isFolder && b.isFolder then .gt
  else compare a.name b.name

def sortNodes (nodes : List BranchTreeNode) : List BranchTreeNode :=
  nodes.mergeSort fun a b => (compareTreeNodes a b).isLE

/-- A folder object is known by its path. -/
inductive ChildNode
  | folder (path : Utf16)
  | leaf (ref : RefInfo) (label : Option Utf16)
  deriving DecidableEq, Repr

structure FolderNode where
  folderName : Utf16
  folderPath : Utf16
  isExpanded : Bool
  children : List ChildNode := []
  deriving DecidableEq, Repr

structure TreeBuild where
  folderIndex : InsertionMap Utf16 FolderNode := .empty
  rootNodes : InsertionMap Utf16 ChildNode := .empty

namespace TreeBuild

def addChild (build : TreeBuild) (path : Utf16) (child : ChildNode) : TreeBuild :=
  match build.folderIndex.get? path with
  | none => build
  | some folder =>
    { build with
      folderIndex := build.folderIndex.put path { folder with children := folder.children ++ [child] } }

def childPath (previousPath segment : Utf16) : Utf16 :=
  if previousPath.isEmpty then segment else previousPath ++ slash :: segment

def openFolder (expanded : Utf16 → Bool) (build : TreeBuild) (previousPath segment : Utf16) : TreeBuild :=
  let currentPath := childPath previousPath segment
  if (build.folderIndex.get? currentPath).isSome then build
  else
    let folder : FolderNode :=
      { folderName := segment, folderPath := currentPath, isExpanded := expanded currentPath }
    let added := { build with folderIndex := build.folderIndex.put currentPath folder }
    if previousPath.isEmpty then
      { added with rootNodes := added.rootNodes.put currentPath (.folder currentPath) }
    else added.addChild previousPath (.folder currentPath)

/-- The folders of the segments, and the path of the last one. -/
def openFolders (expanded : Utf16 → Bool) : TreeBuild → Utf16 → List Utf16 → TreeBuild × Utf16
  | build, currentPath, [] => (build, currentPath)
  | build, previousPath, segment :: segments =>
    openFolders expanded (build.openFolder expanded previousPath segment) (childPath previousPath segment) segments

def addBranch (expanded : Utf16 → Bool) (build : TreeBuild) (ref : RefInfo) : TreeBuild :=
  let parts := splitSlash ref.shortName
  if parts.length = 1 then
    { build with rootNodes := build.rootNodes.put ref.shortName (.leaf ref none) }
  else
    let (build, currentPath) := build.openFolders expanded [] parts.dropLast
    build.addChild currentPath (.leaf ref (parts.getLast?))

/-- Folders nest no deeper than the fuel; a path without a folder does not occur. -/
def toTree (index : InsertionMap Utf16 FolderNode) : Nat → ChildNode → BranchTreeNode
  | _, .leaf ref label => .leaf ref label
  | 0, .folder path => .folder path path [] false
  | fuel + 1, .folder path =>
    match index.get? path with
    | none => .folder path path [] false
    | some folder =>
      .folder folder.folderName folder.folderPath (sortNodes (folder.children.map (toTree index fuel)))
        folder.isExpanded

end TreeBuild

/-- As many levels as the longest name has segments. -/
def nameDepth (branches : List RefInfo) : Nat :=
  (branches.map fun ref => (splitSlash ref.shortName).length).foldr max 0

def buildBranchTree (branches : List RefInfo) (expandedFolders : List Utf16) (expandAll : Bool) :
    List BranchTreeNode :=
  if branches.isEmpty then []
  else
    let expanded := fun path => expandAll || expandedFolders.contains path
    let build := branches.foldl (TreeBuild.addBranch expanded) {}
    sortNodes (build.rootNodes.entries.map fun entry =>
      TreeBuild.toTree build.folderIndex (nameDepth branches) entry.2)

end GitBranchManager
