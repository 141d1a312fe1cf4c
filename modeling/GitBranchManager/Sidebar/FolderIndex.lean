import GitBranchManager.Sidebar.BranchTreeBuilder
import Mathlib.Data.List.Induction

/-! # The map of folders while the tree is built -/

namespace GitBranchManager

namespace TreeBuild

open Library (InsertionMap)

/-- The segments of a name that git can hold. -/
def Good (segments : List Utf16) : Prop := ∀ segment ∈ segments, segment ≠ [] ∧ slash ∉ segment

def pathOf (segments : List Utf16) : Utf16 := segments.foldl childPath []

section Paths

variable {segments more : List Utf16}

theorem pathOf_concat (segments : List Utf16) (segment : Utf16) :
    pathOf (segments ++ [segment]) = childPath (pathOf segments) segment := by
  rw [pathOf, List.foldl_append]
  rfl

theorem Good.append (h : Good segments) (hMore : Good more) : Good (segments ++ more) :=
  List.forall_mem_append.mpr ⟨h, hMore⟩

theorem Good.left (h : Good (segments ++ more)) : Good segments := (List.forall_mem_append.mp h).1

theorem pathOf_terminated (h : Good segments) (hSome : segments ≠ []) :
    pathOf segments ++ [slash] = Library.Lines.join slash segments ∧ pathOf segments ≠ [] := by
  induction segments using List.reverseRecOn with
  | nil => exact absurd rfl hSome
  | append_singleton segments segment ih =>
    have hSegment : segment ≠ [] := (h segment (by simp)).1
    rw [pathOf_concat, Library.Lines.join_append, childPath]
    by_cases hFirst : segments = []
    · subst hFirst
      exact ⟨by simp [pathOf], by simpa [pathOf] using hSegment⟩
    · obtain ⟨hJoin, hPath⟩ := ih h.left hFirst
      have hNot : (pathOf segments).isEmpty = false := by
        rw [List.isEmpty_eq_false_iff]
        exact hPath
      rw [hNot, ← hJoin]
      simp

theorem pathOf_inj (h : Good segments) (hSome : segments ≠ []) (hMore : Good more) (hMoreSome : more ≠ [])
    (hPath : pathOf segments = pathOf more) : segments = more := by
  have hJoin := (pathOf_terminated h hSome).1
  rw [hPath, (pathOf_terminated hMore hMoreSome).1] at hJoin
  exact Library.Lines.join_inj slash (fun segment hMem => (h segment hMem).2)
    (fun segment hMem => (hMore segment hMem).2) hJoin.symm

end Paths

def folderPath? : ChildNode → Option Utf16
  | .folder path => some path
  | .leaf _ _ => none

def leafRef? : ChildNode → Option RefInfo
  | .folder _ => none
  | .leaf ref _ => some ref

/-- The folder object of a path lists, in the order of their insertion, the branches right
below it, and each of its folders once. -/
structure Lists (opened : List Utf16 → Prop) (branches : List RefInfo) (segments : List Utf16)
    (folder : FolderNode) : Prop where
  leaves : folder.children.filterMap leafRef? =
    branches.filter fun ref => (splitSlash ref.shortName).dropLast = segments
  nodup : (folder.children.filterMap folderPath?).Nodup
  folders : ∀ path, path ∈ folder.children.filterMap folderPath? ↔
    ∃ segment, opened (segments ++ [segment]) ∧ path = pathOf (segments ++ [segment])

structure Inv (opened : List Utf16 → Prop) (branches : List RefInfo) (build : TreeBuild) : Prop where
  good : ∀ segments, opened segments → segments ≠ [] ∧ Good segments
  closed : ∀ segments segment, opened (segments ++ [segment]) → segments = [] ∨ opened segments
  index : ∀ path, (build.folderIndex.get? path).isSome = true ↔ ∃ segments, opened segments ∧ path = pathOf segments
  lists : ∀ segments folder, opened segments → build.folderIndex.get? (pathOf segments) = some folder →
    Lists opened branches segments folder
  parents : ∀ ref ∈ branches, (splitSlash ref.shortName).dropLast = [] ∨
    opened (splitSlash ref.shortName).dropLast
  rootFolder : ∀ name path, build.rootNodes.get? name = some (.folder path) → path = name ∧ opened [name]
  rootLeaf : ∀ name ref label, build.rootNodes.get? name = some (.leaf ref label) →
    ref ∈ branches ∧ splitSlash ref.shortName = [name]
  rootOfFolder : ∀ name, opened [name] → (build.rootNodes.get? name).isSome = true
  rootOfLeaf : ∀ ref ∈ branches, ∀ name, splitSlash ref.shortName = [name] →
    (build.rootNodes.get? name).isSome = true

theorem Inv.start : Inv (fun _ => False) [] {} where
  good _ hNone := hNone.elim
  closed _ _ hNone := hNone.elim
  index path := by
    constructor
    · intro hSome
      cases hSome
    · rintro ⟨segments, hNone, -⟩
      exact hNone.elim
  lists _ _ hNone := hNone.elim
  parents _ hNone := by cases hNone
  rootFolder _ _ hNone := by cases hNone
  rootLeaf _ _ _ hNone := by cases hNone
  rootOfFolder _ hNone := hNone.elim
  rootOfLeaf _ hNone := by cases hNone

theorem Inv.congr {opened opened' : List Utf16 → Prop} {branches : List RefInfo} {build : TreeBuild}
    (h : Inv opened branches build) (hSame : ∀ segments, opened segments ↔ opened' segments) :
    Inv opened' branches build := by
  obtain rfl : opened = opened' := funext fun segments => propext (hSame segments)
  exact h

/-- The object of an opened folder. -/
theorem Inv.folder {opened : List Utf16 → Prop} {branches : List RefInfo} {build : TreeBuild}
    (h : Inv opened branches build) {segments : List Utf16} (hOpened : opened segments) :
    ∃ folder, build.folderIndex.get? (pathOf segments) = some folder ∧ Lists opened branches segments folder := by
  obtain ⟨folder, hFolder⟩ := Option.isSome_iff_exists.mp ((h.index _).mpr ⟨segments, hOpened, rfl⟩)
  exact ⟨folder, hFolder, h.lists segments folder hOpened hFolder⟩

section Insert

variable {opened : List Utf16 → Prop} {branches : List RefInfo} {build : TreeBuild} {segments : List Utf16}

theorem get?_addChild {folder : FolderNode} (hFolder : build.folderIndex.get? (pathOf segments) = some folder)
    (child : ChildNode) (path : Utf16) :
    (build.addChild (pathOf segments) child).folderIndex.get? path =
      if path = pathOf segments then some { folder with children := folder.children ++ [child] }
      else build.folderIndex.get? path := by
  rw [addChild, hFolder]
  exact InsertionMap.get?_put _ _ _ _

theorem rootNodes_addChild (build : TreeBuild) (path : Utf16) (child : ChildNode) :
    (build.addChild path child).rootNodes = build.rootNodes := by
  rw [addChild]
  split
  · rfl
  · rfl

/-- A folder that has a new child is still there. -/
theorem isSome_addChild (build : TreeBuild) (parent : Utf16) (child : ChildNode) (path : Utf16) :
    ((build.addChild parent child).folderIndex.get? path).isSome = (build.folderIndex.get? path).isSome := by
  rw [addChild]
  split
  · rfl
  · rename_i folder hFolder
    rw [InsertionMap.get?_put]
    split
    · rename_i hPath
      rw [hPath, hFolder]
      rfl
    · rfl

/-- A branch goes to the end of its folder. -/
theorem Inv.addLeaf (h : Inv opened branches build) (hOpened : opened segments) {ref : RefInfo}
    (hRef : (splitSlash ref.shortName).dropLast = segments) (label : Option Utf16) :
    Inv opened (branches ++ [ref]) (build.addChild (pathOf segments) (.leaf ref label)) := by
  obtain ⟨folder, hFolder, hLists⟩ := h.folder hOpened
  obtain ⟨hSome, hGood⟩ := h.good segments hOpened
  have hNested : ∀ name, splitSlash ref.shortName ≠ [name] := by
    rintro name hSingle
    rw [hSingle] at hRef
    exact hSome hRef.symm
  have hPaths : (folder.children ++ [ChildNode.leaf ref label]).filterMap folderPath? =
      folder.children.filterMap folderPath? := by
    rw [List.filterMap_append]
    exact List.append_nil _
  constructor
  · exact h.good
  · exact h.closed
  · intro path
    rw [isSome_addChild]
    exact h.index path
  · intro other otherFolder hOther hFound
    rw [get?_addChild hFolder] at hFound
    by_cases hSame : other = segments
    · subst hSame
      rw [if_pos rfl] at hFound
      obtain rfl := Option.some.inj hFound
      constructor
      · rw [List.filterMap_append, List.filter_append, hLists.leaves]
        simp [leafRef?, hRef]
      · rw [hPaths]
        exact hLists.nodup
      · rw [hPaths]
        exact hLists.folders
    · have hPath : pathOf other ≠ pathOf segments := fun hEqual =>
        hSame (pathOf_inj (h.good other hOther).2 (h.good other hOther).1 hGood hSome hEqual)
      rw [if_neg hPath] at hFound
      obtain ⟨hLeaves, hNodup, hFolders⟩ := h.lists other otherFolder hOther hFound
      refine ⟨?_, hNodup, hFolders⟩
      have hNot : ¬ (splitSlash ref.shortName).dropLast = other := fun hEqual => hSame (hEqual.symm.trans hRef)
      rw [List.filter_append, hLeaves]
      simp [hNot]
  · intro leaf hLeaf
    rcases List.mem_append.mp hLeaf with hOld | hNew
    · exact h.parents leaf hOld
    · obtain rfl := List.mem_singleton.mp hNew
      exact .inr (hRef ▸ hOpened)
  · rw [rootNodes_addChild]
    exact h.rootFolder
  · intro name leaf leafLabel hRoot
    rw [rootNodes_addChild] at hRoot
    obtain ⟨hMem, hName⟩ := h.rootLeaf name leaf leafLabel hRoot
    exact ⟨List.mem_append_left _ hMem, hName⟩
  · rw [rootNodes_addChild]
    exact h.rootOfFolder
  · intro leaf hLeaf name hName
    rw [rootNodes_addChild]
    rcases List.mem_append.mp hLeaf with hOld | hNew
    · exact h.rootOfLeaf leaf hOld name hName
    · obtain rfl := List.mem_singleton.mp hNew
      exact absurd hName (hNested name)

/-- A branch without a folder is put under its name. -/
theorem Inv.putLeaf (h : Inv opened branches build) {ref : RefInfo} {name : Utf16}
    (hName : splitSlash ref.shortName = [name]) (label : Option Utf16) :
    Inv opened (branches ++ [ref]) { build with rootNodes := build.rootNodes.put name (.leaf ref label) } := by
  have hNone (segments : List Utf16) (hOpened : opened segments) :
      ¬ (splitSlash ref.shortName).dropLast = segments := by
    rw [hName]
    exact fun hNil => (h.good segments hOpened).1 hNil.symm
  constructor
  · exact h.good
  · exact h.closed
  · exact h.index
  · intro segments folder hOpened hFolder
    obtain ⟨hLeaves, hNodup, hFolders⟩ := h.lists segments folder hOpened hFolder
    refine ⟨?_, hNodup, hFolders⟩
    rw [List.filter_append, hLeaves]
    simp [hNone segments hOpened]
  · intro leaf hLeaf
    rcases List.mem_append.mp hLeaf with hOld | hNew
    · exact h.parents leaf hOld
    · obtain rfl := List.mem_singleton.mp hNew
      exact .inl (by rw [hName]; rfl)
  · intro other path hRoot
    rw [InsertionMap.get?_put] at hRoot
    split at hRoot
    · cases hRoot
    · exact h.rootFolder other path hRoot
  · intro other leaf leafLabel hRoot
    rw [InsertionMap.get?_put] at hRoot
    split at hRoot
    · rename_i hSame
      cases hRoot
      exact ⟨List.mem_append_right _ (List.mem_singleton_self _), hSame ▸ hName⟩
    · obtain ⟨hMem, hOther⟩ := h.rootLeaf other leaf leafLabel hRoot
      exact ⟨List.mem_append_left _ hMem, hOther⟩
  · intro other hOpened
    rw [InsertionMap.get?_put]
    split
    · rfl
    · exact h.rootOfFolder other hOpened
  · intro leaf hLeaf other hOther
    rw [InsertionMap.get?_put]
    split
    · rfl
    · rename_i hDifferent
      rcases List.mem_append.mp hLeaf with hOld | hNew
      · exact h.rootOfLeaf leaf hOld other hOther
      · obtain rfl := List.mem_singleton.mp hNew
        rw [hName] at hOther
        exact absurd (List.cons.inj hOther).1.symm hDifferent

/-- The folders once `segments ++ [segment]` is one of them. -/
def Opened (opened : List Utf16 → Prop) (segments : List Utf16) (segment : Utf16) (other : List Utf16) : Prop :=
  opened other ∨ other = segments ++ [segment]

theorem Lists.other {folder : FolderNode} {other : List Utf16} {segment : Utf16}
    (h : Lists opened branches other folder) (hOther : other ≠ segments) :
    Lists (Opened opened segments segment) branches other folder := by
  refine ⟨h.leaves, h.nodup, fun path => ?_⟩
  rw [h.folders]
  constructor
  · rintro ⟨last, hOpened, hPath⟩
    exact ⟨last, .inl hOpened, hPath⟩
  · rintro ⟨last, hOpened | hNew, hPath⟩
    · exact ⟨last, hOpened, hPath⟩
    · exact absurd (List.append_inj_left' hNew rfl) hOther

theorem Lists.parent {folder : FolderNode} {segment : Utf16} (h : Lists opened branches segments folder)
    (hNew : pathOf (segments ++ [segment]) ∉ folder.children.filterMap folderPath?) :
    Lists (Opened opened segments segment) branches segments
      { folder with children := folder.children ++ [.folder (pathOf (segments ++ [segment]))] } := by
  have hPaths : (folder.children ++ [ChildNode.folder (pathOf (segments ++ [segment]))]).filterMap folderPath? =
      folder.children.filterMap folderPath? ++ [pathOf (segments ++ [segment])] := by
    rw [List.filterMap_append]
    rfl
  refine ⟨?_, ?_, fun path => ?_⟩
  · rw [List.filterMap_append, ← h.leaves]
    exact List.append_nil _
  · rw [hPaths]
    exact h.nodup.append (List.nodup_singleton _) (by simpa using hNew)
  · rw [hPaths, List.mem_append, h.folders, List.mem_singleton]
    constructor
    · rintro (⟨last, hOpened, hPath⟩ | hPath)
      · exact ⟨last, .inl hOpened, hPath⟩
      · exact ⟨segment, .inr rfl, hPath⟩
    · rintro ⟨last, hOpened | hLast, hPath⟩
      · exact .inl ⟨last, hOpened, hPath⟩
      · exact .inr (hLast ▸ hPath)

end Insert

section OpenFolder

variable {opened : List Utf16 → Prop} {branches : List RefInfo} {build : TreeBuild} {segments : List Utf16}
  {segment : Utf16}

/-- Nothing is known yet below a folder that was not opened. -/
theorem Inv.lists_new (h : Inv opened branches build) (hGood : segments ++ [segment] ≠ [])
    (hNew : ¬ opened (segments ++ [segment])) {folder : FolderNode} (hEmpty : folder.children = []) :
    Lists (Opened opened segments segment) branches (segments ++ [segment]) folder := by
  refine ⟨?_, ?_, fun path => ?_⟩
  · rw [hEmpty, List.filterMap_nil, eq_comm, List.filter_eq_nil_iff]
    intro ref hRef hParent
    rcases h.parents ref hRef with hNone | hOpened
    · exact hGood ((of_decide_eq_true hParent).symm.trans hNone)
    · exact hNew ((of_decide_eq_true hParent) ▸ hOpened)
  · rw [hEmpty]
    exact List.nodup_nil
  · rw [hEmpty]
    constructor
    · intro hNone
      cases hNone
    · rintro ⟨last, hOpened | hSame, -⟩
      · exact (h.closed _ _ hOpened).elim (absurd · hGood) (absurd · hNew)
      · have hLength := congrArg List.length hSame
        simp at hLength

/-- The parts of the invariant that name only the folders. -/
theorem Inv.opened_next (h : Inv opened branches build) (hParent : segments = [] ∨ opened segments)
    (hSegment : segment ≠ [] ∧ slash ∉ segment) :
    (∀ other, Opened opened segments segment other → other ≠ [] ∧ Good other) ∧
      ∀ other last, Opened opened segments segment (other ++ [last]) →
        other = [] ∨ Opened opened segments segment other := by
  have hGood : Good segments := by
    rcases hParent with rfl | hOpened
    · exact fun _ hNone => absurd hNone List.not_mem_nil
    · exact (h.good segments hOpened).2
  constructor
  · rintro other (hOld | rfl)
    · exact h.good other hOld
    · exact ⟨by simp, hGood.append (by simpa [Good] using hSegment)⟩
  · rintro other last (hOld | hNew)
    · exact (h.closed other last hOld).imp_right .inl
    · rw [List.append_inj_left' hNew rfl]
      exact hParent.imp_right .inl

/-- The new folder is found by its path, and the others as before. -/
theorem Inv.index_put (h : Inv opened branches build) (segments : List Utf16) (segment : Utf16) (folder : FolderNode)
    (path : Utf16) :
    ((build.folderIndex.put (pathOf (segments ++ [segment])) folder).get? path).isSome = true ↔
      ∃ other, Opened opened segments segment other ∧ path = pathOf other := by
  rw [InsertionMap.get?_put]
  split
  · rename_i hPath
    exact ⟨fun _ => ⟨_, .inr rfl, hPath⟩, fun _ => rfl⟩
  · rename_i hPath
    rw [h.index]
    constructor
    · rintro ⟨other, hOther, hSame⟩
      exact ⟨other, .inl hOther, hSame⟩
    · rintro ⟨other, hOther | rfl, hSame⟩
      · exact ⟨other, hOther, hSame⟩
      · exact absurd hSame hPath

/-- Apart from the parent, each folder lists what it has to. -/
theorem Inv.lists_put (h : Inv opened branches build) (hParent : segments = [] ∨ opened segments)
    (hSegment : segment ≠ [] ∧ slash ∉ segment) (hNew : ¬ opened (segments ++ [segment])) {folder : FolderNode}
    (hEmpty : folder.children = []) {other : List Utf16} (hOther : Opened opened segments segment other)
    (hApart : other ≠ segments) {otherFolder : FolderNode}
    (hFound : (build.folderIndex.put (pathOf (segments ++ [segment])) folder).get? (pathOf other) =
      some otherFolder) : Lists (Opened opened segments segment) branches other otherFolder := by
  have hGood := (h.opened_next hParent hSegment).1
  have hSome : segments ++ [segment] ≠ [] := (hGood _ (.inr rfl)).1
  rw [InsertionMap.get?_put] at hFound
  split at hFound
  · rename_i hPath
    obtain rfl := Option.some.inj hFound
    obtain rfl := pathOf_inj (hGood other hOther).2 (hGood other hOther).1 (hGood _ (.inr rfl)).2 hSome hPath
    exact h.lists_new hSome hNew hEmpty
  · rename_i hPath
    rcases hOther with hOld | rfl
    · exact (h.lists other otherFolder hOld hFound).other hApart
    · exact absurd rfl hPath

theorem Inv.openRoot (h : Inv opened branches build) (hSegment : segment ≠ [] ∧ slash ∉ segment)
    (hNew : ¬ opened [segment]) {folder : FolderNode} (hEmpty : folder.children = []) :
    Inv (Opened opened [] segment) branches
      { build with
        folderIndex := build.folderIndex.put segment folder
        rootNodes := build.rootNodes.put segment (.folder segment) } := by
  obtain ⟨hGood, hClosed⟩ := h.opened_next (.inl rfl) hSegment
  constructor
  · exact hGood
  · exact hClosed
  · exact h.index_put [] segment folder
  · intro other otherFolder hOther hFound
    exact h.lists_put (.inl rfl) hSegment hNew hEmpty hOther (hGood other hOther).1 hFound
  · exact fun ref hRef => (h.parents ref hRef).imp_right .inl
  · intro name path hRoot
    rw [InsertionMap.get?_put] at hRoot
    split at hRoot
    · rename_i hName
      obtain rfl := ChildNode.folder.inj (Option.some.inj hRoot)
      exact ⟨hName.symm, .inr (by rw [hName]; rfl)⟩
    · obtain ⟨hPath, hOpened⟩ := h.rootFolder name path hRoot
      exact ⟨hPath, .inl hOpened⟩
  · intro name ref label hRoot
    rw [InsertionMap.get?_put] at hRoot
    split at hRoot
    · cases hRoot
    · exact h.rootLeaf name ref label hRoot
  · intro name hOpened
    rw [InsertionMap.get?_put]
    split
    · rfl
    · rename_i hName
      rcases hOpened with hOld | hSame
      · exact h.rootOfFolder name hOld
      · exact absurd (List.cons.inj hSame).1 hName
  · intro ref hRef name hName
    rw [InsertionMap.get?_put]
    split
    · rfl
    · exact h.rootOfLeaf ref hRef name hName

theorem Inv.openChild (h : Inv opened branches build) (hOpened : opened segments)
    (hSegment : segment ≠ [] ∧ slash ∉ segment) (hNew : ¬ opened (segments ++ [segment]))
    {folder : FolderNode} (hEmpty : folder.children = []) :
    Inv (Opened opened segments segment) branches
      (({ build with
          folderIndex := build.folderIndex.put (pathOf (segments ++ [segment])) folder } : TreeBuild).addChild
        (pathOf segments) (.folder (pathOf (segments ++ [segment])))) := by
  obtain ⟨hGood, hClosed⟩ := h.opened_next (.inr hOpened) hSegment
  obtain ⟨parent, hParent, hLists⟩ := h.folder hOpened
  obtain ⟨hSome, hGoodParent⟩ := h.good segments hOpened
  have hInj {other : List Utf16} (hOther : Opened opened segments segment other) {more : List Utf16}
      (hMore : Opened opened segments segment more) (hPath : pathOf other = pathOf more) : other = more :=
    pathOf_inj (hGood other hOther).2 (hGood other hOther).1 (hGood more hMore).2 (hGood more hMore).1 hPath
  have hLonger : segments ≠ segments ++ [segment] := by simp
  have hApart : pathOf segments ≠ pathOf (segments ++ [segment]) := fun hPath =>
    hLonger (hInj (.inl hOpened) (.inr rfl) hPath)
  have hParent' : (build.folderIndex.put (pathOf (segments ++ [segment])) folder).get? (pathOf segments) =
      some parent := by
    rw [InsertionMap.get?_put, if_neg hApart, hParent]
  have hUnknown : pathOf (segments ++ [segment]) ∉ parent.children.filterMap folderPath? := by
    rw [hLists.folders]
    rintro ⟨last, hLast, hPath⟩
    exact hNew ((hInj (.inr rfl) (.inl hLast) hPath) ▸ hLast)
  constructor
  · exact hGood
  · exact hClosed
  · intro path
    rw [isSome_addChild]
    exact h.index_put segments segment folder path
  · intro other otherFolder hOther hFound
    rw [get?_addChild hParent'] at hFound
    split at hFound
    · rename_i hPath
      obtain rfl := Option.some.inj hFound
      obtain rfl := hInj hOther (.inl hOpened) hPath
      exact hLists.parent hUnknown
    · rename_i hNotParent
      refine h.lists_put (.inr hOpened) hSegment hNew hEmpty hOther ?_ hFound
      rintro rfl
      exact hNotParent rfl
  · exact fun ref hRef => (h.parents ref hRef).imp_right .inl
  · intro name path hRoot
    rw [rootNodes_addChild] at hRoot
    obtain ⟨hPath, hFolder⟩ := h.rootFolder name path hRoot
    exact ⟨hPath, .inl hFolder⟩
  · rw [rootNodes_addChild]
    exact h.rootLeaf
  · rintro name (hOld | hSame)
    · rw [rootNodes_addChild]
      exact h.rootOfFolder name hOld
    · have hLength := congrArg List.length hSame
      rw [List.length_append, List.length_singleton, List.length_singleton] at hLength
      exact absurd (List.eq_nil_of_length_eq_zero (by omega)) hSome
  · rw [rootNodes_addChild]
    exact h.rootOfLeaf

theorem Inv.openFolder (h : Inv opened branches build) (hParent : segments = [] ∨ opened segments)
    (hSegment : segment ≠ [] ∧ slash ∉ segment) (expanded : Utf16 → Bool) :
    Inv (Opened opened segments segment) branches (build.openFolder expanded (pathOf segments) segment) := by
  obtain ⟨hGood, -⟩ := h.opened_next hParent hSegment
  have hNext : Opened opened segments segment (segments ++ [segment]) := .inr rfl
  rw [TreeBuild.openFolder, ← pathOf_concat]
  by_cases hThere : (build.folderIndex.get? (pathOf (segments ++ [segment]))).isSome = true
  · rw [if_pos hThere]
    obtain ⟨other, hOpened, hPath⟩ := (h.index _).mp hThere
    have hSame := pathOf_inj (hGood _ hNext).2 (hGood _ hNext).1 (h.good other hOpened).2
      (h.good other hOpened).1 hPath
    refine h.congr fun segs => ⟨.inl, ?_⟩
    rintro (hOld | rfl)
    · exact hOld
    · exact hSame ▸ hOpened
  · have hNew : ¬ opened (segments ++ [segment]) := fun hOpened =>
      hThere ((h.index _).mpr ⟨_, hOpened, rfl⟩)
    rw [if_neg hThere]
    rcases hParent with rfl | hOpened
    · exact h.openRoot hSegment hNew rfl
    · have hPath := (pathOf_terminated (h.good _ hOpened).2 (h.good _ hOpened).1).2
      have hNot : (pathOf segments).isEmpty = false := by
        rw [List.isEmpty_eq_false_iff]
        exact hPath
      simp only [hNot]
      exact h.openChild hOpened hSegment hNew rfl

end OpenFolder

end TreeBuild

end GitBranchManager
