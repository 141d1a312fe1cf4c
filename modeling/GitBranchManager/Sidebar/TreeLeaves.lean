import GitBranchManager.Sidebar.FolderIndex
import Mathlib.Algebra.BigOperators.Group.List.Basic
import Mathlib.Algebra.GroupWithZero.Nat

/-! # The leaves of the tree -/

namespace GitBranchManager

open Library (InsertionMap)

section Segments

variable {name : Utf16}

theorem splitSlash_ne_nil (name : Utf16) : splitSlash name ≠ [] :=
  List.append_ne_nil_of_right_ne_nil _ (List.cons_ne_nil _ _)

theorem splitSlash_plain (h : slash ∉ name) : splitSlash name = [name] := by
  rw [splitSlash, Library.Lines.cut_open slash h]
  rfl

theorem splitSlash_cons {first : Utf16} (h : slash ∉ first) (rest : Utf16) :
    splitSlash (first ++ slash :: rest) = first :: splitSlash rest := by
  rw [splitSlash, Library.Lines.cut_line slash h]
  rfl

theorem slash_not_mem (name : Utf16) : ∀ segment ∈ splitSlash name, slash ∉ segment := by
  intro segment hSegment
  obtain ⟨hLines, hRest⟩ := Library.Lines.sep_not_mem_cut slash name
  rcases List.mem_append.mp hSegment with hLine | hLast
  · exact hLines segment hLine
  · exact List.mem_singleton.mp hLast ▸ hRest

/-- A name is its first segment, or that segment, a slash and more. -/
theorem splitSlash_first (name : Utf16) : ∃ first rest, splitSlash name = first :: rest ∧ slash ∉ first ∧
    (rest = [] ∧ name = first ∨ rest ≠ [] ∧ first ++ [slash] <+: name) := by
  have hCut := Library.Lines.join_cut slash name
  have hFree := slash_not_mem name
  unfold splitSlash at hFree ⊢
  generalize (Library.Lines.cut slash name).1 = lines at hCut hFree ⊢
  generalize (Library.Lines.cut slash name).2 = last at hCut hFree ⊢
  cases lines with
  | nil => exact ⟨last, [], rfl, hFree last (by simp), .inl ⟨rfl, hCut.symm⟩⟩
  | cons first lines =>
    refine ⟨first, lines ++ [last], rfl, hFree first (by simp), .inr ⟨by simp, ?_⟩⟩
    rw [← hCut, Library.Lines.join_cons]
    exact ⟨Library.Lines.join slash lines ++ last, by simp⟩

theorem splitSlash_single {segment : Utf16} (h : splitSlash name = [segment]) : name = segment := by
  obtain ⟨first, rest, hSplit, -, ⟨-, hName⟩ | ⟨hMore, -⟩⟩ := splitSlash_first name
  · rw [hSplit] at h
    exact hName.trans (List.cons.inj h).1
  · rw [hSplit] at h
    exact absurd (List.cons.inj h).2 hMore

end Segments

namespace TreeBuild

/-- The folders that the branches need. -/
def OpenedBy (branches : List RefInfo) (segments : List Utf16) : Prop :=
  segments ≠ [] ∧ ∃ ref ∈ branches, segments <+: (splitSlash ref.shortName).dropLast

theorem Inv.openFolders {opened : List Utf16 → Prop} {branches : List RefInfo} {build : TreeBuild}
    {segments more : List Utf16} (h : Inv opened branches build) (hParent : segments = [] ∨ opened segments)
    (hMore : Good more) (expanded : Utf16 → Bool) :
    (build.openFolders expanded (pathOf segments) more).2 = pathOf (segments ++ more) ∧
      Inv (fun other => opened other ∨ ∃ front, front ≠ [] ∧ front <+: more ∧ other = segments ++ front) branches
        (build.openFolders expanded (pathOf segments) more).1 := by
  induction more generalizing opened build segments with
  | nil =>
    refine ⟨by rw [List.append_nil]; rfl, h.congr fun other => ⟨.inl, ?_⟩⟩
    rintro (hOpened | ⟨front, hSome, hFront, -⟩)
    · exact hOpened
    · exact absurd (List.prefix_nil.mp hFront) hSome
  | cons segment more ih =>
    obtain ⟨hSegment, hRest⟩ := List.forall_mem_cons.mp hMore
    obtain ⟨hPath, hInv⟩ := ih (h.openFolder hParent hSegment expanded) (.inr (.inr rfl)) hRest
    rw [TreeBuild.openFolders, ← pathOf_concat]
    refine ⟨by rw [hPath, List.append_assoc]; rfl, hInv.congr fun other => ?_⟩
    constructor
    · rintro ((hOpened | rfl) | ⟨front, -, hFront, rfl⟩)
      · exact .inl hOpened
      · exact .inr ⟨[segment], List.cons_ne_nil _ _, by simp, rfl⟩
      · exact .inr ⟨segment :: front, List.cons_ne_nil _ _, by simpa using hFront, by simp⟩
    · rintro (hOpened | ⟨front, hSome, hFront, rfl⟩)
      · exact .inl (.inl hOpened)
      · obtain ⟨first, front, rfl⟩ := List.exists_cons_of_ne_nil hSome
        obtain ⟨rfl, hBelow⟩ := List.cons_prefix_cons.mp hFront
        by_cases hLast : front = []
        · exact .inl (.inr (by rw [hLast]))
        · exact .inr ⟨front, hLast, hBelow, by simp⟩

theorem Inv.addBranch {branches : List RefInfo} {build : TreeBuild} (h : Inv (OpenedBy branches) branches build)
    {ref : RefInfo} (hGood : Good (splitSlash ref.shortName).dropLast) (expanded : Utf16 → Bool) :
    Inv (OpenedBy (branches ++ [ref])) (branches ++ [ref]) (build.addBranch expanded ref) := by
  have hOpened (segments : List Utf16) : OpenedBy (branches ++ [ref]) segments ↔
      OpenedBy branches segments ∨ segments ≠ [] ∧ segments <+: (splitSlash ref.shortName).dropLast := by
    simp only [OpenedBy, List.mem_append, List.mem_singleton]
    constructor
    · rintro ⟨hSome, other, hOld | rfl, hPrefix⟩
      · exact .inl ⟨hSome, other, hOld, hPrefix⟩
      · exact .inr ⟨hSome, hPrefix⟩
    · rintro (⟨hSome, other, hOld, hPrefix⟩ | ⟨hSome, hPrefix⟩)
      · exact ⟨hSome, other, .inl hOld, hPrefix⟩
      · exact ⟨hSome, ref, .inr rfl, hPrefix⟩
  rw [TreeBuild.addBranch]
  split
  · rename_i hSingle
    obtain ⟨name, hName⟩ := List.length_eq_one_iff.mp hSingle
    have hPut := h.putLeaf hName none
    rw [splitSlash_single hName]
    refine hPut.congr fun segments => ?_
    rw [hOpened, hName]
    refine ⟨.inl, ?_⟩
    rintro (hOld | ⟨hSome, hPrefix⟩)
    · exact hOld
    · exact absurd (List.prefix_nil.mp hPrefix) hSome
  · rename_i hNested
    have hFolders : (splitSlash ref.shortName).dropLast ≠ [] := by
      intro hNone
      have hLength := congrArg List.length hNone
      have hPositive := List.length_pos_of_ne_nil (splitSlash_ne_nil ref.shortName)
      rw [List.length_dropLast, List.length_nil] at hLength
      omega
    obtain ⟨hPath, hInv⟩ := h.openFolders (.inl rfl) hGood expanded
    have hLeaf := hInv.addLeaf (.inr ⟨_, hFolders, List.prefix_rfl, rfl⟩) rfl (splitSlash ref.shortName).getLast?
    rw [List.nil_append] at hPath hLeaf
    rw [← hPath] at hLeaf
    refine hLeaf.congr fun segments => ?_
    rw [hOpened]
    constructor
    · rintro (hOld | ⟨front, hSome, hFront, rfl⟩)
      · exact .inl hOld
      · exact .inr ⟨hSome, hFront⟩
    · rintro (hOld | ⟨hSome, hPrefix⟩)
      · exact .inl hOld
      · exact .inr ⟨segments, hSome, hPrefix, rfl⟩

theorem Inv.branches {branches : List RefInfo}
    (hGood : ∀ ref ∈ branches, Good (splitSlash ref.shortName).dropLast) (expanded : Utf16 → Bool) :
    Inv (OpenedBy branches) branches (branches.foldl (TreeBuild.addBranch expanded) {}) := by
  induction branches using List.reverseRecOn with
  | nil =>
    refine Inv.start.congr fun segments => ⟨False.elim, ?_⟩
    rintro ⟨-, ref, hNone, -⟩
    cases hNone
  | append_singleton branches ref ih =>
    obtain ⟨hOld, hNew⟩ := List.forall_mem_append.mp hGood
    rw [List.foldl_append]
    exact (ih hOld).addBranch (hNew ref (by simp)) expanded

/-! ## Leaves counted -/

theorem leavesOf_eq_flatMap (nodes : List BranchTreeNode) :
    BranchTreeNode.leavesOf nodes = nodes.flatMap BranchTreeNode.leaves := by
  induction nodes with
  | nil => rfl
  | cons node nodes ih => rw [BranchTreeNode.leavesOf, ih, List.flatMap_cons]

/-- Sorting loses no leaf. -/
theorem count_leavesOf_sortNodes (nodes : List BranchTreeNode) (ref : RefInfo) :
    (BranchTreeNode.leavesOf (sortNodes nodes)).count ref = (nodes.map fun node => node.leaves.count ref).sum := by
  rw [leavesOf_eq_flatMap, sortNodes]
  exact (((List.mergeSort_perm nodes _).flatMap_right _).count_eq ref).trans List.count_flatMap

theorem sum_counts_children (index : InsertionMap Utf16 FolderNode) (fuel : Nat) (children : List ChildNode)
    (ref : RefInfo) :
    ((children.map (toTree index fuel)).map fun node => node.leaves.count ref).sum =
      (children.filterMap leafRef?).count ref +
        ((children.filterMap folderPath?).map fun path =>
          (toTree index fuel (.folder path)).leaves.count ref).sum := by
  induction children with
  | nil => rfl
  | cons child children ih =>
    rw [List.map_cons, List.map_cons, List.sum_cons, ih]
    cases child with
    | folder path =>
      rw [List.filterMap_cons_none rfl, List.filterMap_cons_some (f := folderPath?) rfl, List.map_cons, List.sum_cons]
      omega
    | leaf leafRef label =>
      rw [List.filterMap_cons_some (f := leafRef?) rfl, List.filterMap_cons_none rfl, List.count_cons, toTree,
        BranchTreeNode.leaves, List.count_singleton]
      omega

theorem sum_of_one {α : Type} [DecidableEq α] (path : α) {paths : List α} (hNodup : paths.Nodup) {f : α → Nat}
    (hOther : ∀ other ∈ paths, other ≠ path → f other = 0) :
    (paths.map f).sum = if path ∈ paths then f path else 0 := by
  rw [List.sum_map_eq_nsmul_single path f fun other hNe hMem => hOther other hMem hNe, hNodup.count]
  split
  · exact one_nsmul _
  · exact zero_nsmul _

section Way

variable {segments target : List Utf16}

theorem exists_next (hPrefix : segments <+: target) (hLonger : target ≠ segments) :
    ∃ next, segments ++ [next] <+: target := by
  obtain ⟨rest, rfl⟩ := hPrefix
  cases rest with
  | nil => exact absurd (List.append_nil segments) hLonger
  | cons next rest => exact ⟨next, rest, by simp⟩

theorem next_unique {next other : Utf16} (hNext : segments ++ [next] <+: target)
    (hOther : segments ++ [other] <+: target) : next = other := by
  have hPrefix : segments ++ [next] <+: segments ++ [other] := List.prefix_of_prefix_length_le hNext hOther (by simp)
  have hSame : segments ++ [next] = segments ++ [other] := hPrefix.eq_of_length_le (by simp)
  exact List.singleton_inj.mp (List.append_cancel_left hSame)

/-- Of the folders in a folder, only the one on the way to the target counts. -/
theorem Lists.sum_folders {opened : List Utf16 → Prop} {branches : List RefInfo} {folder : FolderNode}
    (h : Lists opened branches segments folder) {count : Utf16 → Nat} {total : Nat}
    (hCount : ∀ segment, opened (segments ++ [segment]) → count (pathOf (segments ++ [segment])) =
      if segments ++ [segment] <+: target then total else 0)
    (hWay : ∀ next, segments ++ [next] <+: target → 0 < total → opened (segments ++ [next])) :
    ((folder.children.filterMap folderPath?).map count).sum =
      if target ≠ segments ∧ segments <+: target then total else 0 := by
  by_cases hNext : ∃ next, opened (segments ++ [next]) ∧ segments ++ [next] <+: target
  · obtain ⟨next, hOpened, hPrefix⟩ := hNext
    have hLonger : target ≠ segments := by
      rintro rfl
      have hLength := hPrefix.length_le
      rw [List.length_append, List.length_singleton] at hLength
      omega
    rw [sum_of_one (pathOf (segments ++ [next])) h.nodup, if_pos ((h.folders _).mpr ⟨next, hOpened, rfl⟩),
      hCount next hOpened, if_pos hPrefix, if_pos ⟨hLonger, (List.prefix_append _ _).trans hPrefix⟩]
    intro path hPath hOther
    obtain ⟨segment, hSegment, rfl⟩ := (h.folders path).mp hPath
    rw [hCount segment hSegment, if_neg]
    intro hSame
    exact hOther (by rw [next_unique hSame hPrefix])
  · have hNone : ((folder.children.filterMap folderPath?).map count).sum = 0 := by
      refine List.sum_eq_zero fun n hMem => ?_
      obtain ⟨path, hPath, rfl⟩ := List.mem_map.mp hMem
      obtain ⟨segment, hSegment, rfl⟩ := (h.folders path).mp hPath
      rw [hCount segment hSegment, if_neg fun hPrefix => hNext ⟨segment, hSegment, hPrefix⟩]
    rw [hNone]
    split
    · rename_i hBelow
      obtain ⟨next, hPrefix⟩ := exists_next hBelow.2 hBelow.1
      have hEmpty : ¬ 0 < total := fun hSome => hNext ⟨next, hWay next hPrefix hSome, hPrefix⟩
      omega
    · rfl

end Way

/-- A folder shows each branch below it as often as the list names it, and no other. -/
theorem Inv.count_folder {branches : List RefInfo} {build : TreeBuild} (h : Inv (OpenedBy branches) branches build)
    {fuel : Nat} {segments : List Utf16}
    (hDeep : ∀ ref ∈ branches, (splitSlash ref.shortName).length ≤ segments.length + fuel)
    (hOpened : OpenedBy branches segments) (ref : RefInfo) :
    (toTree build.folderIndex fuel (.folder (pathOf segments))).leaves.count ref =
      if segments <+: (splitSlash ref.shortName).dropLast then branches.count ref else 0 := by
  induction fuel generalizing segments with
  | zero =>
    obtain ⟨-, deep, hMem, hPrefix⟩ := hOpened
    have hLength := hPrefix.length_le
    have hPositive := List.length_pos_of_ne_nil (splitSlash_ne_nil deep.shortName)
    have hBound := hDeep deep hMem
    rw [List.length_dropLast] at hLength
    omega
  | succ fuel ih =>
    obtain ⟨folder, hFolder, hLists⟩ := h.folder hOpened
    have hBelow (segment : Utf16) (hChild : OpenedBy branches (segments ++ [segment])) :
        (toTree build.folderIndex fuel (.folder (pathOf (segments ++ [segment])))).leaves.count ref =
          if segments ++ [segment] <+: (splitSlash ref.shortName).dropLast then branches.count ref else 0 := by
      refine ih (fun deep hMem => ?_) hChild
      rw [List.length_append, List.length_singleton]
      exact (hDeep deep hMem).trans (by omega)
    have hWay (next : Utf16) (hPrefix : segments ++ [next] <+: (splitSlash ref.shortName).dropLast)
        (hSome : 0 < branches.count ref) : OpenedBy branches (segments ++ [next]) :=
      ⟨by simp, ref, List.count_pos_iff.mp hSome, hPrefix⟩
    rw [toTree, hFolder]
    simp only [BranchTreeNode.leaves]
    rw [count_leavesOf_sortNodes, sum_counts_children, hLists.leaves, hLists.sum_folders hBelow hWay]
    by_cases hHere : (splitSlash ref.shortName).dropLast = segments
    · rw [List.count_filter (by simpa using hHere), if_neg fun hLonger => hLonger.1 hHere,
        if_pos (hHere ▸ List.prefix_rfl), Nat.add_zero]
    · have hNotHere : ref ∉ branches.filter fun ref => (splitSlash ref.shortName).dropLast = segments :=
        fun hMem => hHere (by simpa using (List.mem_filter.mp hMem).2)
      rw [List.count_eq_zero_of_not_mem hNotHere, Nat.zero_add]
      simp only [ne_eq, hHere, not_false_eq_true, true_and]

/-- At the top the entry of the first segment decides. -/
theorem Inv.count_root {branches : List RefInfo} {build : TreeBuild} (h : Inv (OpenedBy branches) branches build)
    {fuel : Nat} (hDeep : ∀ ref ∈ branches, (splitSlash ref.shortName).length ≤ fuel) {ref : RefInfo}
    {first : Utf16} {rest : List Utf16} (hParts : splitSlash ref.shortName = first :: rest) {child : ChildNode}
    (hChild : build.rootNodes.get? first = some child) :
    (BranchTreeNode.leavesOf (sortNodes (build.rootNodes.entries.map fun entry =>
      toTree build.folderIndex fuel entry.2))).count ref = (toTree build.folderIndex fuel child).leaves.count ref := by
  have hEntry : (first, child) ∈ build.rootNodes.entries := InsertionMap.get?_eq_some.mp hChild
  rw [count_leavesOf_sortNodes, List.map_map, sum_of_one (first, child) build.rootNodes.nodup.of_map,
    if_pos hEntry]
  · rfl
  · rintro ⟨name, other⟩ hOther hApart
    have hGet : build.rootNodes.get? name = some other := InsertionMap.get?_eq_some.mpr hOther
    have hName : name ≠ first := by
      rintro rfl
      rw [hChild] at hGet
      exact hApart (by rw [Option.some.inj hGet])
    cases other with
    | folder path =>
      obtain ⟨rfl, hOpened⟩ := h.rootFolder name path hGet
      have hCount := h.count_folder (fun ref hMem => (hDeep ref hMem).trans (Nat.le_add_left _ _)) hOpened ref
      refine hCount.trans (if_neg fun hPrefix => hName ?_)
      have hFirst := hPrefix.trans (List.dropLast_prefix _)
      rw [hParts] at hFirst
      exact (List.cons_prefix_cons.mp hFirst).1
    | leaf leafRef label =>
      have hLeaf := (h.rootLeaf name leafRef label hGet).2
      refine List.count_eq_zero_of_not_mem fun hShown => hName ?_
      have hSame : ref = leafRef := by simpa [toTree, BranchTreeNode.leaves] using hShown
      rw [← hSame, hParts] at hLeaf
      exact (List.cons.inj hLeaf).1.symm

end TreeBuild

end GitBranchManager
