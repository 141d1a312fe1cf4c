import GitBranchManager.Sidebar.TreeLeaves

/-! # Which branches the sidebar shows

Git keeps a name from being a branch and a folder at once, but only within one namespace: a
local branch may have the name of a folder of remote branches.
-/

namespace GitBranchManager

open Library (InsertionMap)

def headsPrefix : Utf16 := utf16 "refs/heads/"

/-- Names that git can hold: no segment is empty, and no two local branches share one. -/
structure HeldByGit (localBranches remoteBranches : List RefInfo) : Prop where
  localNames : ∀ ref ∈ localBranches, ref.fullName = headsPrefix ++ ref.shortName ∧ [] ∉ splitSlash ref.fullName
  localDistinct : (localBranches.map RefInfo.fullName).Nodup
  remoteNames : ∀ ref ∈ remoteBranches, remotesPrefix <+: ref.fullName ∧ [] ∉ splitSlash ref.fullName

/-- A name in the list: of a local branch, or of a remote one that is no local branch's upstream. -/
def Shown (localBranches remoteBranches : List RefInfo) (name : Utf16) : Prop :=
  (∃ ref ∈ localBranches, ref.shortName = name) ∨
    ∃ ref ∈ remoteBranches, ref.isSymbolic = false ∧ (∀ branch ∈ localBranches, branch.upstream ≠ ref.fullName) ∧
      (remoteBranchParts ref.fullName).2 = name

section Index

namespace RemoteBranchIndex

/-- Every entry is a ref of that name. -/
def Names (byName : InsertionMap Utf16 Utf16) : Prop :=
  ∀ name fullName, byName.get? name = some fullName → (remoteBranchParts fullName).2 = name

theorem Names.add {scan : Scan} (h : Names scan.byName) (remote : RefInfo) : Names (scan.add remote).byName := by
  rw [Scan.add]
  split
  · exact h
  · simp only
    split
    · exact h
    · intro name fullName hGet
      rw [InsertionMap.get?_put] at hGet
      split at hGet
      · rename_i hName
        rw [← Option.some.inj hGet, hName]
      · exact h name fullName hGet

theorem Names.remove {byName : InsertionMap Utf16 Utf16} (h : Names byName) (name : Utf16) :
    Names (byName.remove name) := by
  intro other fullName hGet
  rw [InsertionMap.get?_remove] at hGet
  split at hGet
  · cases hGet
  · exact h other fullName hGet

theorem names_fromRemoteBranches (remoteBranches : List RefInfo) :
    Names (fromRemoteBranches remoteBranches).unambiguousByBranchName := by
  have hScan : Names (remoteBranches.foldl Scan.add {}).byName :=
    List.foldlRecOn (motive := fun scan => Names scan.byName) remoteBranches Scan.add
      (fun _ _ hNone => absurd hNone (by simp [InsertionMap.get?_empty])) fun _ h remote _ => h.add remote
  exact List.foldlRecOn (motive := Names) _ InsertionMap.remove hScan fun _ h name _ => h.remove name

end RemoteBranchIndex

/-- Beyond the upstreams only a branch of a local name is claimed. -/
theorem mem_claimedBy {localBranches remoteBranches : List RefInfo} {fullName : Utf16} (hSome : fullName ≠ [])
    (hName : ∀ ref ∈ localBranches, ref.shortName ≠ (remoteBranchParts fullName).2) :
    fullName ∈ claimedBy localBranches remoteBranches ↔ ∃ ref ∈ localBranches, ref.upstream = fullName := by
  rw [claimedBy, List.mem_filter, List.mem_map]
  constructor
  · rintro ⟨⟨ref, hRef, hClaim⟩, -⟩
    refine ⟨ref, hRef, ?_⟩
    rw [RemoteBranchIndex.counterpartOf] at hClaim
    split at hClaim
    · exact hClaim
    · cases hGet : (RemoteBranchIndex.fromRemoteBranches remoteBranches).unambiguousByBranchName.get?
        ref.shortName with
      | none =>
        rw [hGet] at hClaim
        exact absurd hClaim.symm hSome
      | some found =>
        rw [hGet] at hClaim
        obtain rfl : found = fullName := hClaim
        exact absurd (RemoteBranchIndex.names_fromRemoteBranches remoteBranches _ _ hGet).symm (hName ref hRef)
  · rintro ⟨ref, hRef, rfl⟩
    have hUpstream : ref.upstream.isEmpty = false := List.isEmpty_eq_false_iff.mpr hSome
    refine ⟨⟨ref, hRef, ?_⟩, by rw [hUpstream]; rfl⟩
    rw [RemoteBranchIndex.counterpartOf, hUpstream]
    rfl

end Index

section Merge

variable {localBranches remoteBranches : List RefInfo}

theorem remoteOnly_names (claimed takenNames : List Utf16) (remoteBranches : List RefInfo) :
    ((remoteOnly claimed takenNames remoteBranches).map RefInfo.shortName).Nodup ∧
      ∀ name, name ∈ (remoteOnly claimed takenNames remoteBranches).map RefInfo.shortName ↔
        name ∉ takenNames ∧ ∃ ref ∈ remoteBranches, ref.isSymbolic = false ∧ ref.fullName ∉ claimed ∧
          (remoteBranchParts ref.fullName).2 = name := by
  induction remoteBranches generalizing takenNames with
  | nil => exact ⟨List.nodup_nil, by simp [remoteOnly]⟩
  | cons remote remoteBranches ih =>
    rw [remoteOnly]
    split
    · rename_i hSkip
      refine ⟨(ih takenNames).1, fun name => ?_⟩
      rw [(ih takenNames).2]
      simp only [List.mem_cons, exists_eq_or_imp]
      refine and_congr_right fun _ => ⟨.inr, ?_⟩
      rintro (⟨hPlain, hFree, -⟩ | hRest)
      · simp [hPlain, hFree] at hSkip
      · exact hRest
    · rename_i hKeep
      simp only [Bool.or_eq_true, List.contains_iff_mem, not_or, Bool.not_eq_true] at hKeep
      simp only
      split
      · rename_i hTaken
        rw [List.contains_iff_mem] at hTaken
        refine ⟨(ih takenNames).1, fun name => ?_⟩
        rw [(ih takenNames).2]
        simp only [List.mem_cons, exists_eq_or_imp]
        refine and_congr_right fun hFree => ⟨.inr, ?_⟩
        rintro (⟨-, -, rfl⟩ | hRest)
        · exact absurd hTaken hFree
        · exact hRest
      · rename_i hFree
        rw [List.contains_iff_mem] at hFree
        obtain ⟨hNodup, hNames⟩ := ih ((remoteBranchParts remote.fullName).2 :: takenNames)
        rw [List.map_cons]
        refine ⟨List.nodup_cons.mpr ⟨fun hMem => ((hNames _).mp hMem).1 List.mem_cons_self, hNodup⟩, fun name => ?_⟩
        rw [List.mem_cons, hNames]
        simp only [List.mem_cons, exists_eq_or_imp, not_or]
        constructor
        · rintro (rfl | ⟨⟨-, hName⟩, hRest⟩)
          · exact ⟨hFree, .inl ⟨hKeep.1, hKeep.2, rfl⟩⟩
          · exact ⟨hName, .inr hRest⟩
        · rintro ⟨hName, ⟨-, -, rfl⟩ | hRest⟩
          · exact .inl rfl
          · by_cases hSame : name = (remoteBranchParts remote.fullName).2
            · exact .inl hSame
            · exact .inr ⟨⟨hSame, hName⟩, hRest⟩

theorem merge_names (h : HeldByGit localBranches remoteBranches) :
    ((mergeLocalAndRemoteBranches localBranches remoteBranches).map RefInfo.shortName).Nodup ∧
      ∀ name, name ∈ (mergeLocalAndRemoteBranches localBranches remoteBranches).map RefInfo.shortName ↔
        Shown localBranches remoteBranches name := by
  obtain ⟨hNodup, hNames⟩ := remoteOnly_names (claimedBy localBranches remoteBranches)
    (localBranches.map RefInfo.shortName) remoteBranches
  have hFull : localBranches.map RefInfo.fullName =
      (localBranches.map RefInfo.shortName).map (headsPrefix ++ ·) := by
    rw [List.map_map]
    exact List.map_congr_left fun ref hRef => (h.localNames ref hRef).1
  rw [mergeLocalAndRemoteBranches, List.map_append]
  constructor
  · refine List.Nodup.append ?_ hNodup fun name hLocal hRemote => ((hNames name).mp hRemote).1 hLocal
    exact (hFull ▸ h.localDistinct).of_map
  · intro name
    rw [List.mem_append, hNames, Shown, List.mem_map]
    by_cases hLocal : ∃ ref ∈ localBranches, ref.shortName = name
    · exact ⟨fun _ => .inl hLocal, fun _ => .inl hLocal⟩
    · refine or_congr_right ⟨?_, ?_⟩
      · rintro ⟨-, ref, hRef, hPlain, hFree, rfl⟩
        refine ⟨ref, hRef, hPlain, fun branch hBranch hUpstream => hFree ?_, rfl⟩
        have hSome : ref.fullName ≠ [] := (h.remoteNames ref hRef).1.ne_nil (by decide)
        exact (mem_claimedBy hSome fun other hOther hName => hLocal ⟨other, hOther, hName⟩).mpr
          ⟨branch, hBranch, hUpstream⟩
      · rintro ⟨ref, hRef, hPlain, hFree, rfl⟩
        refine ⟨hLocal, ref, hRef, hPlain, fun hClaimed => ?_, rfl⟩
        have hSome : ref.fullName ≠ [] := (h.remoteNames ref hRef).1.ne_nil (by decide)
        obtain ⟨branch, hBranch, hUpstream⟩ := (mem_claimedBy hSome fun other hOther hName =>
          hLocal ⟨other, hOther, hName⟩).mp hClaimed
        exact hFree branch hBranch hUpstream

/-- What stays of a name without its prefix still has no empty segment. -/
theorem good_of_full (front : List Utf16) {rest : Utf16} (hName : [] ∉ front ++ splitSlash rest) :
    TreeBuild.Good (splitSlash rest) := by
  intro segment hSegment
  refine ⟨?_, slash_not_mem rest segment hSegment⟩
  rintro rfl
  exact hName (List.mem_append_right _ hSegment)

theorem TreeBuild.Good.dropLast {segments : List Utf16} (h : TreeBuild.Good segments) :
    TreeBuild.Good segments.dropLast := fun segment hSegment => h segment (List.dropLast_subset _ hSegment)

theorem splitSlash_heads (name : Utf16) :
    splitSlash (headsPrefix ++ name) = [utf16 "refs", utf16 "heads"] ++ splitSlash name := by
  have hPrefix : headsPrefix ++ name = utf16 "refs" ++ slash :: (utf16 "heads" ++ slash :: name) := rfl
  rw [hPrefix, splitSlash_cons (by decide), splitSlash_cons (by decide)]
  rfl

theorem splitSlash_remotes (name : Utf16) :
    splitSlash (remotesPrefix ++ name) = [utf16 "refs", utf16 "remotes"] ++ splitSlash name := by
  have hPrefix : remotesPrefix ++ name = utf16 "refs" ++ slash :: (utf16 "remotes" ++ slash :: name) := rfl
  rw [hPrefix, splitSlash_cons (by decide), splitSlash_cons (by decide)]
  rfl

theorem good_remoteBranch {fullName : Utf16} (hPrefix : remotesPrefix <+: fullName)
    (hName : [] ∉ splitSlash fullName) :
    TreeBuild.Good (splitSlash (remoteBranchParts fullName).2).dropLast := by
  obtain ⟨rest, rfl⟩ := hPrefix
  have hIs : remotesPrefix.isPrefixOf (remotesPrefix ++ rest) = true :=
    List.isPrefixOf_iff_prefix.mpr (List.prefix_append _ _)
  rw [splitSlash_remotes] at hName
  rw [remoteBranchParts, if_pos hIs, List.drop_left]
  split
  · rename_i hSlash
    obtain ⟨remote, branch, rfl, hRemote⟩ := List.eq_append_cons_of_mem hSlash
    have hKept : ∀ c ∈ remote, (c != slash) = true := fun c hc =>
      bne_iff_ne.mpr fun hEqual => hRemote (hEqual ▸ hc)
    rw [splitSlash_cons hRemote] at hName
    have hBranch : ((remote ++ slash :: branch).dropWhile fun c => c != slash).drop 1 = branch := by
      rw [List.dropWhile_append_of_pos hKept, List.dropWhile_cons_of_neg (by simp)]
      rfl
    simp only [hBranch]
    exact (good_of_full [utf16 "refs", utf16 "remotes", remote] hName).dropLast
  · exact fun _ hNone => absurd hNone List.not_mem_nil

theorem good_merge (h : HeldByGit localBranches remoteBranches) :
    ∀ ref ∈ mergeLocalAndRemoteBranches localBranches remoteBranches,
      TreeBuild.Good (splitSlash ref.shortName).dropLast := by
  intro ref hRef
  rcases List.mem_append.mp hRef with hLocal | hRemote
  · obtain ⟨hFull, hName⟩ := h.localNames ref hLocal
    rw [hFull, splitSlash_heads] at hName
    exact (good_of_full _ hName).dropLast
  · obtain ⟨-, remote, hMem, -, -, hShort⟩ := ((remoteOnly_names (claimedBy localBranches remoteBranches)
      (localBranches.map RefInfo.shortName) remoteBranches).2 ref.shortName).mp (List.mem_map_of_mem hRemote)
    obtain ⟨hPrefix, hName⟩ := h.remoteNames remote hMem
    exact hShort ▸ good_remoteBranch hPrefix hName

end Merge

section Tree

open TreeBuild

variable {branches : List RefInfo}

theorem nameDepth_le (branches : List RefInfo) :
    ∀ ref ∈ branches, (splitSlash ref.shortName).length ≤ nameDepth branches := by
  induction branches with
  | nil => exact fun _ hNone => absurd hNone List.not_mem_nil
  | cons first branches ih =>
    refine List.forall_mem_cons.mpr ⟨Nat.le_max_left _ _, fun ref hRef => ?_⟩
    exact (ih ref hRef).trans (Nat.le_max_right _ _)

/-- Under the first segment of its name there is a folder below which it is shown, or a branch
of that very name. -/
theorem count_buildBranchTree (hGood : ∀ ref ∈ branches, Good (splitSlash ref.shortName).dropLast)
    (expandedFolders : List Utf16) (expandAll : Bool) (first : Utf16)
    (hFirst : ∃ ref ∈ branches, (splitSlash ref.shortName).head? = some first) :
    (OpenedBy branches [first] ∧ ∀ ref ∈ branches, (splitSlash ref.shortName).head? = some first →
      (BranchTreeNode.leavesOf (buildBranchTree branches expandedFolders expandAll)).count ref =
        if splitSlash ref.shortName = [first] then 0 else branches.count ref) ∨
    ∃ shown ∈ branches, splitSlash shown.shortName = [first] ∧ ∀ ref ∈ branches,
      (splitSlash ref.shortName).head? = some first →
        (BranchTreeNode.leavesOf (buildBranchTree branches expandedFolders expandAll)).count ref =
          if ref = shown then 1 else 0 := by
  let expanded := fun path => expandAll || expandedFolders.contains path
  have hInv := Inv.branches hGood expanded
  generalize hBuild : branches.foldl (TreeBuild.addBranch expanded) {} = build at hInv
  obtain ⟨known, hKnown, hHead⟩ := hFirst
  have hRoot : (build.rootNodes.get? first).isSome = true := by
    obtain ⟨rest, hParts⟩ := List.head?_eq_some_iff.mp hHead
    by_cases hRest : rest = []
    · exact hInv.rootOfLeaf known hKnown first (hRest ▸ hParts)
    · refine hInv.rootOfFolder first ⟨List.cons_ne_nil _ _, known, hKnown, ?_⟩
      rw [hParts, List.dropLast_cons_of_ne_nil hRest]
      exact List.cons_prefix_cons.mpr ⟨rfl, List.nil_prefix⟩
  obtain ⟨child, hChild⟩ := Option.isSome_iff_exists.mp hRoot
  have hCount : ∀ ref, (splitSlash ref.shortName).head? = some first →
      (BranchTreeNode.leavesOf (buildBranchTree branches expandedFolders expandAll)).count ref =
        (toTree build.folderIndex (nameDepth branches) child).leaves.count ref := by
    intro ref hRef
    obtain ⟨rest, hParts⟩ := List.head?_eq_some_iff.mp hRef
    have hSome : branches.isEmpty = false := List.isEmpty_eq_false_iff.mpr (List.ne_nil_of_mem hKnown)
    rw [buildBranchTree, hSome, ← hInv.count_root (nameDepth_le branches) hParts hChild, ← hBuild]
    rfl
  cases child with
  | folder path =>
    obtain ⟨rfl, hOpened⟩ := hInv.rootFolder first path hChild
    refine .inl ⟨hOpened, fun ref hRef hHead => ?_⟩
    have hFolder := hInv.count_folder (fun other hMem => (nameDepth_le branches other hMem).trans
      (Nat.le_add_left _ _)) hOpened ref
    refine (hCount ref hHead).trans (hFolder.trans ?_)
    obtain ⟨rest, hParts⟩ := List.head?_eq_some_iff.mp hHead
    rw [hParts]
    by_cases hRest : rest = []
    · rw [hRest, if_pos rfl, if_neg]
      exact fun hPrefix => absurd (List.prefix_nil.mp hPrefix) (List.cons_ne_nil _ _)
    · rw [List.dropLast_cons_of_ne_nil hRest, if_pos (List.cons_prefix_cons.mpr ⟨rfl, List.nil_prefix⟩), if_neg]
      exact fun hSame => hRest (List.cons.inj hSame).2
  | leaf shown label =>
    obtain ⟨hShown, hParts⟩ := hInv.rootLeaf first shown label hChild
    refine .inr ⟨shown, hShown, hParts, fun ref hRef hHead => ?_⟩
    rw [hCount ref hHead, toTree, BranchTreeNode.leaves, List.count_singleton, beq_eq_decide]
    by_cases hSame : ref = shown
    · rw [if_pos hSame, if_pos (decide_eq_true hSame.symm)]
    · rw [if_neg hSame, if_neg fun hEqual => hSame (of_decide_eq_true hEqual).symm]

/-- A branch at the top and a branch below a folder of that name: one is not shown. -/
theorem lost_of_clash (hGood : ∀ ref ∈ branches, Good (splitSlash ref.shortName).dropLast)
    (expandedFolders : List Utf16) (expandAll : Bool) {ref other : RefInfo} (hRef : ref ∈ branches)
    (hOther : other ∈ branches) (hPlain : slash ∉ ref.shortName)
    (hBelow : ref.shortName ++ [slash] <+: other.shortName) :
    (BranchTreeNode.leavesOf (buildBranchTree branches expandedFolders expandAll)).count ref = 0 ∨
      (BranchTreeNode.leavesOf (buildBranchTree branches expandedFolders expandAll)).count other = 0 := by
  obtain ⟨rest, hRest⟩ := hBelow
  have hParts : splitSlash ref.shortName = [ref.shortName] := splitSlash_plain hPlain
  have hOtherParts : splitSlash other.shortName = ref.shortName :: splitSlash rest := by
    rw [← hRest, List.append_assoc]
    exact splitSlash_cons hPlain rest
  have hHead : (splitSlash ref.shortName).head? = some ref.shortName := by rw [hParts, List.head?_cons]
  have hOtherHead : (splitSlash other.shortName).head? = some ref.shortName := by rw [hOtherParts, List.head?_cons]
  rcases count_buildBranchTree hGood expandedFolders expandAll ref.shortName ⟨ref, hRef, hHead⟩ with
    ⟨-, hCount⟩ | ⟨shown, -, hShown, hCount⟩
  · exact .inl (by rw [hCount ref hRef hHead, if_pos hParts])
  · refine .inr ?_
    rw [hCount other hOther hOtherHead, if_neg]
    rintro rfl
    rw [hShown] at hOtherParts
    exact splitSlash_ne_nil rest (List.cons.inj hOtherParts).2.symm

theorem once_of_apart (hGood : ∀ ref ∈ branches, Good (splitSlash ref.shortName).dropLast)
    (hDistinct : (branches.map RefInfo.shortName).Nodup) (expandedFolders : List Utf16) (expandAll : Bool)
    (hApart : ∀ ref ∈ branches, slash ∉ ref.shortName → ∀ other ∈ branches,
      ¬ ref.shortName ++ [slash] <+: other.shortName) :
    ∀ ref ∈ branches,
      (BranchTreeNode.leavesOf (buildBranchTree branches expandedFolders expandAll)).count ref = 1 := by
  intro ref hRef
  have hOnce : branches.count ref = 1 := List.count_eq_one_of_mem hDistinct.of_map hRef
  obtain ⟨first, rest, hParts, hFree, hName⟩ := splitSlash_first ref.shortName
  have hHead : (splitSlash ref.shortName).head? = some first := by rw [hParts, List.head?_cons]
  rcases count_buildBranchTree hGood expandedFolders expandAll first ⟨ref, hRef, hHead⟩ with
    ⟨⟨-, other, hOther, hPrefix⟩, hCount⟩ | ⟨shown, hShown, hTop, hCount⟩
  · rw [hCount ref hRef hHead, hOnce, if_neg]
    intro hSingle
    have hSame := splitSlash_single hSingle
    obtain ⟨next, more, hSplit, -, ⟨hMore, -⟩ | ⟨-, hLonger⟩⟩ := splitSlash_first other.shortName
    · rw [hSplit, hMore] at hPrefix
      exact absurd (List.prefix_nil.mp hPrefix) (List.cons_ne_nil _ _)
    · have hFirst := hPrefix.trans (List.dropLast_prefix _)
      rw [hSplit] at hFirst
      obtain rfl := (List.cons_prefix_cons.mp hFirst).1
      exact hApart ref hRef (hSame.symm ▸ hFree) other hOther (hSame.symm ▸ hLonger)
  · rw [hCount ref hRef hHead, if_pos]
    have hSame := splitSlash_single hTop
    rcases hName with ⟨-, hFirst⟩ | ⟨-, hLonger⟩
    · exact List.inj_on_of_nodup_map hDistinct hRef hShown (hFirst.trans hSame.symm)
    · exact absurd (hSame.symm ▸ hLonger) (hApart shown hShown (hSame.symm ▸ hFree) ref hRef)

end Tree

/-- Every branch is shown once exactly when no name without a slash is also a folder of another. -/
theorem every_branch_once_iff {localBranches remoteBranches : List RefInfo}
    (h : HeldByGit localBranches remoteBranches) (expandedFolders : List Utf16) (expandAll : Bool) :
    (∀ ref ∈ mergeLocalAndRemoteBranches localBranches remoteBranches,
      (BranchTreeNode.leavesOf (buildBranchTree (mergeLocalAndRemoteBranches localBranches remoteBranches)
        expandedFolders expandAll)).count ref = 1) ↔
    ∀ name, Shown localBranches remoteBranches name → slash ∉ name →
      ∀ other, Shown localBranches remoteBranches other → ¬ name ++ [slash] <+: other := by
  obtain ⟨hDistinct, hNames⟩ := merge_names h
  have hGood := good_merge h
  constructor
  · intro hOnce name hName hPlain other hOther hBelow
    obtain ⟨ref, hRef, rfl⟩ := List.mem_map.mp ((hNames name).mpr hName)
    obtain ⟨below, hMem, rfl⟩ := List.mem_map.mp ((hNames other).mpr hOther)
    rcases lost_of_clash hGood expandedFolders expandAll hRef hMem hPlain hBelow with hLost | hLost
    · exact absurd ((hOnce ref hRef).symm.trans hLost) Nat.one_ne_zero
    · exact absurd ((hOnce below hMem).symm.trans hLost) Nat.one_ne_zero
  · intro hApart
    refine once_of_apart hGood hDistinct expandedFolders expandAll fun ref hRef hPlain other hOther => ?_
    exact hApart _ ((hNames _).mp (List.mem_map_of_mem hRef)) hPlain _ ((hNames _).mp (List.mem_map_of_mem hOther))

section Examples

def featureBranch : RefInfo :=
  { fullName := utf16 "refs/heads/feature", shortName := utf16 "feature", kind := .localBranch }

def remoteFeatureX : RefInfo :=
  { fullName := utf16 "refs/remotes/origin/feature/x", shortName := utf16 "origin/feature/x", kind := .remoteBranch }

theorem featureBranch_held : HeldByGit [featureBranch] [remoteFeatureX] where
  localNames := by decide
  localDistinct := by decide
  remoteNames := by decide

/-- The folder `feature` takes the entry of the branch. -/
theorem featureFolder_hidden : ¬ ∀ localBranches remoteBranches, HeldByGit localBranches remoteBranches →
    ∀ expandedFolders expandAll, ∀ ref ∈ mergeLocalAndRemoteBranches localBranches remoteBranches,
      (BranchTreeNode.leavesOf (buildBranchTree (mergeLocalAndRemoteBranches localBranches remoteBranches)
        expandedFolders expandAll)).count ref = 1 := by
  intro h
  have hOnce := h _ _ featureBranch_held [] false
  have hMerge : mergeLocalAndRemoteBranches [featureBranch] [remoteFeatureX] =
      [featureBranch, { remoteFeatureX with shortName := utf16 "feature/x" }] := by decide
  have hGood := good_merge featureBranch_held
  rw [hMerge] at hOnce hGood
  rcases lost_of_clash hGood [] false List.mem_cons_self (List.mem_cons_of_mem _ List.mem_cons_self) (by decide)
    (by decide) with hLost | hLost
  · exact absurd ((hOnce _ List.mem_cons_self).symm.trans hLost) Nat.one_ne_zero
  · exact absurd ((hOnce _ (List.mem_cons_of_mem _ List.mem_cons_self)).symm.trans hLost) Nat.one_ne_zero

theorem every_branch_once_iff_feature :
    (∀ ref ∈ mergeLocalAndRemoteBranches [featureBranch] [remoteFeatureX],
      (BranchTreeNode.leavesOf (buildBranchTree (mergeLocalAndRemoteBranches [featureBranch] [remoteFeatureX])
        [] true)).count ref = 1) ↔
    ∀ name, Shown [featureBranch] [remoteFeatureX] name → slash ∉ name →
      ∀ other, Shown [featureBranch] [remoteFeatureX] other → ¬ name ++ [slash] <+: other :=
  every_branch_once_iff featureBranch_held [] true

end Examples

end GitBranchManager
