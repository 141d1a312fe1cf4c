import GitBranchManager.Sidebar.NoLostBranch

/-! # Which remote branches the sidebar leaves out

A remote branch is claimed by a local one, or has the name of a row that comes before it.
-/

namespace GitBranchManager

open Library (InsertionMap)

namespace RefInfo

/-- The name of a remote ref without its remote. -/
def branchName (ref : RefInfo) : Utf16 := (remoteBranchParts ref.fullName).2

def shortened (ref : RefInfo) : RefInfo := { ref with shortName := ref.branchName }

end RefInfo

/-- The refs that the index of remote branches has under a name. -/
def refsNamed (remoteBranches : List RefInfo) (name : Utf16) : List RefInfo :=
  remoteBranches.filter fun ref => ref.isSymbolic = false ∧ ref.branchName = name

/-- By an explicit upstream, or by the name where only one remote ref has it. -/
def Claims (remoteBranches : List RefInfo) (branch ref : RefInfo) : Prop :=
  branch.upstream ≠ [] ∧ branch.upstream = ref.fullName ∨
    branch.upstream = [] ∧ refsNamed remoteBranches branch.shortName = [ref]

namespace RemoteBranchIndex

theorem refsNamed_concat (remoteBranches : List RefInfo) (remote : RefInfo) (name : Utf16) :
    refsNamed (remoteBranches ++ [remote]) name = refsNamed remoteBranches name ++
      if remote.isSymbolic = false ∧ remote.branchName = name then [remote] else [] := by
  rw [refsNamed, List.filter_append, List.filter_singleton, refsNamed, Bool.cond_decide]

theorem Scan.get?_add (scan : Scan) (remote : RefInfo) (name : Utf16) :
    (scan.add remote).byName.get? name = (scan.byName.get? name).or
      (if remote.isSymbolic = false ∧ remote.branchName = name then some remote.fullName else none) := by
  rw [Scan.add]
  split
  next hSymbolic =>
    rw [if_neg fun hPlain => Bool.eq_false_iff.mp hPlain.1 hSymbolic, Option.or_none]
  next hPlain =>
    simp only [RefInfo.branchName, Bool.eq_false_of_not_eq_true hPlain, true_and]
    split
    next hTaken =>
      split
      next hName =>
        subst hName
        exact (Option.or_of_isSome hTaken).symm
      next => rw [Option.or_none]
    next hFree =>
      rw [InsertionMap.get?_put]
      simp only [eq_comm (a := name)]
      split
      next hName => rw [← hName, Option.not_isSome_iff_eq_none.mp hFree, Option.none_or]
      next => rw [Option.or_none]

theorem Scan.mem_ambiguous_add (scan : Scan) (remote : RefInfo) (name : Utf16) :
    name ∈ (scan.add remote).ambiguous ↔ name ∈ scan.ambiguous ∨
      (remote.isSymbolic = false ∧ remote.branchName = name) ∧ (scan.byName.get? name).isSome = true := by
  rw [Scan.add]
  split
  next hSymbolic => simp [hSymbolic]
  next hPlain =>
    simp only [RefInfo.branchName, Bool.eq_false_of_not_eq_true hPlain, true_and]
    split
    next hTaken =>
      rw [List.mem_append, List.mem_singleton]
      refine or_congr_right ⟨?_, fun h => h.1.symm⟩
      rintro rfl
      exact ⟨rfl, hTaken⟩
    next hFree =>
      refine ⟨Or.inl, fun h => h.resolve_right ?_⟩
      rintro ⟨rfl, hTaken⟩
      exact hFree hTaken

/-- The scan keeps the first ref of each name and notes the names that come again. -/
theorem scan_spec (remoteBranches : List RefInfo) (name : Utf16) :
    (remoteBranches.foldl Scan.add {}).byName.get? name =
        (refsNamed remoteBranches name).head?.map RefInfo.fullName ∧
      (name ∈ (remoteBranches.foldl Scan.add {}).ambiguous ↔ 2 ≤ (refsNamed remoteBranches name).length) := by
  induction remoteBranches using List.reverseRecOn with
  | nil => exact ⟨rfl, by simp [refsNamed]⟩
  | append_singleton remoteBranches remote ih =>
    obtain ⟨hFirst, hAgain⟩ := ih
    rw [List.foldl_append, List.foldl_cons, List.foldl_nil, refsNamed_concat, Scan.get?_add,
      Scan.mem_ambiguous_add, hFirst, hAgain, Option.isSome_map, List.isSome_head?, ← List.length_pos_iff]
    split
    next hNamed =>
      rw [List.head?_append, Option.map_or, List.length_append, List.length_singleton]
      refine ⟨rfl, ?_⟩
      constructor
      · rintro (hTwo | ⟨-, hOne⟩) <;> omega
      · intro hLength
        exact Or.inr ⟨hNamed, by omega⟩
    next hOther =>
      rw [Option.or_none, List.append_nil]
      exact ⟨rfl, or_iff_left fun h => hOther h.1⟩

theorem get?_removeAll (byName : InsertionMap Utf16 Utf16) (names : List Utf16) (name : Utf16) :
    (names.foldl InsertionMap.remove byName).get? name = if name ∈ names then none else byName.get? name := by
  induction names generalizing byName with
  | nil => rfl
  | cons first names ih =>
    rw [List.foldl_cons, ih, InsertionMap.get?_remove]
    by_cases hFirst : name = first
    · rw [if_pos hFirst, ite_self, if_pos (hFirst ▸ List.mem_cons_self)]
    · rw [if_neg hFirst]
      simp only [List.mem_cons, hFirst, false_or]

/-- Only a name that one remote ref has is in the index. -/
theorem get?_fromRemoteBranches (remoteBranches : List RefInfo) (name fullName : Utf16) :
    (fromRemoteBranches remoteBranches).unambiguousByBranchName.get? name = some fullName ↔
      ∃ ref, refsNamed remoteBranches name = [ref] ∧ ref.fullName = fullName := by
  obtain ⟨hFirst, hAgain⟩ := scan_spec remoteBranches name
  rw [fromRemoteBranches]
  dsimp only
  simp only [get?_removeAll, hFirst, hAgain]
  generalize refsNamed remoteBranches name = refs
  obtain _ | ⟨ref, _ | ⟨other, refs⟩⟩ := refs
  · simp
  · simp
  · simp

end RemoteBranchIndex

/-- A ref is among the claimed ones when a local branch claims it, and then only by its own name. -/
theorem mem_claimedBy_iff {localBranches remoteBranches : List RefInfo}
    (hRemote : (remoteBranches.map RefInfo.fullName).Nodup) {ref : RefInfo} (hRef : ref ∈ remoteBranches) :
    ref.fullName ∈ claimedBy localBranches remoteBranches ↔
      ref.fullName ≠ [] ∧ ∃ branch ∈ localBranches, Claims remoteBranches branch ref := by
  rw [claimedBy, List.mem_filter, List.mem_map, Bool.not_eq_true', List.isEmpty_eq_false_iff, and_comm]
  refine and_congr_right fun hSome => exists_congr fun branch => and_congr_right fun _ => ?_
  rw [RemoteBranchIndex.counterpartOf, Claims]
  by_cases hUpstream : branch.upstream = []
  · rw [hUpstream]
    simp only [List.isEmpty_nil, Bool.not_true, Bool.false_eq_true, if_false, ne_eq, not_true_eq_false, false_and,
      true_and, false_or]
    constructor
    · intro hFound
      cases hGet : (RemoteBranchIndex.fromRemoteBranches remoteBranches).unambiguousByBranchName.get?
        branch.shortName with
      | none => exact absurd (hFound.symm.trans (by rw [hGet]; rfl)) hSome
      | some found =>
        rw [hGet, Option.getD_some] at hFound
        obtain ⟨named, hNamed, hFull⟩ :=
          (RemoteBranchIndex.get?_fromRemoteBranches remoteBranches branch.shortName found).mp hGet
        have hMem : named ∈ remoteBranches :=
          List.mem_of_mem_filter (p := _) (hNamed ▸ List.mem_singleton_self named : named ∈ refsNamed _ _)
        rw [hNamed, List.inj_on_of_nodup_map hRemote hMem hRef (hFull.trans hFound)]
    · intro hNamed
      rw [(RemoteBranchIndex.get?_fromRemoteBranches _ _ _).mpr ⟨ref, hNamed, rfl⟩, Option.getD_some]
  · have hNonempty : branch.upstream.isEmpty = false := List.isEmpty_eq_false_iff.mpr hUpstream
    rw [hNonempty]
    simp [hUpstream]

section Kept

/-- Why a ref has no row of its own: it is symbolic, claimed, or its name is taken by a row before it. -/
def LeftOut (claimed takenNames : List Utf16) (before kept : List RefInfo) (ref : RefInfo) : Prop :=
  ref.isSymbolic = true ∨ ref.fullName ∈ claimed ∨ ref.branchName ∈ takenNames ∨
    ∃ earlier ∈ before, earlier ∈ kept ∧ earlier.branchName = ref.branchName

variable {claimed takenNames : List Utf16} {before kept : List RefInfo} {remote ref : RefInfo}

/-- A ref that is not kept takes no name. -/
theorem leftOut_cons_of_not_mem (h : remote ∉ kept) :
    LeftOut claimed takenNames (remote :: before) kept ref ↔ LeftOut claimed takenNames before kept ref := by
  refine or_congr_right (or_congr_right (or_congr_right ?_))
  simp only [List.mem_cons, exists_eq_or_imp, h, false_and, false_or]

/-- One that is kept takes its name. -/
theorem leftOut_cons_of_kept (h : remote ∉ before) :
    LeftOut claimed takenNames (remote :: before) (remote :: kept) ref ↔
      LeftOut claimed (remote.branchName :: takenNames) before kept ref := by
  refine or_congr_right (or_congr_right ?_)
  have hBefore : (∃ earlier ∈ before, earlier ∈ remote :: kept ∧ earlier.branchName = ref.branchName) ↔
      ∃ earlier ∈ before, earlier ∈ kept ∧ earlier.branchName = ref.branchName := by
    refine exists_congr fun earlier => and_congr_right fun hEarlier => and_congr_left fun _ => ?_
    rw [List.mem_cons, or_iff_right]
    exact fun hSame => h (hSame ▸ hEarlier)
  simp only [List.mem_cons, exists_eq_or_imp, true_or, true_and] at hBefore ⊢
  rw [hBefore, eq_comm (a := ref.branchName)]
  tauto

/-- The refs that stay, in order, and why each other one does not. -/
structure KeptOf (claimed takenNames : List Utf16) (remoteBranches kept : List RefInfo) : Prop where
  sublist : kept.Sublist remoteBranches
  remoteOnly_eq : remoteOnly claimed takenNames remoteBranches = kept.map RefInfo.shortened
  leftOut : ∀ before ref after, remoteBranches = before ++ ref :: after →
    (ref ∉ kept ↔ LeftOut claimed takenNames before kept ref)

variable {remoteBranches : List RefInfo}

/-- A ref that is left out is not kept and takes no name from the others. -/
theorem KeptOf.skip (h : KeptOf claimed takenNames remoteBranches kept) (hNew : remote ∉ remoteBranches)
    (hOut : LeftOut claimed takenNames [] [] remote)
    (hSkip : remoteOnly claimed takenNames (remote :: remoteBranches) = remoteOnly claimed takenNames remoteBranches) :
    KeptOf claimed takenNames (remote :: remoteBranches) kept := by
  have hNotKept : remote ∉ kept := fun hMem => hNew (h.sublist.subset hMem)
  refine ⟨h.sublist.cons _, hSkip.trans h.remoteOnly_eq, fun before ref after hSplit => ?_⟩
  obtain ⟨rfl, hHead⟩ | ⟨before, rfl, hTail⟩ := List.cons_eq_append_iff.mp hSplit
  · obtain ⟨rfl, -⟩ := List.cons.inj hHead
    refine iff_of_true hNotKept ?_
    simpa [LeftOut] using hOut
  · rw [leftOut_cons_of_not_mem hNotKept]
    exact h.leftOut before ref after hTail

/-- Any other ref is kept under its name, which is taken from then on. -/
theorem KeptOf.keep (h : KeptOf claimed (remote.branchName :: takenNames) remoteBranches kept)
    (hNew : remote ∉ remoteBranches) (hStays : ¬ LeftOut claimed takenNames [] [] remote)
    (hKeep : remoteOnly claimed takenNames (remote :: remoteBranches) =
      remote.shortened :: remoteOnly claimed (remote.branchName :: takenNames) remoteBranches) :
    KeptOf claimed takenNames (remote :: remoteBranches) (remote :: kept) := by
  refine ⟨h.sublist.cons_cons _, hKeep.trans (congrArg _ h.remoteOnly_eq), fun before ref after hSplit => ?_⟩
  obtain ⟨rfl, hHead⟩ | ⟨before, rfl, hTail⟩ := List.cons_eq_append_iff.mp hSplit
  · obtain ⟨rfl, -⟩ := List.cons.inj hHead
    refine iff_of_false (fun hOut => hOut List.mem_cons_self) fun hOut => hStays ?_
    simpa [LeftOut] using hOut
  · have hBefore : remote ∉ before := fun hMem => hNew (hTail ▸ List.mem_append_left _ hMem)
    have hOther : ref ≠ remote := fun hSame => hNew (hTail ▸ hSame ▸ List.mem_append_right _ List.mem_cons_self)
    rw [leftOut_cons_of_kept hBefore, List.mem_cons, or_iff_right hOther]
    exact h.leftOut before ref after hTail

theorem leftOut_nil : LeftOut claimed takenNames [] [] remote ↔
    remote.isSymbolic = true ∨ remote.fullName ∈ claimed ∨ remote.branchName ∈ takenNames := by
  simp [LeftOut]

/-- What becomes of one ref. -/
theorem remoteOnly_cases (claimed takenNames : List Utf16) (remote : RefInfo) (remoteBranches : List RefInfo) :
    LeftOut claimed takenNames [] [] remote ∧
      remoteOnly claimed takenNames (remote :: remoteBranches) = remoteOnly claimed takenNames remoteBranches ∨
    ¬ LeftOut claimed takenNames [] [] remote ∧ remoteOnly claimed takenNames (remote :: remoteBranches) =
      remote.shortened :: remoteOnly claimed (remote.branchName :: takenNames) remoteBranches := by
  rw [leftOut_nil, remoteOnly]
  split
  next hSkip =>
    rw [Bool.or_eq_true, List.contains_iff_mem] at hSkip
    exact Or.inl ⟨hSkip.imp id Or.inl, rfl⟩
  next hStays =>
    rw [Bool.or_eq_true, List.contains_iff_mem, not_or] at hStays
    dsimp only
    split
    next hTaken => exact Or.inl ⟨Or.inr (Or.inr (List.contains_iff_mem.mp hTaken)), rfl⟩
    next hFree =>
      rw [List.contains_iff_mem] at hFree
      exact Or.inr ⟨not_or.mpr ⟨hStays.1, not_or.mpr ⟨hStays.2, hFree⟩⟩, rfl⟩

theorem exists_keptOf (hRemote : remoteBranches.Nodup) (claimed takenNames : List Utf16) :
    ∃ kept, KeptOf claimed takenNames remoteBranches kept := by
  induction remoteBranches generalizing takenNames with
  | nil =>
    refine ⟨[], List.nil_sublist _, rfl, fun before ref after hSplit => ?_⟩
    have hLength := congrArg List.length hSplit
    simp at hLength
  | cons remote remoteBranches ih =>
    obtain ⟨hNew, hRest⟩ := List.nodup_cons.mp hRemote
    obtain ⟨hOut, hSkip⟩ | ⟨hStays, hKeep⟩ := remoteOnly_cases claimed takenNames remote remoteBranches
    · obtain ⟨kept, hKept⟩ := ih hRest takenNames
      exact ⟨kept, hKept.skip hNew hOut hSkip⟩
    · obtain ⟨kept, hKept⟩ := ih hRest (remote.branchName :: takenNames)
      exact ⟨remote :: kept, hKept.keep hNew hStays hKeep⟩

end Kept

/-- The local branches, then the remote ones in order, no two of one name; one is missing only for a reason. -/
theorem one_row_per_branch {localBranches remoteBranches : List RefInfo}
    (hLocal : (localBranches.map RefInfo.shortName).Nodup)
    (hRemote : (remoteBranches.map RefInfo.fullName).Nodup) :
    ((mergeLocalAndRemoteBranches localBranches remoteBranches).map RefInfo.shortName).Nodup ∧
    ∃ kept : List RefInfo, kept.Sublist remoteBranches ∧
      mergeLocalAndRemoteBranches localBranches remoteBranches = localBranches ++ kept.map RefInfo.shortened ∧
      ∀ before ref after, remoteBranches = before ++ ref :: after →
        (ref ∉ kept ↔ ref.isSymbolic = true ∨
          (∃ branch ∈ localBranches, Claims remoteBranches branch ref) ∨
          (∃ branch ∈ localBranches, branch.shortName = ref.branchName) ∨
          ∃ earlier ∈ before, earlier ∈ kept ∧ earlier.branchName = ref.branchName) := by
  obtain ⟨hNodup, hNames⟩ := remoteOnly_names (claimedBy localBranches remoteBranches)
    (localBranches.map RefInfo.shortName) remoteBranches
  obtain ⟨kept, hKept, hOnly, hWhy⟩ := exists_keptOf (hRemote.of_map _)
    (claimedBy localBranches remoteBranches) (localBranches.map RefInfo.shortName)
  refine ⟨?_, kept, hKept, by rw [mergeLocalAndRemoteBranches, hOnly], fun before ref after hSplit => ?_⟩
  · rw [mergeLocalAndRemoteBranches, List.map_append]
    exact hLocal.append hNodup fun name hMem hRemoteName => ((hNames name).mp hRemoteName).1 hMem
  · have hRef : ref ∈ remoteBranches := hSplit ▸ List.mem_append_right _ List.mem_cons_self
    rw [hWhy before ref after hSplit, LeftOut, mem_claimedBy_iff hRemote hRef, List.mem_map]
    refine or_congr_right ⟨Or.imp_left And.right, ?_⟩
    rintro (⟨branch, hBranch, hClaims⟩ | hTaken)
    · obtain ⟨hSome, hUpstream⟩ | ⟨-, hNamed⟩ := hClaims
      · exact Or.inl ⟨hUpstream ▸ hSome, branch, hBranch, Or.inl ⟨hSome, hUpstream⟩⟩
      · have hMem : ref ∈ refsNamed remoteBranches branch.shortName := hNamed ▸ List.mem_singleton_self ref
        have hName := (of_decide_eq_true (List.mem_filter.mp hMem).2).2
        exact Or.inr (Or.inl ⟨branch, hBranch, hName.symm⟩)
    · exact Or.inr hTaken

def originMain : RefInfo :=
  { fullName := utf16 "refs/remotes/origin/main", shortName := utf16 "origin/main", kind := .remoteBranch }

def upstreamMain : RefInfo :=
  { fullName := utf16 "refs/remotes/upstream/main", shortName := utf16 "upstream/main", kind := .remoteBranch }

/-- Two remotes carry `main`: the first is shown. -/
theorem one_row_per_branch_main :
    ((mergeLocalAndRemoteBranches [featureBranch] [originMain, upstreamMain]).map RefInfo.shortName).Nodup :=
  (one_row_per_branch (by decide) (by decide)).1

end GitBranchManager
