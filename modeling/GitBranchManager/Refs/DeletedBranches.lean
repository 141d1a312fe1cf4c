import GitBranchManager.Refs.OperationSteps
import GitBranchManager.Refs.ShortNames

/-! # The branches that are left after a delete that succeeds

A requested name that is not in the listing counts as already deleted, and a branch whose name is
ambiguous is listed by another.
-/

namespace GitBranchManager

open Library

variable {ρ : Type} {git : ProcessRunner ρ} {refs : ρ → Refs}

section Loses

variable {was now : Refs} {names : List Bytes} {name : Bytes}

theorem Refs.Loses.gone (h : was.Loses names now) (hGone : ¬ was.hasBranch name) : ¬ now.hasBranch name := by
  intro hNow
  rw [hasBranch] at hGone hNow
  rcases h (kHeads ++ name) with hSame | ⟨-, hNone⟩
  · rw [hSame] at hNow
    exact hGone hNow
  · rw [hNone] at hNow
    cases hNow

theorem Refs.Loses.kept (h : was.Loses names now) (hName : name ∉ names) (hWas : was.hasBranch name) :
    now.hasBranch name := by
  rw [hasBranch] at hWas ⊢
  rcases h (kHeads ++ name) with hSame | ⟨⟨other, hOther, hIs⟩, -⟩
  · rwa [hSame]
  · rw [List.append_cancel_left_eq] at hIs
    exact absurd (hIs ▸ hOther) hName

end Loses

theorem NamesRefs.follows (hGit : NamesRefs git refs) :
    Follows git (fun command => readsOnly command = true) fun s s' => refs s' = refs s where
  refl _ := rfl
  trans h h' := h'.trans h
  command := hGit.reads

namespace DeleteBranchRequest

/-- A success leaves no branch of a requested name, whatever git has to refuse. -/
def DeletesEveryName (request : DeleteBranchRequest) (was : Refs) : Prop :=
  ∀ (ρ : Type) (git : ProcessRunner ρ) (refs : ρ → Refs), NamesRefs git refs → ∀ s, refs s = was →
    (request.run git s).1.succeeded = true →
    ∀ name ∈ request.names, ¬ (refs (request.run git s).2).hasBranch name

/-- The entry is listed, and the request fails because of it: there is no branch of its name, or
the branch is not the one that was counted. -/
def Blocks (was : Refs) (entry : DeleteBranchEntry) : Prop :=
  was.Lists entry.name ∧
    (¬ was.hasBranch entry.name ∨
      entry.force = true ∧ (entry.expectedTipOid = [] ∨ was (kHeads ++ entry.name) ≠ some entry.expectedTipOid))

/-- The branches that are asked for are listed by their names, or an entry blocks the request. -/
def Foreseen (request : DeleteBranchRequest) (was : Refs) : Prop :=
  (∀ name ∈ request.names, was.hasBranch name → was.Lists name) ∨ ∃ entry ∈ request.entries, Blocks was entry

/-- Commands that delete local branches. -/
def DeletesLocal (command : GitCommand) (names : List Bytes) : Prop :=
  ∃ flag, (flag = ascii "-d" ∨ flag = ascii "-D") ∧ command = ascii "branch" :: flag :: names

section Commands

variable {request : DeleteBranchRequest} {targets : List Bytes}

theorem deletesLocal_of_mem {command : GitCommand} (hLocal : request.isRemote = false)
    (h : command ∈ request.commands targets) : ∃ names, names ⊆ targets ∧ DeletesLocal command names := by
  obtain ⟨flag, names, hFlag, hNames, hIs⟩ := deletes_of_mem_commands hLocal h
  exact ⟨names, hNames, flag, hFlag, hIs⟩

/-- Each target is handed to one of the commands. -/
theorem exists_command (hLocal : request.isRemote = false) {name : Bytes} (h : name ∈ targets) :
    ∃ command ∈ request.commands targets, ∃ names, DeletesLocal command names ∧ name ∈ names := by
  rw [commands, hLocal, if_neg Bool.false_ne_true]
  by_cases hForced : request.isForced name = true
  · have hMem : name ∈ targets.filter request.isForced := List.mem_filter.mpr ⟨h, hForced⟩
    refine ⟨_, List.mem_append_left _ ?_, _, ⟨_, .inr rfl, rfl⟩, hMem⟩
    rw [if_neg fun hEmpty => List.ne_nil_of_mem hMem (List.isEmpty_iff.mp hEmpty)]
    exact List.mem_singleton_self _
  · have hMem : name ∈ targets.filter fun name => !request.isForced name :=
      List.mem_filter.mpr ⟨h, by rw [Bool.eq_false_iff.mpr hForced]; rfl⟩
    refine ⟨_, List.mem_append_right _ ?_, _, ⟨_, .inl rfl, rfl⟩, hMem⟩
    rw [if_neg fun hEmpty => List.ne_nil_of_mem hMem (List.isEmpty_iff.mp hEmpty)]
    exact List.mem_singleton_self _

end Commands

theorem refused_check {request : DeleteBranchRequest} {targets : List Bytes} {s s' : ρ} {refused : OperationOutcome}
    (h : request.checkForcedTips git targets s = (some refused, s')) : refused.succeeded = false := by
  rw [checkForcedTips] at h
  simp only at h
  split at h
  · cases (Prod.mk.inj h).1
  · split at h
    · obtain rfl := Option.some.inj (Prod.mk.inj h).1
      rfl
    · split at h
      · obtain rfl := Option.some.inj (Prod.mk.inj h).1
        rfl
      · split at h
        · obtain rfl := Option.some.inj (Prod.mk.inj h).1
          rfl
        · cases (Prod.mk.inj h).1

section Deleting

variable (hGit : NamesRefs git refs)

include hGit

theorem loses_command {s : ρ} {command : GitCommand} {names : List Bytes} (h : DeletesLocal command names) :
    (refs s).Loses names (refs (git s command).2) := by
  obtain ⟨flag, hFlag, rfl⟩ := h
  exact hGit.loses s flag names hFlag

theorem loses_commands {targets : List Bytes} (commands : List GitCommand)
    (hDeletes : ∀ command ∈ commands, ∃ names, names ⊆ targets ∧ DeletesLocal command names) (s : ρ) :
    (refs s).Loses targets (refs (runCommands git commands s).2) := by
  induction commands generalizing s with
  | nil => exact .refl _ _
  | cons first rest ih =>
    obtain ⟨names, hNames, hFirst⟩ := hDeletes first List.mem_cons_self
    have hLoses := (loses_command hGit (s := s) hFirst).mono hNames
    rw [runCommands]
    split
    · rename_i hRun
      rwa [hRun] at hLoses
    · rename_i hRun
      rw [hRun] at hLoses
      exact hLoses.trans (ih (fun command hMem => hDeletes command (List.mem_cons_of_mem _ hMem)) _)

/-- Commands that all succeed have deleted each of their names. -/
theorem deleted_commands {commands : List GitCommand} {s s' : ρ}
    (hDeletes : ∀ command ∈ commands, ∃ names, DeletesLocal command names)
    (h : runCommands git commands s = (none, s')) :
    ∀ command ∈ commands, ∀ names, DeletesLocal command names →
      ∀ name ∈ names, (refs s).hasBranch name ∧ ¬ (refs s').hasBranch name := by
  induction commands generalizing s with
  | nil =>
    intro command hMem
    cases hMem
  | cons first rest ih =>
    have hRest := fun command hMem => hDeletes command (List.mem_cons_of_mem first hMem)
    obtain ⟨firstNames, hFirst⟩ := hDeletes first List.mem_cons_self
    rw [runCommands] at h
    split at h
    · cases (Prod.mk.inj h).1
    · rename_i out m hRun
      have hFirstLoses := loses_command hGit (s := s) hFirst
      rw [hRun] at hFirstLoses
      have hRestLoses : (refs m).Loses (rest.flatMap (·.drop 2)) (refs s') := by
        have hLoses : (refs m).Loses (rest.flatMap (·.drop 2)) (refs (runCommands git rest m).2) :=
          loses_commands hGit rest (fun command hMem => by
            obtain ⟨names, flag, hFlag, rfl⟩ := hRest command hMem
            exact ⟨names, fun name hName => List.mem_flatMap.mpr ⟨_, hMem, hName⟩, flag, hFlag, rfl⟩) m
        rwa [h] at hLoses
      intro command hMem names hCommand name hName
      rcases List.mem_cons.mp hMem with rfl | hMem
      · obtain ⟨flag, hFlag, rfl⟩ := hCommand
        obtain ⟨hWas, hGone⟩ := hGit.deletes s flag names out m hFlag hRun name hName
        exact ⟨hWas, hRestLoses.gone hGone⟩
      · obtain ⟨hWas, hGone⟩ := ih hRest h command hMem names hCommand name hName
        exact ⟨not_not.mp fun hNot => hFirstLoses.gone hNot hWas, hGone⟩

/-- What the check lets pass is what the entries force. -/
theorem tips_of_check {request : DeleteBranchRequest} {targets : List Bytes} {s s' : ρ}
    (h : request.checkForcedTips git targets s = (none, s')) {entry : DeleteBranchEntry}
    (hEntry : entry ∈ request.entries) (hForce : entry.force = true) (hTarget : entry.name ∈ targets) :
    entry.expectedTipOid ≠ [] ∧ refs s (kHeads ++ entry.name) = some entry.expectedTipOid := by
  obtain ⟨hTip, out, hRun, hRead⟩ := passed_check h hEntry hForce hTarget
  rw [hGit.tips _ _ _ hRun] at hRead
  exact ⟨hTip, hRead⟩

theorem succeeded_deleteTargets {request : DeleteBranchRequest} (hLocal : request.isRemote = false)
    {before : Option (List Bytes)} {targets : List Bytes} {s : ρ}
    (h : (request.deleteTargets git before targets s).1.succeeded = true) :
    ∀ name ∈ targets, (refs s).hasBranch name ∧
      ¬ (refs (request.deleteTargets git before targets s).2).hasBranch name := by
  rw [deleteTargets] at h ⊢
  split at h
  · rename_i hRun
    intro name hName
    obtain ⟨command, hMem, names, hDeletes, hIn⟩ := exists_command hLocal hName
    have hCommands : ∀ command ∈ request.commands targets, ∃ names, DeletesLocal command names := fun command hMem =>
      (deletesLocal_of_mem hLocal hMem).imp fun _ hNames => hNames.2
    exact deleted_commands hGit hCommands hRun command hMem names hDeletes name hIn
  · cases h

theorem loses_deleteTargets {request : DeleteBranchRequest} (hLocal : request.isRemote = false)
    (before : Option (List Bytes)) (targets : List Bytes) (s : ρ) :
    (refs s).Loses targets (refs (request.deleteTargets git before targets s).2) := by
  have hLoses := loses_commands hGit (request.commands targets) (fun _ hMem => deletesLocal_of_mem hLocal hMem) s
  rw [deleteTargets]
  split
  · rename_i hRun
    rwa [hRun] at hLoses
  · rename_i hRun
    rw [hRun] at hLoses
    rwa [follows_refusal hGit.follows]

theorem loses_deleteChecked {request : DeleteBranchRequest} (hLocal : request.isRemote = false)
    (before : Option (List Bytes)) (targets : List Bytes) (s : ρ) :
    (refs s).Loses targets (refs (request.deleteChecked git before targets s).2) := by
  have hSame := follows_checkForcedTips hGit.follows request targets s
  rw [deleteChecked]
  split
  · rename_i hRun
    rw [hRun] at hSame
    rw [hSame]
    exact .refl _ _
  · rename_i hRun
    rw [hRun] at hSame
    rw [← hSame]
    exact loses_deleteTargets hGit hLocal before targets _

/-- A success takes every target and finds every forced one as it was counted. -/
theorem succeeded_deleteChecked {request : DeleteBranchRequest} (hLocal : request.isRemote = false)
    {before : Option (List Bytes)} {targets : List Bytes} {s : ρ}
    (h : (request.deleteChecked git before targets s).1.succeeded = true) :
    (∀ name ∈ targets, (refs s).hasBranch name ∧
      ¬ (refs (request.deleteChecked git before targets s).2).hasBranch name) ∧
      ∀ entry ∈ request.entries, entry.force = true → entry.name ∈ targets →
        entry.expectedTipOid ≠ [] ∧ refs s (kHeads ++ entry.name) = some entry.expectedTipOid := by
  have hSame := follows_checkForcedTips hGit.follows request targets s
  rw [deleteChecked] at h ⊢
  split at h
  · rename_i hRun
    have hFails := refused_check hRun
    rw [h] at hFails
    cases hFails
  · rename_i hRun
    rw [hRun] at hSame
    refine ⟨fun name hName => ?_, fun entry hEntry hForce hTarget => tips_of_check hGit hRun hEntry hForce hTarget⟩
    rw [← hSame]
    exact succeeded_deleteTargets hGit hLocal h name hName

theorem succeeded_run {request : DeleteBranchRequest} (hLocal : request.isRemote = false) {s : ρ}
    (hForeseen : request.Foreseen (refs s)) (h : (request.run git s).1.succeeded = true) :
    ∀ name ∈ request.names, ¬ (refs (request.run git s).2).hasBranch name := by
  have hListed := follows_readLocalBranchNames hGit.follows s
  rw [DeleteBranchRequest.run, hLocal, if_neg Bool.false_ne_true] at h ⊢
  split at h
  · rename_i first rest m hRead
    rw [hRead] at hListed
    have hBefore : ∀ short, short ∈ first :: rest ↔ (refs s).Lists short := by
      rw [readLocalBranchNames] at hRead
      split at hRead
      · cases (Prod.mk.inj hRead).1
      · rename_i hRun
        rw [← Option.some.inj (Prod.mk.inj hRead).1]
        exact hGit.lists _ _ _ hRun
    have hLive : ∀ name, name ∈ request.names.filter (first :: rest).contains ↔
        name ∈ request.names ∧ (refs s).Lists name := by
      intro name
      rw [List.mem_filter, List.contains_iff_mem, hBefore]
    dsimp only at h ⊢
    split at h
    · rename_i hEmpty
      -- no requested name is listed, so no entry blocks
      have hNone : ∀ name ∈ request.names, ¬ (refs s).Lists name := by
        intro name hName hLists
        have hMem := (hLive name).mpr ⟨hName, hLists⟩
        rw [List.isEmpty_iff.mp hEmpty] at hMem
        cases hMem
      rw [if_pos hEmpty, hListed]
      intro name hName hBranch
      rcases hForeseen with hSeen | ⟨entry, hEntry, hLists, -⟩
      · exact hNone name hName (hSeen name hName hBranch)
      · exact hNone entry.name (List.mem_map_of_mem hEntry) hLists
    · rename_i hSome
      have hLoses := loses_deleteChecked hGit hLocal (some (first :: rest))
        (request.names.filter (first :: rest).contains) m
      obtain ⟨hGone, hTips⟩ := succeeded_deleteChecked hGit hLocal h
      rw [if_neg hSome]
      rw [hListed] at hLoses hGone hTips
      intro name hName
      rcases hForeseen with hSeen | ⟨entry, hEntry, hLists, hBlocks⟩
      · by_cases hBranch : (refs s).hasBranch name
        · exact (hGone name ((hLive name).mpr ⟨hName, hSeen name hName hBranch⟩)).2
        · exact hLoses.gone hBranch
      · have hTarget := (hLive entry.name).mpr ⟨List.mem_map_of_mem hEntry, hLists⟩
        rcases hBlocks with hNone | ⟨hForce, hTip⟩
        · exact absurd (hGone entry.name hTarget).1 hNone
        · obtain ⟨hSent, hSame⟩ := hTips entry hEntry hForce hTarget
          exact (hTip.elim hSent fun hMoved => hMoved hSame).elim
  · intro name hName
    exact ((succeeded_deleteChecked hGit hLocal h).1 name hName).2

end Deleting

section Willing

variable {table : RefTable} {request : DeleteBranchRequest} {targets : List Bytes}

theorem listing_willing (table : RefTable) : ∃ names,
    readLocalBranchNames RefTable.git table = (some names, table) ∧
      ∀ short, short ∈ names ↔ table.refs.Lists short := by
  refine ⟨_, ?_, table.mem_listing⟩
  rw [readLocalBranchNames, RefTable.git, if_pos rfl]

theorem check_willing (hTips : ∀ entry ∈ request.entries, entry.force = true → entry.name ∈ targets →
    entry.expectedTipOid ≠ [] ∧ table.refs (kHeads ++ entry.name) = some entry.expectedTipOid) :
    request.checkForcedTips RefTable.git targets table = (none, table) := by
  have hForced : ∀ entry ∈ request.entries.filter fun entry => entry.force && targets.contains entry.name,
      entry.expectedTipOid ≠ [] ∧ table.refs (kHeads ++ entry.name) = some entry.expectedTipOid := by
    intro entry hMem
    rw [List.mem_filter, Bool.and_eq_true, List.contains_iff_mem] at hMem
    exact hTips entry hMem.1 hMem.2.1 hMem.2.2
  have hSent : (request.entries.filter fun entry => entry.force && targets.contains entry.name).find?
      (fun entry => entry.expectedTipOid.isEmpty) = none := by
    rw [List.find?_eq_none]
    exact fun entry hMem hEmpty => (hForced entry hMem).1 (List.isEmpty_iff.mp hEmpty)
  have hRun : RefTable.git table tipsCommand =
      (.ok (Lines.join LF (table.branches.reverse.map RefTable.tipLine)), table) := by
    rw [RefTable.git, if_neg (by decide), if_pos rfl]
  have hRead : (request.entries.filter fun entry => entry.force && targets.contains entry.name).find?
      (fun entry => tipOf (Lines.join LF (table.branches.reverse.map RefTable.tipLine)) entry.name !=
        some entry.expectedTipOid) = none := by
    rw [List.find?_eq_none]
    intro entry hMem
    rw [RefTable.tipOf_tips, (hForced entry hMem).2, bne_self_eq_false]
    exact Bool.false_ne_true
  rw [checkForcedTips]
  simp only
  split
  · rfl
  · rw [hSent]
    dsimp only
    rw [hRun]
    dsimp only
    rw [hRead]

theorem runCommands_willing (commands : List GitCommand)
    (hDeletes : ∀ command ∈ commands, ∃ names, DeletesLocal command names ∧ ∀ name ∈ names, table.refs.hasBranch name)
    (hApart : commands.Pairwise fun a b => ∀ name ∈ a.drop 2, name ∉ b.drop 2) :
    (runCommands RefTable.git commands table).1 = none := by
  induction commands generalizing table with
  | nil => rfl
  | cons first rest ih =>
    obtain ⟨hFirst, hRest⟩ := List.pairwise_cons.mp hApart
    obtain ⟨names, ⟨flag, hFlag, rfl⟩, hThere⟩ := hDeletes first List.mem_cons_self
    rw [runCommands, RefTable.git_branch, if_pos (List.all_eq_true.mpr hThere)]
    refine ih (fun command hMem => ?_) hRest
    obtain ⟨restNames, ⟨restFlag, hRestFlag, rfl⟩, hRestThere⟩ := hDeletes command (List.mem_cons_of_mem _ hMem)
    refine ⟨restNames, ⟨restFlag, hRestFlag, rfl⟩, fun name hName => ?_⟩
    have hLoses := RefTable.namesRefs_git.loses table flag names hFlag
    rw [RefTable.git_branch] at hLoses
    exact hLoses.kept (fun hIn => hFirst _ hMem name hIn hName) (hRestThere name hName)

theorem commands_apart (request : DeleteBranchRequest) (targets : List Bytes) :
    (request.commands targets).Pairwise fun a b => ∀ name ∈ a.drop 2, name ∉ b.drop 2 := by
  rw [commands]
  split
  · exact List.pairwise_singleton _ _
  · rw [List.pairwise_append]
    refine ⟨?_, ?_, fun a hForced b hPlain name hName => ?_⟩
    · split
      · exact .nil
      · exact List.pairwise_singleton _ _
    · split
      · exact .nil
      · exact List.pairwise_singleton _ _
    · split at hForced
      · cases hForced
      · split at hPlain
        · cases hPlain
        · obtain rfl := List.mem_singleton.mp hForced
          obtain rfl := List.mem_singleton.mp hPlain
          have hIs := (List.mem_filter.mp hName).2
          intro hOther
          have hNot := (List.mem_filter.mp hOther).2
          rw [hIs] at hNot
          cases hNot

theorem deleteChecked_willing (hLocal : request.isRemote = false)
    (hTips : ∀ entry ∈ request.entries, entry.force = true → entry.name ∈ targets →
      entry.expectedTipOid ≠ [] ∧ table.refs (kHeads ++ entry.name) = some entry.expectedTipOid)
    (hThere : ∀ name ∈ targets, table.refs.hasBranch name) (before : Option (List Bytes)) :
    (request.deleteChecked RefTable.git before targets table).1.succeeded = true := by
  have hCommands : ∀ command ∈ request.commands targets,
      ∃ names, DeletesLocal command names ∧ ∀ name ∈ names, table.refs.hasBranch name := by
    intro command hMem
    obtain ⟨names, hNames, hDeletes⟩ := deletesLocal_of_mem hLocal hMem
    exact ⟨names, hDeletes, fun name hName => hThere name (hNames hName)⟩
  have hRan : (runCommands RefTable.git (request.commands targets) table).1 = none :=
    runCommands_willing (request.commands targets) hCommands (commands_apart request targets)
  rw [deleteChecked, check_willing hTips]
  dsimp only
  rw [deleteTargets]
  split
  · rfl
  · rename_i hRun
    rw [hRun] at hRan
    cases hRan

/-- A git that refuses nothing leaves a branch that is not listed by its name. -/
theorem left_of_unforeseen (hLocal : request.isRemote = false) (h : ¬ request.Foreseen table.refs) :
    (request.run RefTable.git table).1.succeeded = true ∧
      ∃ name ∈ request.names, (request.run RefTable.git table).2.refs.hasBranch name := by
  rw [Foreseen, not_or] at h
  obtain ⟨hUnseen, hWilling⟩ := h
  obtain ⟨name, hName, hBranch, hHidden⟩ :
      ∃ name ∈ request.names, table.refs.hasBranch name ∧ ¬ table.refs.Lists name := by
    by_contra hNone
    exact hUnseen fun name hName hBranch => by_contra fun hHidden => hNone ⟨name, hName, hBranch, hHidden⟩
  have hFine : ∀ entry ∈ request.entries, table.refs.Lists entry.name → table.refs.hasBranch entry.name ∧
      (entry.force = true → entry.expectedTipOid ≠ [] ∧
        table.refs (kHeads ++ entry.name) = some entry.expectedTipOid) := by
    intro entry hEntry hLists
    have hNot := fun hBlocks => hWilling ⟨entry, hEntry, hLists, hBlocks⟩
    refine ⟨not_not.mp fun hNone => hNot (.inl hNone), fun hForce => ⟨fun hEmpty => ?_, not_not.mp fun hMoved => ?_⟩⟩
    · exact hNot (.inr ⟨hForce, .inl hEmpty⟩)
    · exact hNot (.inr ⟨hForce, .inr hMoved⟩)
  obtain ⟨names, hRead, hNames⟩ := listing_willing table
  have hSome := (hNames _).mpr ⟨name, hBranch, rfl⟩
  cases names with
  | nil => cases hSome
  | cons first rest =>
    have hLive : ∀ name, name ∈ request.names.filter (first :: rest).contains ↔
        name ∈ request.names ∧ table.refs.Lists name := by
      intro name
      rw [List.mem_filter, List.contains_iff_mem, hNames]
    rw [DeleteBranchRequest.run, hLocal, if_neg Bool.false_ne_true, hRead]
    dsimp only
    split
    · exact ⟨rfl, name, hName, hBranch⟩
    · refine ⟨deleteChecked_willing hLocal (fun entry hEntry hForce hTarget => ?_) (fun target hTarget => ?_) _,
        name, hName, (loses_deleteChecked RefTable.namesRefs_git hLocal _ _ table).kept (fun hTarget => ?_) hBranch⟩
      · exact (hFine entry hEntry ((hLive _).mp hTarget).2).2 hForce
      · obtain ⟨hRequested, hLists⟩ := (hLive target).mp hTarget
        obtain ⟨entry, hEntry, rfl⟩ := List.mem_map.mp hRequested
        exact (hFine entry hEntry hLists).1
      · exact hHidden ((hLive name).mp hTarget).2

end Willing

/-- For every repository, and any git that may refuse. -/
theorem deletes_every_name_iff (request : DeleteBranchRequest) (hLocal : request.isRemote = false) (table : RefTable) :
    request.DeletesEveryName table.refs ↔ request.Foreseen table.refs := by
  constructor
  · intro hDeletes
    by_contra hUnforeseen
    obtain ⟨hSucceeded, name, hName, hLeft⟩ := left_of_unforeseen hLocal hUnforeseen
    exact hDeletes RefTable RefTable.git RefTable.refs RefTable.namesRefs_git table rfl hSucceeded name hName hLeft
  · intro hForeseen ρ git refs hGit s hWas hSucceeded
    exact succeeded_run hGit hLocal (hWas ▸ hForeseen) hSucceeded

section Sample

/-- A tag has the name of the branch `x`. -/
def taggedTable : RefTable where
  entries :=
    [(ascii "refs/heads/main", ascii "c0ffee"), (ascii "refs/heads/x", ascii "beef"),
      (ascii "refs/tags/x", ascii "c0ffee")]
  named := by decide
  valued := by decide

theorem deletes_every_name_main : ({ entries := [{ name := ascii "main" }] } : DeleteBranchRequest).DeletesEveryName
    taggedTable.refs := by
  refine (deletes_every_name_iff { entries := [{ name := ascii "main" }] } rfl taggedTable).mpr (.inl ?_)
  intro name hName _
  obtain rfl := List.mem_singleton.mp hName
  exact ⟨ascii "main", by decide, by decide⟩

/-- The branch `x` is listed as `heads/x`, counts as deleted, and is left. -/
theorem tagged_branch_left : ¬ ∀ (request : DeleteBranchRequest) (was : Refs), request.isRemote = false →
    request.DeletesEveryName was := by
  intro h
  have hGone := h { entries := [{ name := ascii "x" }] } taggedTable.refs rfl RefTable RefTable.git RefTable.refs
    RefTable.namesRefs_git taggedTable rfl (by decide) (ascii "x") (by decide)
  exact hGone (by decide)

end Sample

end DeleteBranchRequest

end GitBranchManager
