import GitBranchManager.Refs.OperationSteps

/-! # Refs are read again after an operation

A local delete lists the branches before and after it, so that it sees what a command that fails
has deleted.
-/

namespace GitBranchManager

open Library

variable {ρ : Type} {git : ProcessRunner ρ} {refs : ρ → Refs}

section Measured

variable (hGit : ReadsRefs git refs)

include hGit

theorem mem_readLocalBranchNames {t : Traced ρ GitCommand} (hOrdinary : (refs t.state).Ordinary)
    (hAnswers : listCommand ∉ (readLocalBranchNames (tracing git) t).2.failed) :
    ∃ names, (readLocalBranchNames (tracing git) t).1 = some names ∧
      ∀ name, name ∈ names ↔ (refs t.state).hasBranch name := by
  rw [readLocalBranchNames] at hAnswers ⊢
  split at hAnswers
  · rename_i hRun
    exact absurd (mem_failed_of_error hRun) hAnswers
  · rename_i out _ hRun
    exact ⟨branchNames out, rfl, hGit.lists _ _ _ (run_of_tracing hRun) hOrdinary⟩

namespace DeleteBranchRequest

theorem loses_runCommands {targets : List Bytes}
    (hValid : ∀ name ∈ targets, RefStore.isValidBranchName name = true) (commands : List GitCommand)
    (hDeletes : ∀ command ∈ commands, ∃ flag names, (flag = ascii "-d" ∨ flag = ascii "-D") ∧ names ⊆ targets ∧
      command = ascii "branch" :: flag :: names) (t : Traced ρ GitCommand) :
    (refs t.state).Loses targets (refs (runCommands (tracing git) commands t).2.state) := by
  induction commands generalizing t with
  | nil => exact .refl _ _
  | cons first rest ih =>
    obtain ⟨flag, names, hFlag, hNames, hIs⟩ := hDeletes first List.mem_cons_self
    have hFirst : (refs t.state).Loses targets (refs (tracing git t first).2.state) := by
      rw [state_tracing, hIs]
      exact (hGit.deletes t.state flag names hFlag fun name hName => hValid name (hNames hName)).mono hNames
    rw [runCommands]
    split
    · rename_i hRun
      rwa [hRun] at hFirst
    · rename_i hRun
      rw [hRun] at hFirst
      exact hFirst.trans (ih (fun command hMem => hDeletes command (List.mem_cons_of_mem _ hMem)) _)

theorem failed_deleteChecked (request : DeleteBranchRequest) (before : Option (List Bytes)) (targets : List Bytes)
    (t : Traced ρ GitCommand) : t.failed ⊆ (request.deleteChecked (tracing git) before targets t).2.failed := by
  have hChecked := (follows_checkForcedTips (follows_tracing hGit) request targets t).failed
  rw [deleteChecked]
  split
  · rename_i hRun
    rwa [hRun] at hChecked
  · rename_i t' hRun
    rw [hRun] at hChecked
    have hDeleted := failed_runCommands git (request.commands targets) t'
    rw [deleteTargets]
    split
    · rename_i hRun
      rw [hRun] at hDeleted
      exact List.Subset.trans hChecked hDeleted
    · rename_i hRun
      rw [hRun] at hDeleted
      exact List.Subset.trans hChecked (List.Subset.trans hDeleted
        (follows_refusal (follows_tracing hGit) request before targets _ _ _).failed)

/-- What a refused command deleted is seen in the second listing. -/
theorem measured_refusal (request : DeleteBranchRequest) {before targets : List Bytes} {t : Traced ρ GitCommand}
    {was : Refs} (hLoses : was.Loses targets (refs t.state)) (hOrdinary : was.Ordinary) (command : GitCommand)
    (error : CommandError)
    (hAnswers : listCommand ∉ (request.refusal (tracing git) (some before) targets command error t).2.failed) :
    (request.refusal (tracing git) (some before) targets command error t).1.mutatedRefs = true ∨
      refs (request.refusal (tracing git) (some before) targets command error t).2.state = was := by
  have hSame := (follows_refusal (follows_tracing hGit) request (some before) targets command error t).same
  by_cases hChanged : refs t.state = was
  · exact .inr (hSame.trans hChanged)
  · left
    have hExplained := follows_explain (follows_tracing hGit) targets error
      (!request.isRemote && command[1]? == some (ascii "-D"))
      (readDeleted (tracing git) (some before) targets t).2
    have hListed := fun hFailed => hAnswers (hExplained.failed hFailed)
    rw [readDeleted_some] at hListed
    obtain ⟨after, hRead, hAfter⟩ := mem_readLocalBranchNames hGit (hLoses.ordinary hOrdinary) hListed
    obtain ⟨name, hName, hGone⟩ := hLoses.exists_gone hChanged
    have hMem : name ∈ (readDeleted (tracing git) (some before) targets t).1 := by
      rw [readDeleted_some, hRead, Option.elim_some, List.mem_filter, Bool.not_eq_true', List.contains_eq_mem,
        decide_eq_false_iff_not, hAfter]
      exact ⟨hName, hGone⟩
    rw [refusal, Bool.not_eq_true', List.isEmpty_eq_false_iff]
    exact List.ne_nil_of_mem hMem

/-- The operation succeeds, or is seen to change refs, or changes none. -/
def Measured (refs : ρ → Refs) (t : Traced ρ GitCommand) (result : OperationOutcome × Traced ρ GitCommand) : Prop :=
  result.1.succeeded = true ∨ result.1.mutatedRefs = true ∨ refs result.2.state = refs t.state

variable {t : Traced ρ GitCommand} (hOrdinary : (refs t.state).Ordinary)

include hOrdinary

theorem measured_deleteTargets {request : DeleteBranchRequest} (hLocal : request.isRemote = false)
    {before targets : List Bytes} (hThere : ∀ name ∈ targets, (refs t.state).hasBranch name)
    (hAnswers : listCommand ∉ (request.deleteTargets (tracing git) (some before) targets t).2.failed) :
    Measured refs t (request.deleteTargets (tracing git) (some before) targets t) := by
  have hLoses := loses_runCommands hGit (fun name hName => hOrdinary.valid name (hThere name hName))
    (request.commands targets) (fun _ hMem => deletes_of_mem_commands hLocal hMem) t
  rw [deleteTargets] at hAnswers ⊢
  split at hAnswers
  · exact .inl rfl
  · rename_i hRun
    rw [hRun] at hLoses
    exact .inr (measured_refusal hGit request hLoses hOrdinary _ _ hAnswers)

theorem measured_deleteChecked {request : DeleteBranchRequest} (hLocal : request.isRemote = false)
    {before targets : List Bytes} (hThere : ∀ name ∈ targets, (refs t.state).hasBranch name)
    (hAnswers : listCommand ∉ (request.deleteChecked (tracing git) (some before) targets t).2.failed) :
    Measured refs t (request.deleteChecked (tracing git) (some before) targets t) := by
  have hChecked := follows_checkForcedTips (follows_tracing hGit) request targets t
  rw [deleteChecked] at hAnswers ⊢
  split at hAnswers
  · rename_i hRun
    rw [hRun] at hChecked
    exact .inr (.inr hChecked.same)
  · rename_i hRun
    rw [hRun] at hChecked
    rw [Measured, ← hChecked.same]
    rw [← hChecked.same] at hOrdinary hThere
    exact measured_deleteTargets hGit hOrdinary hLocal hThere hAnswers

theorem measured_run {request : DeleteBranchRequest} (hLocal : request.isRemote = false)
    (hSome : ∃ name, (refs t.state).hasBranch name)
    (hAnswers : listCommand ∉ (request.run (tracing git) t).2.failed) :
    Measured refs t (request.run (tracing git) t) := by
  have hReads := follows_readLocalBranchNames (follows_tracing hGit) t
  have hNames := mem_readLocalBranchNames hGit hOrdinary (t := t)
  rw [DeleteBranchRequest.run, hLocal, if_neg Bool.false_ne_true] at hAnswers ⊢
  split at hAnswers
  · rename_i first rest t' hRead
    rw [hRead] at hReads hNames
    dsimp only at hAnswers ⊢
    split
    · exact .inl rfl
    · rename_i hLive
      rw [if_neg hLive] at hAnswers
      obtain ⟨_, hIs, hThere⟩ := hNames fun hFailed => hAnswers (failed_deleteChecked hGit request _ _ t' hFailed)
      obtain rfl := Option.some.inj hIs
      rw [Measured, ← hReads.same]
      rw [← hReads.same] at hOrdinary hThere
      refine measured_deleteChecked hGit hOrdinary hLocal (fun name hName => ?_) hAnswers
      exact (hThere name).mp (List.contains_iff_mem.mp (List.mem_filter.mp hName).2)
  · rename_i listed t' hNone hRead
    -- the listing answered, and one branch is listed at least
    rw [hRead] at hNames
    obtain ⟨names, rfl, hThere⟩ := hNames fun hFailed => hAnswers (failed_deleteChecked hGit request _ _ t' hFailed)
    obtain ⟨name, hName⟩ := hSome
    cases names with
    | nil => cases (hThere name).mpr hName
    | cons first rest => exact absurd rfl (hNone first rest)

end DeleteBranchRequest

end Measured

namespace RefOperation

def deletesLocal : RefOperation → Bool
  | deleteBranch request => !request.isRemote
  | _ => false

theorem mem_completion_of_succeeded (op : RefOperation) {outcome : OperationOutcome}
    (h : outcome.succeeded = true) : SessionCall.refreshHistory ∈ op.completion outcome := by
  cases op <;> simp [completion, submitOperation, submitWorkingCopyOperation, h]

theorem mem_completion_of_mutated (request : DeleteBranchRequest) {outcome : OperationOutcome}
    (h : outcome.mutatedRefs = true) : SessionCall.refreshHistory ∈ (deleteBranch request).completion outcome := by
  simp [completion, submitOperation, h]

theorem settled_run (hGit : ReadsRefs git refs) (op : RefOperation) (caseInsensitiveFilesystem : Bool)
    (t : Traced ρ GitCommand) : Settled refs t (op.run caseInsensitiveFilesystem (tracing git) t) := by
  cases op with
  | createBranch request => exact request.settled_run t
  | renameBranch request => exact request.settled_run caseInsensitiveFilesystem t
  | deleteBranch request => exact request.settled_run hGit t
  | deleteTag request => exact request.settled_run t
  | pruneRemote request => exact request.settled_run t

end RefOperation

section Sample

/-- The branch `b` is checked out, `a` may be deleted; git answers so many listings of the branches. -/
structure SampleRepo where
  a : Bool := true
  listings : Nat

def sampleBranches (s : SampleRepo) : List Bytes := if s.a then [ascii "a", ascii "b"] else [ascii "b"]

def sampleRefs (s : SampleRepo) : Refs := fun ref =>
  if ref = kHeads ++ ascii "b" ∨ ref = kHeads ++ ascii "a" ∧ s.a = true then some (ascii "c0ffee") else none

/-- Answers a listing, and deletes what it can. -/
def sampleGit : ProcessRunner SampleRepo := fun s command =>
  let names := command.drop 2
  if command = listCommand then
    match s.listings with
    | 0 => (.error { message := ascii "Git timed out" }, s)
    | listings + 1 => (.ok (Lines.join LF (sampleBranches s)), { s with listings })
  else if command.head? = some (ascii "branch") then
    (if names.contains (ascii "b") then
      .error { message := ascii "Git reported an error", detail := ascii "branch 'b' used by worktree at '/repo'" }
    else .ok [], { s with a := s.a && !names.contains (ascii "a") })
  else (.ok [], s)

theorem hasBranch_sampleRefs (s : SampleRepo) (name : Bytes) :
    (sampleRefs s).hasBranch name ↔ name ∈ sampleBranches s := by
  rw [Refs.hasBranch, sampleRefs, sampleBranches]
  cases s.a <;> simp [or_comm]

theorem ordinary_sampleRefs (s : SampleRepo) : (sampleRefs s).Ordinary := by
  have hOthers : ∀ name ∈ [ascii "a", ascii "b"], RefStore.isValidBranchName name = true ∧
      ∀ other ∈ Refs.otherReadings name, other ≠ kHeads ++ ascii "b" ∧ other ≠ kHeads ++ ascii "a" := by decide
  have hNames : ∀ name, (sampleRefs s).hasBranch name → name ∈ [ascii "a", ascii "b"] := by
    intro name hBranch
    rw [hasBranch_sampleRefs, sampleBranches] at hBranch
    split at hBranch
    · exact hBranch
    · exact List.mem_cons_of_mem _ hBranch
  refine ⟨fun name hBranch => (hOthers name (hNames name hBranch)).1, fun name hBranch other hOther => ?_⟩
  obtain ⟨hB, hA⟩ := (hOthers name (hNames name hBranch)).2 other hOther
  rw [sampleRefs, if_neg (by simp [hA, hB])]

theorem branchNames_sampleBranches (s : SampleRepo) :
    branchNames (Lines.join LF (sampleBranches s)) = sampleBranches s := by
  rw [sampleBranches]
  cases s.a
  · rfl
  · rfl

theorem readsRefs_sampleGit : ReadsRefs sampleGit sampleRefs where
  reads s command hReads := by
    rw [sampleGit]
    split
    · split
      · rfl
      · rfl
    · split
      · rename_i hBranch
        exact absurd hBranch (ne_branch_of_readsOnly hReads)
      · rfl
  lists s out s' hRun _ name := by
    rw [sampleGit, if_pos rfl] at hRun
    split at hRun
    · cases (Prod.mk.inj hRun).1
    · obtain rfl := Except.ok.inj (Prod.mk.inj hRun).1
      rw [branchNames_sampleBranches, hasBranch_sampleRefs]
  deletes s flag names _ _ ref := by
    have hOther : ascii "branch" :: flag :: names ≠ listCommand := fun hList =>
      absurd (List.cons.inj hList).1 (by decide)
    have hState : (sampleGit s (ascii "branch" :: flag :: names)).2 =
        { s with a := s.a && !names.contains (ascii "a") } := by
      rw [sampleGit, if_neg hOther, if_pos List.head?_cons]
      rfl
    have hNotB : kHeads ++ ascii "a" ≠ kHeads ++ ascii "b" := by decide
    rw [hState]
    by_cases hGone : ref = kHeads ++ ascii "a" ∧ ascii "a" ∈ names
    · exact .inr ⟨⟨_, hGone.2, hGone.1⟩, by simp [sampleRefs, hGone.1, hGone.2, hNotB]⟩
    · left
      rw [sampleRefs, sampleRefs]
      by_cases hA : ref = kHeads ++ ascii "a"
      · have hKept : ascii "a" ∉ names := fun hIn => hGone ⟨hA, hIn⟩
        simp [hKept]
      · simp [hA]

/-- Both branches are to be deleted. -/
def deleteBoth : RefOperation := .deleteBranch { entries := [{ name := ascii "a" }, { name := ascii "b" }] }

end Sample

end GitBranchManager
