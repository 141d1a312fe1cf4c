import GitBranchManager.Refs.RefOperations

/-! # How a ref operation ends

Commands that only read change no ref. Where an operation does not succeed and a ref has
changed, it gave up at a command.
-/

namespace GitBranchManager

open Library

variable {ρ : Type}

/-- An operation gives up when such a command fails. -/
def heeded (command : GitCommand) : Bool :=
  !readsOnly command && command.take 2 != [ascii "branch", ascii "--unset-upstream"]

variable {git : ProcessRunner ρ} {refs : ρ → Refs}

/-- Commands that only read. -/
structure OnlyReads (refs : ρ → Refs) (t t' : Traced ρ GitCommand) : Prop where
  same : refs t'.state = refs t.state
  failed : t.failed ⊆ t'.failed

theorem OnlyReads.refl (t : Traced ρ GitCommand) : OnlyReads refs t t := ⟨rfl, List.Subset.refl _⟩

theorem OnlyReads.trans {t t' t'' : Traced ρ GitCommand} (h : OnlyReads refs t t') (h' : OnlyReads refs t' t'') :
    OnlyReads refs t t'' := ⟨h'.same.trans h.same, fun _ hFailed => h'.failed (h.failed hFailed)⟩

theorem follows_tracing (hGit : ReadsRefs git refs) :
    Follows (tracing git) (fun command => readsOnly command = true) (OnlyReads refs) where
  refl := .refl
  trans := .trans
  command t command hReads := by
    refine ⟨?_, failed_tracing git t command⟩
    rw [state_tracing]
    exact hGit.reads _ _ hReads

section Reads

variable {R : ρ → ρ → Prop} (hFollows : Follows git (fun command => readsOnly command = true) R)

include hFollows

theorem follows_recordUndoPoint (s : ρ) : R s (recordUndoPoint git s) := by
  rw [recordUndoPoint]
  split
  · rename_i hRun
    exact hFollows.of_eq hRun rfl
  · rename_i hRun
    have hFirst := hFollows.of_eq hRun rfl
    split
    · exact hFollows.trans hFirst (hFollows.command _ _ rfl)
    · exact hFirst

theorem follows_readLocalBranchNames (s : ρ) : R s (readLocalBranchNames git s).2 := by
  rw [readLocalBranchNames]
  split
  · rename_i hRun
    exact hFollows.of_eq hRun rfl
  · rename_i hRun
    exact hFollows.of_eq hRun rfl

theorem follows_refineSummary (name summary : Bytes) (s : ρ) :
    R s (refineSummaryFromRemoteRefs git name summary s).2 := by
  rw [refineSummaryFromRemoteRefs]
  simp only
  split
  · rename_i hRun
    exact hFollows.of_eq hRun rfl
  · rename_i hRun
    have hFirst := hFollows.of_eq hRun rfl
    split
    · exact hFirst
    · exact hFirst

namespace DeleteBranchRequest

theorem follows_checkForcedTips (request : DeleteBranchRequest) (targets : List Bytes) (s : ρ) :
    R s (request.checkForcedTips git targets s).2 := by
  rw [checkForcedTips]
  simp only
  split
  · exact hFollows.refl s
  · split
    · exact hFollows.refl s
    · split
      · rename_i hRun
        exact hFollows.of_eq hRun rfl
      · rename_i hRun
        have hFirst := hFollows.of_eq hRun rfl
        split
        · exact hFirst
        · exact hFirst

theorem follows_readDeleted (before : Option (List Bytes)) (targets : List Bytes) (s : ρ) :
    R s (readDeleted git before targets s).2 := by
  have hListed := follows_readLocalBranchNames hFollows s
  rw [readDeleted.eq_def]
  split
  · exact hFollows.refl s
  · split
    · rename_i hRead
      rwa [hRead] at hListed
    · rename_i hRead
      rwa [hRead] at hListed

theorem follows_explain (targets : List Bytes) (error : CommandError) (failedForced : Bool) (s : ρ) :
    R s (explain git targets error failedForced s).2.2 := by
  rw [explain.eq_def]
  dsimp only
  split
  · split
    · exact follows_refineSummary hFollows _ _ s
    · exact hFollows.refl s
  · exact hFollows.refl s

theorem follows_refusal (request : DeleteBranchRequest) (before : Option (List Bytes)) (targets : List Bytes)
    (command : GitCommand) (error : CommandError) (s : ρ) :
    R s (request.refusal git before targets command error s).2 :=
  hFollows.trans (follows_readDeleted hFollows before targets s) (follows_explain hFollows targets error _ _)

end DeleteBranchRequest

end Reads

/-- The operation succeeds, or no ref changes, or it gave up at a command. -/
def Settled (refs : ρ → Refs) (t : Traced ρ GitCommand) (result : OperationOutcome × Traced ρ GitCommand) : Prop :=
  result.1.succeeded = true ∨ refs result.2.state = refs t.state ∨ ∃ command ∈ result.2.failed, heeded command = true

theorem settled_of_error {t t' t'' : Traced ρ GitCommand} {command : GitCommand} {e : CommandError}
    {outcome : OperationOutcome} (h : tracing git t' command = (.error e, t'')) (hHeeded : heeded command = true) :
    Settled refs t (outcome, t'') := .inr (.inr ⟨command, mem_failed_of_error h, hHeeded⟩)

section Operations

theorem CreateBranchRequest.settled_run (request : CreateBranchRequest) (t : Traced ρ GitCommand) :
    Settled refs t (request.run (tracing git) t) := by
  rw [CreateBranchRequest.run]
  split
  · exact .inr (.inl rfl)
  · rename_i hValid
    split
    · rename_i hRun
      refine settled_of_error hRun ?_
      -- a valid name is no option
      have hName : request.name ≠ ascii "--unset-upstream" := fun hOption => hValid (by rw [hOption]; rfl)
      have hReads : readsOnly request.args = false := rfl
      have hTake : request.args.take 2 = [ascii "branch", request.name] := rfl
      rw [heeded, hReads, hTake, Bool.not_false, Bool.true_and, bne_iff_ne]
      exact fun hOption => hName (List.cons.inj (List.cons.inj hOption).2).1
    · split
      · split
        · rename_i hRun
          exact settled_of_error hRun rfl
        · exact .inl rfl
      · exact .inl rfl

theorem RenameBranchRequest.settled_finish (request : RenameBranchRequest) (t t' : Traced ρ GitCommand) :
    Settled refs t (request.finishLocalRename (tracing git) t') := by
  rw [finishLocalRename]
  split
  · exact .inl rfl
  · split
    · rename_i hRun
      exact settled_of_error hRun rfl
    · split
      · rename_i hRun
        exact settled_of_error hRun rfl
      · exact .inl rfl

theorem RenameBranchRequest.settled_run (request : RenameBranchRequest) (caseInsensitiveFilesystem : Bool)
    (t : Traced ρ GitCommand) : Settled refs t (request.run caseInsensitiveFilesystem (tracing git) t) := by
  rw [RenameBranchRequest.run]
  split
  · exact .inr (.inl rfl)
  · split
    · split
      · rename_i hRun
        exact settled_of_error hRun rfl
      · split
        · rename_i hRun
          exact settled_of_error hRun rfl
        · exact request.settled_finish t _
    · split
      · rename_i hRun
        refine settled_of_error hRun ?_
        cases request.force
        · rfl
        · rfl
      · exact request.settled_finish t _

theorem DeleteTagRequest.settled_run (request : DeleteTagRequest) (t : Traced ρ GitCommand) :
    Settled refs t (request.run (tracing git) t) := by
  rw [DeleteTagRequest.run]
  split
  · rename_i hRun
    exact settled_of_error hRun rfl
  · split
    · exact .inl rfl
    · split
      · rename_i hRun
        exact settled_of_error hRun rfl
      · exact .inl rfl

theorem PruneRemoteRequest.settled_run (request : PruneRemoteRequest) (t : Traced ρ GitCommand) :
    Settled refs t (request.run (tracing git) t) := by
  rw [PruneRemoteRequest.run]
  split
  · exact .inl rfl
  · split
    · rename_i hRun
      exact settled_of_error hRun rfl
    · exact .inl rfl

namespace DeleteBranchRequest

theorem heeded_of_mem_commands {request : DeleteBranchRequest} {targets : List Bytes} {command : GitCommand}
    (h : command ∈ request.commands targets) : heeded command = true := by
  rw [commands] at h
  split at h
  · obtain rfl := List.mem_singleton.mp h
    rfl
  · rcases List.mem_append.mp h with hForced | hPlain
    · split at hForced
      · cases hForced
      · obtain rfl := List.mem_singleton.mp hForced
        rfl
    · split at hPlain
      · cases hPlain
      · obtain rfl := List.mem_singleton.mp hPlain
        rfl

theorem deletes_of_mem_commands {request : DeleteBranchRequest} (hLocal : request.isRemote = false)
    {targets : List Bytes} {command : GitCommand} (h : command ∈ request.commands targets) :
    ∃ flag names, (flag = ascii "-d" ∨ flag = ascii "-D") ∧ names ⊆ targets ∧
      command = ascii "branch" :: flag :: names := by
  rw [commands, hLocal, if_neg Bool.false_ne_true] at h
  rcases List.mem_append.mp h with hForced | hPlain
  · split at hForced
    · cases hForced
    · exact ⟨_, _, .inr rfl, (List.filter_subset_self _), List.mem_singleton.mp hForced⟩
  · split at hPlain
    · cases hPlain
    · exact ⟨_, _, .inl rfl, (List.filter_subset_self _), List.mem_singleton.mp hPlain⟩

/-- What the check lets pass was read to be what the entries force. -/
theorem passed_check {request : DeleteBranchRequest} {targets : List Bytes} {s s' : ρ}
    (h : request.checkForcedTips git targets s = (none, s')) {entry : DeleteBranchEntry}
    (hEntry : entry ∈ request.entries) (hForce : entry.force = true) (hTarget : entry.name ∈ targets) :
    entry.expectedTipOid ≠ [] ∧
      ∃ out, git s tipsCommand = (.ok out, s') ∧ tipOf out entry.name = some entry.expectedTipOid := by
  have hMem : entry ∈ request.entries.filter fun entry => entry.force && targets.contains entry.name := by
    rw [List.mem_filter, Bool.and_eq_true, List.contains_iff_mem]
    exact ⟨hEntry, hForce, hTarget⟩
  rw [checkForcedTips] at h
  simp only at h
  split at h
  · rename_i hNone
    rw [List.isEmpty_iff.mp hNone] at hMem
    cases hMem
  · split at h
    · cases (Prod.mk.inj h).1
    · rename_i hTips
      have hTip := List.find?_eq_none.mp hTips entry hMem
      split at h
      · cases (Prod.mk.inj h).1
      · rename_i out _ hRun
        split at h
        · cases (Prod.mk.inj h).1
        · rename_i hSame
          obtain rfl := (Prod.mk.inj h).2
          have hRead := List.find?_eq_none.mp hSame entry hMem
          rw [Bool.not_eq_true, bne_eq_false_iff_eq] at hRead
          exact ⟨fun hEmpty => hTip (List.isEmpty_iff.mpr hEmpty), out, hRun, hRead⟩

theorem readDeleted_some (git : ProcessRunner ρ) (before targets : List Bytes) (s : ρ) :
    readDeleted git (some before) targets s =
      ((readLocalBranchNames git s).1.elim [] fun after => targets.filter fun name => !after.contains name,
        (readLocalBranchNames git s).2) := by
  rw [readDeleted.eq_def]
  dsimp only
  split
  · rename_i hRead
    rw [hRead]
    rfl
  · rename_i hRead
    rw [hRead]
    rfl

theorem mem_of_runCommands {commands : List GitCommand} {t t' : Traced ρ GitCommand} {command : GitCommand}
    {e : CommandError} (h : runCommands (tracing git) commands t = (some (command, e), t')) :
    command ∈ commands ∧ command ∈ t'.failed := by
  induction commands generalizing t with
  | nil => cases (Prod.mk.inj h).1
  | cons first rest ih =>
    rw [runCommands] at h
    split at h
    · rename_i hRun
      obtain ⟨hFailure, rfl⟩ := Prod.mk.inj h
      obtain ⟨rfl, -⟩ := Prod.mk.inj (Option.some.inj hFailure)
      exact ⟨List.mem_cons_self, mem_failed_of_error hRun⟩
    · obtain ⟨hMem, hFailed⟩ := ih h
      exact ⟨List.mem_cons_of_mem _ hMem, hFailed⟩

theorem failed_runCommands (git : ProcessRunner ρ) (commands : List GitCommand) (t : Traced ρ GitCommand) :
    t.failed ⊆ (runCommands (tracing git) commands t).2.failed := by
  induction commands generalizing t with
  | nil => exact List.Subset.refl _
  | cons first rest ih =>
    have hFirst := failed_tracing git t first
    rw [runCommands]
    split
    · rename_i hRun
      rwa [hRun] at hFirst
    · rename_i hRun
      rw [hRun] at hFirst
      exact List.Subset.trans hFirst (ih _)

section Reads

variable (hGit : ReadsRefs git refs)

include hGit

theorem settled_deleteTargets (request : DeleteBranchRequest) (before : Option (List Bytes)) (targets : List Bytes)
    (t t' : Traced ρ GitCommand) : Settled refs t (request.deleteTargets (tracing git) before targets t') := by
  rw [deleteTargets]
  split
  · exact .inl rfl
  · rename_i command error _ hRun
    obtain ⟨hMem, hFailed⟩ := mem_of_runCommands hRun
    exact .inr (.inr ⟨command,
      (follows_refusal (follows_tracing hGit) request before targets command error _).failed hFailed,
      heeded_of_mem_commands hMem⟩)

theorem settled_deleteChecked (request : DeleteBranchRequest) (before : Option (List Bytes)) (targets : List Bytes)
    {t t' : Traced ρ GitCommand} (hReads : OnlyReads refs t t') :
    Settled refs t (request.deleteChecked (tracing git) before targets t') := by
  have hChecked := follows_checkForcedTips (follows_tracing hGit) request targets t'
  rw [deleteChecked]
  split
  · rename_i hRun
    rw [hRun] at hChecked
    exact .inr (.inl (hReads.trans hChecked).same)
  · exact settled_deleteTargets hGit request before targets t _

theorem settled_run (request : DeleteBranchRequest) (t : Traced ρ GitCommand) :
    Settled refs t (request.run (tracing git) t) := by
  have hListed := follows_readLocalBranchNames (follows_tracing hGit) t
  rw [DeleteBranchRequest.run]
  split
  · exact settled_deleteTargets hGit request none request.names t t
  · split
    · rename_i hRead
      rw [hRead] at hListed
      dsimp only
      split
      · exact .inl rfl
      · exact settled_deleteChecked hGit request _ _ hListed
    · rename_i hRead
      rw [hRead] at hListed
      exact settled_deleteChecked hGit request _ _ hListed

end Reads

end DeleteBranchRequest

end Operations

end GitBranchManager
