import GitBranchManager.Refs.OperationSteps

/-! # A forced delete takes what was counted

The tips of the forced names are checked after the branches are listed and before anything is
deleted.
-/

namespace GitBranchManager

open Library

abbrev GitCall := Call GitCommand CommandError Bytes

namespace DeleteBranchRequest

/-- An entry forces the name, and its tip is the one that was read. -/
def Counted (request : DeleteBranchRequest) (calls : List GitCall) (name : Bytes) : Prop :=
  ∃ entry ∈ request.entries, entry.force = true ∧ entry.name = name ∧ entry.expectedTipOid ≠ [] ∧
    ∃ out, (tipsCommand, Except.ok out) ∈ calls ∧ tipOf out name = some entry.expectedTipOid

/-- A forced delete is given counted names only. -/
def MayRun (request : DeleteBranchRequest) (calls : List GitCall) (command : GitCommand) : Prop :=
  ∀ names, command = ascii "branch" :: ascii "-D" :: names → ∀ name ∈ names, request.Counted calls name

section Check

variable {ρ : Type}

/-- What the check of the forced names answers, where a run gets to it. -/
def checkAnswer (request : DeleteBranchRequest) (git : ProcessRunner ρ) (s : ρ) : Option OperationOutcome :=
  if request.isRemote then none
  else
    match readLocalBranchNames git s with
    | (some (first :: rest), s) =>
      let live := request.names.filter (first :: rest).contains
      if live.isEmpty then none else (request.checkForcedTips git live s).1
    | (_, s) => (request.checkForcedTips git request.names s).1

variable {git : ProcessRunner ρ} {request : DeleteBranchRequest} {calls more : List GitCall} {name : Bytes}

theorem Counted.append (h : request.Counted calls name) : request.Counted (calls ++ more) name := by
  obtain ⟨entry, hEntry, hForce, hName, hTip, out, hRead, hSame⟩ := h
  exact ⟨entry, hEntry, hForce, hName, hTip, out, List.mem_append_left _ hRead, hSame⟩

theorem mayRun_of_reads {command : GitCommand} (hReads : readsOnly command = true) :
    request.MayRun calls command := by
  rintro names rfl
  exact absurd hReads Bool.false_ne_true

theorem justified_of_reads {r r' : Recorded ρ GitCommand CommandError Bytes}
    (h : Justified request.MayRun r.calls) (hReads : Calls (fun command => readsOnly command = true) r r') :
    Justified request.MayRun r'.calls := by
  obtain ⟨more, hCalls, hMore⟩ := hReads
  rw [hCalls]
  refine h.append fun before call after hIs => mayRun_of_reads (hMore call ?_)
  rw [hIs]
  exact List.mem_append_right _ List.mem_cons_self

/-- What the check lets pass has been counted. -/
theorem counted_of_check {targets : List Bytes} {r r' : Recorded ρ GitCommand CommandError Bytes}
    (h : request.checkForcedTips (recording git) targets r = (none, r')) (hTarget : name ∈ targets)
    (hForced : request.isForced name = true) : request.Counted r'.calls name := by
  obtain ⟨entry, hEntry, hIs⟩ := List.any_eq_true.mp hForced
  rw [Bool.and_eq_true, beq_iff_eq] at hIs
  obtain ⟨hForce, rfl⟩ := hIs
  obtain ⟨hTip, out, hRun, hRead⟩ := passed_check h hEntry hForce hTarget
  have hCalls := calls_recording git r tipsCommand
  rw [hRun] at hCalls
  refine ⟨entry, hEntry, hForce, rfl, hTip, out, ?_, hRead⟩
  rw [hCalls]
  exact List.mem_append_right _ (List.mem_singleton_self _)

theorem mayRun_of_mem_commands {targets : List Bytes}
    (hCounted : ∀ name ∈ targets, request.isForced name = true → request.isRemote = false → request.Counted calls name)
    {command : GitCommand} (h : command ∈ request.commands targets) : request.MayRun calls command := by
  rintro names rfl name hName
  rw [commands] at h
  split at h
  · exact absurd (List.cons.inj (List.mem_singleton.mp h)).1 (by decide)
  · rename_i hLocal
    rcases List.mem_append.mp h with hForced | hPlain
    · split at hForced
      · cases hForced
      · obtain rfl := (List.cons.inj (List.cons.inj (List.mem_singleton.mp hForced)).2).2
        obtain ⟨hTarget, hIs⟩ := List.mem_filter.mp hName
        exact hCounted name hTarget hIs (Bool.eq_false_iff.mpr hLocal)
    · split at hPlain
      · cases hPlain
      · exact absurd (List.cons.inj (List.cons.inj (List.mem_singleton.mp hPlain)).2).1 (by decide)

theorem justified_runCommands (commands : List GitCommand) (r : Recorded ρ GitCommand CommandError Bytes)
    (h : Justified request.MayRun r.calls)
    (hCommands : ∀ command ∈ commands, ∀ more, request.MayRun (r.calls ++ more) command) :
    Justified request.MayRun (runCommands (recording git) commands r).2.calls := by
  induction commands generalizing r with
  | nil => exact h
  | cons first rest ih =>
    have hCalls := calls_recording git r first
    have hMay := hCommands first List.mem_cons_self []
    rw [List.append_nil] at hMay
    have hFirst : Justified request.MayRun (recording git r first).2.calls := h.concat hMay
    rw [runCommands]
    split
    · rename_i hRun
      rwa [hRun] at hFirst
    · rename_i hRun
      rw [hRun] at hFirst hCalls
      refine ih _ hFirst fun command hMem more => ?_
      rw [hCalls, List.append_assoc]
      exact hCommands command (List.mem_cons_of_mem _ hMem) _

theorem justified_deleteTargets (before : Option (List Bytes)) (targets : List Bytes)
    (r : Recorded ρ GitCommand CommandError Bytes) (h : Justified request.MayRun r.calls)
    (hCounted : ∀ name ∈ targets, request.isForced name = true → request.isRemote = false →
      request.Counted r.calls name) :
    Justified request.MayRun (request.deleteTargets (recording git) before targets r).2.calls := by
  have hRan : Justified request.MayRun (runCommands (recording git) (request.commands targets) r).2.calls :=
    justified_runCommands (request.commands targets) r h fun command hMem more => mayRun_of_mem_commands
      (fun name hName hForced hLocal => (hCounted name hName hForced hLocal).append) hMem
  rw [deleteTargets]
  split
  · rename_i hRun
    rwa [hRun] at hRan
  · rename_i hRun
    rw [hRun] at hRan
    exact justified_of_reads hRan (follows_refusal (follows_recording git _) request before targets _ _ _)

theorem justified_deleteChecked (before : Option (List Bytes)) (targets : List Bytes)
    (r : Recorded ρ GitCommand CommandError Bytes) (h : Justified request.MayRun r.calls) :
    Justified request.MayRun (request.deleteChecked (recording git) before targets r).2.calls := by
  have hChecked := justified_of_reads h (follows_checkForcedTips (follows_recording git _) request targets r)
  rw [deleteChecked]
  split
  · rename_i hRun
    rwa [hRun] at hChecked
  · rename_i hRun
    rw [hRun] at hChecked
    exact justified_deleteTargets before targets _ hChecked fun name hTarget hForced _ =>
      counted_of_check hRun hTarget hForced

theorem justified_run (request : DeleteBranchRequest) (git : ProcessRunner ρ) (s : ρ) :
    Justified request.MayRun (request.run (recording git) { state := s }).2.calls := by
  have hListed : Justified request.MayRun (readLocalBranchNames (recording git) { state := s }).2.calls :=
    justified_of_reads .nil (follows_readLocalBranchNames (follows_recording git _) { state := s })
  rw [DeleteBranchRequest.run]
  split
  · rename_i hRemote
    refine justified_deleteTargets none request.names _ .nil fun _ _ _ hLocal => ?_
    rw [hRemote] at hLocal
    cases hLocal
  · split
    · rename_i hRead
      rw [hRead] at hListed
      dsimp only
      split
      · exact hListed
      · exact justified_deleteChecked _ _ _ hListed
    · rename_i hRead
      rw [hRead] at hListed
      exact justified_deleteChecked _ _ _ hListed

/-- A refusal is the outcome, and nothing but reads comes before it. -/
theorem refused_deleteChecked {before : Option (List Bytes)} {targets : List Bytes}
    {r : Recorded ρ GitCommand CommandError Bytes} {refused : OperationOutcome}
    (h : (request.checkForcedTips (recording git) targets r).1 = some refused) :
    (request.deleteChecked (recording git) before targets r).1 = refused ∧
      Calls (fun command => readsOnly command = true) r
        (request.deleteChecked (recording git) before targets r).2 := by
  have hReads := follows_checkForcedTips (follows_recording git _) request targets r
  rw [deleteChecked]
  split
  · rename_i hRun
    rw [hRun] at h hReads
    exact ⟨Option.some.inj h, hReads⟩
  · rename_i hRun
    rw [hRun] at h
    cases h

theorem refused_run {s : ρ} {refused : OperationOutcome}
    (h : request.checkAnswer (recording git) { state := s } = some refused) :
    (request.run (recording git) { state := s }).1 = refused ∧
      Calls (fun command => readsOnly command = true) { state := s }
        (request.run (recording git) { state := s }).2 := by
  have hListed := follows_readLocalBranchNames
    (follows_recording git fun command => readsOnly command = true) { state := s }
  rw [checkAnswer] at h
  rw [DeleteBranchRequest.run]
  split at h
  · cases h
  · rename_i hLocal
    rw [if_neg hLocal]
    generalize readLocalBranchNames (recording git) { state := s } = read at h hListed ⊢
    obtain ⟨listed, m⟩ := read
    -- An empty listing is treated as none.
    have hUnlisted (hAnswer : (request.checkForcedTips (recording git) request.names m).1 = some refused) :
        (request.deleteChecked (recording git) none request.names m).1 = refused ∧
          Calls (fun command => readsOnly command = true) { state := s }
            (request.deleteChecked (recording git) none request.names m).2 := by
      obtain ⟨hOutcome, hReads⟩ := refused_deleteChecked hAnswer
      exact ⟨hOutcome, (follows_recording git _).trans hListed hReads⟩
    cases listed with
    | none => exact hUnlisted h
    | some names =>
      cases names with
      | nil => exact hUnlisted h
      | cons first rest =>
        dsimp only at h ⊢
        split at h
        · cases h
        · rename_i hLive
          rw [if_neg hLive]
          obtain ⟨hOutcome, hReads⟩ := refused_deleteChecked h
          exact ⟨hOutcome, (follows_recording git _).trans hListed hReads⟩

/-- Whatever the repository holds and whichever command fails. -/
theorem force_deletes_only_counted (request : DeleteBranchRequest) (git : ProcessRunner ρ) (s : ρ) :
    Justified request.MayRun (request.run (recording git) { state := s }).2.calls ∧
      ∀ refused, request.checkAnswer (recording git) { state := s } = some refused →
        (request.run (recording git) { state := s }).1 = refused ∧
          ∀ call ∈ (request.run (recording git) { state := s }).2.calls, readsOnly call.1 = true := by
  refine ⟨justified_run request git s, fun refused hRefused => ?_⟩
  obtain ⟨hOutcome, more, hCalls, hMore⟩ := refused_run hRefused
  refine ⟨hOutcome, fun call hCall => hMore call ?_⟩
  rwa [hCalls] at hCall

end Check

end DeleteBranchRequest

end GitBranchManager
