import GitBranchManager.Library.Runs
import GitBranchManager.Sidebar.BranchTreeBuilder

/-! # Prunes that wait for a claim to end

A fetch's preview prunes what no local branch claims, and defers the rest. A deferred ref comes due
when its claim has ended; the sweep that prunes it runs when refs are published, when a preview is
deferred and when the Prune dialog lets a remote go.
-/

namespace GitBranchManager

open Library

structure RefSnapshot where
  refs : List RefInfo := []
  deriving DecidableEq

namespace RefSnapshot

def localBranches (snapshot : RefSnapshot) : List RefInfo := snapshot.refs.filter fun r => r.kind == .localBranch

def remoteBranches (snapshot : RefSnapshot) : List RefInfo := snapshot.refs.filter fun r => r.kind == .remoteBranch

end RefSnapshot

/-- The remotes whose candidates are on screen, by the surface that shows them. A surface that is
registered shows none yet. -/
structure PruneAudience where
  byInstance : InsertionMap Nat (Option Utf16) := .empty

namespace PruneAudience

def held (audience : PruneAudience) : List Utf16 := audience.byInstance.entries.filterMap Prod.snd

def holdsRemote (audience : PruneAudience) (remote : Utf16) : Bool := audience.held.contains remote

def register (audience : PruneAudience) (token : Nat) : PruneAudience :=
  if (audience.byInstance.get? token).isSome then audience else ⟨audience.byInstance.put token none⟩

def declare (audience : PruneAudience) (token : Nat) (remote : Utf16) : PruneAudience :=
  if (audience.byInstance.get? token).isSome then ⟨audience.byInstance.put token (some remote)⟩ else audience

def release (audience : PruneAudience) (token : Nat) : PruneAudience := ⟨audience.byInstance.remove token⟩

/-- Whether the listeners hear of the change. -/
def releases (before after : PruneAudience) : Bool := before.held.any fun remote => !after.held.contains remote

end PruneAudience

/-- What the session and the notifier keep. `dispatches` records the calls of `pruneRemote` that the
notifier makes. -/
structure DeferredPrunes where
  refs : RefSnapshot := {}
  gonePendingByRemote : InsertionMap Utf16 (List Utf16) := .empty
  goneRefsDeferredByClaim : InsertionMap Utf16 (List Utf16) := .empty
  audience : PruneAudience := {}
  dispatched : List Utf16 := []
  dispatches : List (Utf16 × List Utf16) := []

/-- `automatic` says whether a preview is taken for one that a fetch asked for. -/
inductive DeferredPruneEvent
  | previewReady (remote : Utf16) (refs : List Utf16) (automatic : Bool)
  | publishRefs (refs : RefSnapshot)
  | register (token : Nat)
  | declare (token : Nat) (remote : Utf16)
  | release (token : Nat)
  | pruneFinished (remote : Utf16) (refs : List Utf16) (succeeded : Bool)
  deriving DecidableEq

namespace DeferredPrunes

def fullRemoteRefName (ref : Utf16) : Utf16 := if remotesPrefix.isPrefixOf ref then ref else remotesPrefix ++ ref

/-- An empty slice is dropped. -/
def setSlice (m : InsertionMap Utf16 (List Utf16)) (remote : Utf16) (refs : List Utf16) :
    InsertionMap Utf16 (List Utf16) :=
  if refs.isEmpty then m.remove remote else m.put remote refs

def claimed (s : DeferredPrunes) : List Utf16 := claimedBy s.refs.localBranches s.refs.remoteBranches

def withGonePendingFor (s : DeferredPrunes) (remote : Utf16) (refs : List Utf16) : DeferredPrunes :=
  { s with gonePendingByRemote := setSlice s.gonePendingByRemote remote (refs.map fullRemoteRefName) }

def withGonePendingRemoved (s : DeferredPrunes) (remote : Utf16) (refs : List Utf16) : DeferredPrunes :=
  match s.gonePendingByRemote.get? remote with
  | none => s
  | some current =>
    let kept := current.filter fun ref => !(refs.map fullRemoteRefName).contains ref
    if kept.length = current.length then s
    else { s with gonePendingByRemote := setSlice s.gonePendingByRemote remote kept }

/-- The conditions that a deferred ref is held against; that it has not been tried is not one. -/
def comesDue (s : DeferredPrunes) (remote ref : Utf16) : Bool :=
  !s.claimed.contains ref && (s.refs.remoteBranches.map RefInfo.fullName).contains ref &&
    ((s.gonePendingByRemote.get? remote).getD []).contains ref

def sweepRemote (s : DeferredPrunes) (entry : Utf16 × List Utf16) : DeferredPrunes :=
  if s.audience.holdsRemote entry.1 then s
  else
    let due := entry.2.filter fun ref => !s.dispatched.contains ref && s.comesDue entry.1 ref
    if due.isEmpty then s
    else { s with dispatched := s.dispatched ++ due, dispatches := s.dispatches ++ [(entry.1, due)] }

def sweep (s : DeferredPrunes) : DeferredPrunes := s.goneRefsDeferredByClaim.entries.foldl sweepRemote s

def stillDeferred (s : DeferredPrunes) : List Utf16 := s.goneRefsDeferredByClaim.entries.flatMap Prod.snd

def forgetDispatchedOutside (s : DeferredPrunes) : DeferredPrunes :=
  { s with dispatched := s.dispatched.filter fun ref => s.stillDeferred.contains ref }

/-- The new table is another one even when it holds the same, so its listener always runs. -/
def withGoneRefsDeferredFor (s : DeferredPrunes) (remote : Utf16) (refs : List Utf16) : DeferredPrunes :=
  ({ s with goneRefsDeferredByClaim :=
      setSlice s.goneRefsDeferredByClaim remote refs } : DeferredPrunes).forgetDispatchedOutside.sweep

/-- What no local branch claims is pruned elsewhere. -/
def autoPruneUnclaimedRefs (s : DeferredPrunes) (remote : Utf16) (refs : List Utf16) : DeferredPrunes :=
  s.withGoneRefsDeferredFor remote
    (((refs.map fullRemoteRefName).filter fun ref => s.claimed.contains ref).eraseDups)

def showAudience (s : DeferredPrunes) (audience : PruneAudience) : DeferredPrunes :=
  if s.audience.releases audience then ({ s with audience } : DeferredPrunes).sweep else { s with audience }

def step (s : DeferredPrunes) : DeferredPruneEvent → Option DeferredPrunes
  | .previewReady remote refs automatic =>
    let marked := s.withGonePendingFor remote refs
    some (if automatic then marked.autoPruneUnclaimedRefs remote refs else marked)
  | .publishRefs refs => some ({ s with refs } : DeferredPrunes).sweep
  | .register token => some { s with audience := s.audience.register token }
  | .declare token remote => some (s.showAudience (s.audience.declare token remote))
  | .release token => some (s.showAudience (s.audience.release token))
  | .pruneFinished remote refs succeeded => some (if succeeded then s.withGonePendingRemoved remote refs else s)

/-- Whether an event runs a listener of the notifier. -/
def runsListener (s : DeferredPrunes) : DeferredPruneEvent → Bool
  | .previewReady _ _ automatic => automatic
  | .publishRefs _ => true
  | .register _ => false
  | .declare token remote => s.audience.releases (s.audience.declare token remote)
  | .release token => s.audience.releases (s.audience.release token)
  | .pruneFinished _ _ _ => false

end DeferredPrunes

/-! ## Deferred prunes run when they are due, and once

A sweep tries everything that is due and has not been tried. What has been tried is forgotten as
soon as no remote defers it, and no earlier.
-/

namespace DeferredPrunes

/-- What a deferred ref waits for. -/
structure Due (s : DeferredPrunes) (remote ref : Utf16) : Prop where
  deferred : ∃ refs, s.goneRefsDeferredByClaim.get? remote = some refs ∧ ref ∈ refs
  marked : ∃ refs, s.gonePendingByRemote.get? remote = some refs ∧ ref ∈ refs
  present : ref ∈ s.refs.remoteBranches.map RefInfo.fullName
  unclaimed : ref ∉ s.claimed
  free : s.audience.holdsRemote remote = false

/-- The refs that have been sent to `pruneRemote`, once for each time. -/
def sent (s : DeferredPrunes) : List Utf16 := s.dispatches.flatMap Prod.snd

def dispatch (s : DeferredPrunes) (calls : List (Utf16 × List Utf16)) : DeferredPrunes :=
  { s with dispatched := s.dispatched ++ calls.flatMap Prod.snd, dispatches := s.dispatches ++ calls }

/-- An event after which `ref` is deferred. -/
def LeavesDeferred (ref : Utf16) (s : DeferredPrunes) (event : DeferredPruneEvent) : Prop :=
  ∀ s', s.step event = some s' → ref ∈ s'.stillDeferred

structure Kept (s : DeferredPrunes) : Prop where
  tried : ∀ ref ∈ s.dispatched, ref ∈ s.stillDeferred
  slices : ∀ entry ∈ s.goneRefsDeferredByClaim.entries, entry.2.Nodup

/-- A call of a sweep over `entries`. -/
structure Calls (s : DeferredPrunes) (entries : List (Utf16 × List Utf16)) (remote ref : Utf16) : Prop where
  deferred : ∃ refs, (remote, refs) ∈ entries ∧ ref ∈ refs
  due : s.comesDue remote ref = true
  free : s.audience.holdsRemote remote = false
  new : ref ∉ s.dispatched

variable {s s' : DeferredPrunes}

@[simp] theorem dispatch_nil (s : DeferredPrunes) : s.dispatch [] = s := by
  simp [dispatch]

theorem dispatch_append (s : DeferredPrunes) (calls more : List (Utf16 × List Utf16)) :
    (s.dispatch calls).dispatch more = s.dispatch (calls ++ more) := by
  simp [dispatch]

/-- The calls that a sweep makes for one remote. -/
def callsFor (s : DeferredPrunes) (entry : Utf16 × List Utf16) : List (Utf16 × List Utf16) :=
  let due := entry.2.filter fun ref => !s.dispatched.contains ref && s.comesDue entry.1 ref
  if s.audience.holdsRemote entry.1 || due.isEmpty then [] else [(entry.1, due)]

theorem sweepRemote_eq (s : DeferredPrunes) (entry : Utf16 × List Utf16) :
    s.sweepRemote entry = s.dispatch (s.callsFor entry) := by
  rw [sweepRemote, callsFor]
  generalize (entry.2.filter fun ref => !s.dispatched.contains ref && s.comesDue entry.1 ref) = due
  cases s.audience.holdsRemote entry.1 with
  | true => simp
  | false =>
    cases due with
    | nil => simp
    | cons first rest => simp [dispatch]

theorem flatMap_callsFor (s : DeferredPrunes) (entry : Utf16 × List Utf16) :
    (s.callsFor entry).flatMap Prod.snd =
      if s.audience.holdsRemote entry.1 then []
      else entry.2.filter fun ref => !s.dispatched.contains ref && s.comesDue entry.1 ref := by
  rw [callsFor]
  generalize (entry.2.filter fun ref => !s.dispatched.contains ref && s.comesDue entry.1 ref) = due
  cases s.audience.holdsRemote entry.1 with
  | true => simp
  | false =>
    cases due with
    | nil => simp
    | cons first rest => simp

theorem mem_callsFor {entry : Utf16 × List Utf16} {ref : Utf16} :
    ref ∈ (s.callsFor entry).flatMap Prod.snd ↔ ref ∈ entry.2 ∧ s.audience.holdsRemote entry.1 = false ∧
      s.comesDue entry.1 ref = true ∧ ref ∉ s.dispatched := by
  rw [flatMap_callsFor]
  cases hHeld : s.audience.holdsRemote entry.1 with
  | true => simp
  | false => simp [and_comm]

theorem fst_of_callsFor {entry call : Utf16 × List Utf16} (h : call ∈ s.callsFor entry) : call.1 = entry.1 := by
  rw [callsFor] at h
  split at h
  · cases h
  · rw [List.mem_singleton.mp h]

/-- A sweep over the remotes makes its calls, one ref at most once, for what is due and not tried;
and it leaves nothing that is due untried. -/
theorem exists_calls (entries : List (Utf16 × List Utf16)) (s : DeferredPrunes)
    (hSlices : ∀ entry ∈ entries, entry.2.Nodup) :
    ∃ calls, entries.foldl sweepRemote s = s.dispatch calls ∧
      (∀ call ∈ calls, ∀ ref ∈ call.2, s.Calls entries call.1 ref) ∧ (calls.flatMap Prod.snd).Nodup ∧
      ∀ entry ∈ entries, ∀ ref ∈ entry.2, s.audience.holdsRemote entry.1 = false → s.comesDue entry.1 ref = true →
        ref ∈ s.dispatched ++ calls.flatMap Prod.snd := by
  induction entries generalizing s with
  | nil => exact ⟨[], (dispatch_nil s).symm, by simp, List.nodup_nil, by simp⟩
  | cons entry entries ih =>
    obtain ⟨hSlice, hRest⟩ := List.forall_mem_cons.mp hSlices
    obtain ⟨calls, hFold, hCalls, hNodup, hAll⟩ := ih (s.dispatch (s.callsFor entry)) hRest
    refine ⟨s.callsFor entry ++ calls, ?_, ?_, ?_, ?_⟩
    · rw [List.foldl_cons, sweepRemote_eq, hFold, dispatch_append]
    · intro call hCall ref hRef
      rcases List.mem_append.mp hCall with hFirst | hLater
      · have hMem : ref ∈ (s.callsFor entry).flatMap Prod.snd := List.mem_flatMap.mpr ⟨call, hFirst, hRef⟩
        obtain ⟨hDeferred, hFree, hDue, hNew⟩ := mem_callsFor.mp hMem
        rw [fst_of_callsFor hFirst]
        exact ⟨⟨entry.2, List.mem_cons_self, hDeferred⟩, hDue, hFree, hNew⟩
      · obtain ⟨⟨refs, hRefs, hIn⟩, hDue, hFree, hNew⟩ := hCalls call hLater ref hRef
        exact ⟨⟨refs, List.mem_cons_of_mem _ hRefs, hIn⟩, hDue, hFree,
          fun hTried => hNew (List.mem_append_left _ hTried)⟩
    · rw [List.flatMap_append]
      refine List.Nodup.append ?_ hNodup fun ref hFirst hLater => ?_
      · rw [flatMap_callsFor]
        split
        · exact List.nodup_nil
        · exact hSlice.filter _
      · obtain ⟨call, hCall, hRef⟩ := List.mem_flatMap.mp hLater
        exact (hCalls call hCall ref hRef).new (List.mem_append_right _ hFirst)
    · intro other hOther ref hRef hFree hDue
      rw [List.flatMap_append, ← List.append_assoc]
      rcases List.mem_cons.mp hOther with rfl | hLater
      · refine List.mem_append_left _ ?_
        by_cases hTried : ref ∈ s.dispatched
        · exact List.mem_append_left _ hTried
        · exact List.mem_append_right _ (mem_callsFor.mpr ⟨hRef, hFree, hDue, hTried⟩)
      · exact hAll other hLater ref hRef hFree hDue

/-- What an event does to the notifier: nothing, or a sweep after the facts have changed and what
is not deferred any more has been forgotten. -/
inductive Listens (s : DeferredPrunes) : Bool → DeferredPrunes → Prop
  | quiet (s' : DeferredPrunes) (hTable : s'.goneRefsDeferredByClaim = s.goneRefsDeferredByClaim)
      (hTried : s'.dispatched = s.dispatched) (hSent : s'.dispatches = s.dispatches) : Listens s false s'
  | sweeps (m : DeferredPrunes) (hSlices : ∀ entry ∈ m.goneRefsDeferredByClaim.entries, entry.2.Nodup)
      (hTried : ∀ ref, ref ∈ m.dispatched ↔ ref ∈ s.dispatched ∧ ref ∈ m.stillDeferred)
      (hSent : m.dispatches = s.dispatches) : Listens s true m.sweep

theorem nodup_setSlice {m : InsertionMap Utf16 (List Utf16)} {remote : Utf16} {refs : List Utf16}
    (hSlices : ∀ entry ∈ m.entries, entry.2.Nodup) (hRefs : refs.Nodup) :
    ∀ entry ∈ (setSlice m remote refs).entries, entry.2.Nodup := by
  intro entry hEntry
  have hGet := InsertionMap.get?_eq_some.mpr hEntry
  rw [setSlice] at hGet
  split at hGet
  · rw [InsertionMap.get?_remove] at hGet
    split at hGet
    · cases hGet
    · exact hSlices entry (InsertionMap.get?_eq_some.mp hGet)
  · rw [InsertionMap.get?_put] at hGet
    split at hGet
    · rw [← Option.some.inj hGet]
      exact hRefs
    · exact hSlices entry (InsertionMap.get?_eq_some.mp hGet)

theorem listens_of_table {marked : DeferredPrunes}
    (hSlices : ∀ entry ∈ marked.goneRefsDeferredByClaim.entries, entry.2.Nodup)
    (hTried : marked.dispatched = s.dispatched) (hSent : marked.dispatches = s.dispatches) {remote : Utf16}
    {refs : List Utf16} (hRefs : refs.Nodup) : s.Listens true (marked.withGoneRefsDeferredFor remote refs) := by
  rw [withGoneRefsDeferredFor]
  refine .sweeps _ (nodup_setSlice hSlices hRefs) (fun ref => ?_) hSent
  rw [forgetDispatchedOutside, List.mem_filter, hTried]
  exact and_congr_right fun _ => List.contains_iff_mem

theorem listens_of_audience (h : s.Kept) (audience : PruneAudience) :
    s.Listens (s.audience.releases audience) (s.showAudience audience) := by
  rw [showAudience]
  cases s.audience.releases audience with
  | true => exact .sweeps { s with audience } h.slices (fun ref => (and_iff_left_of_imp (h.tried ref)).symm) rfl
  | false => exact .quiet _ rfl rfl rfl

theorem listens_of_step (h : s.Kept) {event : DeferredPruneEvent} (hStep : s.step event = some s') :
    s.Listens (s.runsListener event) s' := by
  cases event with
  | previewReady remote refs automatic =>
    obtain rfl := Option.some.inj hStep
    cases automatic with
    | true =>
      rw [if_pos rfl, autoPruneUnclaimedRefs]
      have hMarked : ∀ entry ∈ (s.withGonePendingFor remote refs).goneRefsDeferredByClaim.entries, entry.2.Nodup :=
        h.slices
      exact listens_of_table (s := s) hMarked rfl rfl (nodup_eraseDups _)
    | false => exact .quiet _ rfl rfl rfl
  | publishRefs refs =>
    obtain rfl := Option.some.inj hStep
    exact .sweeps { s with refs } h.slices (fun ref => (and_iff_left_of_imp (h.tried ref)).symm) rfl
  | register token =>
    obtain rfl := Option.some.inj hStep
    exact .quiet _ rfl rfl rfl
  | declare token remote =>
    obtain rfl := Option.some.inj hStep
    exact listens_of_audience h _
  | release token =>
    obtain rfl := Option.some.inj hStep
    exact listens_of_audience h _
  | pruneFinished remote refs succeeded =>
    obtain rfl := Option.some.inj hStep
    cases succeeded with
    | false => exact .quiet _ rfl rfl rfl
    | true =>
      rw [if_pos rfl, withGonePendingRemoved]
      split
      · exact .quiet _ rfl rfl rfl
      · dsimp only
        split
        · exact .quiet _ rfl rfl rfl
        · exact .quiet _ rfl rfl rfl

theorem due_dispatch {calls : List (Utf16 × List Utf16)} {remote ref : Utf16} :
    (s.dispatch calls).Due remote ref ↔ s.Due remote ref :=
  ⟨fun h => ⟨h.deferred, h.marked, h.present, h.unclaimed, h.free⟩,
    fun h => ⟨h.deferred, h.marked, h.present, h.unclaimed, h.free⟩⟩

theorem comesDue_iff {remote ref : Utf16} : s.comesDue remote ref = true ↔
    ref ∉ s.claimed ∧ ref ∈ s.refs.remoteBranches.map RefInfo.fullName ∧
      ∃ refs, s.gonePendingByRemote.get? remote = some refs ∧ ref ∈ refs := by
  rw [comesDue, Bool.and_eq_true, Bool.and_eq_true, and_assoc]
  refine and_congr (by simp) (and_congr List.contains_iff_mem ?_)
  rw [List.contains_iff_mem]
  cases s.gonePendingByRemote.get? remote with
  | none => simp
  | some refs => simp

theorem mem_stillDeferred {remote ref : Utf16} {refs : List Utf16}
    (hTable : s.goneRefsDeferredByClaim.get? remote = some refs) (hRef : ref ∈ refs) : ref ∈ s.stillDeferred :=
  List.mem_flatMap.mpr ⟨(remote, refs), InsertionMap.get?_eq_some.mp hTable, hRef⟩

/-- What a sweep does to the notifier. -/
theorem exists_sweep (hSlices : ∀ entry ∈ s.goneRefsDeferredByClaim.entries, entry.2.Nodup) :
    ∃ calls, s.sweep = s.dispatch calls ∧
      (∀ call ∈ calls, ∀ ref ∈ call.2, s.Due call.1 ref ∧ ref ∉ s.dispatched) ∧ (calls.flatMap Prod.snd).Nodup ∧
      ∀ remote ref, s.Due remote ref → ref ∈ s.dispatched ++ calls.flatMap Prod.snd := by
  obtain ⟨calls, hSweep, hCalls, hNodup, hAll⟩ := exists_calls _ s hSlices
  refine ⟨calls, hSweep, fun call hCall ref hRef => ?_, hNodup, fun remote ref hDue => ?_⟩
  · obtain ⟨⟨refs, hTable, hDeferred⟩, hDue, hFree, hNew⟩ := hCalls call hCall ref hRef
    obtain ⟨hUnclaimed, hPresent, hMarked⟩ := comesDue_iff.mp hDue
    exact ⟨⟨⟨refs, InsertionMap.get?_eq_some.mpr hTable, hDeferred⟩, hMarked, hPresent, hUnclaimed, hFree⟩, hNew⟩
  · obtain ⟨refs, hTable, hDeferred⟩ := hDue.deferred
    exact hAll (remote, refs) (InsertionMap.get?_eq_some.mp hTable) ref hDeferred hDue.free
      (comesDue_iff.mpr ⟨hDue.unclaimed, hDue.present, hDue.marked⟩)

theorem Kept.listens {listened : Bool} (h : s.Kept) (hListens : s.Listens listened s') : s'.Kept := by
  cases hListens with
  | quiet _ hTable hTried hSent =>
    constructor
    · rw [hTried, stillDeferred, hTable]
      exact h.tried
    · rw [hTable]
      exact h.slices
  | sweeps m hSlices hTried hSent =>
    obtain ⟨calls, hSweep, hCalls, -, -⟩ := exists_sweep hSlices
    rw [hSweep]
    refine ⟨fun ref hRef => ?_, hSlices⟩
    rcases List.mem_append.mp hRef with hOld | hNew
    · exact ((hTried ref).mp hOld).2
    · obtain ⟨call, hCall, hIn⟩ := List.mem_flatMap.mp hNew
      obtain ⟨refs, hTable, hDeferred⟩ := (hCalls call hCall ref hIn).1.deferred
      exact mem_stillDeferred hTable hDeferred

theorem kept_run {events : List DeferredPruneEvent} (hRun : Run step (fun _ _ => True) {} events s) : s.Kept :=
  hRun.invariant ⟨by simp, fun _ hEntry => absurd hEntry List.not_mem_nil⟩
    fun _ _ _ h _ hStep => h.listens (listens_of_step h hStep)

theorem sent_dispatch (calls : List (Utf16 × List Utf16)) :
    (s.dispatch calls).sent = s.sent ++ calls.flatMap Prod.snd := List.flatMap_append

/-- While `ref` stays deferred it is sent once at most, and then it has been tried. -/
def SentOnce (ref : Utf16) (before : Nat) (s : DeferredPrunes) : Prop :=
  s.sent.count ref = before ∨ s.sent.count ref = before + 1 ∧ ref ∈ s.dispatched

theorem SentOnce.listens {ref : Utf16} {before : Nat} {listened : Bool} (h : s.SentOnce ref before)
    (hListens : s.Listens listened s') (hDeferred : ref ∈ s'.stillDeferred) : s'.SentOnce ref before := by
  cases hListens with
  | quiet _ hTable hTried hSent => rwa [SentOnce, sent, hSent, hTried]
  | sweeps m hSlices hTried hSent =>
    obtain ⟨calls, hSweep, hCalls, hNodup, -⟩ := exists_sweep hSlices
    rw [hSweep] at hDeferred ⊢
    have hSame : m.sent = s.sent := by rw [sent, sent, hSent]
    rw [SentOnce, sent_dispatch, List.count_append, hSame]
    by_cases hCalled : ref ∈ calls.flatMap Prod.snd
    · obtain ⟨call, hCall, hIn⟩ := List.mem_flatMap.mp hCalled
      have hNew : ref ∉ s.dispatched := fun hOld => (hCalls call hCall ref hIn).2 ((hTried ref).mpr ⟨hOld, hDeferred⟩)
      rw [List.count_eq_one_of_mem hNodup hCalled]
      rcases h with hNone | ⟨-, hOld⟩
      · exact .inr ⟨by rw [hNone], List.mem_append_right _ hCalled⟩
      · exact absurd hOld hNew
    · rw [List.count_eq_zero_of_not_mem hCalled, Nat.add_zero]
      exact h.imp_right fun ⟨hOne, hOld⟩ => ⟨hOne, List.mem_append_left _ ((hTried ref).mpr ⟨hOld, hDeferred⟩)⟩

theorem Listens.exists_sent {listened : Bool} (h : s.Listens listened s') :
    ∃ more, s'.sent = s.sent ++ more ∧ ∀ ref ∈ s'.dispatched, ref ∉ s.dispatched → ref ∈ more := by
  cases h with
  | quiet _ hTable hTried hSent =>
    refine ⟨[], by rw [sent, sent, hSent, List.append_nil], fun ref hRef hNew => ?_⟩
    rw [hTried] at hRef
    exact absurd hRef hNew
  | sweeps m hSlices hTried hSent =>
    obtain ⟨calls, hSweep, -, -, -⟩ := exists_sweep hSlices
    rw [hSweep]
    refine ⟨calls.flatMap Prod.snd, ?_, fun ref hRef hNew => ?_⟩
    · rw [sent_dispatch, sent, sent, hSent]
    · exact (List.mem_append.mp hRef).resolve_left fun hOld => hNew ((hTried ref).mp hOld).1

/-- A ref that has been tried was sent since it was last not deferred. -/
def TriedIn (events : List DeferredPruneEvent) (s : DeferredPrunes) (ref : Utf16) : Prop :=
  ∃ before during m, events = before ++ during ∧ Run step (fun _ _ => True) {} before m ∧
    Run step (LeavesDeferred ref) m during s ∧ m.sent.count ref < s.sent.count ref

theorem triedIn_of_run {events : List DeferredPruneEvent} (hRun : Run step (fun _ _ => True) {} events s) :
    ∀ ref ∈ s.dispatched, TriedIn events s ref := by
  induction hRun with
  | start => exact fun ref hRef => absurd hRef List.not_mem_nil
  | @next m s events event hBefore _ hStep ih =>
    intro ref hRef
    have hKept := kept_run hBefore
    have hListens := listens_of_step hKept hStep
    have hDeferred : ref ∈ s.stillDeferred := (hKept.listens hListens).tried ref hRef
    have hLeaves : LeavesDeferred ref m event := by
      intro s' hOther
      obtain rfl := Option.some.inj (hStep.symm.trans hOther)
      exact hDeferred
    obtain ⟨more, hSent, hNew⟩ := hListens.exists_sent
    by_cases hOld : ref ∈ m.dispatched
    · obtain ⟨before, during, first, hEvents, hFirst, hDuring, hLess⟩ := ih ref hOld
      refine ⟨before, during ++ [event], first, ?_, hFirst, hDuring.next hLeaves hStep, ?_⟩
      · rw [hEvents, List.append_assoc]
      · rw [hSent, List.count_append]
        omega
    · refine ⟨events, [event], m, rfl, hBefore, (Run.start m).next hLeaves hStep, ?_⟩
      have hPositive := List.count_pos_iff.mpr (hNew ref hRef hOld)
      rw [hSent, List.count_append]
      omega

/-- In every run: what a sweep sends is due; a ref is sent at most once while it stays deferred; and
after a listener has run, what is due has been sent since it was last not deferred. -/
theorem sent_when_due_and_once {events : List DeferredPruneEvent} (hRun : Run step (fun _ _ => True) {} events s) :
    (∀ event s', s.step event = some s' → ∃ calls, s'.dispatches = s.dispatches ++ calls ∧
      ∀ call ∈ calls, ∀ ref ∈ call.2, s'.Due call.1 ref) ∧
    (∀ ref during s', Run step (LeavesDeferred ref) s during s' → s'.sent.count ref ≤ s.sent.count ref + 1) ∧
    (∀ event s', s.step event = some s' → s.runsListener event = true →
      ∀ remote ref, s'.Due remote ref → TriedIn (events ++ [event]) s' ref) := by
  have hKept := kept_run hRun
  refine ⟨fun event s' hStep => ?_, fun ref during s' hDuring => ?_, fun event s' hStep hListens remote ref hDue => ?_⟩
  · have hSwept := listens_of_step hKept hStep
    generalize s.runsListener event = listened at hSwept
    cases hSwept with
    | quiet _ hTable hTried hSent => exact ⟨[], by rw [hSent, List.append_nil], by simp⟩
    | sweeps m hSlices hTried hSent =>
      obtain ⟨calls, hSweep, hCalls, -, -⟩ := exists_sweep hSlices
      rw [hSweep]
      refine ⟨calls, ?_, fun call hCall ref hRef => due_dispatch.mpr (hCalls call hCall ref hRef).1⟩
      rw [dispatch, hSent]
  · have hOnce : s'.Kept ∧ s'.SentOnce ref (s.sent.count ref) := by
      refine hDuring.invariant (P := fun m => m.Kept ∧ m.SentOnce ref (s.sent.count ref)) ⟨hKept, .inl rfl⟩ ?_
      intro m event m' ⟨hBefore, hSent⟩ hLeaves hStep
      have hListens := listens_of_step hBefore hStep
      exact ⟨hBefore.listens hListens, hSent.listens hListens (hLeaves m' hStep)⟩
    rcases hOnce.2 with hNone | ⟨hOne, -⟩
    · omega
    · omega
  · have hRun' : Run step (fun _ _ => True) {} (events ++ [event]) s' := hRun.next trivial hStep
    refine triedIn_of_run hRun' ref ?_
    have hSwept := listens_of_step hKept hStep
    rw [hListens] at hSwept
    cases hSwept with
    | sweeps m hSlices hTried hSent =>
      obtain ⟨calls, hSweep, -, -, hAll⟩ := exists_sweep hSlices
      rw [hSweep] at hDue ⊢
      exact hAll remote ref (due_dispatch.mp hDue)

def originMine : RefInfo where
  fullName := utf16 "refs/remotes/origin/mine"
  shortName := utf16 "origin/mine"
  kind := .remoteBranch

/-- A fetch finds `origin/mine` gone while the local branch is there. -/
def deferMine : List DeferredPruneEvent :=
  [.publishRefs
      ⟨[{ fullName := utf16 "refs/heads/mine", shortName := utf16 "mine", kind := .localBranch }, originMine]⟩,
    .previewReady (utf16 "origin") [utf16 "origin/mine"] true]

theorem sent_when_due_and_once_mine : ∃ s s', deferMine.foldlM step {} = some s ∧ s.dispatches = [] ∧
    s.step (.publishRefs ⟨[originMine]⟩) = some s' ∧ s'.dispatches = [(utf16 "origin", [originMine.fullName])] ∧
    TriedIn (deferMine ++ [.publishRefs ⟨[originMine]⟩]) s' originMine.fullName := by
  have h (s : DeferredPrunes) (hs : deferMine.foldlM step {} = some s) :
      Run step (fun _ _ => True) {} deferMine s := .of_foldlM hs
  refine ⟨_, _, rfl, by decide, rfl, by decide, ?_⟩
  refine (sent_when_due_and_once (h _ rfl)).2.2 (.publishRefs ⟨[originMine]⟩) _ rfl rfl (utf16 "origin") _ ?_
  exact ⟨⟨_, rfl, by decide⟩, ⟨_, rfl, by decide⟩, by decide, by decide, by decide⟩

end DeferredPrunes

end GitBranchManager
